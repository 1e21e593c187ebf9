import Wiring.Model.Basic

/-!
The graph of one injector: nodes in the order of their construction, and the expressions that make
or read their values. A draft becomes a graph by one pass over its nodes, if these are in order.
-/

set_option autoImplicit false

namespace Wiring

inductive Binding where
  | factory (specification : SpecificationId) (name : String) (kind : FactoryKind) (mode : Mode)
  | auto (type : TypeName) (constructor : Option String) (mode : Mode) (properties : List String)
  | external (interface : InterfaceId)
  | inherited
  deriving DecidableEq, Repr

namespace Binding

def mode : Binding → Option Mode
  | .factory _ _ _ m | .auto _ _ m _ => some m
  | .external _ | .inherited => none

def isScoped (b : Binding) : Bool := b.mode = some .scoped

def isConstructed (b : Binding) : Bool := b.mode.isSome

end Binding

structure Node where
  key : Key
  binding : Binding
  dependencies : List Nat
  location : Option Location
  deriving DecidableEq, Repr

/-- A value that has been made, or whose making is written elsewhere. -/
inductive Use where
  | scoped (slot : Nat)
  | recurrent (node : Nat)
  | external (key : Key)
  | inherited (key : Key)
  deriving DecidableEq, Repr

/-- How a value is obtained. Calls may be nested here, though freezing a draft nests none. -/
inductive Expr where
  | invoke (node : Nat) (args : List Expr)
  | use (value : Use)
  deriving Repr

namespace Expr

mutual

def decEq : (e e' : Expr) → Decidable (e = e')
  | .invoke i as, .invoke j bs =>
    have := decEqAll as bs
    decidable_of_iff (i = j ∧ as = bs) (by rw [Expr.invoke.injEq])
  | .use u, .use v => decidable_of_iff (u = v) (by rw [Expr.use.injEq])
  | .invoke _ _, .use _ | .use _, .invoke _ _ => isFalse nofun

def decEqAll : (es es' : List Expr) → Decidable (es = es')
  | [], [] => isTrue rfl
  | e :: es, e' :: es' =>
    have := decEq e e'
    have := decEqAll es es'
    decidable_of_iff (e = e' ∧ es = es') (by rw [List.cons.injEq])
  | [], _ :: _ | _ :: _, [] => isFalse nofun

end

instance : DecidableEq Expr := decEq

end Expr

structure ProviderImpl where
  method : String
  key : Key
  node : Nat
  expr : Expr
  deriving DecidableEq, Repr

inductive BuilderBinding where
  | explicit (specification : SpecificationId) (name : String)
  | auto (properties : List String)
  deriving DecidableEq, Repr

structure BuilderImpl where
  method : String
  key : Key
  builder : BuilderBinding
  args : List Expr
  deriving DecidableEq, Repr

structure ChildImpl where
  method : String
  child : InjectorId
  args : List (Key × Expr)
  deriving DecidableEq, Repr

/-- The storage of a scoped node, and the only place where it is made. -/
structure ScopedSlot where
  slot : Nat
  node : Nat
  init : Expr
  deriving DecidableEq, Repr

structure Graph where
  injector : InjectorId
  nodes : List Node
  keys : Table Key Nat
  providers : List ProviderImpl
  builders : List BuilderImpl
  children : List ChildImpl
  slots : List ScopedSlot
  recipes : Table Nat Expr
  exports : Table Key Nat
  deriving DecidableEq

namespace Graph

def node? (g : Graph) (i : Nat) : Option Node := g.nodes[i]?

def nodeFor? (g : Graph) (k : Key) : Option Node := (g.keys.get? k).bind g.node?

def slotFor? (g : Graph) (node : Nat) : Option Nat :=
  (g.slots.find? (·.node = node)).map (·.slot)

def constructed (g : Graph) : List Nat :=
  (List.range g.nodes.length).filter fun i =>
    ((g.node? i).map fun n => n.binding.isConstructed).getD false

end Graph

structure DraftBuilder where
  method : String
  key : Key
  builder : BuilderBinding
  args : List Nat
  deriving DecidableEq, Repr

structure DraftChild where
  method : String
  child : InjectorId
  args : List (Key × Nat)
  deriving DecidableEq, Repr

/-- What a graph is made from: nodes, and the places where their values are wanted. -/
structure Draft where
  nodes : List Node
  keys : Table Key Nat
  providers : List (String × Key × Nat)
  builders : List DraftBuilder
  children : List DraftChild
  exports : Table Key Nat
  deriving DecidableEq

structure Expressions where
  uses : List Expr
  slots : List ScopedSlot
  recipes : Table Nat Expr
  deriving DecidableEq

namespace Expressions

def none : Expressions := ⟨[], [], .empty⟩

def use? (es : Expressions) (i : Nat) : Option Expr := es.uses[i]?

/-- A scoped node is made in a slot of its own and a recurrent one in a recipe; everything else is
only passed on. A node cannot be made from one that has not come by. -/
def add (es : Expressions) (n : Node) : Option Expressions :=
  let i := es.uses.length
  match n.binding with
  | .external _ => some { es with uses := es.uses ++ [.use (.external n.key)] }
  | .inherited => some { es with uses := es.uses ++ [.use (.inherited n.key)] }
  | .factory _ _ _ m | .auto _ _ m _ => do
    let made := Expr.invoke i (← n.dependencies.mapM es.use?)
    match m with
    | .scoped =>
      some { es with
        uses := es.uses ++ [.use (.scoped es.slots.length)]
        slots := es.slots ++ [⟨es.slots.length, i, made⟩] }
    | .recurrent =>
      some { es with
        uses := es.uses ++ [.use (.recurrent i)]
        recipes := es.recipes.insert i made }

def ofNodes (ns : List Node) : Option Expressions := ns.foldlM add none

/-- A root spells out the making of a recurrent value. -/
def root? (es : Expressions) (i : Nat) : Option Expr := es.recipes.get? i <|> es.use? i

theorem length_uses_add {es es' : Expressions} {n : Node} (h : es.add n = some es') :
    es'.uses.length = es.uses.length + 1 := by
  unfold add at h
  split at h
  · cases h; simp
  · cases h; simp
  all_goals
    simp only [Option.bind_eq_bind, Option.bind_eq_some_iff] at h
    obtain ⟨args, _, h⟩ := h
    split at h <;> cases h <;> simp

end Expressions

namespace Draft

def freezeProvider (es : Expressions) : String × Key × Nat → Option ProviderImpl
  | (method, key, node) => (es.root? node).map (⟨method, key, node, ·⟩)

def freezeBuilder (es : Expressions) (b : DraftBuilder) : Option BuilderImpl :=
  (b.args.mapM es.root?).map (⟨b.method, b.key, b.builder, ·⟩)

def freezeChild (es : Expressions) (c : DraftChild) : Option ChildImpl :=
  (c.args.mapM fun (e : Key × Nat) => (es.root? e.2).map (e.1, ·)).map (⟨c.method, c.child, ·⟩)

/-- There is no graph if an expression names a node that is not there, or not there yet. -/
def freeze (d : Draft) (injector : InjectorId) : Option Graph := do
  let es ← Expressions.ofNodes d.nodes
  some {
    injector
    nodes := d.nodes
    keys := d.keys
    providers := ← d.providers.mapM (freezeProvider es)
    builders := ← d.builders.mapM (freezeBuilder es)
    children := ← d.children.mapM (freezeChild es)
    slots := es.slots
    recipes := es.recipes
    exports := d.exports }

end Draft

end Wiring
