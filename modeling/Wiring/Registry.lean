import Wiring.Diagnostic

/-!
The bindings that an injector's specifications contribute, found by key. Two declarations for one
key are a conflict, unless one factory alone is declared to replace the others.
-/

set_option autoImplicit false

namespace Wiring

structure Declared (α : Type) where
  specification : SpecificationId
  value : α
  deriving DecidableEq, Repr

namespace Declared

def all {α : Type} (declarations : Specification → List α) (ss : List Specification) :
    List (Declared α) :=
  ss.flatMap fun s => (declarations s).map (⟨s.id, ·⟩)

def describeFactory (d : Declared Factory) : String × Option Location :=
  (d.specification ++ "::" ++ d.value.name, d.value.location)

def describeBuilder (d : Declared Builder) : String × Option Location :=
  (d.specification ++ "::" ++ d.value.name, d.value.location)

def describeLink (d : Declared Link) : String × Option Location :=
  (d.specification ++ "::link(" ++ d.value.target.display ++ " => " ++ d.value.source.display ++
    ")",
    d.value.location)

end Declared

def Interface.describe (i : Interface) : String × Option Location :=
  ("interface '" ++ i.id ++ "'", i.location)

/-- A conflict is located at the first candidate that clashes with an earlier one and has a place.
-/
def conflict (key : Key) (candidates : List (String × Option Location)) : BindingError :=
  .duplicate key (candidates.map (·.1)) ((candidates.drop 1).findSome? (·.2))

def only? {α : Type} : List α → Option α
  | [a] => some a
  | _ => none

def pickFactory? (ds : List (Declared Factory)) : Option (Declared Factory) :=
  only? ds <|> only? (ds.filter (·.value.policy = .replace))

structure Registry where
  factories : Table Key (Declared Factory)
  builders : Table Key (Declared Builder)
  links : Table Key (Declared Link)
  inheriting : Table TypeName (Declared Link)
  externals : Table Key InterfaceId
  deriving DecidableEq

structure Candidates where
  factories : Table Key (List (Declared Factory))
  builders : Table Key (List (Declared Builder))
  links : Table Key (List (Declared Link))
  inheriting : Table TypeName (List (Declared Link))

namespace Candidates

def ofSpecifications (ss : List Specification) : Candidates :=
  let links := Declared.all (·.links) ss
  { factories := .group ((Declared.all (·.factories) ss).map fun d => (d.value.provides, d))
    builders := .group ((Declared.all (·.builders) ss).map fun d => (d.value.target, d))
    links := .group ((links.filter (·.value.mapping = .declared)).map fun d => (d.value.target, d))
    inheriting :=
      .group ((links.filter (·.value.mapping = .inherit)).map fun d => (d.value.target.type, d)) }

/-- The bindings without rivals, and the first interface for each key. -/
def registry (c : Candidates) (is : List Interface) : Registry where
  factories := c.factories.filterMap fun _ => pickFactory?
  builders := c.builders.filterMap fun _ => only?
  links := c.links.filterMap fun _ => only?
  inheriting := c.inheriting.filterMap fun _ => only?
  externals :=
    (is.flatMap fun i => i.keys.map (·, i.id)).foldl (fun t e => t.insertNew e.1 e.2) .empty

def conflictsIn {κ α : Type} [Ord κ] (groups : Table κ (List α)) (pick : List α → Option α)
    (key : κ → List α → Key) (describe : α → String × Option Location) : List BindingError :=
  groups.entries.filterMap fun (k, ds) =>
    match pick ds with
    | some _ => none
    | none => some (conflict (key k ds) (ds.map describe))

/-- The target of the first link stands for all links of its type. -/
def linkKey (type : TypeName) (ds : List (Declared Link)) : Key :=
  (ds.head?.map (·.value.target)).getD { type }

def conflicts (c : Candidates) : List BindingError :=
  conflictsIn c.factories pickFactory? (fun k _ => k) Declared.describeFactory ++
    conflictsIn c.builders only? (fun k _ => k) Declared.describeBuilder ++
    conflictsIn c.links only? (fun k _ => k) Declared.describeLink ++
    conflictsIn c.inheriting only? linkKey Declared.describeLink

end Candidates

namespace Registry

def clashes (r : Registry) (is : List Interface) : List BindingError :=
  is.flatMap fun i => i.keys.filterMap fun k =>
    (r.factories.get? k).map fun d => conflict k [d.describeFactory, i.describe]

def register (ss : List Specification)
    (is : List Interface) : Except (List BindingError) Registry :=
  let c := Candidates.ofSpecifications ss
  let r := c.registry is
  match c.conflicts ++ r.clashes is with
  | [] => .ok r
  | es => .error es

def factory? (r : Registry) (k : Key) : Option (Declared Factory) := r.factories.get? k

def external? (r : Registry) (k : Key) : Option InterfaceId := r.externals.get? k

/-- A link for exactly this key comes before one for its type. -/
def link? (r : Registry) (k : Key) : Option (Declared Link) :=
  r.links.get? k <|> r.inheriting.get? k.type

def builder? (r : Registry) (k : Key) : Option (Declared Builder) := r.builders.get? k

end Registry

end Wiring
