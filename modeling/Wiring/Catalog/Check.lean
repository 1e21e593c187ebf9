import Wiring.Catalog.Basic
import Wiring.Catalog.Defect

/-!
The catalog of a model, after the checks that everything later relies on: ids are unique, names are
not empty, references lead somewhere, and no injector is its own descendant. The first defect is
reported.
-/

set_option autoImplicit false

namespace Wiring

structure KeyUse where
  key : Key
  owner : Owner
  location : Option Location
  deriving DecidableEq, Repr

def KeyUse.defect? (u : KeyUse) : Option Defect :=
  if u.key.type = "" then some (.emptyTypeName u.owner u.location)
  else if u.key.qualifier.map Qualifier.text = some "" then
    some (.emptyQualifier u.owner u.location)
  else none

def Specification.keyUses (s : Specification) : List KeyUse :=
  (s.factories.flatMap fun f =>
    (f.provides :: f.parameters).map (⟨·, .factory f.name s.id, f.location⟩)) ++
  (s.builders.flatMap fun b =>
    (b.target :: b.parameters).map (⟨·, .builder b.name s.id, b.location⟩)) ++
  (s.links.flatMap fun l => [l.target, l.source].map (⟨·, .link s.id, l.location⟩))

def Interface.keyUses (i : Interface) : List KeyUse :=
  i.keys.map (⟨·, .interface i.id, i.location⟩)

def TypeInfo.keyUses (t : TypeInfo) : List KeyUse :=
  ((t.name :: t.supertypes).map (Key.mk · none) ++ t.constructors.flatMap Constructor.parameters ++
    t.properties.map Property.key).map (⟨·, .type t.name, t.location⟩)

def Injector.keyUses (i : Injector) : List KeyUse :=
  (i.providers.map fun p => ⟨p.key, .provider p.name i.id, p.location⟩) ++
  (i.builders.map fun b => ⟨b.key, .builderMethod b.name i.id, b.location⟩)

def Model.keyUses (m : Model) : List KeyUse :=
  m.specifications.flatMap Specification.keyUses ++ m.interfaces.flatMap Interface.keyUses ++
    m.types.flatMap TypeInfo.keyUses ++ m.injectors.flatMap Injector.keyUses

inductive Reference where
  | specification (owner : Owner) (id : SpecificationId)
  | interface (injector : InjectorId) (id : InterfaceId)
  | child (injector : InjectorId) (accessor : ChildAccessor)
  deriving DecidableEq, Repr

def Specification.references (s : Specification) : List Reference :=
  s.includes.map (.specification (.specification s.id))

def Injector.references (i : Injector) : List Reference :=
  i.specifications.map (.specification (.injector i.id)) ++ i.dependencies.map (.interface i.id) ++
    i.children.map (.child i.id)

namespace Catalog

def references (c : Catalog) : List Reference :=
  c.specifications.values.flatMap Specification.references ++
    c.injectors.values.flatMap Injector.references

def danglingDefect? (c : Catalog) : Reference → Option Defect
  | .specification owner id =>
    if c.specifications.contains id then none else some (.unknownSpecification owner id)
  | .interface injector id =>
    if c.interfaces.contains id then none else some (.unknownInterface injector id)
  | .child injector a =>
    if c.injectors.contains a.injector then none
    else some (.unknownInjector injector a.name a.injector)

def childrenOf (c : Catalog) (id : InjectorId) : List InjectorId :=
  ((c.injectors.get? id).map fun i => i.children.map (·.injector)).getD []

/-- Visits an injector and all that it holds, unless it is on the way to itself or has been visited.
The way down never repeats an injector, so their number bounds its length. -/
def visitDown (c : Catalog) : Nat → List InjectorId → List InjectorId → InjectorId →
    Except (List InjectorId) (List InjectorId)
  | 0, _, done, _ => .ok done
  | depth + 1, way, done, id =>
    if done.contains id then .ok done
    else if way.contains id then .error (way.dropWhile (· != id) ++ [id])
    else do
      let done ← (c.childrenOf id).foldlM (c.visitDown depth (way ++ [id])) done
      .ok (id :: done)

def hierarchyCycle? (c : Catalog) : Option (List InjectorId) :=
  match c.injectors.keys.foldlM (c.visitDown (c.injectors.entries.length + 1) []) [] with
  | .ok _ => none
  | .error chain => some chain

end Catalog

def index {α : Type} (kind : RecordKind) (idOf : α → String) (items : List α) :
    Except Defect (Table String α) :=
  items.foldlM (fun t a =>
    if t.contains (idOf a) then .error (.duplicateId kind (idOf a)) else .ok (t.insert (idOf a) a))
    .empty

def failWith : Option Defect → Except Defect Unit
  | some d => .error d
  | none => .ok ()

def Catalog.ofModel (m : Model) : Except Defect Catalog := do
  let c : Catalog := {
    injectors := ← index .injector (·.id) m.injectors
    specifications := ← index .specification (·.id) m.specifications
    interfaces := ← index .interface (·.id) m.interfaces
    types := ← index .type (·.name) m.types }
  failWith (m.keyUses.findSome? KeyUse.defect?)
  failWith (c.references.findSome? c.danglingDefect?)
  failWith (c.hierarchyCycle?.map .hierarchyCycle)
  .ok c

end Wiring
