import Wiring.Model.Basic

set_option autoImplicit false

namespace Wiring

structure Catalog where
  injectors : Table InjectorId Injector
  specifications : Table SpecificationId Specification
  interfaces : Table InterfaceId Interface
  types : Table TypeName TypeInfo
  deriving DecidableEq

namespace Catalog

/-- The injectors that hold an accessor to `child`, in the order of their ids, one for each
accessor. -/
def parents (c : Catalog) (child : InjectorId) : List (InjectorId × ChildAccessor) :=
  c.injectors.values.flatMap fun i =>
    (i.children.filter (·.injector = child)).map fun a => (i.id, a)

/-- The specifications reached from a list of pending ones, depth first and in the order of their
declaration. A step takes one pending id and adds the includes of a new specification. -/
def closureFrom (c : Catalog) : Nat → List SpecificationId → List Specification → List Specification
  | 0, _, reached => reached
  | _ + 1, [], reached => reached
  | steps + 1, id :: pending, reached =>
    match c.specifications.get? id with
    | none => c.closureFrom steps pending reached
    | some s =>
      if reached.any (·.id == s.id) then c.closureFrom steps pending reached
      else c.closureFrom steps (s.includes ++ pending) (reached ++ [s])

/-- Every include is pending at most once for each specification, which bounds the steps. -/
def includeCount (c : Catalog) : Nat := (c.specifications.values.flatMap (·.includes)).length

def specificationClosure (c : Catalog) (i : Injector) : List Specification :=
  c.closureFrom (i.specifications.length + c.includeCount) i.specifications []

def interfacesOf (c : Catalog) (i : Injector) : List Interface :=
  i.dependencies.filterMap c.interfaces.get?

def reaches (c : Catalog) (target : TypeName) : Nat → List TypeName → List TypeName → Bool
  | 0, _, _ => false
  | _ + 1, [], _ => false
  | steps + 1, t :: pending, seen =>
    if t = target then true
    else if seen.contains t then c.reaches target steps pending seen
    else
      let above := ((c.types.get? t).map (·.supertypes)).getD []
      c.reaches target steps (above ++ pending) (t :: seen)

def supertypeCount (c : Catalog) : Nat := (c.types.values.flatMap (·.supertypes)).length

/-- Whether a value of one type can stand in for another; unknown if nothing is known about the
first. -/
def isAssignable (c : Catalog) (source target : TypeName) : Option Bool :=
  if source = target then some true
  else if c.types.contains source then
    some (c.reaches target (c.supertypeCount + 1) [source] [])
  else none

end Catalog

end Wiring
