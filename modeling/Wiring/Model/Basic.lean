import Wiring.Key

/-!
The declarations of a closed world: injectors, the specifications they draw bindings from, the
interfaces through which values enter, and what is known about types. Nothing here is checked; see
`Catalog`.
-/

set_option autoImplicit false

namespace Wiring

inductive Mode where
  | scoped
  | recurrent
  deriving DecidableEq, Repr

inductive FactoryKind where
  | method
  | property
  | reference
  deriving DecidableEq, Repr

/-- Whether a factory may take the place of others for its key. -/
inductive Override where
  | none
  | replace
  deriving DecidableEq, Repr

structure Factory where
  name : String
  kind : FactoryKind := .method
  provides : Key
  mode : Mode := .recurrent
  parameters : List Key := []
  policy : Override := .none
  location : Option Location := none
  deriving DecidableEq, Repr

structure Builder where
  name : String
  target : Key
  parameters : List Key := []
  location : Option Location := none
  deriving DecidableEq, Repr

/-- A declared link matches its target only; an inheriting one matches every qualifier of the
target's type and carries it over to the source. -/
inductive Mapping where
  | declared
  | inherit
  deriving DecidableEq, Repr

/-- Requests for the target are answered with the binding of the source. -/
structure Link where
  target : Key
  source : Key
  mapping : Mapping := .declared
  location : Option Location := none
  deriving DecidableEq, Repr

def Link.next (l : Link) (current : Key) : Key :=
  match l.mapping with
  | .declared => l.source
  | .inherit => l.source.requalify current.qualifier

structure Specification where
  id : SpecificationId
  includes : List SpecificationId := []
  factories : List Factory := []
  builders : List Builder := []
  links : List Link := []
  location : Option Location := none
  deriving DecidableEq, Repr

/-- Keys an injector expects from outside. -/
structure Interface where
  id : InterfaceId
  keys : List Key := []
  location : Option Location := none
  deriving DecidableEq, Repr

structure Constructor where
  name : Option String := none
  parameters : List Key := []
  implicit : Bool := false
  mode : Mode := .recurrent
  deriving DecidableEq, Repr

structure Property where
  name : String
  key : Key
  required : Bool := false
  deriving DecidableEq, Repr

structure TypeInfo where
  name : TypeName
  supertypes : List TypeName := []
  constructors : List Constructor := []
  properties : List Property := []
  location : Option Location := none
  deriving DecidableEq, Repr

def TypeInfo.required (t : TypeInfo) : List Property := t.properties.filter (·.required)

def TypeInfo.implicits (t : TypeInfo) : List Constructor := t.constructors.filter (·.implicit)

structure ProviderMethod where
  name : String
  key : Key
  location : Option Location := none
  deriving DecidableEq, Repr

structure BuilderMethod where
  name : String
  key : Key
  location : Option Location := none
  deriving DecidableEq, Repr

structure ChildAccessor where
  name : String
  injector : InjectorId
  location : Option Location := none
  deriving DecidableEq, Repr

structure Injector where
  id : InjectorId
  specifications : List SpecificationId := []
  dependencies : List InterfaceId := []
  providers : List ProviderMethod := []
  builders : List BuilderMethod := []
  children : List ChildAccessor := []
  location : Option Location := none
  deriving DecidableEq, Repr

structure Model where
  injectors : List Injector := []
  specifications : List Specification := []
  interfaces : List Interface := []
  types : List TypeInfo := []
  deriving DecidableEq, Repr

end Wiring
