import Wiring.Model.Basic

set_option autoImplicit false

namespace Wiring

inductive RecordKind where
  | injector
  | specification
  | interface
  | type
  deriving DecidableEq, Repr

def RecordKind.display : RecordKind → String
  | .injector => "Injector"
  | .specification => "Specification"
  | .interface => "Interface"
  | .type => "Type"

inductive Owner where
  | factory (name : String) (specification : SpecificationId)
  | builder (name : String) (specification : SpecificationId)
  | link (specification : SpecificationId)
  | interface (id : InterfaceId)
  | type (name : TypeName)
  | provider (name : String) (injector : InjectorId)
  | builderMethod (name : String) (injector : InjectorId)
  | specification (id : SpecificationId)
  | injector (id : InjectorId)
  deriving DecidableEq, Repr

def Owner.display : Owner → String
  | .factory n s => "factory '" ++ n ++ "' of '" ++ s ++ "'"
  | .builder n s | .builderMethod n s => "builder '" ++ n ++ "' of '" ++ s ++ "'"
  | .link s => "link in '" ++ s ++ "'"
  | .interface i => "interface '" ++ i ++ "'"
  | .type n => "type '" ++ n ++ "'"
  | .provider n i => "provider '" ++ n ++ "' of '" ++ i ++ "'"
  | .specification s => "specification '" ++ s ++ "'"
  | .injector i => "injector '" ++ i ++ "'"

inductive Defect where
  | emptyTypeName (owner : Owner) (location : Option Location)
  | emptyQualifier (owner : Owner) (location : Option Location)
  | duplicateId (kind : RecordKind) (id : String)
  | unknownSpecification (owner : Owner) (id : SpecificationId)
  | unknownInterface (injector : InjectorId) (id : InterfaceId)
  | unknownInjector (injector : InjectorId) (accessor : String) (id : InjectorId)
  | hierarchyCycle (chain : List InjectorId)
  deriving DecidableEq, Repr

def Defect.message : Defect → String
  | .emptyTypeName o _ => "A key without a type was declared by '" ++ o.display ++ "'"
  | .emptyQualifier o _ => "An empty qualifier was declared by '" ++ o.display ++ "'"
  | .duplicateId k id => k.display ++ " '" ++ id ++ "' is declared more than once"
  | .unknownSpecification o id =>
    "'" ++ o.display ++ "' references the unknown specification '" ++ id ++ "'"
  | .unknownInterface i id =>
    "Injector '" ++ i ++ "' depends on the unknown interface '" ++ id ++ "'"
  | .unknownInjector i a id =>
    "Accessor '" ++ a ++ "' of '" ++ i ++ "' yields the unknown injector '" ++ id ++ "'"
  | .hierarchyCycle chain =>
    "The injector hierarchy is cyclic: " ++ String.intercalate " -> " chain

end Wiring
