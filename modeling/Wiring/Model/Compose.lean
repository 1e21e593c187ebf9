import Wiring.Model.Basic

set_option autoImplicit false

namespace Wiring

namespace Factory

def ofKey (name : String) (key : Key) : Factory := { name, provides := key }

def withKind (f : Factory) (kind : FactoryKind) : Factory := { f with kind }

def inScope (f : Factory) : Factory := { f with mode := .scoped }

def parameter (f : Factory) (key : Key) : Factory := { f with parameters := f.parameters ++ [key] }

def replacing (f : Factory) : Factory := { f with policy := .replace }

def atPlace (f : Factory) (location : Location) : Factory := { f with location := some location }

end Factory

namespace Builder

def ofKey (name : String) (key : Key) : Builder := { name, target := key }

def parameter (b : Builder) (key : Key) : Builder := { b with parameters := b.parameters ++ [key] }

end Builder

namespace Link

def between (target source : Key) : Link := { target, source }

def inheritQualifier (l : Link) : Link := { l with mapping := .inherit }

def atPlace (l : Link) (location : Location) : Link := { l with location := some location }

end Link

namespace Specification

def named (id : SpecificationId) : Specification := { id }

def including (s : Specification) (id : SpecificationId) : Specification :=
  { s with includes := s.includes ++ [id] }

def factory (s : Specification) (f : Factory) : Specification :=
  { s with factories := s.factories ++ [f] }

def builder (s : Specification) (b : Builder) : Specification :=
  { s with builders := s.builders ++ [b] }

def link (s : Specification) (l : Link) : Specification := { s with links := s.links ++ [l] }

end Specification

namespace Interface

def named (id : InterfaceId) : Interface := { id }

def key (i : Interface) (k : Key) : Interface := { i with keys := i.keys ++ [k] }

end Interface

namespace Constructor

def automatic : Constructor := { implicit := true }

def explicit : Constructor := { implicit := false }

def named (c : Constructor) (name : String) : Constructor := { c with name := some name }

def inScope (c : Constructor) : Constructor := { c with mode := .scoped }

def parameter (c : Constructor) (key : Key) : Constructor :=
  { c with parameters := c.parameters ++ [key] }

end Constructor

namespace TypeInfo

def named (name : TypeName) : TypeInfo := { name }

def supertype (t : TypeInfo) (name : TypeName) : TypeInfo :=
  { t with supertypes := t.supertypes ++ [name] }

def withConstructor (t : TypeInfo) (c : Constructor) : TypeInfo :=
  { t with constructors := t.constructors ++ [c] }

def property (t : TypeInfo) (name : String) (key : Key) (required : Bool) : TypeInfo :=
  { t with properties := t.properties ++ [{ name, key, required }] }

end TypeInfo

namespace Injector

def named (id : InjectorId) : Injector := { id }

def specification (i : Injector) (id : SpecificationId) : Injector :=
  { i with specifications := i.specifications ++ [id] }

def dependency (i : Injector) (id : InterfaceId) : Injector :=
  { i with dependencies := i.dependencies ++ [id] }

def provider (i : Injector) (name : String) (key : Key) : Injector :=
  { i with providers := i.providers ++ [{ name, key }] }

def builder (i : Injector) (name : String) (key : Key) : Injector :=
  { i with builders := i.builders ++ [{ name, key }] }

def child (i : Injector) (name : String) (injector : InjectorId) : Injector :=
  { i with children := i.children ++ [{ name, injector, location := some (i.id ++ "::" ++ name) }] }

end Injector

namespace Model

def addInjector (m : Model) (i : Injector) : Model := { m with injectors := m.injectors ++ [i] }

def addSpecification (m : Model) (s : Specification) : Model :=
  { m with specifications := m.specifications ++ [s] }

def addInterface (m : Model) (i : Interface) : Model := { m with interfaces := m.interfaces ++ [i] }

def addType (m : Model) (t : TypeInfo) : Model := { m with types := m.types ++ [t] }

end Model

end Wiring
