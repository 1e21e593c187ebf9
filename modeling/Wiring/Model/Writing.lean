import Wiring.Document.Basic
import Wiring.Model.Basic

set_option autoImplicit false

namespace Wiring

open Document (optional list)

def Qualifier.write : Qualifier → Document
  | .label t => .object [("label", .string t)]
  | .attribute t => .object [("attribute", .string t)]

def Key.write (k : Key) : Document :=
  .object (("type", .string k.type) ::
    match k.qualifier with
    | none => []
    | some q => [("qualifier", q.write)])

def Mode.write : Mode → Document
  | .scoped => .string "scoped"
  | .recurrent => .string "recurrent"

def FactoryKind.write : FactoryKind → Document
  | .method => .string "method"
  | .property => .string "property"
  | .reference => .string "reference"

def Override.write : Override → Document
  | .none => .string "none"
  | .replace => .string "replace"

def Mapping.write : Mapping → Document
  | .declared => .string "declared"
  | .inherit => .string "inherit"

def Factory.write (f : Factory) : Document := .object [
  ("name", .string f.name), ("kind", f.kind.write), ("provides", f.provides.write),
  ("mode", f.mode.write), ("parameters", list Key.write f.parameters),
  ("override_policy", f.policy.write), ("location", optional .string f.location)]

def Builder.write (b : Builder) : Document := .object [
  ("name", .string b.name), ("target", b.target.write), ("parameters", list Key.write b.parameters),
  ("location", optional .string b.location)]

def Link.write (l : Link) : Document := .object [
  ("target", l.target.write), ("source", l.source.write), ("qualifier", l.mapping.write),
  ("location", optional .string l.location)]

def Specification.write (s : Specification) : Document := .object [
  ("id", .string s.id), ("includes", list .string s.includes),
  ("factories", list Factory.write s.factories), ("builders", list Builder.write s.builders),
  ("links", list Link.write s.links), ("location", optional .string s.location)]

def Interface.write (i : Interface) : Document := .object [
  ("id", .string i.id), ("keys", list Key.write i.keys), ("location", optional .string i.location)]

def Constructor.write (c : Constructor) : Document := .object [
  ("name", optional .string c.name), ("parameters", list Key.write c.parameters),
  ("implicit", .bool c.implicit), ("mode", c.mode.write)]

def Property.write (p : Property) : Document := .object [
  ("name", .string p.name), ("key", p.key.write), ("required", .bool p.required)]

def TypeInfo.write (t : TypeInfo) : Document := .object [
  ("name", .string t.name), ("supertypes", list .string t.supertypes),
  ("constructors", list Constructor.write t.constructors),
  ("properties", list Property.write t.properties), ("location", optional .string t.location)]

def ProviderMethod.write (p : ProviderMethod) : Document := .object [
  ("name", .string p.name), ("key", p.key.write), ("location", optional .string p.location)]

def BuilderMethod.write (b : BuilderMethod) : Document := .object [
  ("name", .string b.name), ("key", b.key.write), ("location", optional .string b.location)]

def ChildAccessor.write (c : ChildAccessor) : Document := .object [
  ("name", .string c.name), ("injector", .string c.injector),
  ("location", optional .string c.location)]

def Injector.write (i : Injector) : Document := .object [
  ("id", .string i.id), ("specifications", list .string i.specifications),
  ("dependencies", list .string i.dependencies),
  ("providers", list ProviderMethod.write i.providers),
  ("builders", list BuilderMethod.write i.builders),
  ("children", list ChildAccessor.write i.children),
  ("location", optional .string i.location)]

def Model.write (m : Model) : Document := .object [
  ("injectors", list Injector.write m.injectors),
  ("specifications", list Specification.write m.specifications),
  ("interfaces", list Interface.write m.interfaces), ("types", list TypeInfo.write m.types)]

end Wiring
