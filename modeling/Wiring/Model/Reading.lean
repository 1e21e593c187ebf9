import Wiring.Document.Record
import Wiring.Model.Basic

set_option autoImplicit false

namespace Wiring

def Qualifier.read : Reader Qualifier :=
  Reader.tagged [("label", .label), ("attribute", .attribute)]

def Key.read : Reader Key := fun d => do
  let type : Field String := ⟨"type", Reader.string⟩
  let qualifier : Field (Option Qualifier) := ⟨"qualifier", Reader.optional Qualifier.read⟩
  let fs ← Fields.read "TypeKey" false [type.check, qualifier.check] d
  .ok {
    type := ← fs.required type
    qualifier := ← fs.withDefault qualifier none }

def Mode.read : Reader Mode := Reader.name [("scoped", .scoped), ("recurrent", .recurrent)]

def FactoryKind.read : Reader FactoryKind :=
  Reader.name [("method", .method), ("property", .property), ("reference", .reference)]

def Override.read : Reader Override := Reader.name [("none", .none), ("replace", .replace)]

def Mapping.read : Reader Mapping := Reader.name [("declared", .declared), ("inherit", .inherit)]

namespace Field

def named (n : String) : Field String := ⟨n, Reader.string⟩

def names (n : String) : Field (List String) := ⟨n, Reader.list Reader.string⟩

def key (n : String) : Field Key := ⟨n, Key.read⟩

def keys (n : String) : Field (List Key) := ⟨n, Reader.list Key.read⟩

def mode : Field Mode := ⟨"mode", Mode.read⟩

def location : Field (Option Location) := ⟨"location", Reader.optional Reader.string⟩

end Field

def Factory.read : Reader Factory := fun d => do
  let name := Field.named "name"
  let kind : Field FactoryKind := ⟨"kind", FactoryKind.read⟩
  let provides := Field.key "provides"
  let parameters := Field.keys "parameters"
  let policy : Field Override := ⟨"override_policy", Override.read⟩
  let fs ← Fields.read "FactoryMetadata" false
    [name.check, kind.check, provides.check, Field.mode.check, parameters.check, policy.check,
      Field.location.check] d
  .ok {
    name := ← fs.required name
    kind := ← fs.withDefault kind .method
    provides := ← fs.required provides
    mode := ← fs.withDefault .mode .recurrent
    parameters := ← fs.withDefault parameters []
    policy := ← fs.withDefault policy .none
    location := ← fs.withDefault .location none }

def Builder.read : Reader Builder := fun d => do
  let name := Field.named "name"
  let target := Field.key "target"
  let parameters := Field.keys "parameters"
  let fs ← Fields.read "BuilderMetadata" false
    [name.check, target.check, parameters.check, Field.location.check] d
  .ok {
    name := ← fs.required name
    target := ← fs.required target
    parameters := ← fs.withDefault parameters []
    location := ← fs.withDefault .location none }

def Link.read : Reader Link := fun d => do
  let target := Field.key "target"
  let source := Field.key "source"
  let mapping : Field Mapping := ⟨"qualifier", Mapping.read⟩
  let fs ← Fields.read "LinkMetadata" false
    [target.check, source.check, mapping.check, Field.location.check] d
  .ok {
    target := ← fs.required target
    source := ← fs.required source
    mapping := ← fs.withDefault mapping .declared
    location := ← fs.withDefault .location none }

def Specification.read : Reader Specification := fun d => do
  let id := Field.named "id"
  let includes := Field.names "includes"
  let factories : Field (List Factory) := ⟨"factories", Reader.list Factory.read⟩
  let builders : Field (List Builder) := ⟨"builders", Reader.list Builder.read⟩
  let links : Field (List Link) := ⟨"links", Reader.list Link.read⟩
  let fs ← Fields.read "SpecificationMetadata" false
    [id.check, includes.check, factories.check, builders.check, links.check, Field.location.check] d
  .ok {
    id := ← fs.required id
    includes := ← fs.withDefault includes []
    factories := ← fs.withDefault factories []
    builders := ← fs.withDefault builders []
    links := ← fs.withDefault links []
    location := ← fs.withDefault .location none }

def Interface.read : Reader Interface := fun d => do
  let id := Field.named "id"
  let keys := Field.keys "keys"
  let fs ← Fields.read "DependencyInterfaceMetadata" false
    [id.check, keys.check, Field.location.check] d
  .ok {
    id := ← fs.required id
    keys := ← fs.withDefault keys []
    location := ← fs.withDefault .location none }

def Constructor.read : Reader Constructor := fun d => do
  let name : Field (Option String) := ⟨"name", Reader.optional Reader.string⟩
  let parameters := Field.keys "parameters"
  let implicit : Field Bool := ⟨"implicit", Reader.bool⟩
  let fs ← Fields.read "ConstructorMetadata" false
    [name.check, parameters.check, implicit.check, Field.mode.check] d
  .ok {
    name := ← fs.withDefault name none
    parameters := ← fs.withDefault parameters []
    implicit := ← fs.withDefault implicit false
    mode := ← fs.withDefault .mode .recurrent }

def Property.read : Reader Property := fun d => do
  let name := Field.named "name"
  let key := Field.key "key"
  let required : Field Bool := ⟨"required", Reader.bool⟩
  let fs ← Fields.read "PropertyMetadata" false [name.check, key.check, required.check] d
  .ok {
    name := ← fs.required name
    key := ← fs.required key
    required := ← fs.withDefault required false }

def TypeInfo.read : Reader TypeInfo := fun d => do
  let name := Field.named "name"
  let supertypes := Field.names "supertypes"
  let constructors : Field (List Constructor) := ⟨"constructors", Reader.list Constructor.read⟩
  let properties : Field (List Property) := ⟨"properties", Reader.list Property.read⟩
  let fs ← Fields.read "TypeMetadata" false
    [name.check, supertypes.check, constructors.check, properties.check, Field.location.check] d
  .ok {
    name := ← fs.required name
    supertypes := ← fs.withDefault supertypes []
    constructors := ← fs.withDefault constructors []
    properties := ← fs.withDefault properties []
    location := ← fs.withDefault .location none }

def ProviderMethod.read : Reader ProviderMethod := fun d => do
  let name := Field.named "name"
  let key := Field.key "key"
  let fs ← Fields.read "ProviderMethod" false [name.check, key.check, Field.location.check] d
  .ok {
    name := ← fs.required name
    key := ← fs.required key
    location := ← fs.withDefault .location none }

def BuilderMethod.read : Reader BuilderMethod := fun d => do
  let name := Field.named "name"
  let key := Field.key "key"
  let fs ← Fields.read "BuilderMethod" false [name.check, key.check, Field.location.check] d
  .ok {
    name := ← fs.required name
    key := ← fs.required key
    location := ← fs.withDefault .location none }

def ChildAccessor.read : Reader ChildAccessor := fun d => do
  let name := Field.named "name"
  let injector := Field.named "injector"
  let fs ← Fields.read "ChildAccessor" false [name.check, injector.check, Field.location.check] d
  .ok {
    name := ← fs.required name
    injector := ← fs.required injector
    location := ← fs.withDefault .location none }

def Injector.read : Reader Injector := fun d => do
  let id := Field.named "id"
  let specifications := Field.names "specifications"
  let dependencies := Field.names "dependencies"
  let providers : Field (List ProviderMethod) := ⟨"providers", Reader.list ProviderMethod.read⟩
  let builders : Field (List BuilderMethod) := ⟨"builders", Reader.list BuilderMethod.read⟩
  let children : Field (List ChildAccessor) := ⟨"children", Reader.list ChildAccessor.read⟩
  let fs ← Fields.read "InjectorMetadata" false
    [id.check, specifications.check, dependencies.check, providers.check, builders.check,
      children.check, Field.location.check] d
  .ok {
    id := ← fs.required id
    specifications := ← fs.withDefault specifications []
    dependencies := ← fs.withDefault dependencies []
    providers := ← fs.withDefault providers []
    builders := ← fs.withDefault builders []
    children := ← fs.withDefault children []
    location := ← fs.withDefault .location none }

def Model.read : Reader Model := fun d => do
  let injectors : Field (List Injector) := ⟨"injectors", Reader.list Injector.read⟩
  let specifications : Field (List Specification) :=
    ⟨"specifications", Reader.list Specification.read⟩
  let interfaces : Field (List Interface) := ⟨"interfaces", Reader.list Interface.read⟩
  let types : Field (List TypeInfo) := ⟨"types", Reader.list TypeInfo.read⟩
  let fs ← Fields.read "MetadataModel" false
    [injectors.check, specifications.check, interfaces.check, types.check] d
  .ok {
    injectors := ← fs.withDefault injectors []
    specifications := ← fs.withDefault specifications []
    interfaces := ← fs.withDefault interfaces []
    types := ← fs.withDefault types [] }

end Wiring
