import Wiring.Catalog.Basic
import Wiring.Registry

/-!
Where the value for a key comes from: a factory, an interface, or, along links, whatever another key
has; and an implicit constructor if nothing is declared.
-/

set_option autoImplicit false

namespace Wiring

structure AliasChain where
  aliases : List Key
  current : Key
  visited : List Key
  deriving DecidableEq, Repr

namespace AliasChain

def start (k : Key) : AliasChain := ⟨[], k, [k]⟩

/-- Follows a link from the current key. The linked type must be assignable as far as it is known,
and no key is entered twice. -/
def follow (ch : AliasChain) (c : Catalog) (l : Link) : Except BindingError AliasChain :=
  let next := l.next ch.current
  if c.isAssignable next.type ch.current.type = some false then
    .error (.invalidLink ch.current (.typeMismatch ch.current.type next.type) l.location)
  else if ch.visited.contains next then
    let chain := ch.aliases ++ [ch.current, next]
    .error (.invalidLink (chain.head?.getD next) (.cycle chain) l.location)
  else .ok ⟨ch.aliases ++ [ch.current], next, next :: ch.visited⟩

end AliasChain

inductive Provider where
  | factory (declared : Declared Factory)
  | auto (type : TypeInfo) (constructor : Constructor)
  | external (interface : InterfaceId)
  deriving DecidableEq, Repr

namespace Provider

/-- What the provider needs: a constructor's parameters come before the required properties. -/
def dependencies : Provider → List Key
  | .factory d => d.value.parameters
  | .auto t c => c.parameters ++ t.required.map (·.key)
  | .external _ => []

def mode : Provider → Option Mode
  | .factory d => some d.value.mode
  | .auto _ c => some c.mode
  | .external _ => none

def location : Provider → Option Location
  | .factory d => d.value.location
  | .auto t _ => t.location
  | .external _ => none

end Provider

def Constructor.display (c : Constructor) (type : TypeName) : String :=
  type ++ "::" ++ c.name.getD "new"

/-- The provider of a request, found for `key` after passing the aliases in `via`. -/
structure Resolved where
  key : Key
  via : List Key
  provider : Provider
  deriving DecidableEq, Repr

inductive Completion where
  | explicit (declared : Declared Builder)
  | auto (type : TypeInfo)
  deriving DecidableEq, Repr

namespace Completion

def dependencies : Completion → List Key
  | .explicit d => d.value.parameters
  | .auto t => t.required.map (·.key)

def location : Completion → Option Location
  | .explicit d => d.value.location
  | .auto t => t.location

end Completion

structure Lookup where
  catalog : Catalog
  registry : Registry
  autoBinding : Bool
  deriving DecidableEq

namespace Lookup

inductive Finding where
  | provider (p : Provider)
  | link (l : Link)
  | error (e : BindingError)
  deriving DecidableEq, Repr

/-- The type that an unqualified key names; a qualifier always asks for a declared binding. -/
def plainType? (l : Lookup) (k : Key) : Option TypeInfo :=
  if k.qualifier = none then l.catalog.types.get? k.type else none

def implicit? (l : Lookup) (k : Key) : Finding :=
  match l.plainType? k with
  | none => .error (.missing k)
  | some t =>
    match t.implicits with
    | [] => .error (.missing k)
    | [c] => .provider (.auto t c)
    | cs => .error (.duplicate k (cs.map (·.display t.name)) t.location)

def find (l : Lookup) (k : Key) : Finding :=
  match l.registry.factory? k with
  | some d => .provider (.factory d)
  | none =>
    match l.registry.external? k with
    | some i => .provider (.external i)
    | none =>
      match l.registry.link? k with
      | some d => .link d.value
      | none => if l.autoBinding then l.implicit? k else .error (.missing k)

def resolveFrom (l : Lookup) : Nat → AliasChain → Except BindingError Resolved
  | 0, ch => .error (.missing ch.current)
  | steps + 1, ch =>
    match l.find ch.current with
    | .provider p => .ok ⟨ch.current, ch.aliases, p⟩
    | .error e => .error e
    | .link d =>
      match ch.follow l.catalog d with
      | .ok ch => l.resolveFrom steps ch
      | .error e => .error e

/-- A declared link leads to one key. An inheriting one leads to one key for each qualifier, and
qualifiers only come from declared links and from the request. -/
def linkBound (r : Registry) : Nat :=
  r.links.entries.length + r.inheriting.entries.length * (r.links.entries.length + 1)

def resolve (l : Lookup) (k : Key) : Except BindingError Resolved :=
  l.resolveFrom (linkBound l.registry + 1) (.start k)

/-- How instances for a key are completed: as declared, or by setting the required properties. -/
def completion (l : Lookup) (k : Key) : Except BindingError Completion :=
  match l.registry.builder? k with
  | some d => .ok (.explicit d)
  | none =>
    match if l.autoBinding then l.plainType? k else none with
    | some t => if t.required = [] then .error (.missing k) else .ok (.auto t)
    | none => .error (.missing k)

end Lookup

end Wiring
