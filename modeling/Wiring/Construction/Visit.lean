import Wiring.Construction.Store
import Wiring.Lookup

/-!
Building the node of a key and of everything it depends on, dependencies first. A key is built once:
the keys linked to it share its node, and its failure is reported where it is met first.
-/

set_option autoImplicit false

namespace Wiring

/-- A failure, with the keys from the root down to it and the place of the declaration that asked.
-/
structure Report where
  error : BindingError
  trail : List Key
  asker : Option Location
  deriving DecidableEq, Repr

def Report.rootMissing (r : Report) : Bool := r.error.isMissing && r.trail.length == 1

def Report.diagnostic (r : Report) (injector : InjectorId) (requestedBy : Option Key)
    (fallback : Option Location) : Diagnostic :=
  .of injector r.error (requestedBy.toList ++ r.trail) (r.asker <|> fallback)

/-- A key that failed before fails again without a report. -/
inductive Outcome where
  | node (i : Nat)
  | failed (report : Option Report)
  deriving DecidableEq, Repr

namespace Outcome

def node? : Outcome → Option Nat
  | .node i => some i
  | .failed _ => none

def report? : Outcome → Option Report
  | .node _ => none
  | .failed r => r

end Outcome

def Provider.binding : Provider → Binding
  | .factory d => .factory d.specification d.value.name d.value.kind d.value.mode
  | .auto t c => .auto t.name c.name c.mode (t.required.map (·.name))
  | .external i => .external i

/-- The outcome for a dependency, which is visited if nothing is known about it. Meeting a key whose
construction has begun closes a cycle. -/
def depend (visit : Key → Store → Outcome × Store) (cyclic : Key → Report) (k : Key) (s : Store) :
    Outcome × Store :=
  match s.status? k with
  | some (.done i) => (.node i, s)
  | some .inProgress => (.failed (some (cyclic k)), s)
  | some .failed => (.failed none, s)
  | none => visit k s

def gather (visit : Key → Store → Outcome × Store) (cyclic : Key → Report) :
    List Key → Store → Except (Option Report) (List Nat) × Store
  | [], s => (.ok [], s)
  | k :: ks, s =>
    match depend visit cyclic k s with
    | (.failed r, s) => (.error r, s)
    | (.node i, s) =>
      match gather visit cyclic ks s with
      | (.ok is, s) => (.ok (i :: is), s)
      | (.error r, s) => (.error r, s)

namespace Lookup

/-- Builds the node of a key that nothing is known about. While a provider waits for its
dependencies its key is in progress; afterwards the key and the aliases passed on the way to it have
a node or have failed. -/
def visit (l : Lookup) : Nat → List Key → Option Location → Key → Store → Outcome × Store
  | 0, _, _, _, s => (.failed none, s)
  | depth + 1, trail, asker, k, s =>
    match l.resolve k with
    | .error e => (.failed (some ⟨e, trail ++ [k], asker⟩), s.remember k .failed)
    | .ok ⟨target, via, provider⟩ =>
      match s.status? target with
      | some (.done i) => (.node i, s.rememberAll via (.done i))
      | some .inProgress =>
        (.failed (some ⟨.cyclic target, trail ++ [k], asker⟩), s.remember k .failed)
      | some .failed => (.failed none, (s.rememberAll via .failed).remember k .failed)
      | none =>
        let s := (s.remember target .inProgress).rememberAll via .inProgress
        let trail := trail ++ [target]
        match gather (l.visit depth trail provider.location)
            (fun d => ⟨.cyclic d, trail ++ [d], provider.location⟩) provider.dependencies s with
        | (.error r, s) => (.failed r, (s.rememberAll via .failed).remember target .failed)
        | (.ok args, s) =>
          let i := s.nodes.length
          let s := s.addNode ⟨target, provider.binding, args, provider.location⟩
          (.node i, (s.rememberAll via (.done i)).remember target (.done i))

/-- Providers are found for keys with a factory, keys of interfaces and names of types. No two keys
in progress are the same, so their number bounds the depth of a visit. -/
def targetCount (l : Lookup) : Nat :=
  l.registry.factories.entries.length + l.registry.externals.entries.length +
    l.catalog.types.entries.length

def walk (l : Lookup) (root : Key) (s : Store) : Outcome × Store :=
  match s.status? root with
  | some (.done i) => (.node i, s)
  | some _ => (.failed none, s)
  | none => l.visit (l.targetCount + 1) [] none root s

end Lookup

end Wiring
