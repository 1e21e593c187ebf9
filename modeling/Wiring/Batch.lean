import Wiring.Cancellation
import Wiring.Catalog.Check
import Wiring.Hierarchy
import Wiring.Resolution
import Wiring.Settings.Basic

/-!
A whole model resolved at once: every injector is built on its own, then the hierarchy is settled,
then each injector ends in a graph or in diagnostics. The outcome depends on the model and the
settings only, and not on how the work is spread.
-/

set_option autoImplicit false

namespace Wiring

def SiteState.build (c : Catalog) (autoBinding : Bool) (i : Injector) : SiteState :=
  match Site.start c autoBinding i with
  | .ok s => .building s.buildLocal
  | .error ds => .failed ds

def SiteState.finish : SiteState → Option (Except (List Diagnostic) Graph)
  | .building s => s.finish
  | .failed ds => some (.error ds)

namespace Resolution

/-- All injectors finished; one that cannot be finished ends the batch without an outcome. -/
def ofSites (sites : Table InjectorId SiteState) : Option Resolution :=
  if sites.values.all (·.finish.isSome) then
    some {
      graphs := sites.filterMap fun _ s => s.finish.bind Except.toOption
      diagnostics := sites.values.flatMap fun s =>
        match s.finish with
        | some (.error ds) => ds
        | _ => []
      cancelled := [] }
  else none

def allCancelled (c : Catalog) : Resolution := ⟨.empty, [], c.injectors.keys⟩

end Resolution

namespace Catalog

def sites (c : Catalog) (autoBinding : Bool) : Table InjectorId SiteState :=
  c.injectors.filterMap fun _ i => some (.build c autoBinding i)

def resolve (c : Catalog) (autoBinding : Bool) : Option Resolution :=
  Resolution.ofSites (Hierarchy.link c (c.sites autoBinding))

end Catalog

/-- The token of a batch: the caller's, observed for as long as the settings allow. -/
def Settings.batchToken (s : Settings) (now : Instant) (t : Token) : Token :=
  match s.timeoutMs with
  | some timeout => t.within now timeout
  | none => t

namespace Model

/-- Resolves every injector. A malformed model is a defect even if the batch is cancelled. -/
def resolve (m : Model) (s : Settings) (ts : Tokens) (t : Token) (now : Instant) :
    Except Defect (Option Resolution) := do
  let c ← Catalog.ofModel m
  .ok (if ts.isCancelled now (s.batchToken now t) then some (.allCancelled c)
    else c.resolve s.autoBinding)

def resolveAlone (m : Model) (s : Settings) : Except Defect (Option Resolution) :=
  m.resolve s {} ⟨0, none⟩ 0

end Model

end Wiring
