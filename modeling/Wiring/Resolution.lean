import Wiring.Diagnostic
import Wiring.Graph

set_option autoImplicit false

namespace Wiring

structure Resolution where
  graphs : Table InjectorId Graph
  diagnostics : List Diagnostic
  cancelled : List InjectorId
  deriving DecidableEq

namespace Resolution

def graph? (r : Resolution) (id : InjectorId) : Option Graph := r.graphs.get? id

def diagnosticsFor (r : Resolution) (id : InjectorId) : List Diagnostic :=
  r.diagnostics.filter (·.injector = id)

def isComplete (r : Resolution) : Bool := r.diagnostics.isEmpty && r.cancelled.isEmpty

def failureReport? (r : Resolution) : Option String :=
  if r.diagnostics = [] then none else some (Diagnostic.report r.diagnostics)

/-- A word for each injector, where a later kind of outcome goes before an earlier one. -/
def states (r : Resolution) : Table InjectorId String :=
  .ofList (r.graphs.keys.map (·, "resolved") ++ r.diagnostics.map (·.injector, "failed") ++
    r.cancelled.map (·, "cancelled"))

def inQuotes (word : String) : String := "\"" ++ word ++ "\""

def summary (r : Resolution) : String :=
  match r.states.entries with
  | [] => "Resolution"
  | es =>
    "Resolution \x7b " ++ String.intercalate ", " (es.map fun e => e.1 ++ ": " ++ inQuotes e.2) ++
      " \x7d"

def indent (s : String) : String :=
  "    " ++ String.join (s.toList.map fun c => if c = '\n' then "\n    " else String.singleton c)

def summaryLines (r : Resolution) : String :=
  match r.states.entries with
  | [] => "Resolution"
  | es =>
    "Resolution \x7b\n" ++
      String.join (es.map fun e => indent (e.1 ++ ": " ++ inQuotes e.2 ++ ",") ++ "\n") ++ "\x7d"

end Resolution

end Wiring
