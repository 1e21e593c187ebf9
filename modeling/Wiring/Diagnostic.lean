import Wiring.Model.Basic

set_option autoImplicit false

namespace Wiring

inductive LinkProblem where
  | cycle (chain : List Key)
  | typeMismatch (target linked : TypeName)
  deriving DecidableEq, Repr

inductive BindingError where
  | missing (key : Key)
  | duplicate (key : Key) (candidates : List String) (location : Option Location)
  | invalidLink (key : Key) (problem : LinkProblem) (location : Option Location)
  | cyclic (key : Key)
  | incomplete (parent child : InjectorId) (key : Key)
  deriving DecidableEq, Repr

def arrows (names : List String) : String := String.intercalate " -> " names

def LinkProblem.message : LinkProblem → String
  | .cycle chain => "the alias chain " ++ arrows (chain.map Key.display) ++ " loops back on itself"
  | .typeMismatch target linked => "'" ++ linked ++ "' cannot stand in for '" ++ target ++ "'"

namespace BindingError

def message : BindingError → String
  | .missing k => "No explicit, linked or implicit provider exists for '" ++ k.display ++ "'"
  | .duplicate k candidates _ =>
    "'" ++ k.display ++ "' is provided more than once: " ++ String.intercalate ", " candidates
  | .invalidLink k problem _ => "Link for '" ++ k.display ++ "' is invalid - " ++ problem.message
  | .cyclic k => "'" ++ k.display ++ "' depends on itself before its construction completes"
  | .incomplete parent child k =>
    "'" ++ k.display ++ "' required by child injector '" ++ child ++ "' is supplied neither by '" ++
      parent ++ "' nor by any of its ancestors"

def kind : BindingError → String
  | .missing _ => "missing binding"
  | .duplicate .. => "duplicate binding"
  | .invalidLink .. => "invalid link"
  | .cyclic _ => "cyclic binding"
  | .incomplete .. => "incomplete dependency interface"

def location : BindingError → Option Location
  | .duplicate _ _ l | .invalidLink _ _ l => l
  | _ => none

def isMissing : BindingError → Bool
  | .missing _ => true
  | _ => false

end BindingError

structure Diagnostic where
  injector : InjectorId
  error : BindingError
  location : Option Location
  chain : List Key
  deriving DecidableEq, Repr

namespace Diagnostic

/-- The error's own location comes before any other. -/
def of (injector : InjectorId) (error : BindingError) (chain : List Key)
    (fallback : Option Location) : Diagnostic :=
  { injector, error, location := error.location <|> fallback, chain }

def message (d : Diagnostic) : String := d.error.message

def display (d : Diagnostic) : String :=
  let place := match d.location with
    | some l => " at " ++ l
    | none => ""
  let via := if d.chain = [] then "" else " (via " ++ arrows (d.chain.map Key.display) ++ ")"
  "[" ++ d.injector ++ "] " ++ d.error.kind ++ ": " ++ d.message ++ place ++ via

def report (ds : List Diagnostic) : String :=
  String.intercalate "\n"
    ("Resolution had one or more errors:" :: ds.map fun d => "- " ++ d.display)

end Diagnostic

end Wiring
