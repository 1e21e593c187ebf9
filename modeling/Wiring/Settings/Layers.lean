import Wiring.Settings.Environment

set_option autoImplicit false

namespace Wiring

inductive Source where
  | text (layer : String) (document : String)
  | optionalText (layer : String) (document : Option String)
  | variables (entries : List (String × String))
  deriving DecidableEq, Repr

inductive SourceError where
  | malformed (layer : String) (error : ReadError)
  | invalidValue (value : InvalidValue)
  deriving DecidableEq, Repr

def SourceError.message : SourceError → String
  | .malformed layer e => "Config layer '" ++ layer ++ "' could not be parsed: " ++ e.message .text
  | .invalidValue v =>
    "Environment variable '" ++ v.name ++ "' has an invalid value '" ++ v.value ++ "'"

def Source.layer? : Source → Except SourceError (Option (String × Layer))
  | .text layer document | .optionalText layer (some document) =>
    match Layer.read.ofText document with
    | .ok l => .ok (some (layer, l))
    | .error e => .error (.malformed layer e)
  | .optionalText _ none => .ok none
  | .variables entries =>
    match Layer.ofVariables entries with
    | .ok l => .ok (some ("environment", l))
    | .error e => .error (.invalidValue e)

structure Layers where
  layers : List (String × Layer) := []
  deriving DecidableEq, Repr

/-- A call that changes layers and may fail on the way. A failure does not undo the changes before
it. -/
abbrev LayersM := ExceptT SourceError (StateM Layers)

namespace Layers

def addSource (s : Source) : LayersM Unit := do
  match ← (s.layer? : Except SourceError (Option (String × Layer))) with
  | some l => modify fun ls => ⟨ls.layers ++ [l]⟩
  | none => pure ()

def add (ls : Layers) (s : Source) : Except SourceError Unit × Layers :=
  Id.run ((addSource s).run.run ls)

theorem add_error {ls : Layers} {s : Source} {e : SourceError} (h : s.layer? = .error e) :
    ls.add s = (.error e, ls) := by
  rw [add, addSource, h]
  rfl

theorem add_ok {ls : Layers} {s : Source} {r : Option (String × Layer)}
    (h : s.layer? = .ok r) :
    ls.add s = (.ok (), ⟨ls.layers ++ r.toList⟩) := by
  rw [add, addSource, h]
  cases r with
  | none => rw [Option.toList_none, List.append_nil]; rfl
  | some l => rfl

def settings (ls : Layers) : Settings := ls.layers.foldl (fun s l => s.override l.2) {}

theorem settings_push (ls : Layers) (l : String × Layer) :
    (Layers.mk (ls.layers ++ [l])).settings = ls.settings.override l.2 := by
  simp [settings]

end Layers

end Wiring
