import Wiring.Settings.Basic

set_option autoImplicit false

namespace Wiring

def isSpace (c : Char) : Bool :=
  let n := c.toNat
  (9 ≤ n && n ≤ 13) || n == 0x20 || n == 0x85 || n == 0xa0 || n == 0x1680 ||
    (0x2000 ≤ n && n ≤ 0x200a) || n == 0x2028 || n == 0x2029 || n == 0x202f || n == 0x205f ||
    n == 0x3000

def trimLeft (cs : List Char) : List Char := cs.dropWhile isSpace

def trim (s : String) : String := String.ofList (trimLeft (trimLeft s.toList).reverse).reverse

/-- Upper case beyond ASCII is left alone. -/
def lowerAscii (c : Char) : Char := if 'A' ≤ c ∧ c ≤ 'Z' then Char.ofNat (c.toNat + 32) else c

def readSwitch? (s : String) : Option Bool :=
  let word := String.ofList (s.toList.map lowerAscii)
  if ["1", "true", "yes", "on"].contains word then some true
  else if ["0", "false", "no", "off"].contains word then some false
  else none

/-- Decimal digits after at most one plus sign, up to 64 bits. -/
def readNatural? (s : String) : Option Nat :=
  let ds := match s.toList with
    | '+' :: ds => ds
    | ds => ds
  if ds = [] then none
  else if ds.all Char.isDigit then
    let n := ds.foldl (fun n d => n * 10 + (d.toNat - '0'.toNat)) 0
    if n < Nat.pow 2 64 then some n else none
  else none

inductive Variable where
  | autoBinding
  | parallel
  | workerThreads
  | timeoutMs
  deriving DecidableEq, Repr

namespace Variable

def ofName? : String → Option Variable
  | "GRAFT_AUTO_BINDING" => some .autoBinding
  | "GRAFT_PARALLEL" => some .parallel
  | "GRAFT_WORKER_THREADS" => some .workerThreads
  | "GRAFT_TIMEOUT_MS" => some .timeoutMs
  | _ => none

def set? (v : Variable) (text : String) (l : Layer) : Option Layer :=
  match v with
  | .autoBinding => (readSwitch? text).map fun b => { l with autoBinding := some b }
  | .parallel => (readSwitch? text).map fun b => { l with parallel := some b }
  | .workerThreads => (readNatural? text).map fun n => { l with workerThreads := some n }
  | .timeoutMs => (readNatural? text).map fun n => { l with timeoutMs := some n }

end Variable

/-- The environment after some assignments. It has one value for each name: a later one replaces an
earlier one where that stands. -/
def assigned (assignments : List (String × String)) : List (String × String) :=
  assignments.foldl
    (fun vs a =>
      if vs.any (·.1 == a.1) then vs.map fun v => if v.1 = a.1 then a else v else vs ++ [a]) []

structure InvalidValue where
  name : String
  value : String
  deriving DecidableEq, Repr

/-- One variable on top of a layer. Names that mean nothing here are passed over. -/
def Layer.withVariable (l : Layer) (entry : String × String) : Except InvalidValue Layer :=
  match Variable.ofName? entry.1 with
  | none => .ok l
  | some v =>
    let text := trim entry.2
    match v.set? text l with
    | some l => .ok l
    | none => .error ⟨entry.1, text⟩

/-- Variables in order, the last one of a name deciding. One wrong value spoils the layer. -/
def Layer.ofVariables (entries : List (String × String)) : Except InvalidValue Layer :=
  entries.foldlM Layer.withVariable {}

end Wiring
