import Wiring.Document.Basic

set_option autoImplicit false

namespace Wiring

namespace Document

def isBlank (c : Char) : Bool := c == ' ' || c == '\n' || c == '\t' || c == '\r'

def skipBlank (cs : List Char) : List Char := cs.dropWhile isBlank

def hexDigit (c : Char) : Option Nat :=
  if c.isDigit then some (c.toNat - '0'.toNat)
  else if 'a' ≤ c ∧ c ≤ 'f' then some (c.toNat - 'a'.toNat + 10)
  else if 'A' ≤ c ∧ c ≤ 'F' then some (c.toNat - 'A'.toNat + 10)
  else none

def hexUnit (a b c d : Char) : Option Nat := do
  pure ((((← hexDigit a) * 16 + (← hexDigit b)) * 16 + (← hexDigit c)) * 16 + (← hexDigit d))

def isLeading (u : Nat) : Bool := 0xD800 ≤ u && u < 0xDC00

def isTrailing (u : Nat) : Bool := 0xDC00 ≤ u && u < 0xE000

def pairChar (high low : Nat) : Char :=
  Char.ofNat (0x10000 + (high - 0xD800) * 0x400 + (low - 0xDC00))

def escapedChar : Char → Option Char
  | '"' => some '"'
  | '\\' => some '\\'
  | '/' => some '/'
  | 'b' => some '\x08'
  | 'f' => some '\x0c'
  | 'n' => some '\n'
  | 'r' => some '\r'
  | 't' => some '\t'
  | _ => none

/-- The inside of a string up to its closing quote: code points, and units where they are escaped.
Control characters have to be escaped. -/
def stringUnits : List Char → Option (List Nat × List Char)
  | '"' :: rest => some ([], rest)
  | '\\' :: 'u' :: a :: b :: c :: d :: rest => do
    let u ← hexUnit a b c d
    let (us, rest) ← stringUnits rest
    pure (u :: us, rest)
  | '\\' :: c :: rest => do
    let e ← escapedChar c
    let (us, rest) ← stringUnits rest
    pure (e.toNat :: us, rest)
  | c :: rest =>
    if c.toNat < 0x20 || c == '\\' then none
    else do
      let (us, rest) ← stringUnits rest
      pure (c.toNat :: us, rest)
  | [] => none
termination_by structural cs => cs

def charsOfUnits : List Nat → Option (List Char)
  | [] => some []
  | [u] => if isLeading u || isTrailing u then none else some [Char.ofNat u]
  | u :: v :: us =>
    if isLeading u then
      if isTrailing v then (charsOfUnits us).map (pairChar u v :: ·) else none
    else if isTrailing u then none
    else (charsOfUnits (v :: us)).map (Char.ofNat u :: ·)

def readString : List Char → Option (Option String × List Char)
  | '"' :: rest =>
    (stringUnits rest).map fun (us, rest) => ((charsOfUnits us).map String.ofList, rest)
  | _ => none

def digitValue (c : Char) : Nat := c.toNat - '0'.toNat

/-- The digits as a significand of at most 64 bits, and how many digits did not fit. -/
def significand : Nat → List Char → Nat × Nat
  | s, [] => (s, 0)
  | s, c :: cs =>
    if s * 10 + digitValue c < Nat.pow 2 64 then significand (s * 10 + digitValue c) cs
    else (s, cs.length + 1)

def exponentValue (cs : List Char) : Nat := cs.foldl (fun n c => n * 10 + digitValue c) 0

def readExponent (cs : List Char) : Option (Int × List Char) :=
  let (negative, cs) :=
    match cs with
    | '+' :: r => (false, r)
    | '-' :: r => (true, r)
    | r => (false, r)
  match cs.takeWhile Char.isDigit with
  | [] => none
  | ds => some (if negative then -exponentValue ds else exponentValue ds, cs.dropWhile Char.isDigit)

def exponentAfter : List Char → Option (Option Int × List Char)
  | 'e' :: cs | 'E' :: cs => (readExponent cs).map fun (e, rest) => (some e, rest)
  | cs => some (none, cs)

def wholeDigits (cs : List Char) : Option (List Char × List Char) :=
  match cs.takeWhile Char.isDigit, cs.dropWhile Char.isDigit with
  | [], _ => none
  | '0' :: _ :: _, _ => none
  | ds, rest => some (ds, rest)

def fractionAfter : List Char → Option (Option (List Char) × List Char)
  | '.' :: cs =>
    match cs.takeWhile Char.isDigit with
    | [] => none
    | ds => some (some ds, cs.dropWhile Char.isDigit)
  | cs => some (none, cs)

/-- The value of an integer literal; zero with a sign is floating. -/
def integerValue (negative : Bool) (n : Nat) : Option Number :=
  if negative then
    if n = 0 ∨ Nat.pow 2 63 < n then (Binary64.ofDecimal true n 0).map .floating
      else some (.integer (-n))
  else some (.integer n)

/-- Digits beyond 64 bits count as zeros before the point and as nothing after it. -/
def numberValue (negative : Bool) (whole : List Char) (places : Option (List Char))
    (exponent : Option Int) : Option Number :=
  let (s, dropped) := significand 0 whole
  if places = none ∧ exponent = none ∧ dropped = 0 then integerValue negative s
  else
    let ds := places.getD []
    let (s, excess) := significand s ds
    let e : Int := dropped - (ds.length - excess : Nat) + exponent.getD 0
    (Binary64.ofDecimal negative s e).map .floating

def readNumber (cs : List Char) : Option (Option Number × List Char) := do
  let (negative, cs) := match cs with
    | '-' :: r => (true, r)
    | r => (false, r)
  let (whole, cs) ← wholeDigits cs
  let (places, cs) ← fractionAfter cs
  let (exponent, cs) ← exponentAfter cs
  pure (numberValue negative whole places exponent, cs)

def afterWord : List Char → List Char → Option (List Char)
  | [], cs => some cs
  | w :: ws, c :: cs => if w = c then afterWord ws cs else none
  | _ :: _, [] => none

def objectOf (fields : List (Option String × Document)) : Document :=
  match fields.mapM fun f => f.1.map (·, f.2) with
  | some fs => .object fs
  | none => .unreadable

mutual

def readValue : Nat → List Char → Option (Document × List Char)
  | 0, _ => none
  | depth + 1, cs =>
    match skipBlank cs with
    | 'n' :: r => (afterWord ['u', 'l', 'l'] r).map (.null, ·)
    | 't' :: r => (afterWord ['r', 'u', 'e'] r).map (.bool true, ·)
    | 'f' :: r => (afterWord ['a', 'l', 's', 'e'] r).map (.bool false, ·)
    | '"' :: r =>
      (readString ('"' :: r)).map fun (s, rest) => ((s.map .string).getD .unreadable, rest)
    | '[' :: r =>
      match skipBlank r with
      | ']' :: rest => some (.array [], rest)
      | r => (readItems depth r).map fun (ds, rest) => (.array ds, rest)
    | '{' :: r =>
      match skipBlank r with
      | '}' :: rest => some (.object [], rest)
      | r => (readFields depth r).map fun (fs, rest) => (objectOf fs, rest)
    | r => (readNumber r).map fun (n, rest) => ((n.map .number).getD .unreadable, rest)

def readItems : Nat → List Char → Option (List Document × List Char)
  | 0, _ => none
  | depth + 1, cs => do
    let (d, r) ← readValue depth cs
    match skipBlank r with
    | ']' :: rest => some ([d], rest)
    | ',' :: r =>
      let (ds, rest) ← readItems depth r
      some (d :: ds, rest)
    | _ => none

def readFields : Nat → List Char → Option (List (Option String × Document) × List Char)
  | 0, _ => none
  | depth + 1, cs => do
    let (name, r) ← readString (skipBlank cs)
    match skipBlank r with
    | ':' :: r =>
      let (d, r) ← readValue depth r
      match skipBlank r with
      | '}' :: rest => some ([(name, d)], rest)
      | ',' :: r =>
        let (fs, rest) ← readFields depth r
        some ((name, d) :: fs, rest)
      | _ => none
    | _ => none

end

/-- The document of a whole text. A step of the grammar that takes no character is followed by one
that does, so twice the length of the text bounds the depth. -/
def ofText? (text : String) : Option Document := do
  let cs := text.toList
  let (d, rest) ← readValue (2 * cs.length + 1) cs
  if skipBlank rest = [] then pure d else none

end Document

end Wiring
