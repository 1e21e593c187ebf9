import Wiring.Document.Invisible
import Wiring.Document.Text

/-!
Reading typed values from documents. A record is an object of named fields or an array of them in
order; a choice is a name, or an object with the name as its only field.
-/

set_option autoImplicit false

namespace Wiring

inductive Found where
  | null
  | bool (value : Bool)
  | number (value : Number)
  | string (value : String)
  | array
  | object
  | bareName
  deriving DecidableEq, Repr

inductive ReadError where
  | malformed
  | missingField (name : String)
  | duplicateField (name : String)
  | unknownField (name : String) (known : List String)
  | unknownName (name : String) (known : List String)
  | unexpected (found : Found) (expected : String)
  | negative (value : Int) (expected : String)
  | notChoice (found : Found)
  | notOneKey
  | tooShort (given : Nat) (record : String) (size : Nat)
  | tooLong (given : Nat)
  deriving DecidableEq, Repr

inductive Origin where
  | text
  | value
  deriving DecidableEq, Repr

def hexText (n : Nat) : String := String.ofList (Nat.toDigits 16 n)

def quotedChar (c : Char) : String :=
  if c = '"' then "\\\""
  else if c = '\\' then "\\\\"
  else if c = '\n' then "\\n"
  else if c = '\r' then "\\r"
  else if c = '\t' then "\\t"
  else if c = '\x00' then "\\0"
  else if isInvisible c then "\\u\x7b" ++ hexText c.toNat ++ "\x7d"
  else String.singleton c

def quoted (s : String) : String := "\"" ++ String.join (s.toList.map quotedChar) ++ "\""

def Number.display : Number → String
  | .integer n => "integer `" ++ toString n ++ "`"
  | .floating x => "floating point `" ++ x.text ++ "`"

def Found.display : Found → String
  | .null => "null"
  | .bool b => "boolean `" ++ (if b then "true" else "false") ++ "`"
  | .number n => n.display
  | .string s => "string " ++ quoted s
  | .array => "sequence"
  | .object => "map"
  | .bareName => "unit variant"

def alternatives (names : List String) : String :=
  match names.map fun n => "`" ++ n ++ "`" with
  | [a, b] => a ++ " or " ++ b
  | ns => "one of " ++ String.intercalate ", " ns

/-- A text is read as it comes, so what could be no choice or goes on too long is only seen as a
fault of its spelling. Values are described. -/
def ReadError.message (origin : Origin) : ReadError → String
  | .malformed => "syntax error"
  | .missingField n => "missing field `" ++ n ++ "`"
  | .duplicateField n => "duplicate field `" ++ n ++ "`"
  | .unknownField n known => "unknown field `" ++ n ++ "`, expected " ++ alternatives known
  | .unknownName n known => "unknown variant `" ++ n ++ "`, expected " ++ alternatives known
  | .unexpected found expected => "invalid type: " ++ found.display ++ ", expected " ++ expected
  | .negative n expected => "invalid value: integer `" ++ toString n ++ "`, expected " ++ expected
  | .notChoice found =>
    match origin with
    | .text => "expected value"
    | .value => "invalid type: " ++ found.display ++ ", expected string or map"
  | .notOneKey =>
    match origin with
    | .text => "expected value"
    | .value => "invalid value: map, expected map with a single key"
  | .tooShort given record size =>
    "invalid length " ++ toString given ++ ", expected struct " ++ record ++ " with " ++
      toString size ++ " elements"
  | .tooLong given =>
    match origin with
    | .text => "trailing characters"
    | .value => "invalid length " ++ toString given ++ ", expected fewer elements in array"

def Document.mismatch (complain : Found → ReadError) : Document → ReadError
  | .null => complain .null
  | .bool b => complain (.bool b)
  | .number n => complain (.number n)
  | .string s => complain (.string s)
  | .array _ => complain .array
  | .object _ => complain .object
  | .unreadable => .malformed

def Document.isNot (d : Document) (expected : String) : ReadError :=
  d.mismatch (.unexpected · expected)

abbrev Reader (α : Type) := Document → Except ReadError α

namespace Reader

def string : Reader String
  | .string s => .ok s
  | d => .error (d.isNot "a string")

def bool : Reader Bool
  | .bool b => .ok b
  | d => .error (d.isNot "a boolean")

def natural (expected : String) : Reader Nat
  | .number (.integer n) => if n < 0 then .error (.negative n expected) else .ok n.toNat
  | d => .error (d.isNot expected)

def optional {α : Type} (read : Reader α) : Reader (Option α)
  | .null => .ok none
  | d => (read d).map some

def list {α : Type} (read : Reader α) : Reader (List α)
  | .array ds => ds.mapM read
  | d => .error (d.isNot "a sequence")

/-- One of several names, which may also be the only field of an object, set to null. -/
def name {α : Type} (names : List (String × α)) : Reader α
  | .string s => choose s
  | .object [(s, d)] => do
    let a ← choose s
    match d with
    | .null => .ok a
    | d => .error (d.isNot "unit")
  | .object _ => .error .notOneKey
  | d => .error (d.mismatch .notChoice)
where
  choose (s : String) : Except ReadError α :=
    match names.lookup s with
    | some a => .ok a
    | none => .error (.unknownName s (names.map (·.1)))

def tagged {α : Type} (names : List (String × (String → α))) : Reader α
  | .string s => do
    let _ ← choose s
    .error (.unexpected .bareName "newtype variant")
  | .object [(s, d)] => do
    let f ← choose s
    (string d).map f
  | .object _ => .error .notOneKey
  | d => .error (d.mismatch .notChoice)
where
  choose (s : String) : Except ReadError (String → α) :=
    match names.lookup s with
    | some f => .ok f
    | none => .error (.unknownName s (names.map (·.1)))

/-- A value read from a text. What cannot be read may stand where nobody looks, but only in a text
without any other fault. -/
def ofText {α : Type} (read : Reader α) (text : String) : Except ReadError α :=
  match Document.ofText? text with
  | none => .error .malformed
  | some d =>
    match read d with
    | .ok a => .ok a
    | .error e => .error (if d.isReadable then e else .malformed)

end Reader

structure Field (α : Type) where
  name : String
  read : Reader α

abbrev Check := Document → Except ReadError Unit

def Field.check {α : Type} (f : Field α) : String × Check :=
  (f.name, fun d => (f.read d).map fun _ => ())

structure Fields where
  record : String
  known : List String
  byPosition : Bool
  given : List (String × Document)

namespace Fields

/-- Goes through the given fields in their order: no known name comes twice, every known field can
be read, and a closed record has no unknown one. -/
def checkAll (known : List (String × Check)) (closed : Bool) :
    List String → List (String × Document) → Except ReadError Unit
  | _, [] => .ok ()
  | seen, (n, d) :: fs =>
    match known.lookup n with
    | some check =>
      if seen.contains n then .error (.duplicateField n)
      else do
        check d
        checkAll known closed (n :: seen) fs
    | none =>
      if closed then .error (.unknownField n (known.map (·.1))) else checkAll known closed seen fs

/-- The first fault of a given field comes before any complaint about missing ones. -/
def read (record : String) (closed : Bool) (known : List (String × Check)) : Reader Fields
  | .object fs => do
    checkAll known closed [] fs
    .ok ⟨record, known.map (·.1), false, fs⟩
  | .array ds => do
    let fs := (known.map (·.1)).zip ds
    checkAll known closed [] fs
    if known.length < ds.length then .error (.tooLong ds.length)
    else .ok ⟨record, known.map (·.1), true, fs⟩
  | d => .error (d.isNot ("struct " ++ record))

def missing (fs : Fields) (n : String) : ReadError :=
  if fs.byPosition then .tooShort (fs.known.idxOf n) fs.record fs.known.length else .missingField n

variable {α : Type}

def required (fs : Fields) (f : Field α) : Except ReadError α :=
  match fs.given.lookup f.name with
  | some d => f.read d
  | none => .error (fs.missing f.name)

def withDefault (fs : Fields) (f : Field α) (default : α) : Except ReadError α :=
  match fs.given.lookup f.name with
  | some d => f.read d
  | none => .ok default

/-- May be left out by name, but not by position. -/
def nullable (fs : Fields) (f : Field (Option α)) : Except ReadError (Option α) :=
  match fs.given.lookup f.name with
  | some d => f.read d
  | none => if fs.byPosition then .error (fs.missing f.name) else .ok none

end Fields

end Wiring
