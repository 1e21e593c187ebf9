import Wiring.Document.Binary64

/-!
Documents: the tree that a JSON text stands for. Fields keep the order of the text, and their
repeats. What is spelled correctly and still has no value is kept as unreadable, since it does no
harm where nobody looks at it.
-/

set_option autoImplicit false

namespace Wiring

/-- Whole numbers from `-2 ^ 63` to below `2 ^ 64` are integers, all others floating. -/
inductive Number where
  | integer (value : Int)
  | floating (value : Binary64)
  deriving DecidableEq, Repr

def Number.maxInteger : Int := Int.pow 2 64 - 1

def Number.minInteger : Int := -Int.pow 2 63

inductive Document where
  | null
  | bool (value : Bool)
  | number (value : Number)
  | string (value : String)
  | array (items : List Document)
  | object (fields : List (String × Document))
  /-- A number beyond the largest one, a string with half of a pair, or an object with such a name.
  -/
  | unreadable
  deriving Inhabited, Repr

namespace Document

def integer (n : Int) : Document := .number (.integer n)

def natural (n : Nat) : Document := .integer n

def optional {α : Type} (f : α → Document) : Option α → Document
  | none => .null
  | some a => f a

def list {α : Type} (f : α → Document) (items : List α) : Document := .array (items.map f)

mutual

def isReadable : Document → Bool
  | .unreadable => false
  | .array ds => allReadable ds
  | .object fs => allFieldsReadable fs
  | _ => true

def allReadable : List Document → Bool
  | [] => true
  | d :: ds => d.isReadable && allReadable ds

def allFieldsReadable : List (String × Document) → Bool
  | [] => true
  | (_, d) :: fs => d.isReadable && allFieldsReadable fs

end

end Document

end Wiring
