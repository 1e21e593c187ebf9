import Wiring.Table

set_option autoImplicit false

namespace Wiring

abbrev TypeName := String

abbrev InjectorId := String

abbrev SpecificationId := String

abbrev InterfaceId := String

/-- A place in the sources, carried along unread. -/
abbrev Location := String

inductive Qualifier where
  | label (text : String)
  | attribute (text : String)
  deriving DecidableEq, Repr

def Qualifier.text : Qualifier → String
  | .label t | .attribute t => t

def Qualifier.display : Qualifier → String
  | .label t => "\"" ++ t ++ "\""
  | .attribute t => "@" ++ t

/-- Keys are equal only if type and qualifier both are: an unqualified key is no wildcard. -/
structure Key where
  type : TypeName
  qualifier : Option Qualifier := none
  deriving DecidableEq, Repr

namespace Key

def display (k : Key) : String :=
  match k.qualifier with
  | none => k.type
  | some q => k.type ++ " " ++ q.display

def requalify (k : Key) (q : Option Qualifier) : Key := { k with qualifier := q }

/-- Unqualified keys come first within a type, then labels, then attributes. -/
def rank (k : Key) : Nat :=
  match k.qualifier with
  | none => 0
  | some (.label _) => 1
  | some (.attribute _) => 2

def qualifierText (k : Key) : String := (k.qualifier.map Qualifier.text).getD ""

theorem ext_rank {j k : Key} (ht : j.type = k.type) (hr : j.rank = k.rank)
    (hq : j.qualifierText = k.qualifierText) : j = k := by
  obtain ⟨s, p⟩ := j
  obtain ⟨t, q⟩ := k
  obtain rfl : s = t := ht
  rcases p with _ | p | p <;> rcases q with _ | q | q <;>
    simp_all [rank, qualifierText, Qualifier.text]

instance : Ord Key where
  compare := compareLex (compareOn type) (compareLex (compareOn rank) (compareOn qualifierText))

instance : Std.TransOrd Key :=
  inferInstanceAs (Std.TransCmp
    (compareLex (compareOn type) (compareLex (compareOn rank) (compareOn qualifierText))))

instance : Std.LawfulEqOrd Key where
  toReflCmp := inferInstanceAs (Std.ReflCmp (compare : Key → Key → Ordering))
  eq_of_compare {j k} h := by
    change compareLex _ _ _ _ = _ at h
    simp only [compareLex, Ordering.then_eq_eq, compareOn, Std.LawfulEqOrd.compare_eq_iff_eq] at h
    exact ext_rank h.1 h.2.1 h.2.2

end Key

end Wiring
