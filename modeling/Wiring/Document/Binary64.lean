set_option autoImplicit false

namespace Wiring

/-- The number `mantissa * 2 ^ exponent`, or its negative. The mantissa is below `2 ^ 53`, the
exponent from -1074 to 971, and only the least exponent goes with a mantissa below `2 ^ 52`. -/
structure Binary64 where
  negative : Bool
  mantissa : Nat
  exponent : Int
  deriving DecidableEq, Repr

/-- The quotient of two numbers to the nearest; a half goes to the even neighbour. -/
def roundQuotient (num den : Nat) : Nat :=
  let q := num / den
  let r := num % den
  if den < 2 * r ∨ (2 * r = den ∧ q % 2 = 1) then q + 1 else q

theorem roundQuotient_near (num : Nat) {den : Nat} (h : 0 < den) :
    2 * num ≤ (2 * roundQuotient num den + 1) * den ∧
      2 * roundQuotient num den * den ≤ 2 * num + den := by
  have hd := Nat.div_add_mod num den
  have hm := Nat.mod_lt num h
  have hc : num / den * den = den * (num / den) := Nat.mul_comm ..
  unfold roundQuotient
  dsimp only
  split <;> simp only [Nat.add_mul, Nat.mul_add, Nat.mul_assoc] <;> omega

namespace Binary64

def zero (negative : Bool) : Binary64 := ⟨negative, 0, -1074⟩

def minExponent : Int := -1074

def maxExponent : Int := 971

def shift (base : Nat) (e : Int) (num den : Nat) : Nat × Nat :=
  if 0 ≤ e then (num, den * base.pow e.toNat) else (num * base.pow (-e).toNat, den)

def ofFraction (negative : Bool) (num den : Nat) : Option Binary64 :=
  if num = 0 then some (zero negative) else
    let low : Int := (num.log2 : Int) - den.log2 - 53
    let s := shift 2 low num den
    let e := max minExponent (if Nat.pow 2 53 ≤ s.1 / s.2 then low + 1 else low)
    let s := shift 2 e num den
    let m := roundQuotient s.1 s.2
    let r : Binary64 :=
      if m = Nat.pow 2 53 then ⟨negative, Nat.pow 2 52, e + 1⟩ else ⟨negative, m, e⟩
    if r.exponent ≤ maxExponent then some r else none

def fraction (x : Binary64) : Nat × Nat := shift 2 (-x.exponent) x.mantissa 1

def powerOfTen (e : Nat) : Nat × Nat :=
  ((ofFraction false (Nat.pow 10 e) 1).map fraction).getD (1, 1)

def timesPower (x : Binary64) (e : Nat) : Option Binary64 :=
  let p := powerOfTen e
  let f := x.fraction
  ofFraction x.negative (f.1 * p.1) (f.2 * p.2)

def overPower (x : Binary64) (e : Nat) : Option Binary64 :=
  let p := powerOfTen e
  let f := x.fraction
  ofFraction x.negative (f.1 * p.2) (f.2 * p.1)

def scaleDown (x : Binary64) (e : Nat) : Option Binary64 :=
  if h : e ≤ 308 then x.overPower e
  else if x.mantissa = 0 then some x
  else (x.overPower 308).bind fun y => y.scaleDown (e - 308)
termination_by e
decreasing_by omega

/-- The value written `significand * 10 ^ e`, where significand, power and result are rounded one
after the other. There is none if the result is too large. -/
def ofDecimal (negative : Bool) (significand : Nat) (e : Int) : Option Binary64 :=
  (ofFraction negative significand 1).bind fun x =>
    if e < 0 then x.scaleDown (-e).toNat
    else if e ≤ 308 then x.timesPower e.toNat
    else if x.mantissa = 0 then some x
    else none

/-- Whether the decimal `digits * 10 ^ e` rounds to `x`. Neighbours are half a unit apart, or a
quarter below a power of two; a boundary belongs to the even mantissa. -/
def roundsTo (x : Binary64) (digits : Nat) (e : Int) : Bool :=
  let d := shift 10 (-e) digits 1
  let unit (quarters : Nat) : Nat × Nat := shift 2 (2 - x.exponent) quarters 1
  let below := if x.mantissa = Nat.pow 2 52 ∧ minExponent < x.exponent then 1 else 2
  let lo := unit (4 * x.mantissa - below)
  let hi := unit (4 * x.mantissa + 2)
  if x.mantissa % 2 = 0 then d.2 * lo.1 ≤ d.1 * lo.2 ∧ d.1 * hi.2 ≤ d.2 * hi.1
  else d.2 * lo.1 < d.1 * lo.2 ∧ d.1 * hi.2 < d.2 * hi.1

def decimalExponent (x : Binary64) : Int :=
  let guess : Int := ((x.mantissa.log2 + x.exponent) * 30103) / 100000
  let reaches (e : Int) : Bool :=
    let s := shift 10 e x.fraction.1 x.fraction.2
    s.2 ≤ s.1
  if reaches (guess + 1) then guess + 1 else if reaches guess then guess else guess - 1

def onGrid (x : Binary64) (e : Int) : Option (Nat × Int) :=
  let s := shift 10 e x.fraction.1 x.fraction.2
  let near := roundQuotient s.1 s.2
  let far := if near = s.1 / s.2 then near + 1 else near - 1
  if x.roundsTo near e then some (near, e) else if x.roundsTo far e then some (far, e) else none

/-- The coarsest grid of at most 17 digits that has a point rounding to `x`. -/
def shortest (x : Binary64) : Nat × Int :=
  let top := x.decimalExponent
  ((List.range 17).findSome? fun n : Nat => x.onGrid (top - n)).getD (0, 0)

def strip (digits : Nat) (e : Int) : Nat × Int :=
  if h : digits ≠ 0 ∧ digits % 10 = 0 then strip (digits / 10) (e + 1) else (digits, e)
termination_by digits
decreasing_by omega

/-- Numbers from `10 ^ -5` to below `10 ^ 16` are written positionally, with at least one place; all
others with a signed exponent. -/
def text (x : Binary64) : String :=
  let sign := if x.negative then "-" else ""
  if x.mantissa = 0 then sign ++ "0.0" else
    let (digits, e) := strip x.shortest.1 x.shortest.2
    let ds := (toString digits).toList
    let point : Int := ds.length + e
    if -4 ≤ point ∧ point ≤ 16 then
      if point ≤ 0 then
        sign ++ "0." ++ String.ofList (List.replicate (-point).toNat '0' ++ ds)
      else if 0 ≤ e then
        sign ++ String.ofList (ds ++ List.replicate e.toNat '0') ++ ".0"
      else
        sign ++ String.ofList (ds.take point.toNat) ++ "." ++ String.ofList (ds.drop point.toNat)
    else
      let places := if ds.length = 1 then [] else '.' :: ds.drop 1
      sign ++ String.ofList (ds.take 1 ++ places) ++ (if point < 1 then "e-" else "e+") ++
        toString (point - 1).natAbs

end Binary64

end Wiring
