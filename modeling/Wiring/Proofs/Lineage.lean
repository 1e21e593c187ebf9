import Mathlib.Logic.Relation
import Mathlib.Order.MinMax
import Wiring.Cancellation

/-!
What cancels a token. The steps taken tell how each token was made and which ones were cancelled;
what a token reads follows from where it comes from and from whom it is related to, and from nothing
else.
-/

set_option autoImplicit false

namespace Wiring

open Relation

/-- How a token was made: from which one, and the start and the length of a timeout of its own. -/
structure Birth where
  source : Option Nat := none
  timeout : Option (Instant × Nat) := none
  deriving DecidableEq, Repr

/-- The births of all tokens in their order, and the tokens on which cancel was called. -/
structure Ledger where
  births : List Birth := []
  cancels : List Nat := []
  deriving DecidableEq, Repr

abbrev History := List (Instant × TokenStep)

def Passed (d : Option Instant) (now : Instant) : Prop := ∃ x, d = some x ∧ x ≤ now

theorem earlier_none (d : Option Instant) : earlier d none = d := by cases d <;> rfl

theorem passed_earlier {a b : Option Instant} {now : Instant} :
    Passed (earlier a b) now ↔ Passed a now ∨ Passed b now := by
  cases a <;> cases b <;> simp [Passed, earlier]

theorem Token.isExpired_iff {t : Token} {now : Instant} :
    t.isExpired now ↔ Passed t.deadline now := by
  cases h : t.deadline <;> simp [Token.isExpired, Passed, h]

namespace Birth

def Elapsed (b : Birth) (now : Instant) : Prop :=
  ∃ start length, b.timeout = some (start, length) ∧ start + length ≤ now

def deadline? (b : Birth) : Option Instant :=
  b.timeout.bind fun (start, length) => start.after? length

/-- A deadline beyond all times is none at all, and no timeout that would have it elapses. -/
theorem passed_deadline? {b : Birth} {now : Instant} (hnow : now ≤ Instant.latest) :
    Passed b.deadline? now ↔ b.Elapsed now := by
  cases h : b.timeout with
  | none => simp [Passed, deadline?, Elapsed, h]
  | some timeout =>
    obtain ⟨start, length⟩ := timeout
    simp only [Passed, deadline?, Elapsed, h, Option.bind_some, Instant.after?]
    constructor
    · rintro ⟨x, hx, hle⟩
      split at hx <;> cases hx
      exact ⟨start, length, rfl, hle⟩
    · rintro ⟨_, _, ⟨⟩, hle⟩
      exact ⟨start + length, if_pos (Nat.le_trans hle hnow), hle⟩

end Birth

namespace TokenStep

def birth? (count : Nat) (now : Instant) : TokenStep → Option Birth
  | .create => some {}
  | .withTimeout length => some ⟨none, some (now, length)⟩
  | .child i length => if i < count then some ⟨some i, some (now, length)⟩ else none
  | .clone i => if i < count then some ⟨some i, none⟩ else none
  | .cancel _ => none

def cancel? (count : Nat) : TokenStep → Option Nat
  | .cancel i => if i < count then some i else none
  | _ => none

def untimed : TokenStep → TokenStep
  | .withTimeout _ => .create
  | .child i _ => .clone i
  | s => s

theorem birth?_untimed (s : TokenStep) (count : Nat) (now : Instant) :
    (s.untimed.birth? count now).map (·.source) = (s.birth? count now).map (·.source) := by
  cases s with
  | child i length => by_cases h : i < count <;> simp [untimed, birth?, h]
  | _ => rfl

theorem source_untimed (s : TokenStep) (count : Nat) (now now' : Instant) :
    (s.birth? count now).map (·.source) = (s.birth? count now').map (·.source) := by
  cases s with
  | child i length => by_cases h : i < count <;> simp [birth?, h]
  | _ => rfl

theorem cancel?_untimed (s : TokenStep) (count : Nat) :
    s.untimed.cancel? count = s.cancel? count := by
  cases s <;> rfl

end TokenStep

namespace Ledger

variable {l l' : Ledger} {b : Birth} {i j n : Nat} {now now' : Instant} {s s' : TokenStep}

def note (l : Ledger) (now : Instant) (s : TokenStep) : Ledger where
  births := l.births ++ (s.birth? l.births.length now).toList
  cancels := (s.cancel? l.births.length).toList ++ l.cancels

def noteAll (l : Ledger) (h : History) : Ledger := h.foldl (fun l e => l.note e.1 e.2) l

def ofHistory (h : History) : Ledger := noteAll {} h

def From (l : Ledger) (i j : Nat) : Prop := ∃ b, l.births[i]? = some b ∧ b.source = some j

/-- A token is derived from itself, from the one it was made from, and so on. -/
def Derived (l : Ledger) : Nat → Nat → Prop := ReflTransGen l.From

/-- Tokens of one family: each was made from the next, or the other way round. -/
def Kin (l : Ledger) : Nat → Nat → Prop := ReflTransGen fun i j => l.From i j ∨ l.From j i

/-- A timeout has elapsed of the token or of one that it is derived from. -/
def Expired (l : Ledger) (i : Nat) (now : Instant) : Prop :=
  ∃ j b, l.Derived i j ∧ l.births[j]? = some b ∧ b.Elapsed now

/-- A token of the family was cancelled. -/
def Withdrawn (l : Ledger) (i : Nat) : Prop := ∃ j ∈ l.cancels, l.Kin i j

theorem from_iff : l.From i j ↔ (l.births[i]?).map (·.source) = some (some j) := by
  simp [From, Option.map_eq_some_iff]

theorem expired_root (hb : l.births[i]? = some b) (hs : b.source = none) :
    l.Expired i now ↔ b.Elapsed now := by
  constructor
  · rintro ⟨j, b', hij, hb', helapsed⟩
    rcases hij.cases_head with rfl | ⟨k, ⟨b'', hb'', hk⟩, -⟩
    · simp_all
    · simp_all
  · exact fun h => ⟨i, b, .refl, hb, h⟩

theorem expired_derived (hb : l.births[i]? = some b) (hs : b.source = some j) :
    l.Expired i now ↔ l.Expired j now ∨ b.Elapsed now := by
  constructor
  · rintro ⟨k, b', hik, hb', helapsed⟩
    rcases hik.cases_head with rfl | ⟨m, ⟨b'', hb'', hm⟩, hmk⟩
    · simp_all
    · obtain rfl : m = j := by simp_all
      exact .inl ⟨k, b', hmk, hb', helapsed⟩
  · rintro (⟨k, b', hjk, hb', helapsed⟩ | helapsed)
    · exact ⟨k, b', .head ⟨b, hb, hs⟩ hjk, hb', helapsed⟩
    · exact ⟨i, b, .refl, hb, helapsed⟩

theorem Kin.symm (h : l.Kin i j) : l.Kin j i := by
  induction h with
  | refl => exact .refl
  | tail _ hstep ih => exact .head hstep.symm ih

theorem derived_congr (h : ∀ j, l.Derived i j → l.births[j]? = l'.births[j]?) :
    l.Derived i j ↔ l'.Derived i j := by
  constructor
  · intro hij
    induction hij with
    | refl => exact .refl
    | tail hik hstep ih =>
      obtain ⟨b, hb, hs⟩ := hstep
      exact ih.tail ⟨b, h _ hik ▸ hb, hs⟩
  · intro hij
    induction hij with
    | refl => exact .refl
    | tail _ hstep ih =>
      obtain ⟨b, hb, hs⟩ := hstep
      exact ih.tail ⟨b, h _ ih ▸ hb, hs⟩

theorem expired_congr (h : ∀ j, l.Derived i j → l.births[j]? = l'.births[j]?) :
    l.Expired i now ↔ l'.Expired i now := by
  constructor
  · rintro ⟨j, b, hij, hb, helapsed⟩
    exact ⟨j, b, (derived_congr h).1 hij, h j hij ▸ hb, helapsed⟩
  · rintro ⟨j, b, hij, hb, helapsed⟩
    have hij := (derived_congr h).2 hij
    exact ⟨j, b, hij, h j hij ▸ hb, helapsed⟩

theorem withdrawn_congr (hkin : ∀ j, l.Kin i j ↔ l'.Kin i j)
    (hcancels : ∀ j, l.Kin i j → (j ∈ l.cancels ↔ j ∈ l'.cancels)) :
    l.Withdrawn i ↔ l'.Withdrawn i := by
  constructor
  · rintro ⟨j, hj, hij⟩
    exact ⟨j, (hcancels j hij).1 hj, (hkin j).1 hij⟩
  · rintro ⟨j, hj, hij⟩
    have hij := (hkin j).2 hij
    exact ⟨j, (hcancels j hij).2 hj, hij⟩

theorem Derived.kin (h : l.Derived i j) : l.Kin i j := ReflTransGen.mono (fun _ _ => Or.inl) _ _ h

theorem Kin.congr (h : ∀ j, l.Kin i j ∨ l'.Kin i j → l.births[j]? = l'.births[j]?)
    (hij : l.Kin i j) : l'.Kin i j := by
  induction hij with
  | refl => exact .refl
  | @tail k m hik hstep ih =>
    have hk := h k (.inl hik)
    have hm := h m (.inl (hik.tail hstep))
    refine ih.tail (hstep.imp ?_ ?_)
    · rintro ⟨b, hb, hs⟩
      exact ⟨b, hk ▸ hb, hs⟩
    · rintro ⟨b, hb, hs⟩
      exact ⟨b, hm ▸ hb, hs⟩

structure Grows (l l' : Ledger) : Prop where
  births : l.births <+: l'.births
  cancels : l.cancels ⊆ l'.cancels

theorem grows_note (l : Ledger) (now : Instant) (s : TokenStep) : l.Grows (l.note now s) :=
  ⟨List.prefix_append _ _, List.subset_append_right _ _⟩

theorem grows_noteAll (l : Ledger) (h : History) : l.Grows (l.noteAll h) := by
  induction h generalizing l with
  | nil => exact ⟨List.prefix_refl _, List.Subset.refl _⟩
  | cons e h ih =>
    have hnote := l.grows_note e.1 e.2
    have hrest := ih (l.note e.1 e.2)
    exact ⟨hnote.births.trans hrest.births, fun _ hi => hrest.cancels (hnote.cancels hi)⟩

namespace Grows

theorem getElem? (h : l.Grows l') (hb : l.births[i]? = some b) : l'.births[i]? = some b := by
  obtain ⟨more, hmore⟩ := h.births
  rw [← hmore, List.getElem?_append_left (List.getElem?_eq_some_iff.1 hb).1, hb]

theorem source (h : l.Grows l') (hij : l.From i j) : l'.From i j := by
  obtain ⟨b, hb, hs⟩ := hij
  exact ⟨b, h.getElem? hb, hs⟩

theorem expired (h : l.Grows l') (hle : now ≤ now') (hi : l.Expired i now) : l'.Expired i now' := by
  obtain ⟨j, b, hij, hb, start, length, ht, helapsed⟩ := hi
  have hij' : l'.Derived i j := ReflTransGen.mono (fun _ _ => h.source) _ _ hij
  exact ⟨j, b, hij', h.getElem? hb, start, length, ht, Nat.le_trans helapsed hle⟩

theorem withdrawn (h : l.Grows l') (hi : l.Withdrawn i) : l'.Withdrawn i := by
  obtain ⟨j, hj, hij⟩ := hi
  exact ⟨j, h.cancels hj, ReflTransGen.mono (fun _ _ => Or.imp h.source h.source) _ _ hij⟩

end Grows

theorem births_note {l l' : Ledger} (h : l.births = l'.births) (now : Instant) (s : TokenStep) :
    (l.note now s).births = (l'.note now s).births := by
  simp [note, h]

theorem births_noteAll {l l' : Ledger} (h : l.births = l'.births) (es : History) :
    (l.noteAll es).births = (l'.noteAll es).births := by
  induction es generalizing l l' with
  | nil => exact h
  | cons e es ih => exact ih (births_note h e.1 e.2)

/-- Two ledgers that tell the same but for the timeout of one token. -/
inductive Retimed (n : Nat) : Ledger → Ledger → Prop where
  | intro {bs bs' : List Birth} {b b' : Birth} {is : List Nat} : bs.length = n →
      b.source = b'.source →
      Retimed n ⟨bs ++ b :: bs', is⟩ ⟨bs ++ b' :: bs', is⟩

theorem Retimed.note (h : Retimed n l l') (now : Instant) (s : TokenStep) :
    Retimed n (l.note now s) (l'.note now s) := by
  obtain ⟨hn, hs⟩ := h
  simp only [Ledger.note, List.length_append, List.length_cons, List.append_assoc, List.cons_append]
  exact .intro hn hs

theorem Retimed.noteAll (h : Retimed n l l') (es : History) :
    Retimed n (l.noteAll es) (l'.noteAll es) := by
  induction es generalizing l l' with
  | nil => exact h
  | cons e es ih => exact ih (h.note e.1 e.2)

theorem note_untimed (l : Ledger) (now now' : Instant) (h : s.untimed = s'.untimed) :
    l.note now s = l.note now' s' ∨ Retimed l.births.length (l.note now s) (l.note now' s') := by
  have hcancel : s.cancel? l.births.length = s'.cancel? l.births.length := by
    rw [← s.cancel?_untimed, h, s'.cancel?_untimed]
  have hsource : (s.birth? l.births.length now).map (·.source) =
      (s'.birth? l.births.length now').map (·.source) := by
    rw [← s.birth?_untimed, h, s'.birth?_untimed, s'.source_untimed]
  unfold note
  rw [hcancel]
  cases hb : s.birth? l.births.length now with
  | none =>
    have hb' : s'.birth? l.births.length now' = none := by simpa [hb] using hsource.symm
    rw [hb']
    exact .inl rfl
  | some b =>
    obtain ⟨b', hb', hs⟩ : ∃ b', s'.birth? l.births.length now' = some b' ∧ b'.source = b.source :=
      Option.map_eq_some_iff.1 (by rw [← hsource, hb]; rfl)
    rw [hb']
    exact .inr (.intro rfl hs.symm)

theorem Retimed.getElem? (h : Retimed n l l') (hi : i ≠ n) : l.births[i]? = l'.births[i]? := by
  obtain ⟨rfl, -⟩ := h
  rw [List.getElem?_append, List.getElem?_append]
  split
  · rfl
  · rw [List.getElem?_cons, List.getElem?_cons, if_neg (by omega), if_neg (by omega)]

theorem Retimed.source (h : Retimed n l l') (i : Nat) :
    (l.births[i]?).map (·.source) = (l'.births[i]?).map (·.source) := by
  by_cases hi : i = n
  · obtain ⟨rfl, hs⟩ := h
    simp [hi, hs]
  · rw [h.getElem? hi]

theorem Retimed.withdrawn (h : Retimed n l l') : l.Withdrawn i ↔ l'.Withdrawn i := by
  have hfrom : l.From = l'.From := by
    funext j k
    simp only [from_iff, h.source j]
  have hcancels : l.cancels = l'.cancels := by
    obtain ⟨-, -⟩ := h
    rfl
  unfold Withdrawn Kin
  rw [hfrom, hcancels]

theorem Expired.derived (hij : l.Derived i j) (h : l.Expired j now) : l.Expired i now := by
  obtain ⟨k, b, hjk, hb, helapsed⟩ := h
  exact ⟨k, b, hij.trans hjk, hb, helapsed⟩

theorem Withdrawn.kin (hij : l.Kin i j) (h : l.Withdrawn j) : l.Withdrawn i := by
  obtain ⟨k, hk, hjk⟩ := h
  exact ⟨k, hk, hij.trans hjk⟩

end Ledger

namespace Tokens

variable {ts : Tokens} {l : Ledger} {t : Token} {b : Birth} {i j : Nat} {now : Instant}

def stepAll (ts : Tokens) (h : History) : Tokens := h.foldl (fun ts e => ts.step e.1 e.2) ts

def ofHistory (h : History) : Tokens := stepAll {} h

def isCancelledAt (ts : Tokens) (i : Nat) (now : Instant) : Bool := (ts.readings now)[i]?.any (·.1)

def isExpiredAt (ts : Tokens) (i : Nat) (now : Instant) : Bool := (ts.readings now)[i]?.any (·.2)

/-- A token as a birth makes it: the first of a family, or one with a deadline no later than its
source has. -/
def Makes (ts : Tokens) (b : Birth) (i : Nat) (t : Token) : Prop :=
  match b.source with
  | none => t = ⟨i, b.deadline?⟩
  | some j => j < i ∧ ∃ t', ts.all[j]? = some t' ∧ t = ⟨t'.family, earlier t'.deadline b.deadline?⟩

/-- The tokens are those that a ledger tells of. -/
structure Follows (ts : Tokens) (l : Ledger) : Prop where
  length : ts.all.length = l.births.length
  made : ∀ {i b t}, l.births[i]? = some b → ts.all[i]? = some t → ts.Makes b i t
  born : ∀ i ∈ l.cancels, i < l.births.length
  cancelled : ∀ f, f ∈ ts.cancelled ↔ ∃ i ∈ l.cancels, ∃ t, ts.all[i]? = some t ∧ t.family = f

theorem Makes.push (h : ts.Makes b i t) (t' : Token) : (ts.push t').Makes b i t := by
  unfold Makes at h ⊢
  split at h
  · exact h
  · obtain ⟨hlt, source, hsource, rfl⟩ := h
    have hsource' : (ts.push t').all[_]? = some source :=
      (List.getElem?_append_left (List.getElem?_eq_some_iff.1 hsource).1).trans hsource
    exact ⟨hlt, source, hsource', rfl⟩

namespace Follows

theorem push (h : ts.Follows l) (ht : ts.Makes b ts.all.length t) :
    (ts.push t).Follows { l with births := l.births ++ [b] } := by
  have hlength := h.length
  have hget : ∀ i < l.births.length, (ts.push t).all[i]? = ts.all[i]? := fun i hi =>
    List.getElem?_append_left (by omega)
  refine ⟨by simp [Tokens.push, hlength], fun {i b' t'} hb' ht' => ?_, fun i hi => ?_, fun f => ?_⟩
  · rcases Nat.lt_trichotomy i l.births.length with hi | rfl | hi
    · rw [hget i hi] at ht'
      rw [List.getElem?_append_left hi] at hb'
      exact (h.made hb' ht').push t
    · obtain rfl : t = t' := by simpa [Tokens.push, ← hlength] using ht'
      obtain rfl : b = b' := by simpa using hb'
      exact hlength ▸ ht.push t
    · have hle : (l.births ++ [b]).length ≤ i := by
        rw [List.length_append]
        exact hi
      rw [List.getElem?_eq_none hle] at hb'
      cases hb'
  · have hi := h.born i hi
    rw [List.length_append]
    omega
  · rw [Tokens.push, h.cancelled f]
    constructor
    · rintro ⟨i, hi, t', ht', rfl⟩
      exact ⟨i, hi, t', (hget i (h.born i hi)).trans ht', rfl⟩
    · rintro ⟨i, hi, t', ht', rfl⟩
      exact ⟨i, hi, t', (hget i (h.born i hi)).symm.trans ht', rfl⟩

theorem cancel (h : ts.Follows l) (ht : ts.all[i]? = some t) :
    Follows { ts with cancelled := t.family :: ts.cancelled }
      { l with cancels := i :: l.cancels } := by
  refine ⟨h.length, h.made, List.forall_mem_cons.2 ⟨?_, h.born⟩, fun f => ?_⟩
  · exact h.length ▸ (List.getElem?_eq_some_iff.1 ht).1
  · simp [h.cancelled f, ht, eq_comm]

theorem step (h : ts.Follows l) (now : Instant) (s : TokenStep) :
    (ts.step now s).Follows (l.note now s) := by
  have hnone : ∀ i, ts.get? i = none → ¬ i < l.births.length := by
    intro i hi
    have hle := List.getElem?_eq_none_iff.1 hi
    have := h.length
    omega
  have hsome : ∀ i t, ts.get? i = some t → i < l.births.length := fun i t hi =>
    h.length ▸ (List.getElem?_eq_some_iff.1 hi).1
  cases s with
  | create =>
    have hmakes : ts.Makes {} ts.all.length ts.fresh := rfl
    simpa [Tokens.step, Ledger.note, TokenStep.birth?, TokenStep.cancel?] using h.push hmakes
  | withTimeout length =>
    have hmakes : ts.Makes ⟨none, some (now, length)⟩ ts.all.length (ts.fresh.within now length) :=
      rfl
    simpa [Tokens.step, Ledger.note, TokenStep.birth?, TokenStep.cancel?] using h.push hmakes
  | child i length =>
    cases hi : ts.get? i with
    | none => simpa [Tokens.step, Ledger.note, TokenStep.birth?, TokenStep.cancel?, hi, hnone i hi]
        using h
    | some t =>
      have hmakes : ts.Makes ⟨some i, some (now, length)⟩ ts.all.length (t.within now length) :=
        ⟨h.length ▸ hsome i t hi, t, hi, rfl⟩
      simpa [Tokens.step, Ledger.note, TokenStep.birth?, TokenStep.cancel?, hi, hsome i t hi]
        using h.push hmakes
  | clone i =>
    cases hi : ts.get? i with
    | none => simpa [Tokens.step, Ledger.note, TokenStep.birth?, TokenStep.cancel?, hi, hnone i hi]
        using h
    | some t =>
      have hmakes : ts.Makes ⟨some i, none⟩ ts.all.length t :=
        ⟨h.length ▸ hsome i t hi, t, hi, by simp [Birth.deadline?, earlier_none]⟩
      simpa [Tokens.step, Ledger.note, TokenStep.birth?, TokenStep.cancel?, hi, hsome i t hi]
        using h.push hmakes
  | cancel i =>
    cases hi : ts.get? i with
    | none => simpa [Tokens.step, Ledger.note, TokenStep.birth?, TokenStep.cancel?, hi, hnone i hi]
        using h
    | some t =>
      simpa [Tokens.step, Ledger.note, TokenStep.birth?, TokenStep.cancel?, hi, hsome i t hi]
        using h.cancel hi

theorem stepAll (h : ts.Follows l) (es : History) : (ts.stepAll es).Follows (l.noteAll es) := by
  induction es generalizing ts l with
  | nil => exact h
  | cons e es ih => exact ih (h.step e.1 e.2)

theorem ofHistory (h : History) : (Tokens.ofHistory h).Follows (.ofHistory h) :=
  stepAll ⟨rfl, by simp, by simp, by simp⟩ h

theorem exists_birth (h : ts.Follows l) (ht : ts.all[i]? = some t) :
    ∃ b, l.births[i]? = some b ∧ ts.Makes b i t := by
  have hi : i < l.births.length := h.length ▸ (List.getElem?_eq_some_iff.1 ht).1
  exact ⟨l.births[i], List.getElem?_eq_getElem hi, h.made (List.getElem?_eq_getElem hi) ht⟩

/-- What holds of the tokens that come from none, and goes from each token to those made from it,
holds of all. -/
theorem induct {P : Nat → Token → Prop} (h : ts.Follows l)
    (root : ∀ {i b}, l.births[i]? = some b → b.source = none → P i ⟨i, b.deadline?⟩)
    (derived : ∀ {i j b t}, l.births[i]? = some b → b.source = some j →
      ts.all[j]? = some t → P j t →
      P i ⟨t.family, earlier t.deadline b.deadline?⟩)
    (ht : ts.all[i]? = some t) : P i t := by
  induction i using Nat.strongRecOn generalizing t with
  | _ i ih =>
    obtain ⟨b, hb, hmakes⟩ := h.exists_birth ht
    unfold Makes at hmakes
    split at hmakes
    · rename_i hs
      exact hmakes ▸ root hb hs
    · rename_i j hs
      obtain ⟨hj, source, hsource, rfl⟩ := hmakes
      exact derived hb hs hsource (ih j hj hsource)

theorem isExpired_iff (h : ts.Follows l) (hnow : now ≤ Instant.latest) (ht : ts.all[i]? = some t) :
    t.isExpired now ↔ l.Expired i now := by
  refine h.induct (P := fun i t => t.isExpired now ↔ l.Expired i now) (fun hb hs => ?_)
    (fun hb hs _ ih => ?_) ht
  · rw [l.expired_root hb hs, Token.isExpired_iff, Birth.passed_deadline? hnow]
  · rw [l.expired_derived hb hs, Token.isExpired_iff, passed_earlier, Birth.passed_deadline? hnow,
      ← Token.isExpired_iff, ih]

theorem of_from (h : ts.Follows l) (hij : l.From i j) :
    (ts.all[i]?).map (·.family) = (ts.all[j]?).map (·.family) := by
  obtain ⟨b, hb, hs⟩ := hij
  have hi : i < ts.all.length := h.length ▸ (List.getElem?_eq_some_iff.1 hb).1
  have hmakes := h.made hb (List.getElem?_eq_getElem hi)
  simp only [Makes, hs] at hmakes
  obtain ⟨-, source, hsource, ht⟩ := hmakes
  simp [List.getElem?_eq_getElem hi, ht, hsource]

theorem of_kin (h : ts.Follows l) (hij : l.Kin i j) :
    (ts.all[i]?).map (·.family) = (ts.all[j]?).map (·.family) := by
  induction hij with
  | refl => rfl
  | tail _ hstep ih => exact ih.trans (hstep.elim h.of_from fun hfrom => (h.of_from hfrom).symm)

theorem kin_family (h : ts.Follows l) (ht : ts.all[i]? = some t) : l.Kin i t.family :=
  h.induct (P := fun i t => l.Kin i t.family) (fun _ _ => .refl)
    (fun hb hs _ ih => ih.head (.inl ⟨_, hb, hs⟩)) ht

theorem kin_iff (h : ts.Follows l) (ht : ts.all[i]? = some t) :
    l.Kin i j ↔ ∃ t', ts.all[j]? = some t' ∧ t'.family = t.family := by
  constructor
  · intro hij
    exact Option.map_eq_some_iff.1 ((h.of_kin hij).symm.trans (by rw [ht]; rfl))
  · rintro ⟨t', ht', hfamily⟩
    have hj := h.kin_family ht'
    rw [hfamily] at hj
    exact (h.kin_family ht).trans hj.symm

theorem isCancelled_iff (h : ts.Follows l) (ht : ts.all[i]? = some t) :
    ts.isCancelled now t ↔ t.isExpired now ∨ l.Withdrawn i := by
  have hcancelled : ts.cancelled.contains t.family ↔ l.Withdrawn i := by
    rw [List.contains_iff_mem, h.cancelled]
    simp only [Ledger.Withdrawn, h.kin_iff ht]
  rw [Tokens.isCancelled, Bool.or_eq_true, hcancelled, or_comm]

theorem isExpiredAt_iff (h : ts.Follows l) (hnow : now ≤ Instant.latest) :
    ts.isExpiredAt i now ↔ l.Expired i now := by
  cases ht : ts.all[i]? with
  | some t => simpa [isExpiredAt, readings, ht] using h.isExpired_iff hnow ht
  | none =>
    refine iff_of_false (by simp [isExpiredAt, readings, ht]) ?_
    rintro ⟨j, b, hij, hb, -⟩
    have hunborn : l.births[i]? = none := by simpa [h.length] using ht
    rcases hij.cases_head with rfl | ⟨_, ⟨b', hb', -⟩, -⟩
    · simp [hunborn] at hb
    · simp [hunborn] at hb'

theorem isCancelledAt_iff (h : ts.Follows l) :
    ts.isCancelledAt i now ↔ ts.isExpiredAt i now ∨ l.Withdrawn i := by
  cases ht : ts.all[i]? with
  | some t => simpa [isCancelledAt, isExpiredAt, readings, ht] using h.isCancelled_iff ht
  | none =>
    refine iff_of_false (by simp [isCancelledAt, readings, ht]) ?_
    rintro (hi | ⟨j, hj, hij⟩)
    · simp [isExpiredAt, readings, ht] at hi
    · have hborn : j < ts.all.length := h.length ▸ h.born j hj
      have hfamily := h.of_kin hij
      simp [ht, List.getElem?_eq_getElem hborn] at hfamily

end Follows

def AgreeAt (ts ts' : Tokens) (i : Nat) (now : Instant) : Prop :=
  ts.isExpiredAt i now = ts'.isExpiredAt i now ∧ ts.isCancelledAt i now = ts'.isCancelledAt i now

theorem Follows.agree {ts' : Tokens} {l' : Ledger} (h : ts.Follows l) (h' : ts'.Follows l')
    (hnow : now ≤ Instant.latest) (hexpired : l.Expired i now ↔ l'.Expired i now)
    (hwithdrawn : l.Withdrawn i ↔ l'.Withdrawn i) : ts.AgreeAt ts' i now := by
  refine ⟨Bool.eq_iff_iff.2 ?_, Bool.eq_iff_iff.2 ?_⟩
  · rw [h.isExpiredAt_iff hnow, h'.isExpiredAt_iff hnow, hexpired]
  · rw [h.isCancelledAt_iff, h'.isCancelledAt_iff, h.isExpiredAt_iff hnow, h'.isExpiredAt_iff hnow,
      hexpired, hwithdrawn]

theorem agree_untimed (h h' : History) {e e' : Instant × TokenStep} (hnow : now ≤ Instant.latest)
    (he : e.2.untimed = e'.2.untimed)
    (hi : ¬ (Ledger.ofHistory (h ++ e :: h')).Derived i (ofHistory h).all.length) :
    (ofHistory (h ++ e :: h')).AgreeAt (ofHistory (h ++ e' :: h')) i now := by
  have hledger : ∀ e : Instant × TokenStep,
      Ledger.ofHistory (h ++ e :: h') =
        ((Ledger.ofHistory h).note e.1 e.2).noteAll h' := fun e => by
    simp [Ledger.ofHistory, Ledger.noteAll]
  have hfollows := Follows.ofHistory (h ++ e :: h')
  have hfollows' := Follows.ofHistory (h ++ e' :: h')
  rw [(Follows.ofHistory h).length] at hi
  rcases (Ledger.ofHistory h).note_untimed e.1 e'.1 he with hsame | hretimed
  · have hledgers : Ledger.ofHistory (h ++ e :: h') = Ledger.ofHistory (h ++ e' :: h') := by
      rw [hledger, hledger, hsame]
    exact hfollows.agree (hledgers ▸ hfollows') hnow .rfl .rfl
  · have hretimed := hretimed.noteAll h'
    rw [← hledger, ← hledger] at hretimed
    refine hfollows.agree hfollows' hnow (Ledger.expired_congr fun j hij => hretimed.getElem? ?_)
      hretimed.withdrawn
    rintro rfl
    exact hi hij

theorem isExpiredAt_cancel (h h' : History) (start : Instant) (j i : Nat)
    (hnow : now ≤ Instant.latest) :
    (ofHistory (h ++ (start, .cancel j) :: h')).isExpiredAt i now =
      (ofHistory (h ++ h')).isExpiredAt i now := by
  have hbirths : (Ledger.ofHistory (h ++ (start, .cancel j) :: h')).births =
      (Ledger.ofHistory (h ++ h')).births := by
    simp only [Ledger.ofHistory, Ledger.noteAll, List.foldl_append, List.foldl_cons]
    exact Ledger.births_noteAll (by simp [Ledger.note, TokenStep.birth?]) h'
  refine Bool.eq_iff_iff.2 ?_
  rw [(Follows.ofHistory _).isExpiredAt_iff hnow, (Follows.ofHistory _).isExpiredAt_iff hnow]
  exact Ledger.expired_congr fun k _ => by rw [hbirths]

/-- The laws of tokens, after whatever has been done with them. A token has expired when a timeout
has elapsed on the way it is derived; it is cancelled when it has expired or cancel was called on
one of its family. So a derived token is cancelled when its source is, a timeout is nothing to
tokens not derived from it, no cancel makes a token expire, families do not meet, and what is
cancelled stays so. -/
theorem readings_derived :
    (∀ h : History, (ofHistory h).all.length = (Ledger.ofHistory h).births.length ∧
      ∀ (i : Nat) (now : Instant), now ≤ Instant.latest →
        ((ofHistory h).isExpiredAt i now ↔ (Ledger.ofHistory h).Expired i now) ∧
        ((ofHistory h).isCancelledAt i now ↔
          (ofHistory h).isExpiredAt i now ∨ (Ledger.ofHistory h).Withdrawn i)) ∧
    (∀ (h : History) (i j : Nat) (now : Instant), now ≤ Instant.latest →
      (Ledger.ofHistory h).Derived i j →
      (ofHistory h).isCancelledAt j now → (ofHistory h).isCancelledAt i now) ∧
    (∀ (h h' : History) (e e' : Instant × TokenStep) (i : Nat) (now : Instant),
      now ≤ Instant.latest → e.2.untimed = e'.2.untimed →
      ¬ (Ledger.ofHistory (h ++ e :: h')).Derived i (ofHistory h).all.length →
      (ofHistory (h ++ e :: h')).AgreeAt (ofHistory (h ++ e' :: h')) i now) ∧
    (∀ (h h' : History) (start : Instant) (j i : Nat) (now : Instant), now ≤ Instant.latest →
      (ofHistory (h ++ (start, .cancel j) :: h')).isExpiredAt i now =
        (ofHistory (h ++ h')).isExpiredAt i now) ∧
    (∀ (h h' : History) (i : Nat) (now : Instant), now ≤ Instant.latest →
      (∀ j, (Ledger.ofHistory h).Kin i j ∨ (Ledger.ofHistory h').Kin i j →
        (Ledger.ofHistory h).births[j]? = (Ledger.ofHistory h').births[j]? ∧
        (j ∈ (Ledger.ofHistory h).cancels ↔ j ∈ (Ledger.ofHistory h').cancels)) →
      (ofHistory h).AgreeAt (ofHistory h') i now) ∧
    ∀ (h h' : History) (i : Nat) (now now' : Instant), now ≤ now' → now' ≤ Instant.latest →
      (ofHistory h).isCancelledAt i now → (ofHistory (h ++ h')).isCancelledAt i now' := by
  refine ⟨fun h => ⟨(Follows.ofHistory h).length, fun i now hnow =>
      ⟨(Follows.ofHistory h).isExpiredAt_iff hnow, (Follows.ofHistory h).isCancelledAt_iff⟩⟩,
    fun h i j now hnow hij hj => ?_,
    fun h h' e e' i now hnow he hi => agree_untimed h h' hnow he hi,
    fun h h' start j i now hnow => isExpiredAt_cancel h h' start j i hnow,
    fun h h' i now hnow hsame => ?_, fun h h' i now now' hle hnow hi => ?_⟩
  · have hfollows := Follows.ofHistory h
    rw [hfollows.isCancelledAt_iff, hfollows.isExpiredAt_iff hnow] at hj ⊢
    exact hj.imp (Ledger.Expired.derived hij) (Ledger.Withdrawn.kin hij.kin)
  · have hkin : ∀ j, (Ledger.ofHistory h).Kin i j ↔ (Ledger.ofHistory h').Kin i j := fun j =>
      ⟨Ledger.Kin.congr fun k hk => (hsame k hk).1,
        Ledger.Kin.congr fun k hk => (hsame k hk.symm).1.symm⟩
    exact (Follows.ofHistory h).agree (Follows.ofHistory h') hnow
      (Ledger.expired_congr fun j hij => (hsame j (.inl hij.kin)).1)
      (Ledger.withdrawn_congr hkin fun j hij => (hsame j (.inl hij)).2)
  · have hgrows : (Ledger.ofHistory h).Grows (Ledger.ofHistory (h ++ h')) := by
      simpa [Ledger.ofHistory, Ledger.noteAll] using (Ledger.ofHistory h).grows_noteAll h'
    have hfollows := Follows.ofHistory h
    have hfollows' := Follows.ofHistory (h ++ h')
    rw [hfollows.isCancelledAt_iff, hfollows.isExpiredAt_iff (Nat.le_trans hle hnow)] at hi
    rw [hfollows'.isCancelledAt_iff, hfollows'.isExpiredAt_iff hnow]
    exact hi.imp (hgrows.expired hle) hgrows.withdrawn

/-- A child whose deadline is beyond all times, the same one with little time, and a cancel on a
token of its own. -/
theorem readings_derived_child :
    let h : History := [(0, .create)]
    let long : Instant × TokenStep := (1, .child 0 Instant.longestTimeout)
    let short : Instant × TokenStep := (1, .child 0 5)
    ¬ (Ledger.ofHistory (h ++ [long])).Expired 1 Instant.latest ∧
      (Ledger.ofHistory (h ++ [short])).Expired 1 6 ∧
      (ofHistory (h ++ short :: [])).AgreeAt (ofHistory (h ++ long :: [])) 0 6 ∧
      (ofHistory (h ++ [long, (2, .cancel 0)] ++ [(3, .clone 1)])).isCancelledAt 1 4 ∧
      (ofHistory (h ++ [(1, .create), (2, .cancel 1)])).AgreeAt
      (ofHistory (h ++ [(1, .create)])) 0 4 := by
  intro h long short
  have hlaw := readings_derived.1
  have hroot : ¬ (Ledger.ofHistory (h ++ short :: [])).Derived 0 1 := by
    intro hderived
    rcases hderived.cases_head with h01 | ⟨k, ⟨b, hb, hs⟩, -⟩
    · cases h01
    · cases hb
      cases hs
  have hchild : (Ledger.ofHistory (h ++ [long, (2, .cancel 0)])).Derived 1 0 :=
    .single ⟨_, rfl, rfl⟩
  have hlone : ∀ is j, Ledger.Kin ⟨[{}, {}], is⟩ 0 j → j = 0 := by
    intro is j hkin
    have hfrom : ∀ i k, ¬ Ledger.From ⟨[{}, {}], is⟩ i k := by
      rintro (_ | _ | i) k ⟨b, hb, hs⟩ <;> cases hb <;> cases hs
    rcases hkin.cases_head with h0 | ⟨k, hk | hk, -⟩
    · exact h0.symm
    · exact absurd hk (hfrom _ _)
    · exact absurd hk (hfrom _ _)
  refine ⟨fun hexpired => ?_, ?_, ?_, ?_, ?_⟩
  · have hread := (((hlaw (h ++ [long])).2 1 Instant.latest (by decide)).1).2 hexpired
    revert hread
    decide
  · exact (((hlaw (h ++ [short])).2 1 6 (by decide)).1).1 (by decide)
  · exact readings_derived.2.2.1 h [] short long 0 6 (by decide) rfl hroot
  · have hcancelled :=
      readings_derived.2.1 (h ++ [long, (2, .cancel 0)]) 1 0 2 (by decide) hchild (by decide)
    exact readings_derived.2.2.2.2.2 (h ++ [long, (2, .cancel 0)]) [(3, .clone 1)] 1 2 4
      (by decide) (by decide)
      hcancelled
  · refine readings_derived.2.2.2.2.1 _ _ 0 4 (by decide) fun j hj => ?_
    obtain rfl : j = 0 := hj.elim (hlone _ j) (hlone _ j)
    exact ⟨rfl, by decide⟩

end Tokens

end Wiring
