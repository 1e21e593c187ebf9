import Mathlib.Data.List.Flatten
import Mathlib.Logic.Relation
import Wiring.Model.Compose
import Wiring.Proofs.Links
import Wiring.Proofs.Building

set_option autoImplicit false

namespace Wiring

open Relation

namespace Catalog

variable {c : Catalog} {s t u target : TypeName} {info : TypeInfo} {pending seen : List TypeName}
  {steps : Nat}

def Under (c : Catalog) (t u : TypeName) : Prop :=
  ∃ info, c.types.get? t = some info ∧ u ∈ info.supertypes

/-- The way up from types that have not been seen. -/
def UnderUnseen (c : Catalog) (seen : List TypeName) (t u : TypeName) : Prop :=
  t ∉ seen ∧ c.Under t u

/-- The supertypes that a search may still have to list. -/
def unseen (seen : List TypeName) (es : List (TypeName × TypeInfo)) : List TypeName :=
  (es.filter fun e => e.1 ∉ seen).flatMap fun e => e.2.supertypes

theorem unseen_cons (seen : List TypeName) (e : TypeName × TypeInfo)
    (es : List (TypeName × TypeInfo)) :
    unseen seen (e :: es) = if e.1 ∈ seen then unseen seen es
      else e.2.supertypes ++ unseen seen es := by
  by_cases he : e.1 ∈ seen <;> simp [unseen, he]

theorem length_unseen_cons_le (seen : List TypeName) (t : TypeName)
    (es : List (TypeName × TypeInfo)) :
    (unseen (t :: seen) es).length ≤ (unseen seen es).length := by
  have hsub : (es.filter fun e => e.1 ∉ t :: seen).Sublist (es.filter fun e => e.1 ∉ seen) :=
    List.monotone_filter_right es fun e he => by simp_all
  exact (hsub.flatMap fun e => e.2.supertypes).length_le

theorem length_unseen_cons {es : List (TypeName × TypeInfo)} (hm : (t, info) ∈ es) (ht : t ∉ seen) :
    info.supertypes.length + (unseen (t :: seen) es).length ≤ (unseen seen es).length := by
  induction es with
  | nil => cases hm
  | cons e es ih =>
    rw [unseen_cons, unseen_cons]
    rcases List.mem_cons.1 hm with rfl | hm
    · rw [if_pos List.mem_cons_self, if_neg ht, List.length_append]
      exact Nat.add_le_add_left (length_unseen_cons_le seen t es) _
    · have hrest := ih hm
      by_cases he : e.1 ∈ seen
      · rwa [if_pos he, if_pos (List.mem_cons_of_mem _ he)]
      · rw [if_neg he, List.length_append]
        split
        · omega
        · rw [List.length_append]
          omega

def supertypesOf (c : Catalog) (t : TypeName) : List TypeName :=
  ((c.types.get? t).map (·.supertypes)).getD []

theorem mem_supertypesOf : u ∈ c.supertypesOf t ↔ c.Under t u := by
  unfold supertypesOf Under
  cases c.types.get? t <;> simp

theorem length_supertypesOf (ht : t ∉ seen) :
    (c.supertypesOf t).length + (unseen (t :: seen) c.types.entries).length ≤
    (unseen seen c.types.entries).length := by
  unfold supertypesOf
  cases hg : c.types.get? t with
  | none => simpa using length_unseen_cons_le seen t c.types.entries
  | some info => exact length_unseen_cons (Table.mem_of_get? hg) ht

theorem eq_of_seen (h : ReflTransGen (c.UnderUnseen seen) t target) (ht : t ∈ seen) :
    t = target := by
  obtain heq | ⟨_, hstep, _⟩ := h.cases_head
  · exact heq
  · exact absurd ht hstep.1

/-- A way up that has not been seen misses a type, or goes on from it for the last time. -/
theorem underUnseen_split (h : ReflTransGen (c.UnderUnseen seen) s target) (t : TypeName) :
    ReflTransGen (c.UnderUnseen (t :: seen)) s target ∨
      ∃ u, c.Under t u ∧ ReflTransGen (c.UnderUnseen (t :: seen)) u target := by
  induction h using ReflTransGen.head_induction_on with
  | refl => exact .inl .refl
  | @head s u hstep _ ih =>
    rcases ih with hrest | hlast
    · by_cases hst : s = t
      · exact .inr ⟨u, hst ▸ hstep.2, hrest⟩
      · exact .inl (.head ⟨by simp [hst, hstep.1], hstep.2⟩ hrest)
    · exact .inr hlast

theorem exists_underUnseen_cons (ht : t ∉ seen) (hne : t ≠ target) :
    (∃ s ∈ t :: pending, ReflTransGen (c.UnderUnseen seen) s target) ↔
      ∃ s ∈ c.supertypesOf t ++ pending, ReflTransGen (c.UnderUnseen (t :: seen)) s target := by
  constructor
  · rintro ⟨s, hs, hway⟩
    rcases underUnseen_split hway t with hway | ⟨u, hu, hway⟩
    · rcases List.mem_cons.1 hs with rfl | hs
      · exact absurd (eq_of_seen hway List.mem_cons_self) hne
      · exact ⟨s, List.mem_append_right _ hs, hway⟩
    · exact ⟨u, List.mem_append_left _ (mem_supertypesOf.2 hu), hway⟩
  · rintro ⟨s, hs, hway⟩
    have hwider : c.UnderUnseen (t :: seen) ≤ c.UnderUnseen seen :=
      fun _ _ hstep => ⟨fun hm => hstep.1 (List.mem_cons_of_mem _ hm), hstep.2⟩
    have hway := ReflTransGen.mono hwider _ _ hway
    rcases List.mem_append.1 hs with hs | hs
    · exact ⟨t, List.mem_cons_self, .head ⟨ht, mem_supertypesOf.1 hs⟩ hway⟩
    · exact ⟨s, List.mem_cons_of_mem _ hs, hway⟩

/-- A search with steps enough finds the target exactly if there is an unseen way up to it. -/
theorem reaches_iff (hsteps : pending.length + (unseen seen c.types.entries).length ≤ steps) :
    c.reaches target steps pending seen ↔
    ∃ t ∈ pending, ReflTransGen (c.UnderUnseen seen) t target := by
  induction steps generalizing pending seen with
  | zero =>
    obtain rfl : pending = [] := List.eq_nil_of_length_eq_zero (by omega)
    simp [reaches]
  | succ steps ih =>
    cases pending with
    | nil => simp [reaches]
    | cons t pending =>
      rw [List.length_cons] at hsteps
      unfold reaches
      split
      · rename_i heq
        exact iff_of_true rfl ⟨t, List.mem_cons_self, heq ▸ .refl⟩
      · rename_i hne
        split
        · rename_i hseen
          have hstuck : ¬ ReflTransGen (c.UnderUnseen seen) t target :=
            fun h => hne (eq_of_seen h (by simpa using hseen))
          rw [ih (by omega)]
          simp [hstuck]
        · rename_i hseen
          have ht : t ∉ seen := by simpa using hseen
          have hcount := length_supertypesOf (c := c) ht
          rw [exists_underUnseen_cons ht hne, ← ih (by rw [List.length_append]; omega)]
          rfl

theorem reaches_supertypes :
    c.reaches target (c.supertypeCount + 1) [s] [] ↔ ReflTransGen c.Under s target := by
  have hall : unseen [] c.types.entries = c.types.values.flatMap (·.supertypes) := by
    simp [unseen, Table.values, List.flatMap_map]
  have hnone : c.UnderUnseen [] = c.Under := by
    funext t u
    simp [UnderUnseen]
  rw [reaches_iff (by rw [hall, supertypeCount, List.length_singleton, Nat.add_comm]), hnone]
  simp

theorem eq_or_known_of_under (h : ReflTransGen c.Under s t) : s = t ∨ c.types.contains s := by
  refine h.cases_head.imp id ?_
  rintro ⟨_, ⟨info, hg, _⟩, _⟩
  simp [Table.contains, hg]

theorem isAssignable_eq (c : Catalog) (s t : TypeName) [Decidable (ReflTransGen c.Under s t)] :
    c.isAssignable s t =
      if ReflTransGen c.Under s t then some true
        else if c.types.contains s then some false else none := by
  unfold isAssignable
  by_cases hst : s = t
  · rw [if_pos hst, if_pos (hst ▸ .refl)]
  · rw [if_neg hst]
    cases hk : c.types.contains s with
    | false =>
      rw [if_neg fun h => (eq_or_known_of_under h).elim hst (by simp [hk])]
      rfl
    | true =>
      by_cases hreach : ReflTransGen c.Under s t
      · simp [hreach, reaches_supertypes.2 hreach]
      · simp [hreach, mt reaches_supertypes.1 hreach]

theorem isAssignable_eq_true_iff : c.isAssignable s t = some true ↔ ReflTransGen c.Under s t := by
  classical
  rw [isAssignable_eq]
  split
  · simp [*]
  · split <;> simp [*]

theorem isAssignable_eq_false_iff :
    c.isAssignable s t = some false ↔ c.types.contains s ∧ ¬ ReflTransGen c.Under s t := by
  classical
  rw [isAssignable_eq]
  split
  · simp [*]
  · split <;> simp [*]

end Catalog

theorem AliasChain.follow_mismatch_iff {ch : AliasChain} {c : Catalog} {d : Link} :
    (∃ k target linked location,
      ch.follow c d = .error (.invalidLink k (.typeMismatch target linked) location)) ↔
      c.isAssignable (d.next ch.current).type ch.current.type = some false := by
  unfold follow
  dsimp only
  constructor
  · rintro ⟨k, target, linked, location, h⟩
    split at h
    · assumption
    · split at h <;> cases h
  · intro h
    rw [if_pos h]
    exact ⟨_, _, _, _, rfl⟩

namespace Lookup

variable {l : Lookup} {k : Key} {r : Resolved}

theorem resolve_under (h : l.resolve k = .ok r) : ∃ rest, r.via ++ [r.key] = k :: rest ∧
    ((∀ j ∈ rest, l.catalog.types.contains j.type) →
      ReflTransGen l.catalog.Under r.key.type k.type) := by
  have hfrom : ∀ {n : Nat} {ch : AliasChain} {r : Resolved}, l.resolveFrom n ch = .ok r →
      ∃ rest, r.via ++ [r.key] = ch.aliases ++ ch.current :: rest ∧
        ((∀ j ∈ rest, l.catalog.types.contains j.type) →
          ReflTransGen l.catalog.Under r.key.type ch.current.type) := by
    intro n ch r h
    induction h using resolveFrom_induct with
    | here => exact ⟨[], rfl, fun _ => .refl⟩
    | there n ch d r _ _ hopen _ ih =>
      obtain ⟨rest, hrest, hunder⟩ := ih
      refine ⟨d.next ch.current :: rest, by simpa [AliasChain.after] using hrest, fun hknown => ?_⟩
      obtain ⟨hnext, hknown⟩ := List.forall_mem_cons.1 hknown
      refine (hunder hknown).trans (by_contra fun hno => hopen.1 ?_)
      exact Catalog.isAssignable_eq_false_iff.2 ⟨hnext, hno⟩
  exact hfrom h

/-- Aliases are safe: what a request comes to stands in for what was asked for, whatever the links
on the way, if every type that a link leads to is known. A link is refused for its type exactly if
that type is known, is another one than that of the key it is followed from, and is not declared to
be below it. -/
theorem resolve_assignable (l : Lookup) :
    (∀ k r, l.resolve k = .ok r → ∃ rest, r.via ++ [r.key] = k :: rest ∧
      ((∀ j ∈ rest, l.catalog.types.contains j.type) →
        (r.key.type = k.type ∨ TransGen l.catalog.Under r.key.type k.type) ∧
          l.catalog.isAssignable r.key.type k.type = some true)) ∧
    ∀ (ch : AliasChain) (d : Link),
      (∃ k target linked location,
        ch.follow l.catalog d = .error (.invalidLink k (.typeMismatch target linked) location)) ↔
        (d.next ch.current).type ≠ ch.current.type ∧
        l.catalog.types.contains (d.next ch.current).type ∧
          ¬ TransGen l.catalog.Under (d.next ch.current).type ch.current.type := by
  constructor
  · intro k r h
    obtain ⟨rest, hrest, hunder⟩ := resolve_under h
    refine ⟨rest, hrest, fun hknown => ⟨?_, Catalog.isAssignable_eq_true_iff.2 (hunder hknown)⟩⟩
    exact (reflTransGen_iff_eq_or_transGen.1 (hunder hknown)).imp_left Eq.symm
  · intro ch d
    rw [AliasChain.follow_mismatch_iff, Catalog.isAssignable_eq_false_iff,
      reflTransGen_iff_eq_or_transGen, not_or, and_left_comm, ne_comm]

end Lookup

def tieredModel : Model where
  specifications := [
    { id := "S"
      factories := [.ofKey "make_c" ⟨"C", none⟩]
      links := [.between ⟨"A", none⟩ ⟨"B", none⟩, .between ⟨"B", none⟩ ⟨"C", none⟩,
        .between ⟨"D", none⟩ ⟨"C", none⟩] }]
  types := [{ name := "B", supertypes := ["A", "C"] }, { name := "C", supertypes := ["B"] }]

theorem resolve_assignable_tiered : ∃ c r p, Catalog.ofModel tieredModel = .ok c ∧
    Registry.register tieredModel.specifications [] = .ok r ∧
    (⟨c, r, true⟩ : Lookup).resolve ⟨"A", none⟩ = .ok ⟨⟨"C", none⟩, [⟨"A", none⟩, ⟨"B", none⟩], p⟩ ∧
    TransGen c.Under "C" "A" ∧ c.isAssignable "C" "A" = some true ∧
    ¬ TransGen c.Under "C" "D" ∧
    ∃ d ∈ r.links.values, d.value.target = ⟨"D", none⟩ ∧ ∃ k target linked location,
      (AliasChain.start ⟨"D", none⟩).follow c d.value =
        .error (.invalidLink k (.typeMismatch target linked) location) := by
  have h : (Catalog.ofModel tieredModel).toOption.any fun c =>
      (Registry.register tieredModel.specifications []).toOption.any fun r =>
        ((⟨c, r, true⟩ : Lookup).resolve ⟨"A", none⟩).toOption.any (fun res =>
          decide (res.key = ⟨"C", none⟩ ∧ res.via = [⟨"A", none⟩, ⟨"B", none⟩])) &&
        c.types.contains "B" && c.types.contains "C" &&
        decide (c.isAssignable "C" "D" = some false) &&
        r.links.values.any fun d =>
        decide (d.value.target = ⟨"D", none⟩ ∧ d.value.next ⟨"D", none⟩ = ⟨"C", none⟩) := by
    decide +kernel
  obtain ⟨c, hc, h⟩ := exists_of_any h
  obtain ⟨r, hr, h⟩ := exists_of_any h
  simp only [Bool.and_eq_true] at h
  obtain ⟨⟨⟨⟨hres, hb⟩, hknown⟩, hunrelated⟩, hlink⟩ := h
  obtain ⟨⟨key, via, p⟩, hres, hkey⟩ := exists_of_any hres
  obtain ⟨rfl, rfl⟩ : key = _ ∧ via = _ := of_decide_eq_true hkey
  obtain ⟨d, hd, hnext⟩ := List.any_eq_true.1 hlink
  obtain ⟨htarget, hnext⟩ := of_decide_eq_true hnext
  obtain ⟨hsafe, hrefused⟩ := Lookup.resolve_assignable ⟨c, r, true⟩
  obtain ⟨rest, hrest, hall⟩ := hsafe _ _ hres
  obtain rfl : rest = [⟨"B", none⟩, ⟨"C", none⟩] := (List.cons.inj hrest).2.symm
  obtain ⟨habove, hassignable⟩ := hall (by simp [hb, hknown])
  have hno : ¬ TransGen c.Under "C" "D" := fun hunder =>
    (Catalog.isAssignable_eq_false_iff.1 (of_decide_eq_true hunrelated)).2 hunder.to_reflTransGen
  refine ⟨c, r, p, hc, hr, hres, habove.resolve_left (by simp), hassignable, hno, d,
    hd, htarget, ?_⟩
  exact (hrefused (.start ⟨"D", none⟩) d.value).2
    (by simpa [AliasChain.start, hnext, hknown] using hno)

end Wiring
