import Mathlib.Data.List.Induction
import Wiring.Proofs.Tables
import Wiring.Registry

set_option autoImplicit false

namespace Wiring

theorem only?_eq_some_iff {α : Type} {as : List α} {a : α} : only? as = some a ↔ as = [a] := by
  unfold only?
  split
  · simp
  · rename_i hnot
    exact ⟨fun h => by simp at h, fun h => absurd h (hnot a)⟩

namespace Table

variable {κ α : Type} [Ord κ] [Std.TransOrd κ] [Std.LawfulEqOrd κ] [DecidableEq κ]

omit [Std.LawfulEqOrd κ] [DecidableEq κ] in
theorem group_concat (es : List (κ × α)) (e : κ × α) :
    group (es ++ [e]) = (group es).insert e.1 (((group es).get? e.1).getD [] ++ [e.2]) := by
  simp [group]

theorem get?_group (es : List (κ × α)) (k : κ) : (group es).get? k =
    if es.filter (·.1 = k) = [] then none else some ((es.filter (·.1 = k)).map (·.2)) := by
  induction es using List.reverseRecOn with
  | nil => rfl
  | append_singleton es e ih =>
    rw [group_concat, get?_insert, List.filter_append]
    by_cases hk : k = e.1
    · subst hk
      rw [ih]
      by_cases hes : es.filter (·.1 = e.1) = [] <;> simp [hes]
    · have hnone : [e].filter (·.1 = k) = [] := by simp [Ne.symm hk]
      rw [if_neg hk, hnone, List.append_nil, ih]

theorem mem_of_only {es : List (κ × α)} {k : κ} {a : α}
    (h : ((group es).filterMap fun _ => only?).get? k = some a) : (k, a) ∈ es := by
  rw [get?_filterMap, get?_group] at h
  split at h
  · cases h
  · have hm : a ∈ (es.filter (·.1 = k)).map (·.2) := by
      rw [only?_eq_some_iff.1 h]
      exact List.mem_cons_self
    obtain ⟨e, he, rfl⟩ := List.mem_map.1 hm
    obtain ⟨hmem, hk⟩ := List.mem_filter.1 he
    obtain rfl : e.1 = k := of_decide_eq_true hk
    exact hmem

theorem get?_foldl_insertNew (es : List (κ × α)) (t : Table κ α) (k : κ) :
    (es.foldl (fun t e => t.insertNew e.1 e.2) t).get? k =
      (t.get? k <|> (es.find? (·.1 = k)).map (·.2)) := by
  induction es generalizing t with
  | nil => cases h : t.get? k <;> simp [h]
  | cons e es ih =>
    rw [List.foldl_cons, ih, get?_insertNew]
    cases h : t.get? k <;> by_cases hk : k = e.1
    · subst hk
      simp [h]
    · simp [hk, Ne.symm hk]
    · subst hk
      simp [h]
    · simp [hk]

end Table

namespace Registry

variable {ss : List Specification} {is : List Interface} {r : Registry}

theorem get?_externals (c : Candidates) (is : List Interface) (k : Key) :
    (c.registry is).externals.get? k = (is.find? (k ∈ ·.keys)).map (·.id) := by
  refine (Table.get?_foldl_insertNew _ _ k).trans ((Option.none_or).trans ?_)
  induction is with
  | nil => rfl
  | cons i is ih =>
    have hpairs : (i.keys.map (·, i.id)).find? (·.1 = k) = (i.keys.find? (· = k)).map (·, i.id) :=
      List.find?_map
    rw [List.flatMap_cons, List.find?_append, hpairs, List.find?_cons]
    by_cases hk : k ∈ i.keys
    · obtain ⟨k', hk'⟩ :=
        Option.isSome_iff_exists.1 (List.find?_isSome (p := (· = k)).2 ⟨k, hk, by simp⟩)
      simp [hk, hk']
    · have hnone : i.keys.find? (· = k) = none := by
        simp only [List.find?_eq_none, decide_eq_true_eq]
        rintro k' hk' rfl
        exact hk hk'
      simp only [hnone, hk, decide_false]
      exact ih

theorem register_ok_iff : register ss is = .ok r ↔ (Candidates.ofSpecifications ss).conflicts = [] ∧
    r.clashes is = [] ∧ r = (Candidates.ofSpecifications ss).registry is := by
  unfold register
  dsimp only
  split
  · rename_i hnone
    obtain ⟨hc, hi⟩ := List.append_eq_nil_iff.1 hnone
    simp only [Except.ok.injEq]
    constructor
    · rintro rfl
      exact ⟨hc, hi, rfl⟩
    · rintro ⟨_, _, rfl⟩
      rfl
  · rename_i hsome
    simp only [reduceCtorEq, false_iff, not_and]
    rintro hc hi rfl
    exact hsome (List.append_eq_nil_iff.2 ⟨hc, hi⟩)

/-- Links are listed by how they map qualifiers, under what they are declared for. -/
structure Sorted (r : Registry) : Prop where
  links : ∀ {k : Key} {d : Declared Link}, r.links.get? k = some d →
    d.value.mapping = .declared ∧ d.value.target = k
  inheriting : ∀ {t : TypeName} {d : Declared Link}, r.inheriting.get? t = some d →
    d.value.mapping = .inherit ∧ d.value.target.type = t

theorem sorted_of_register (h : register ss is = .ok r) : r.Sorted := by
  obtain ⟨_, _, rfl⟩ := register_ok_iff.1 h
  constructor
  · intro k d hd
    obtain ⟨d', hd', heq⟩ := List.mem_map.1 (Table.mem_of_only hd)
    obtain ⟨htarget, rfl⟩ := Prod.mk.inj heq
    exact ⟨of_decide_eq_true (List.mem_filter.1 hd').2, htarget⟩
  · intro t d hd
    obtain ⟨d', hd', heq⟩ := List.mem_map.1 (Table.mem_of_only hd)
    obtain ⟨htarget, rfl⟩ := Prod.mk.inj heq
    exact ⟨of_decide_eq_true (List.mem_filter.1 hd').2, htarget⟩

end Registry

end Wiring
