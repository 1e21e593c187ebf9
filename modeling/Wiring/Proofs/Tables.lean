import Wiring.Table

set_option autoImplicit false

namespace Wiring.Table

variable {κ α β : Type} [Ord κ] [Std.LawfulEqOrd κ] {t : Table κ α} {k : κ} {a : α}

theorem mem_of_get? (h : t.get? k = some a) : (k, a) ∈ t.entries := by
  obtain ⟨e, he, rfl⟩ := Option.map_eq_some_iff.1 h
  have hk := List.find?_some he
  obtain rfl := Std.LawfulEqOrd.eq_of_compare (eq_of_beq hk)
  exact List.mem_of_find?_eq_some he

theorem find?_of_mem {es : List (κ × α)} (hs : es.Pairwise fun a b => compare a.1 b.1 = .lt)
    (h : (k, a) ∈ es) : (es.find? fun e => compare k e.1 == .eq).map (·.2) = some a := by
  induction es with
  | nil => cases h
  | cons e es ih =>
    have ⟨he, hs⟩ := List.pairwise_cons.1 hs
    rcases List.mem_cons.1 h with rfl | h
    · simp
    · have hne : (compare k e.1 == .eq) = false := by
        have hlt := he _ h
        cases hc : compare k e.1 with
        | eq =>
          obtain rfl := Std.LawfulEqOrd.eq_of_compare hc
          simp at hlt
        | _ => rfl
      rw [List.find?_cons, hne]
      exact ih hs h

theorem get?_eq_some_iff : t.get? k = some a ↔ (k, a) ∈ t.entries :=
  ⟨mem_of_get?, find?_of_mem t.sorted⟩

theorem mem_keys_iff : k ∈ t.keys ↔ ∃ a, t.get? k = some a := by
  simp [keys, get?_eq_some_iff]

theorem mem_values_iff : a ∈ t.values ↔ ∃ k, t.get? k = some a := by
  simp [values, get?_eq_some_iff]

theorem keys_nodup (t : Table κ α) : t.keys.Nodup := by
  rw [keys, List.nodup_iff_pairwise_ne, List.pairwise_map]
  refine t.sorted.imp fun {a b} h e => ?_
  rw [e] at h
  simp at h

theorem get?_filterMap (f : κ → α → Option β) :
    (t.filterMap f).get? k = (t.get? k).bind (f k) := by
  apply Option.ext
  intro b
  simp only [get?_eq_some_iff, Option.bind_eq_some_iff, filterMap, List.mem_filterMap,
    Option.map_eq_some_iff, Prod.mk.injEq]
  constructor
  · rintro ⟨⟨j, a⟩, h, c, hc, rfl, rfl⟩
    exact ⟨a, h, hc⟩
  · rintro ⟨a, h, hb⟩
    exact ⟨(k, a), h, b, hb, rfl, rfl⟩

end Wiring.Table
