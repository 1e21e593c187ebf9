import Wiring.Proofs.Moves

/-!
The answers that are kept while a hierarchy is settled. An answer is given once and stands, because
the search for it goes up through injectors of lower rank only.
-/

set_option autoImplicit false

namespace Wiring

/-- After a key has been passed on its injector is not asked for it again. -/
def Move.Before (m m' : Move) : Prop :=
  ∀ k, m.request = .pass k → m'.injector = m.injector → m'.request ≠ .offer k ∧ m'.request ≠ .pass k

namespace Hierarchy

variable {c : Catalog} {rank : InjectorId → Nat}
  (hrank : ∀ child p, p ∈ c.parentIds child → rank p < rank child)
  {key k : Key} {id j : InjectorId} {ids : List InjectorId} {h h' : Hierarchy} {log : List Move}
  {b b' : Bool} {d : Demand} {n : Nat} {es : List (InjectorId × Requirement)}

theorem get?_answer_of_ne {e : Demand} (hne : d ≠ e) :
    (h.answer e b).answers.get? d = h.answers.get? d := by
  rw [get?_answer, if_neg hne]

theorem get?_answer_true {e : Demand} (hd : h.answers.get? d = some true) :
    (h.answer e true).answers.get? d = some true := by
  rw [get?_answer]
  split
  · rfl
  · exact hd

theorem answered_ne {e : Demand} (hd : h.answers.get? d = some b) (he : h.answers.get? e = none) :
    d ≠ e := by
  rintro rfl
  rw [hd] at he
  cases he

theorem Asks.untouched {P : InjectorId → Prop}
    (hup : ∀ child, P child → ∀ p ∈ c.parentIds child, P p) (ha : Asks c key ids h log b h')
    (hids : ∀ id ∈ ids, P id) (hd : ¬ P d.injector) : h'.answers.get? d = h.answers.get? d := by
  have other : ∀ {id : InjectorId}, P id → d ≠ ⟨id, key⟩ := by
    rintro id hid rfl
    exact hd hid
  induction ha with
  | nil | denied => rfl
  | granted _ _ ih => exact ih (List.forall_mem_cons.1 hids).2
  | absent => exact get?_answer_of_ne (other (hids _ List.mem_cons_self))
  | exported _ _ _ _ ih =>
    obtain ⟨hid, hids⟩ := List.forall_mem_cons.1 hids
    rw [ih hids, get?_answer_of_ne (other hid), answers_perform]
  | refused _ _ _ _ _ ih =>
    have hid := hids _ List.mem_cons_self
    rw [get?_answer_of_ne (other hid), ih (hup _ hid), answers_perform]
  | forwarded _ _ _ _ _ _ ih ih' =>
    obtain ⟨hid, hids⟩ := List.forall_mem_cons.1 hids
    rw [ih' hids, get?_answer_of_ne (other hid), answers_perform, ih (hup _ hid), answers_perform]

section Rank

include hrank

/-- A search leaves everything alone that it does not reach from below. -/
theorem Asks.frame (ha : Asks c key ids h log b h') (hids : ∀ id ∈ ids, rank id < n)
    (hj : n ≤ rank j) :
    h'.answers.get? ⟨j, k⟩ = h.answers.get? ⟨j, k⟩ ∧ ∀ m ∈ log, m.injector ≠ j := by
  have hup : ∀ child, rank child < n → ∀ p ∈ c.parentIds child, rank p < n := fun child hlt p hp =>
    Nat.lt_trans (hrank child p hp) hlt
  refine ⟨ha.untouched hup hids (Nat.not_lt.2 hj), fun m hm => ?_⟩
  rintro rfl
  exact Nat.not_lt.2 hj (ha.within hup hids hm)

theorem Asks.frame_self (ha : Asks c key (c.parentIds id) h log b h') (k : Key) :
    h'.answers.get? ⟨id, k⟩ = h.answers.get? ⟨id, k⟩ ∧ ∀ m ∈ log, m.injector ≠ id :=
  ha.frame hrank (fun p hp => hrank id p hp) (Nat.le_refl _)

end Rank

theorem Asks.answers_stand (ha : Asks c key ids h log b h') (hd : h.answers.get? d = some b') :
    h'.answers.get? d = some b' := by
  induction ha with
  | nil | denied => exact hd
  | granted _ _ ih => exact ih hd
  | absent hn _ => rw [get?_answer_of_ne (answered_ne hd hn), hd]
  | exported hn _ _ _ ih =>
    exact ih (by rw [get?_answer_of_ne (answered_ne hd hn), answers_perform, hd])
  | refused hn _ _ _ _ ih =>
    rw [get?_answer_of_ne (answered_ne hd hn), ih (by rw [answers_perform, hd])]
  | forwarded hn _ _ _ _ _ ih ih' =>
    refine ih' ?_
    rw [get?_answer_of_ne (answered_ne hd hn), answers_perform, ih (by rw [answers_perform, hd])]

theorem Asks.answered (ha : Asks c key ids h log b h') :
    if b then ∀ id ∈ ids, h'.answers.get? ⟨id, key⟩ = some true
    else ∃ id ∈ ids, h'.answers.get? ⟨id, key⟩ = some false := by
  -- the answer of the first injector stands while the others are asked
  have first : ∀ {id : InjectorId} {ids : List InjectorId} {h h' : Hierarchy} {log : List Move}
      {b : Bool}, Asks c key ids h log b h' → h.answers.get? ⟨id, key⟩ = some true →
      (if b then ∀ id ∈ ids, h'.answers.get? ⟨id, key⟩ = some true
        else ∃ id ∈ ids, h'.answers.get? ⟨id, key⟩ = some false) →
      if b then ∀ x ∈ id :: ids, h'.answers.get? ⟨x, key⟩ = some true
        else ∃ x ∈ id :: ids, h'.answers.get? ⟨x, key⟩ = some false := by
    intro id ids h h' log b ha hid hrest
    cases b with
    | true =>
      intro x hx
      rcases List.mem_cons.1 hx with rfl | hx
      · exact ha.answers_stand hid
      · exact hrest x hx
    | false =>
      obtain ⟨x, hx, hfalse⟩ := hrest
      exact ⟨x, List.mem_cons_of_mem _ hx, hfalse⟩
  induction ha with
  | nil => simp
  | granted hg ha ih => exact first ha hg ih
  | denied hd => exact ⟨_, List.mem_cons_self, hd⟩
  | absent => exact ⟨_, List.mem_cons_self, by rw [get?_answer, if_pos rfl]⟩
  | refused => exact ⟨_, List.mem_cons_self, by rw [get?_answer, if_pos rfl]⟩
  | exported _ _ _ ha ih => exact first ha (by rw [get?_answer, if_pos rfl]) ih
  | forwarded _ _ _ _ _ ha _ ih => exact first ha (by rw [get?_answer, if_pos rfl]) ih

theorem Settles.answers_stand (hs : Settles c es h log h') (hd : h.answers.get? d = some b') :
    h'.answers.get? d = some b' := by
  induction hs with
  | nil => exact hd
  | cons ha _ ih => exact ih (by rw [answers_perform]; exact ha.answers_stand hd)

variable {m : Move}

theorem Asks.unanswered (ha : Asks c key ids h log b h') (hm : m ∈ log) :
    h.answers.get? ⟨m.injector, key⟩ = none := by
  -- what has no answer later has none now
  have earlier : ∀ {h : Hierarchy} {d e : Demand} {b : Bool},
      (h.answer e b).answers.get? d = none → h.answers.get? d = none := by
    intro h d e b hd
    rw [get?_answer] at hd
    split at hd
    · cases hd
    · exact hd
  induction ha with
  | nil | denied | absent => cases hm
  | granted _ _ ih => exact ih hm
  | exported hn _ _ _ ih =>
    rcases List.mem_cons.1 hm with rfl | hm
    · exact hn
    · have := earlier (ih hm)
      rwa [answers_perform] at this
  | refused hn _ _ _ _ ih =>
    rcases List.mem_cons.1 hm with rfl | hm
    · exact hn
    · have := ih hm
      rwa [answers_perform] at this
  | @forwarded id _ h _ _ _ _ _ _ hn _ _ _ ha _ ih ih' =>
    rcases List.mem_cons.1 hm with rfl | hm
    · exact hn
    rcases List.mem_append.1 hm with hm | hm
    · have := ih hm
      rwa [answers_perform] at this
    rcases List.mem_cons.1 hm with rfl | hm
    · exact hn
    · have hnone := earlier (ih' hm)
      rw [answers_perform] at hnone
      cases hd : h.answers.get? ⟨m.injector, _⟩ with
      | none => rfl
      | some v =>
        rw [ha.answers_stand (by rw [answers_perform, hd])] at hnone
        cases hnone

section Rank

include hrank

theorem Asks.passed (ha : Asks c key ids h log b h') (hm : ⟨j, .pass key⟩ ∈ log) :
    h'.answers.get? ⟨j, key⟩ = some true := by
  induction ha with
  | nil | denied | absent => cases hm
  | granted _ _ ih => exact ih hm
  | exported _ _ _ _ ih =>
    rcases List.mem_cons.1 hm with hm | hm
    · cases hm
    · exact ih hm
  | refused hn _ _ _ ha ih =>
    rcases List.mem_cons.1 hm with hm | hm
    · cases hm
    · have hself := (ha.frame_self hrank key).1
      rw [answers_perform, hn] at hself
      rw [get?_answer_of_ne (answered_ne (ih hm) hself), ih hm]
  | forwarded _ _ _ _ _ ha ih ih' =>
    rcases List.mem_cons.1 hm with hm | hm
    · cases hm
    rcases List.mem_append.1 hm with hm | hm
    · exact ha.answers_stand (get?_answer_true (by rw [answers_perform, ih hm]))
    rcases List.mem_cons.1 hm with hm | hm
    · cases hm
      exact ha.answers_stand (by rw [get?_answer, if_pos rfl])
    · exact ih' hm

theorem Asks.pairwise (ha : Asks c key ids h log b h') : log.Pairwise Move.Before := by
  -- an answer stands between the two
  have apart : ∀ {h h' : Hierarchy} {ids : List InjectorId} {log : List Move} {b : Bool}
      {m m' : Move}, Asks c key ids h log b h' → m' ∈ log →
      h.answers.get? ⟨m.injector, key⟩ = some true → m.Before m' := by
    intro h h' ids log b m m' ha hm' hd k hk hinj
    have hnone := ha.unanswered hm'
    rw [hinj, hd] at hnone
    cases hnone
  have offers : ∀ {m' : Move} {id : InjectorId}, Move.Before ⟨id, .offer key⟩ m' :=
    fun k hk => by cases hk
  induction ha with
  | nil | denied | absent => exact .nil
  | granted _ _ ih => exact ih
  | exported _ _ _ _ ih => exact .cons (fun _ _ => offers) ih
  | refused _ _ _ _ _ ih => exact .cons (fun _ _ => offers) ih
  | @forwarded id _ h h₁ _ _ log log' _ hn _ _ _ ha ha' ih ih' =>
    have hself := (ha.frame_self hrank key).1
    rw [answers_perform, hn] at hself
    refine .cons (fun _ _ => offers) (List.pairwise_append.2 ⟨ih, .cons ?_ ih', ?_⟩)
    · intro m' hm'
      exact apart ha' hm' (by rw [get?_answer, if_pos rfl])
    · intro m hm m' hm' k hk hinj
      obtain rfl := ha.key_eq hm (.inr hk)
      have hpassed := ha.passed hrank (j := m.injector) (by rwa [← hk])
      rcases List.mem_cons.1 hm' with rfl | hm'
      · rw [← hinj, hself] at hpassed
        cases hpassed
      · exact apart ha' hm' (get?_answer_true (by rw [answers_perform, hpassed])) k hk hinj

end Rank

theorem Settles.unanswered (hs : Settles c es h log h') (hm : m ∈ log)
    (hk : m.request = .offer k ∨ m.request = .pass k) : h.answers.get? ⟨m.injector, k⟩ = none := by
  induction hs with
  | nil => cases hm
  | @cons id r _ h _ _ _ _ b ha _ ih =>
    rcases List.mem_append.1 hm with hm | hm
    · obtain rfl := ha.key_eq hm hk
      exact ha.unanswered hm
    rcases List.mem_cons.1 hm with rfl | hm
    · exact absurd hk verdict_asks_nothing
    · have hnone := ih hm
      rw [answers_perform] at hnone
      cases hd : h.answers.get? ⟨m.injector, k⟩ with
      | none => rfl
      | some v =>
        rw [ha.answers_stand hd] at hnone
        cases hnone

include hrank in
theorem Settles.pairwise (hs : Settles c es h log h') : log.Pairwise Move.Before := by
  induction hs with
  | nil => exact .nil
  | @cons id r _ _ _ _ _ _ b ha hs ih =>
    refine List.pairwise_append.2 ⟨ha.pairwise hrank, .cons ?_ ih, ?_⟩
    · exact fun m' _ k hk => absurd (.inr hk) verdict_asks_nothing
    · intro m hm m' hm' k hk hinj
      obtain rfl := ha.key_eq hm (.inr hk)
      have hpassed := ha.passed hrank (j := m.injector) (by rwa [← hk])
      rcases List.mem_cons.1 hm' with rfl | hm'
      · exact not_or.1 verdict_asks_nothing
      · refine not_or.1 fun hq => ?_
        have hnone := hs.unanswered hm' hq
        rw [answers_perform, hinj, hpassed] at hnone
        cases hnone

end Hierarchy

namespace Catalog

/-- A key that an injector has passed on is not asked of it again. -/
theorem requests_pairwise {c : Catalog} (hc : c.Sound) (autoBinding : Bool) (id : InjectorId) :
    (c.requests autoBinding id).Pairwise fun q q' =>
      ∀ k, q = .pass k → q' ≠ .offer k ∧ q' ≠ .pass k := by
  obtain ⟨rank, hrank, _⟩ := hc.exists_rank
  obtain ⟨h', hs, _⟩ := settles hc autoBinding
  refine (hs.pairwise hrank).filterMap _ fun m m' hb q hq q' hq' k hk => ?_
  split at hq
  · rename_i hinj
    split at hq'
    · rename_i hinj'
      cases hq
      cases hq'
      exact hb k hk (hinj'.trans hinj.symm)
    · cases hq'
  · cases hq

end Catalog

end Wiring
