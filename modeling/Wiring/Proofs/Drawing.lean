import Wiring.Proofs.Distinct

set_option autoImplicit false

namespace Wiring

namespace Store

variable {s s' : Store} {k : Key}

def Draws (s : Store) (k : Key) : Prop := ∃ n ∈ s.nodes, n.binding = .inherited ∧ n.key = k

theorem Draws.mono (h : s.Draws k) (hs : s.nodes <+: s'.nodes) : s'.Draws k := by
  obtain ⟨n, hn, hb⟩ := h
  exact ⟨n, hs.subset hn, hb⟩

/-- A key whose node, if it has one, has been drawn for it. -/
def Foreign (s : Store) (k : Key) : Prop := ∀ i, s.status? k = some (.done i) → s.Draws k

theorem Foreign.draws_inherit (h : s.Foreign k) : (s.inherit k).2.Draws k := by
  rcases s.inherit_cases k with ⟨i, hi, hs⟩ | ⟨_, hs⟩
  · rw [hs]
    exact h i hi
  · rw [hs]
    exact ⟨⟨k, .inherited, [], none⟩, by simp, rfl, rfl⟩

theorem Foreign.inherit (h : s.Foreign k) (j : Key) : (s.inherit j).2.Foreign k := by
  by_cases hj : j = k
  · subst hj
    exact fun _ _ => h.draws_inherit
  · intro i hi
    refine Draws.mono (h i ?_) (s.nodes_inherit j)
    rcases s.inherit_cases j with ⟨_, _, hs⟩ | ⟨_, hs⟩
    · rwa [hs] at hi
    · rwa [hs, status?_remember, if_neg (Ne.symm hj)] at hi

end Store

namespace Site

variable {s : Site} {q : Request} {qs : List Request} {k : Key}

theorem idle_serveAll (hi : s.store.Idle) : (s.serveAll qs).store.Idle := by
  induction qs generalizing s with
  | nil => exact hi
  | cons q qs ih => exact ih (idle_serve hi)

theorem nodes_serveAll (hi : s.store.Idle) : s.store.nodes <+: (s.serveAll qs).store.nodes := by
  induction qs generalizing s with
  | nil => exact List.prefix_refl _
  | cons q qs ih => exact (nodes_serve hi).trans (ih (idle_serve hi))

theorem exists_drawn (hi : s.store.Idle) (h : (s.serveAll qs).store.Draws k) :
    s.store.Draws k ∨ ∃ q ∈ qs, q.drawn? = some k := by
  induction qs generalizing s with
  | nil => exact .inl h
  | cons q qs ih =>
    rcases ih (idle_serve hi) h with ⟨n, hn, hb, rfl⟩ | ⟨q', hq', hk⟩
    · obtain ⟨i, hn⟩ := List.mem_iff_getElem?.1 hn
      rcases drawn_serve hi hn hb with hold | ⟨rfl, _⟩ | ⟨r, rfl, hr⟩
      · exact .inl ⟨n, List.mem_of_getElem? hold, hb, rfl⟩
      · exact .inr ⟨_, List.mem_cons_self, rfl⟩
      · exact .inr ⟨_, List.mem_cons_self, congrArg some hr⟩
    · exact .inr ⟨q', List.mem_cons_of_mem _ hq', hk⟩

theorem foreign_serve {e : BindingError} (hi : s.store.Idle) (hr : s.lookup.resolve k = .error e)
    (h : s.store.Foreign k) : (s.serve q).store.Foreign k := by
  -- an offer gives the key no node
  have walked : ∀ {j : Key} {i : Nat}, (s.lookup.walk j s.store).2.status? k = some (.done i) →
      s.store.status? k = some (.done i) := by
    intro j i hk
    have hg := Lookup.walk_gathers (l := s.lookup) (k := j) hi
    rcases (hg.sourced (a := s.store) fun _ _ hd => .inl hd).1 k i hk with hold | ⟨_, r, hr', _⟩
    · exact hold
    · rw [hr] at hr'
      cases hr'
  have hnodes := nodes_serve (q := q) hi
  rcases s.serve_store q with ⟨j, _, hs | hs⟩ | ⟨j, _, hs⟩ | hs
  · intro i hk
    rw [hs] at hk
    exact (h i (walked hk)).mono hnodes
  · intro i hk
    rw [hs, Store.status?_rollback (Lookup.walk_gathers hi).extends] at hk
    split at hk
    · cases hk
    · exact (h i (walked hk)).mono hnodes
  · rw [hs]
    exact h.inherit j
  · rwa [hs]

theorem foreign_serveAll {e : BindingError} (hi : s.store.Idle) (hr : s.lookup.resolve k = .error e)
    (h : s.store.Foreign k) : (s.serveAll qs).store.Foreign k := by
  induction qs generalizing s with
  | nil => exact h
  | cons q qs ih =>
    have hlookup : (s.serve q).lookup = s.lookup := keeps_serve.lookup
    exact ih (idle_serve hi) (hlookup ▸ hr) (foreign_serve hi hr h)

/-- After an offer that has failed the key has no node. -/
theorem foreign_of_unexported (hi : s.store.Idle) (hx : (s.exportKey k).1 = none) :
    (s.exportKey k).2.store.Foreign k := by
  intro i hk
  rcases s.exportKey_cases k with ⟨n, _, hs⟩ | ⟨e, he, hs⟩
  · rw [hs] at hx
    cases hx
  · rw [hs] at hk
    change ((s.lookup.walk k s.store).2.rollback s.store).status? k = _ at hk
    rw [Store.status?_rollback (Lookup.walk_gathers hi).extends] at hk
    change (s.lookup.walk k s.store).1 = _ at he
    unfold Lookup.walk at hk he
    cases hst : s.store.status? k with
    | none => simp [hst] at hk
    | some st => cases st <;> simp_all

theorem request_of_export (h : ((s.serveAll qs).exports.get? k).isSome) :
    (s.exports.get? k).isSome ∨ ∃ q ∈ qs, q = .offer k ∨ q = .pass k := by
  induction qs generalizing s with
  | nil => exact .inl h
  | cons q qs ih =>
    rcases ih h with h | ⟨q', hq', hk⟩
    · rcases exports_serve.1 h with hold | hq | ⟨hq, _⟩
      · exact .inl hold
      · exact .inr ⟨q, List.mem_cons_self, .inr hq⟩
      · exact .inr ⟨q, List.mem_cons_self, .inl hq⟩
    · exact .inr ⟨q', List.mem_cons_of_mem _ hq', hk⟩

end Site

namespace Hierarchy

variable {c : Catalog} {key k : Key} {id j : InjectorId} {ids : List InjectorId}
  {h h' h₁ : Hierarchy} {log : List Move} {m : Move} {b : Bool} {r : Requirement}
  {es : List (InjectorId × Requirement)}

def Idle (h : Hierarchy) : Prop := ∀ id s, h.site? id = some s → s.store.Idle

def Draws (h : Hierarchy) (id : InjectorId) (k : Key) : Prop :=
  ∃ s, h.site? id = some s ∧ s.store.Draws k

theorem Replays.idle (hr : Replays h log h') (hi : h.Idle) : h'.Idle := by
  intro id s' hs'
  rw [hr] at hs'
  obtain ⟨s, hs, rfl⟩ := Option.map_eq_some_iff.1 hs'
  exact Site.idle_serveAll (hi id s hs)

theorem Replays.draws (hr : Replays h log h') (hi : h.Idle) (hd : h.Draws id k) :
    h'.Draws id k := by
  obtain ⟨s, hs, hd⟩ := hd
  exact ⟨_, by rw [hr, hs]; rfl, hd.mono (Site.nodes_serveAll (hi id s hs))⟩

/-- Where all supply the key, whoever is asked is asked for a child that draws it, or is one of
those who are asked in the first place. -/
theorem Asks.asker (ha : Asks c key ids h log b h') (hb : b = true) (hm : m ∈ log) :
    m.injector ∈ ids ∨ ∃ child, m.injector ∈ c.parentIds child ∧ ⟨child, .pass key⟩ ∈ log := by
  induction ha with
  | nil => cases hm
  | denied | absent | refused => cases hb
  | granted _ _ ih => exact (ih hb hm).imp_left (List.mem_cons_of_mem _)
  | exported _ _ _ _ ih =>
    rcases List.mem_cons.1 hm with rfl | hm
    · exact .inl List.mem_cons_self
    · refine (ih hb hm).imp (List.mem_cons_of_mem _) ?_
      rintro ⟨child, hp, hpass⟩
      exact ⟨child, hp, List.mem_cons_of_mem _ hpass⟩
  | @forwarded id _ _ _ _ _ _ _ _ _ _ _ _ _ _ ih ih' =>
    rcases List.mem_cons.1 hm with rfl | hm
    · exact .inl List.mem_cons_self
    rcases List.mem_append.1 hm with hm | hm
    · rcases ih rfl hm with hp | ⟨child, hp, hpass⟩
      · exact .inr ⟨id, hp, by simp⟩
      · exact .inr ⟨child, hp, by simp [hpass]⟩
    rcases List.mem_cons.1 hm with rfl | hm
    · exact .inl List.mem_cons_self
    · refine (ih' hb hm).imp (List.mem_cons_of_mem _) ?_
      rintro ⟨child, hp, hpass⟩
      exact ⟨child, hp, by simp [hpass]⟩

theorem Settles.asker (hs : Settles c es h log h') (hnone : ∀ m ∈ log, ∀ r, m.request ≠ .refuse r)
    (hm : m ∈ log) (hk : m.request = .offer k ∨ m.request = .pass k) :
    ∃ child q, m.injector ∈ c.parentIds child ∧ ⟨child, q⟩ ∈ log ∧ q.drawn? = some k := by
  induction hs with
  | nil => cases hm
  | @cons id r es h h₁ h' log log' b ha _ ih =>
    have hgranted : (b && !(c.parentIds id).isEmpty) = true := by
      by_contra hno
      exact hnone (verdict c id r b) (by simp) r (if_neg hno)
    have hv : verdict c id r b = ⟨id, .satisfy r⟩ := by rw [verdict, if_pos hgranted]
    rcases List.mem_append.1 hm with hm | hm
    · obtain rfl := ha.key_eq hm hk
      rcases ha.asker (Bool.and_eq_true_iff.1 hgranted).1 hm with hp | ⟨child, hp, hpass⟩
      · exact ⟨id, .satisfy r, hp, by simp [hv], rfl⟩
      · exact ⟨child, .pass r.key, hp, by simp [hpass], rfl⟩
    rcases List.mem_cons.1 hm with rfl | hm
    · simp [hv] at hk
    · obtain ⟨child, q, hp, hq, hkey⟩ := ih (fun m hm => hnone m (by simp [hm])) hm
      exact ⟨child, q, hp, by simp [hq], hkey⟩

section Rank

variable {rank : InjectorId → Nat} (hrank : ∀ child p, p ∈ c.parentIds child → rank p < rank child)

include hrank

theorem Asks.supplied (ha : Asks c key ids h log b h') (hm : ⟨j, .pass key⟩ ∈ log) :
    c.parentIds j ≠ [] ∧ ∀ p ∈ c.parentIds j, h'.answers.get? ⟨p, key⟩ = some true := by
  induction ha with
  | nil | denied | absent => cases hm
  | granted _ _ ih => exact ih hm
  | exported _ _ _ _ ih =>
    rcases List.mem_cons.1 hm with hm | hm
    · cases hm
    · exact ih hm
  | refused hn _ _ _ ha ih =>
    rcases List.mem_cons.1 hm with hm | hm
    · cases hm
    · have hself := (ha.frame_self hrank key).1
      rw [answers_perform, hn] at hself
      obtain ⟨hne, hall⟩ := ih hm
      refine ⟨hne, fun p hp => ?_⟩
      rw [get?_answer_of_ne (answered_ne (hall p hp) hself), hall p hp]
  | @forwarded id _ _ h₁ h' _ _ _ _ _ _ _ hne ha ha' ih ih' =>
    have stands : ∀ {d : Demand},
        h₁.answers.get? d = some true → h'.answers.get? d = some true := fun hd =>
      ha'.answers_stand (get?_answer_true (by rwa [answers_perform]))
    rcases List.mem_cons.1 hm with hm | hm
    · cases hm
    rcases List.mem_append.1 hm with hm | hm
    · obtain ⟨hne, hall⟩ := ih hm
      exact ⟨hne, fun p hp => stands (hall p hp)⟩
    rcases List.mem_cons.1 hm with hm | hm
    · cases hm
      have hanswered := ha.answered
      exact ⟨hne, fun p hp => stands (hanswered p hp)⟩
    · exact ih' hm

theorem Settles.supplied (hs : Settles c es h log h') (hm : ⟨j, .pass k⟩ ∈ log) :
    c.parentIds j ≠ [] ∧ ∀ p ∈ c.parentIds j, h'.answers.get? ⟨p, k⟩ = some true := by
  induction hs with
  | nil => cases hm
  | @cons id r _ _ _ _ _ _ b ha hs ih =>
    rcases List.mem_append.1 hm with hm | hm
    · obtain rfl := ha.key_eq hm (.inr rfl)
      obtain ⟨hne, hall⟩ := ha.supplied hrank hm
      exact ⟨hne, fun p hp => hs.answers_stand (by rw [answers_perform, hall p hp])⟩
    rcases List.mem_cons.1 hm with hm | hm
    · exact absurd (.inr (congrArg Move.request hm).symm) verdict_asks_nothing
    · exact ih hm

theorem Asks.draws (ha : Asks c key ids h log b h') (hi : h.Idle) (hm : ⟨j, .pass key⟩ ∈ log) :
    h'.Draws j key := by
  induction ha with
  | nil | denied | absent => cases hm
  | granted _ _ ih => exact ih hi hm
  | exported _ _ _ _ ih =>
    rcases List.mem_cons.1 hm with hm | hm
    · cases hm
    · exact ih (Replays.perform.idle hi) hm
  | refused _ _ _ _ _ ih =>
    rcases List.mem_cons.1 hm with hm | hm
    · cases hm
    · exact ih (Replays.perform.idle hi) hm
  | @forwarded id _ h h₁ _ s log _ _ _ hs hx _ ha ha' ih ih' =>
    have hi₁ := ha.replays.idle (Replays.perform.idle hi)
    have hi₂ : ((h₁.perform ⟨id, .pass key⟩).answer ⟨id, key⟩ true).Idle := Replays.perform.idle hi₁
    rcases List.mem_cons.1 hm with hm | hm
    · cases hm
    rcases List.mem_append.1 hm with hm | hm
    · exact ha'.replays.draws hi₂ (Replays.perform.draws hi₁ (ih (Replays.perform.idle hi) hm))
    rcases List.mem_cons.1 hm with hm | hm
    · cases hm
      -- nothing is asked of the injector between the offer and the passing on
      have hquiet : Move.requestsTo j log = [] := List.filterMap_eq_nil_iff.2 fun m hm =>
        if_neg ((ha.frame_self hrank key).2 m hm)
      have hs₁ : h₁.site? j = some (s.exportKey key).2 := by
        rw [ha.replays, site?_perform, hs, hquiet]
        simp [Move.requestsTo, Site.serveAll, Site.serve]
      refine ha'.replays.draws hi₂ ⟨(s.exportKey key).2.forward key, ?_, ?_⟩
      · rw [site?_answer, site?_perform, hs₁]
        simp [Move.requestsTo, Site.serveAll, Site.serve]
      · exact (Site.foreign_of_unexported (hi _ s hs) hx).draws_inherit
    · exact ih' hi₂ hm

theorem Settles.draws (hs : Settles c es h log h') (hi : h.Idle) (hm : ⟨j, .pass k⟩ ∈ log) :
    h'.Draws j k := by
  induction hs with
  | nil => cases hm
  | @cons id r _ _ h₁ _ _ _ b ha hs ih =>
    have hi₁ := ha.replays.idle hi
    have hi₂ : (h₁.perform (verdict c id r b)).Idle := Replays.perform.idle hi₁
    rcases List.mem_append.1 hm with hm | hm
    · obtain rfl := ha.key_eq hm (.inr rfl)
      exact hs.replays.draws hi₂ (Replays.perform.draws hi₁ (ha.draws hrank hi hm))
    rcases List.mem_cons.1 hm with hm | hm
    · exact absurd (.inr (congrArg Move.request hm).symm) verdict_asks_nothing
    · exact ih hi₂ hm

end Rank

theorem site?_of_mem_requirements (hm : (id, r) ∈ h.requirements) : ∃ s, h.site? id = some s := by
  obtain ⟨j, _, hj⟩ := List.mem_flatMap.1 hm
  unfold requirementsOf at hj
  cases hs : h.site? j with
  | none => simp [hs] at hj
  | some s =>
    simp only [hs, Option.map_some, Option.getD_some, List.mem_map, Prod.mk.injEq] at hj
    obtain ⟨_, _, rfl, _⟩ := hj
    exact ⟨s, hs⟩

end Hierarchy

def Graph.Draws (g : Graph) (k : Key) : Prop := ∃ n ∈ g.nodes, n.binding = .inherited ∧ n.key = k

instance {g : Graph} {k : Key} : Decidable (g.Draws k) :=
  inferInstanceAs (Decidable (∃ n ∈ g.nodes, n.binding = .inherited ∧ n.key = k))

namespace Catalog

variable {c : Catalog} {autoBinding : Bool} {id p : InjectorId} {s : Site} {k : Key} {q : Request}
  {res : Resolution} {g : Graph}

theorem idle_built : (c.built autoBinding).Idle := fun _ _ hs => (threaded_built hs).1.store.idle

theorem grants_of_drawn (hc : c.Sound) (hs : (c.built autoBinding).site? id = some s)
    (hq : q ∈ c.requests autoBinding id) (hk : q.drawn? = some k) : c.grants autoBinding id k := by
  cases q with
  | offer j => cases hk
  | pass j =>
    cases hk
    obtain ⟨h', hsettles, _, _, hexports⟩ := settles_consistent hc autoBinding
    obtain ⟨rank, hrank, _⟩ := hc.exists_rank
    obtain ⟨hne, hall⟩ := hsettles.supplied hrank (Move.mem_requestsTo.1 hq)
    exact grants_iff.2 ⟨hne, fun p hp => (hexports p k).1 (hall p hp)⟩
  | satisfy r =>
    cases hk
    have hv : (r, true) ∈ (c.requests autoBinding id).filterMap Request.verdict? :=
      List.mem_filterMap.2 ⟨_, hq, rfl⟩
    rw [(verdicts_requests hc hs).1] at hv
    obtain ⟨r', _, he⟩ := List.mem_map.1 hv
    obtain rfl : r' = r := congrArg Prod.fst he
    exact congrArg Prod.snd he
  | refuse r => cases hk

theorem grants_of_draws (hc : c.Sound) (hs : (c.built autoBinding).site? id = some s)
    (h : (s.serveAll (c.requests autoBinding id)).store.Draws k) : c.grants autoBinding id k := by
  obtain ⟨ht, hfresh⟩ := threaded_built hs
  rcases Site.exists_drawn ht.store.idle h with ⟨n, hn, hb, _⟩ | ⟨q, hq, hk⟩
  · exact absurd hb (hfresh n hn)
  · exact grants_of_drawn hc hs hq hk

theorem exports_of_draws (hc : c.Sound) (hr : c.resolve autoBinding = some res)
    (hg : res.graph? id = some g) (hk : g.Draws k) :
    c.parentIds id ≠ [] ∧ ∀ p ∈ c.parentIds id, c.exports autoBinding p k := by
  obtain ⟨s, hs, _, hfreeze⟩ := graph?_linked hc hr hg
  rw [Graph.Draws, (Draft.freeze_some hfreeze).1] at hk
  exact grants_iff.1 (grants_of_draws hc hs hk)

theorem site_of_exports (hc : c.Sound) (hx : c.exports autoBinding p k) :
    ∃ s, (c.built autoBinding).site? p = some s := by
  obtain ⟨final, hfinal, _⟩ := (Option.any_eq_true _ _).1 hx
  rw [site?_linked hc] at hfinal
  obtain ⟨s, hs, _⟩ := Option.map_eq_some_iff.1 hfinal
  exact ⟨s, hs⟩

theorem draws_of_request (hc : c.Sound) (hs : (c.built autoBinding).site? id = some s)
    (hd : (s.serveAll (c.requests autoBinding id)).diagnostics = [])
    (hq : q ∈ c.requests autoBinding id) (hk : q.drawn? = some k) :
    (s.serveAll (c.requests autoBinding id)).store.Draws k := by
  cases q with
  | offer j => cases hk
  | pass j =>
    cases hk
    obtain ⟨h', hsettles, _, hsite, _⟩ := settles_consistent hc autoBinding
    obtain ⟨rank, hrank, _⟩ := hc.exists_rank
    obtain ⟨final, hfinal, hdraws⟩ := hsettles.draws hrank idle_built (Move.mem_requestsTo.1 hq)
    rw [hsite, site?_linked hc, hs] at hfinal
    cases hfinal
    exact hdraws
  | satisfy r =>
    cases hk
    obtain ⟨ht, hfresh⟩ := threaded_built hs
    obtain ⟨e, he⟩ := satisfy_unresolved hc hs hd hq
    have hforeign : s.store.Foreign r.key := by
      intro i hi
      rcases ht.store.backed _ i hi with ⟨_, r', hr', _⟩ | ⟨n, hn, hb, _⟩
      · rw [he] at hr'
        cases hr'
      · exact absurd hb (hfresh n (List.mem_of_getElem? hn))
    obtain ⟨before, after, hsplit⟩ := List.append_of_mem hq
    rw [hsplit, Site.serveAll_append]
    have hi : (s.serveAll before).store.Idle := Site.idle_serveAll ht.store.idle
    exact (Site.foreign_serveAll ht.store.idle he hforeign).draws_inherit.mono
      (Site.nodes_serveAll (s := (s.serveAll before).serve (.satisfy r)) (Site.idle_serve hi))
  | refuse r => cases hk

theorem not_refused (hc : c.Sound)
    (hall : ∀ id s, (c.built autoBinding).site? id = some s →
      (s.serveAll (c.requests autoBinding id)).diagnostics = []) :
    ∀ m ∈ c.moves autoBinding, ∀ r, m.request ≠ .refuse r := by
  rintro ⟨id, q⟩ hm r rfl
  have hv : (r, false) ∈ (c.requests autoBinding id).filterMap Request.verdict? :=
    List.mem_filterMap.2 ⟨_, Move.mem_requestsTo.2 hm, rfl⟩
  obtain ⟨h', hsettles, _⟩ := settles hc autoBinding
  have hr : r ∈ ((c.requests autoBinding id).filterMap Request.verdict?).map (·.1) :=
    List.mem_map_of_mem hv
  rw [requests, (hsettles.verdicts id).1] at hr
  obtain ⟨e, he, hid⟩ := List.mem_filterMap.1 hr
  split at hid
  · rename_i hown
    cases hown
    obtain ⟨s, hs⟩ := Hierarchy.site?_of_mem_requirements he
    rw [(verdicts_requests hc hs).1] at hv
    obtain ⟨r', hr', hpair⟩ := List.mem_map.1 hv
    have hgrants := ((diagnostics_linked_eq_nil_iff hc hs).1 (hall _ s hs)).2 r' hr'
    rw [hgrants] at hpair
    cases hpair
  · cases hid

theorem exists_graph (hc : c.Sound) (hr : c.resolve autoBinding = some res)
    (hd : res.diagnostics = []) (hid : id ∈ c.injectors.keys) : ∃ g, res.graph? id = some g := by
  have hplaces := (accounts_resolve hc hr).places id
  have hcancelled : res.cancelled = [] := Resolution.cancelled_ofSites hr
  rw [if_pos hid] at hplaces
  cases hg : res.graph? id with
  | some g => exact ⟨g, rfl⟩
  | none =>
    change res.graphs.get? id = none at hg
    simp [Resolution.places, Table.contains, hg, Resolution.diagnosticsFor, hd,
      hcancelled] at hplaces

theorem exists_draws_of_exports (hc : c.Sound) (hr : c.resolve autoBinding = some res)
    (hd : res.diagnostics = []) (hs : (c.built autoBinding).site? p = some s)
    (hk : ((s.serveAll (c.requests autoBinding p)).exports.get? k).isSome) :
    ∃ child ∈ c.childrenOf p, ∃ g, res.graph? child = some g ∧ g.Draws k := by
  have hall : ∀ id s, (c.built autoBinding).site? id = some s →
      (s.serveAll (c.requests autoBinding id)).diagnostics = [] := by
    intro id s hs
    obtain ⟨i, _, hi, _⟩ := site?_built.1 hs
    obtain ⟨g, hg⟩ := exists_graph hc hr hd (Table.mem_keys_iff.2 ⟨i, hi⟩)
    obtain ⟨s', hs', hsilent, _⟩ := graph?_linked hc hr hg
    rw [hs] at hs'
    cases hs'
    exact hsilent
  rcases Site.request_of_export hk with hown | ⟨q, hq, hkey⟩
  · obtain ⟨i, s₀, _, hs₀, rfl⟩ := site?_built.1 hs
    obtain ⟨registry, rfl⟩ := Site.start_ok hs₀
    rw [(Site.Grows.buildLocal _).exports] at hown
    simp at hown
  · obtain ⟨h', hsettles, _⟩ := settles hc autoBinding
    obtain ⟨child, q', hp, hq', hdrawn⟩ :=
      hsettles.asker (not_refused hc hall) (Move.mem_requestsTo.1 hq) hkey
    have hchild := hc.mem_parents.1 hp
    obtain ⟨g, hg⟩ := exists_graph hc hr hd (hc.childrenOf_subset hchild)
    obtain ⟨s', hs', hsilent, hfreeze⟩ := graph?_linked hc hr hg
    refine ⟨child, hchild, g, hg, ?_⟩
    have hdraws := draws_of_request hc hs' hsilent (Move.mem_requestsTo.2 hq') hdrawn
    rw [Graph.Draws, (Draft.freeze_some hfreeze).1]
    exact hdraws

theorem exports_linked (hc : c.Sound) (hs : (c.built autoBinding).site? p = some s) :
    c.exports autoBinding p k = (s.serveAll (c.requests autoBinding p)).exports.contains k := by
  rw [exports, site?_linked hc, hs]
  rfl

/-- An injector that was built has a graph exactly if it was built without a diagnostic and nothing
is refused. -/
theorem graph?_isSome_iff (hc : c.Sound) (hr : c.resolve autoBinding = some res)
    (hs : (c.built autoBinding).site? p = some s) : (res.graph? p).isSome ↔
      s.diagnostics = [] ∧ ∀ r ∈ s.pending, c.grants autoBinding p r.key := by
  rw [← diagnostics_linked_eq_nil_iff hc hs]
  constructor
  · intro hg
    obtain ⟨g, hg⟩ := Option.isSome_iff_exists.1 hg
    obtain ⟨s', hs', hd, _⟩ := graph?_linked hc hr hg
    rw [hs] at hs'
    cases hs'
    exact hd
  · intro hd
    have hlinked : (c.linked autoBinding).site? p = _ := site?_linked hc
    rw [hs, Option.map_some] at hlinked
    obtain ⟨out, hout⟩ := (Resolution.ofSites_eq_some hr).1 p _ (Hierarchy.get?_of_site? hlinked)
    simp only [SiteState.finish, Site.finish, if_pos hd, Option.map_eq_some_iff] at hout
    obtain ⟨g, hfreeze, _⟩ := hout
    rw [graph?_of_site hr hlinked hd hfreeze]
    rfl

end Catalog

namespace Model

variable {m : Model} {s : Settings} {course : Course} {t : Token} {res : Resolution}
  {id : InjectorId} {g : Graph} {k : Key}

/-- Drawn values and exports agree. An injector that draws a value has parents, and all of their
graphs export it; and if the resolution is complete, whatever a graph exports is drawn by a child.
-/
theorem draws_exports_agree (h : m.resolveDuring s course t = .ok (some res)) :
    ∃ c, Catalog.ofModel m = .ok c ∧
      (∀ id g k, res.graph? id = some g → g.Draws k → c.parentIds id ≠ [] ∧
        ∀ p ∈ c.parentIds id, ∀ g', res.graph? p = some g' → g'.exports.contains k) ∧
      (res.isComplete → ∀ p g k, res.graph? p = some g → g.exports.contains k →
        ∃ child ∈ c.childrenOf p, ∃ g', res.graph? child = some g' ∧ g'.Draws k) := by
  obtain ⟨c, hm, _⟩ := resolveDuring_eq_some h
  have hc := Catalog.sound_of_ofModel hm
  have hr : ∀ {id g}, res.graph? id = some g → c.resolve s.autoBinding = some res := by
    intro id g hg
    obtain ⟨c', hm', hr⟩ := resolve_of_graph? h hg
    rw [hm] at hm'
    cases hm'
    exact hr
  refine ⟨c, hm, fun id g k hg hk => ?_, fun hcomplete p g k hg hk => ?_⟩
  · obtain ⟨hne, hall⟩ := Catalog.exports_of_draws hc (hr hg) hg hk
    refine ⟨hne, fun p hp g' hg' => ?_⟩
    obtain ⟨site', hs', _, hfreeze'⟩ := Catalog.graph?_linked hc (hr hg') hg'
    rw [(Draft.freeze_some hfreeze').2.2.1]
    exact (Catalog.exports_linked hc hs').symm.trans (hall p hp)
  · obtain ⟨site, hs, _, hfreeze⟩ := Catalog.graph?_linked hc (hr hg) hg
    rw [(Draft.freeze_some hfreeze).2.2.1] at hk
    have hd : res.diagnostics = [] := List.isEmpty_iff.1 (Bool.and_eq_true_iff.1 hcomplete).1
    exact Catalog.exists_draws_of_exports hc (hr hg) hd hs hk

/-- A value is drawn from injectors that were built, so that their declarations are free of
conflicts. Whether such a parent has a graph makes no difference: it has one exactly if it was built
without a diagnostic and nothing that its own children require is refused. -/
theorem drawn_from_built (h : m.resolveDuring s course t = .ok (some res))
    (hg : res.graph? id = some g) (hk : g.Draws k) :
    ∃ c, Catalog.ofModel m = .ok c ∧ c.parentIds id ≠ [] ∧ ∀ p ∈ c.parentIds id,
      ∃ site, (c.built s.autoBinding).site? p = some site ∧ c.exports s.autoBinding p k ∧
        ((res.graph? p).isSome ↔
          site.diagnostics = [] ∧ ∀ r ∈ site.pending, c.grants s.autoBinding p r.key) := by
  obtain ⟨c, hm, hr⟩ := resolve_of_graph? h hg
  have hc := Catalog.sound_of_ofModel hm
  obtain ⟨hne, hall⟩ := Catalog.exports_of_draws hc hr hg hk
  refine ⟨c, hm, hne, fun p hp => ?_⟩
  obtain ⟨site, hs⟩ := Catalog.site_of_exports hc (hall p hp)
  exact ⟨site, hs, hall p hp, Catalog.graph?_isSome_iff hc hr hs⟩

end Model

/-- `Root` makes `K`, which `Mid` has to give to `Leaf`. `Root` provides some keys besides. -/
def relayModel (keys : List Key) : Model where
  injectors := [
    { id := "Root", specifications := ["R"],
      providers := keys.map fun k => { name := "own", key := k }
      children := [{ name := "mid", injector := "Mid" }] },
    { id := "Mid", children := [{ name := "leaf", injector := "Leaf" }] },
    { id := "Leaf", dependencies := ["I"] }]
  specifications := [{ id := "R", factories := [.ofKey "make_k" ⟨"K", none⟩] }]
  interfaces := [{ id := "I", keys := [⟨"K", none⟩] }]

theorem draws_exports_agree_root : ∃ res g g' child g'',
    (relayModel []).resolveDuring {} (.still {} 0 (Nat.zero_le _)) ⟨0, none⟩ = .ok (some res) ∧
    res.graph? "Root" = some g ∧ res.graph? "Mid" = some g' ∧ g'.Draws ⟨"K", none⟩ ∧
    g.exports.contains ⟨"K", none⟩ ∧ res.graph? child = some g'' ∧ g''.Draws ⟨"K", none⟩ := by
  have h : ((relayModel []).resolveDuring {} (.still {} 0 (Nat.zero_le _)) ⟨0, none⟩).toOption.any
      fun out => out.any fun res => res.isComplete && (res.graph? "Root").isSome &&
        (res.graph? "Mid").any fun g => decide (g.Draws ⟨"K", none⟩) := by
    decide +kernel
  have hparents : (Catalog.ofModel (relayModel [])).toOption.any fun c =>
      decide ("Root" ∈ c.parentIds "Mid") := by
    decide +kernel
  obtain ⟨res, hout, hres⟩ := exists_of_any_any h
  simp only [Bool.and_eq_true, Option.any_eq_true, decide_eq_true_eq] at hres
  obtain ⟨⟨hcomplete, hroot⟩, g', hg', hdraws⟩ := hres
  obtain ⟨g, hg⟩ := Option.isSome_iff_exists.1 hroot
  obtain ⟨c, hm, hup, hdown⟩ := Model.draws_exports_agree hout
  rw [hm] at hparents
  have hexports := (hup _ g' _ hg' hdraws).2 _ (of_decide_eq_true hparents) g hg
  obtain ⟨child, _, g'', hg'', hchild⟩ := hdown hcomplete _ g _ hg hexports
  exact ⟨res, g, g', child, g'', hout, hg, hg', hdraws, hexports, hg'', hchild⟩

theorem drawn_from_built_root : ∃ res g,
    (relayModel [⟨"K", none⟩]).resolveDuring {} (.still {} 0 (Nat.zero_le _)) ⟨0, none⟩ =
      .ok (some res) ∧
    res.graph? "Mid" = some g ∧ g.Draws ⟨"K", none⟩ ∧
    ∃ c site, Catalog.ofModel (relayModel [⟨"K", none⟩]) = .ok c ∧
      (c.built true).site? "Root" = some site ∧
      site.diagnostics = [] ∧ c.exports true "Root" ⟨"K", none⟩ := by
  have h : ((relayModel [⟨"K", none⟩]).resolveDuring {} (.still {} 0 (Nat.zero_le _))
      ⟨0, none⟩).toOption.any fun out => out.any fun res => (res.graph? "Root").isSome &&
        (res.graph? "Mid").any fun g => decide (g.Draws ⟨"K", none⟩) := by
    decide +kernel
  have hparents : (Catalog.ofModel (relayModel [⟨"K", none⟩])).toOption.any fun c =>
      decide ("Root" ∈ c.parentIds "Mid") := by
    decide +kernel
  obtain ⟨res, hout, hres⟩ := exists_of_any_any h
  simp only [Bool.and_eq_true, Option.any_eq_true, decide_eq_true_eq] at hres
  obtain ⟨hroot, g, hg, hdraws⟩ := hres
  obtain ⟨c, hm, _, hall⟩ := Model.drawn_from_built hout hg hdraws
  rw [hm] at hparents
  obtain ⟨site, hs, hexports, hiff⟩ := hall _ (of_decide_eq_true hparents)
  exact ⟨res, g, hout, hg, hdraws, c, site, hm, hs, (hiff.1 hroot).1, hexports⟩

/-- `Mid` draws `K` from `Root`, which has no graph, since it has no `X` to provide. -/
theorem draws_from_failed : ∃ c res g, Catalog.ofModel (relayModel [⟨"X", none⟩]) = .ok c ∧
    (relayModel [⟨"X", none⟩]).resolveDuring {} (.still {} 0 (Nat.zero_le _)) ⟨0, none⟩ =
      .ok (some res) ∧
    res.graph? "Mid" = some g ∧ g.Draws ⟨"K", none⟩ ∧ "Root" ∈ c.parentIds "Mid" ∧
    res.graph? "Root" = none ∧
    res.diagnostics.map (fun d => (d.injector, d.error)) = [("Root", .missing ⟨"X", none⟩)] := by
  have h : ((relayModel [⟨"X", none⟩]).resolveDuring {} (.still {} 0 (Nat.zero_le _))
      ⟨0, none⟩).toOption.any fun out => out.any fun res => (res.graph? "Mid").any fun g =>
        decide (g.Draws ⟨"K", none⟩ ∧ res.graph? "Root" = none ∧
          res.diagnostics.map (fun d => (d.injector, d.error)) =
            [("Root", .missing ⟨"X", none⟩)]) := by
    decide +kernel
  have hparents : (Catalog.ofModel (relayModel [⟨"X", none⟩])).toOption.any fun c =>
      decide ("Root" ∈ c.parentIds "Mid") := by
    decide +kernel
  obtain ⟨c, hm, hparents⟩ := exists_of_any hparents
  obtain ⟨res, hout, hres⟩ := exists_of_any_any h
  obtain ⟨g, hg, hmid⟩ := (Option.any_eq_true _ _).1 hres
  obtain ⟨hdraws, hroot, hds⟩ := of_decide_eq_true hmid
  exact ⟨c, res, g, hm, hout, hg, hdraws, of_decide_eq_true hparents, hroot, hds⟩

end Wiring
