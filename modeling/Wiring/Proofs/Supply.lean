import Wiring.Model.Compose
import Wiring.Proofs.Building
import Wiring.Proofs.Failures
import Wiring.Proofs.Settling

/-!
Which injectors supply a key. By the rule an injector supplies what can be derived from its own
bindings, and what all of its parents supply. The settling of a hierarchy grants all that the rule
grants; it grants more where an offer is made with the help of a value drawn earlier.
-/

set_option autoImplicit false

namespace Wiring

namespace Catalog

def lookup? (c : Catalog) (autoBinding : Bool) (id : InjectorId) : Option Lookup :=
  (c.injectors.get? id).bind fun i =>
    (Registry.register (c.specificationClosure i) (c.interfacesOf i)).toOption.map
      (⟨c, ·, autoBinding⟩)

/-- The rule for the supply of a key. -/
inductive Supplies (c : Catalog) (autoBinding : Bool) (k : Key) : InjectorId → Prop where
  | own {id : InjectorId} {l : Lookup} : c.lookup? autoBinding id = some l → l.Derivable k →
      Supplies c autoBinding k id
  | inherited {id : InjectorId} {l : Lookup} : c.lookup? autoBinding id = some l →
      c.parentIds id ≠ [] → (∀ p ∈ c.parentIds id, Supplies c autoBinding k p) →
      Supplies c autoBinding k id

def exports (c : Catalog) (autoBinding : Bool) (id : InjectorId) (k : Key) : Bool :=
  ((c.linked autoBinding).site? id).any (·.exports.contains k)

def grants (c : Catalog) (autoBinding : Bool) (id : InjectorId) (k : Key) : Bool :=
  !(c.parentIds id).isEmpty && (c.parentIds id).all (c.exports autoBinding · k)

theorem grants_iff {c : Catalog} {autoBinding : Bool} {id : InjectorId} {k : Key} :
    c.grants autoBinding id k ↔
    c.parentIds id ≠ [] ∧ ∀ p ∈ c.parentIds id, c.exports autoBinding p k := by
  simp only [grants, Bool.and_eq_true, Bool.not_eq_true', List.isEmpty_eq_false_iff,
    List.all_eq_true]

theorem lookup?_eq {c : Catalog} {autoBinding : Bool} {id : InjectorId} :
    ((c.built autoBinding).site? id).map Site.lookup = c.lookup? autoBinding id := by
  apply Option.ext
  intro l
  simp only [Option.map_eq_some_iff, site?_built, lookup?, Option.bind_eq_some_iff]
  constructor
  · rintro ⟨_, ⟨i, s, hi, hs, rfl⟩, rfl⟩
    rw [(Site.Grows.buildLocal s).lookup]
    unfold Site.start at hs
    split at hs
    · rename_i hr
      cases hs
      exact ⟨i, hi, by simp [hr, Except.toOption]⟩
    · cases hs
  · rintro ⟨i, hi, registry, hr, rfl⟩
    cases hreg : Registry.register (c.specificationClosure i) (c.interfacesOf i) with
    | error es => simp [hreg, Except.toOption] at hr
    | ok registry' =>
      simp only [hreg, Except.toOption, Option.some.injEq] at hr
      subst hr
      have hs : Site.start c autoBinding i =
          .ok { injector := i, lookup := ⟨c, registry', autoBinding⟩ } := by
        simp [Site.start, hreg]
      exact ⟨_, ⟨i, _, hi, hs, rfl⟩, (Site.Grows.buildLocal _).lookup⟩

end Catalog

namespace Site

variable {s : Site} {k : Key} {q : Request}

/-- Nothing is in progress, and only what cannot be derived has failed. -/
structure Sane (s : Site) : Prop where
  idle : s.store.Idle
  fails : s.lookup.FailsRightly s.store

theorem Sane.offer (h : s.Sane) : (s.exportKey k).2.Sane ∧
    ((s.exportKey k).1 = none → ¬ s.lookup.Derivable k) := by
  have hg := Lookup.walk_gathers (l := s.lookup) (k := k) h.idle
  obtain ⟨hf, hout⟩ := Lookup.walk_not_derivable (k := k) h.idle h.fails
  rcases s.exportKey_cases k with ⟨i, _, hs⟩ | ⟨e, he, hs⟩
  · rw [hs]
    exact ⟨⟨hg.idle h.idle, hf⟩, by simp⟩
  · rw [hs]
    refine ⟨⟨(hg.idle h.idle).rollback hg.extends, fun j hj => hf j ?_⟩, fun _ => hout e he⟩
    change ((s.lookup.walk k s.store).2.rollback s.store).status? j = _ at hj
    rw [Store.status?_rollback hg.extends] at hj
    split at hj
    · cases hj
    · exact hj

theorem Sane.inherit (h : s.Sane) : (s.inherit k).2.Sane := by
  refine ⟨h.idle.inherit, ?_⟩
  unfold Site.inherit
  dsimp only
  rcases Store.inherit_cases s.store k with ⟨i, _, hs⟩ | ⟨_, hs⟩
  · rw [hs]
    exact h.fails
  · rw [hs]
    exact h.fails.addNode.remember (by simp)

theorem Sane.serve (h : s.Sane) : (s.serve q).Sane := by
  cases q with
  | offer k => exact h.offer.1
  | pass k => exact ⟨h.inherit.idle, h.inherit.fails⟩
  | satisfy r => exact ⟨h.inherit.idle, h.inherit.fails⟩
  | refuse r =>
    simp only [Site.serve, Site.refuse]
    split
    · exact h
    · exact ⟨h.idle, h.fails⟩

theorem exports_serve {j : Key} : ((s.serve q).exports.get? j).isSome ↔
    (s.exports.get? j).isSome ∨ q = .pass j ∨ q = .offer j ∧ (s.exportKey j).1.isSome := by
  cases q with
  | offer k =>
    simp only [Site.serve]
    rcases s.exportKey_cases k with ⟨i, _, hs⟩ | ⟨e, _, hs⟩
    · rw [hs]
      simp only [Table.get?_insert]
      by_cases hj : j = k
      · subst hj
        simp [hs]
      · simp [hj, Ne.symm hj]
    · rw [hs]
      by_cases hj : j = k
      · subst hj
        simp [hs]
      · simp [Ne.symm hj]
  | pass k =>
    simp only [Site.serve, Site.forward, Table.get?_insert]
    by_cases hj : j = k
    · simp [hj]
    · have hi : (s.inherit k).2.exports = s.exports := rfl
      simp [hj, Ne.symm hj, hi]
  | satisfy r => simp [Site.serve, Site.satisfy, Site.setArgument, Site.inherit]
  | refuse r =>
    simp only [Site.serve, Site.refuse]
    split <;> simp [Site.setArgument, Site.report]

theorem exports_offer {j : Key} (hx : (s.exportKey k).1.isSome) :
    ((s.serve (.offer k)).exports.get? j).isSome ↔ j = k ∨ (s.exports.get? j).isSome := by
  rw [exports_serve]
  constructor
  · rintro (hj | hj | ⟨hj, _⟩)
    · exact .inr hj
    · cases hj
    · cases hj
      exact .inl rfl
  · rintro (rfl | hj)
    · exact .inr (.inr ⟨rfl, hx⟩)
    · exact .inl hj

theorem exports_offer_none {j : Key} (hx : (s.exportKey k).1 = none) :
    ((s.serve (.offer k)).exports.get? j).isSome ↔ (s.exports.get? j).isSome := by
  rw [exports_serve]
  refine ⟨?_, .inl⟩
  rintro (hj | hj | ⟨hj, hsome⟩)
  · exact hj
  · cases hj
  · cases hj
    simp [hx] at hsome

theorem exports_pass {j : Key} :
    ((s.serve (.pass k)).exports.get? j).isSome ↔ j = k ∨ (s.exports.get? j).isSome := by
  rw [exports_serve]
  constructor
  · rintro (hj | hj | ⟨hj, _⟩)
    · exact .inr hj
    · cases hj
      exact .inl rfl
    · cases hj
  · rintro (rfl | hj)
    · exact .inr (.inl rfl)
    · exact .inl hj

end Site

namespace Hierarchy

variable {c : Catalog} {autoBinding : Bool} {h h' h₁ : Hierarchy} {id : InjectorId} {key k : Key}
  {ids : List InjectorId} {log : List Move} {b : Bool} {s : Site} {q : Request}
  {es : List (InjectorId × Requirement)}

/-- The answers are those that the injectors bear out: an injector exports what it has been found to
supply, and what it has been found not to supply the rule withholds. -/
structure Consistent (c : Catalog) (autoBinding : Bool) (h : Hierarchy) : Prop where
  lookup : ∀ id, (h.site? id).map Site.lookup = c.lookup? autoBinding id
  sane : ∀ id s, h.site? id = some s → s.Sane
  exports : ∀ id k, h.answers.get? ⟨id, k⟩ = some true ↔
    ∃ s, h.site? id = some s ∧ (s.exports.get? k).isSome
  withheld : ∀ id k, h.answers.get? ⟨id, k⟩ = some false → ¬ c.Supplies autoBinding k id

namespace Consistent

theorem site?_lookup (hc : h.Consistent c autoBinding) (hs : h.site? id = some s) :
    c.lookup? autoBinding id = some s.lookup := by
  rw [← hc.lookup, hs]
  rfl

theorem lookup_perform (hc : h.Consistent c autoBinding) (m : Move) (id : InjectorId) :
    ((h.perform m).site? id).map Site.lookup = c.lookup? autoBinding id := by
  rw [← hc.lookup, site?_perform, Option.map_map]
  cases h.site? id with
  | none => rfl
  | some s => simp [(Site.keeps_serveAll (s := s)).lookup]

theorem sane_perform (hc : h.Consistent c autoBinding) (m : Move) (id : InjectorId) (s : Site)
    (hs : (h.perform m).site? id = some s) : s.Sane := by
  rw [perform, site?_update] at hs
  split at hs
  · obtain ⟨t, ht, rfl⟩ := Option.map_eq_some_iff.1 hs
    exact (hc.sane _ t ht).serve
  · exact hc.sane id s hs

theorem perform (hc : h.Consistent c autoBinding)
    (hq : ∀ s, h.site? id = some s →
      ∀ k, (((s.serve q).exports.get? k).isSome ↔ (s.exports.get? k).isSome)) :
    (h.perform ⟨id, q⟩).Consistent c autoBinding where
  lookup := hc.lookup_perform _
  sane := hc.sane_perform _
  exports j k := by
    rw [answers_perform, hc.exports, Hierarchy.perform, site?_update]
    by_cases hj : j = id
    · subst hj
      simp only [if_true, Option.map_eq_some_iff]
      constructor
      · rintro ⟨s, hs, hk⟩
        exact ⟨_, ⟨s, hs, rfl⟩, (hq s hs k).2 hk⟩
      · rintro ⟨_, ⟨s, hs, rfl⟩, hk⟩
        exact ⟨s, hs, (hq s hs k).1 hk⟩
    · simp [hj]
  withheld j k hk := hc.withheld j k (by rwa [answers_perform] at hk)

theorem grant (hc : h.Consistent c autoBinding) (hs : h.site? id = some s)
    (hq : ∀ k, ((s.serve q).exports.get? k).isSome ↔ k = key ∨ (s.exports.get? k).isSome) :
    ((h.perform ⟨id, q⟩).answer ⟨id, key⟩ true).Consistent c autoBinding where
  lookup := hc.lookup_perform _
  sane := hc.sane_perform _
  exports j k := by
    rw [get?_answer, answers_perform, site?_answer, Hierarchy.perform, site?_update]
    by_cases hj : j = id
    · subst hj
      have hk := hq k
      by_cases hkey : k = key
      · simp [hkey, hs, hq]
      · have hold := hc.exports j k
        simp only [hs, Option.some.injEq, exists_eq_left'] at hold
        simp [hkey, hs, hq, hold]
    · simpa [hj] using hc.exports j k
  withheld j k hk := by
    rw [get?_answer] at hk
    split at hk
    · cases hk
    · exact hc.withheld j k (by rwa [answers_perform] at hk)

theorem withhold (hc : h.Consistent c autoBinding) (hn : h.answers.get? ⟨id, key⟩ = none)
    (hrule : ¬ c.Supplies autoBinding key id) :
    (h.answer ⟨id, key⟩ false).Consistent c autoBinding where
  lookup := hc.lookup
  sane := hc.sane
  exports j k := by
    rw [get?_answer]
    split
    · rename_i hd
      cases hd
      have hold := hc.exports id key
      rw [hn] at hold
      simpa using hold
    · exact hc.exports j k
  withheld j k hk := by
    rw [get?_answer] at hk
    split at hk
    · rename_i hd
      cases hd
      exact hrule
    · exact hc.withheld j k hk

theorem unexported (hc : h.Consistent c autoBinding) (hs : h.site? id = some s)
    (hx : (s.exportKey key).1 = none) : (h.perform ⟨id, .offer key⟩).Consistent c autoBinding :=
  hc.perform fun t ht k => by
    rw [hs] at ht
    cases ht
    exact Site.exports_offer_none hx

theorem verdict (hc : h.Consistent c autoBinding) {r : Requirement} :
    (h.perform (verdict c id r b)).Consistent c autoBinding :=
  hc.perform fun s _ k => by
    cases hv : b && !(c.parentIds id).isEmpty <;> simp [Site.exports_serve]

theorem exports_none (hc : h.Consistent c autoBinding) (hn : h.answers.get? ⟨id, k⟩ = none)
    (hs : h.site? id = some s) : s.exports.get? k = none := by
  cases hx : s.exports.get? k with
  | none => rfl
  | some i =>
    have htrue := (hc.exports id k).2 ⟨s, hs, by rw [hx]; rfl⟩
    rw [hn] at htrue
    cases htrue

theorem not_supplies_of_absent (hc : h.Consistent c autoBinding) (hs : h.site? id = none) :
    ¬ c.Supplies autoBinding k id := by
  intro hsup
  have hl := hc.lookup id
  rw [hs] at hl
  cases hsup with
  | own hl' _ => simp [← hl] at hl'
  | inherited hl' _ _ => simp [← hl] at hl'

end Consistent

theorem Asks.consistent {rank : InjectorId → Nat}
    (hrank : ∀ child p, p ∈ c.parentIds child → rank p < rank child)
    (ha : Asks c key ids h log b h') (hc : h.Consistent c autoBinding) :
    h'.Consistent c autoBinding := by
  induction ha with
  | nil | denied => exact hc
  | granted _ _ ih => exact ih hc
  | absent hn hs => exact hc.withhold hn (hc.not_supplies_of_absent hs)
  | exported hn hs hx _ ih =>
    exact ih (hc.grant hs fun k => Site.exports_offer (Option.isSome_of_mem hx))
  | @refused id ids h h₁ s log b hn hs hx hb ha ih =>
    have hc₁ := ih (hc.unexported hs hx)
    have hself := (ha.frame_self hrank key).1
    rw [answers_perform, hn] at hself
    refine hc₁.withhold hself fun hsup => ?_
    cases hsup with
    | own hl hd =>
      rw [hc.site?_lookup hs] at hl
      cases hl
      exact (hc.sane id s hs).offer.2 hx hd
    | inherited _ hne hall =>
      have hanswered := ha.answered
      cases b with
      | true => simp [hne] at hb
      | false =>
        obtain ⟨p, hp, hfalse⟩ := hanswered
        exact hc₁.withheld p key hfalse (hall p hp)
  | @forwarded id ids h h₁ h' s log log' b hn hs hx hne ha _ ih ih' =>
    have hs₁ := ha.replays id
    rw [site?_perform, hs] at hs₁
    exact ih' ((ih (hc.unexported hs hx)).grant hs₁ fun k => Site.exports_pass)

theorem Settles.consistent {rank : InjectorId → Nat}
    (hrank : ∀ child p, p ∈ c.parentIds child → rank p < rank child)
    (hs : Settles c es h log h') (hc : h.Consistent c autoBinding) :
    h'.Consistent c autoBinding := by
  induction hs with
  | nil => exact hc
  | cons ha _ ih => exact ih (ha.consistent hrank hc).verdict

end Hierarchy

namespace Catalog

variable {m : Model} {c : Catalog} {autoBinding : Bool} {id : InjectorId} {s : Site} {k : Key}

theorem consistent_built (c : Catalog) (autoBinding : Bool) :
    (c.built autoBinding).Consistent c autoBinding where
  lookup _ := lookup?_eq
  sane id s hs := by
    have hstore : s.store.Idle ∧ s.lookup.FailsRightly s.store :=
      store_built hs .empty fun hi hf => (Lookup.walk_not_derivable hi hf).1
    exact ⟨hstore.1, hstore.2⟩
  exports id k := by
    have hnone : (c.built autoBinding).answers.get? ⟨id, k⟩ = none := rfl
    rw [hnone]
    simp only [reduceCtorEq, false_iff, not_exists, not_and]
    intro s hs
    obtain ⟨i, s₀, _, hs₀, rfl⟩ := site?_built.1 hs
    obtain ⟨registry, rfl⟩ := Site.start_ok hs₀
    rw [(Site.Grows.buildLocal _).exports]
    simp
  withheld id k hk := by
    have hnone : (c.built autoBinding).answers.get? ⟨id, k⟩ = none := rfl
    rw [hnone] at hk
    cases hk

/-- How a batch ends: with answers to the demands that were made, which its injectors bear out. -/
theorem settles_consistent (hc : c.Sound) (autoBinding : Bool) : ∃ h',
    Hierarchy.Settles c (c.built autoBinding).requirements (c.built autoBinding)
      (c.moves autoBinding) h' ∧
    h'.Consistent c autoBinding ∧ (∀ id, h'.site? id = (c.linked autoBinding).site? id) ∧
    ∀ id k, h'.answers.get? ⟨id, k⟩ = some true ↔ c.exports autoBinding id k := by
  obtain ⟨h', hs, hsites⟩ := settles hc autoBinding
  obtain ⟨rank, hrank, _⟩ := hc.exists_rank
  have hcons := hs.consistent hrank (consistent_built c autoBinding)
  have hsite : ∀ id, h'.site? id = (c.linked autoBinding).site? id := by
    intro id
    simp [Hierarchy.site?, hsites]
  refine ⟨h', hs, hcons, hsite, fun id k => ?_⟩
  rw [hcons.exports, hsite]
  simp [exports, Option.any_eq_true, Table.contains]

/-- Requirements are settled in order, each by what the parents export in the end, and none is
refused if every parent exports the key or is to supply it. -/
theorem verdicts_requests (hc : c.Sound) (hs : (c.built autoBinding).site? id = some s) :
    (c.requests autoBinding id).filterMap Request.verdict? =
        s.pending.map (fun r => (r, c.grants autoBinding id r.key)) ∧
      ∀ r ∈ s.pending, c.parentIds id ≠ [] →
        (∀ p ∈ c.parentIds id, c.Supplies autoBinding r.key p ∨ c.exports autoBinding p r.key) →
        c.grants autoBinding id r.key := by
  obtain ⟨h', hsettles, hcons, _, hexports⟩ := settles_consistent hc autoBinding
  obtain ⟨hfst, hall⟩ := hsettles.verdicts id
  rw [Hierarchy.requirements_filterMap hs] at hfst
  change ((c.requests autoBinding id).filterMap _).map _ = _ at hfst
  change ∀ rv ∈ (c.requests autoBinding id).filterMap _, _ at hall
  have hgrants : ∀ rv ∈ (c.requests autoBinding id).filterMap Request.verdict?,
      rv.2 = c.grants autoBinding id rv.1.key ∧
        (c.parentIds id ≠ [] → (∀ p ∈ c.parentIds id, c.Supplies autoBinding rv.1.key p ∨
          c.exports autoBinding p rv.1.key) → rv.2 = true) := by
    rintro ⟨r, v⟩ hrv
    have hv := hall _ hrv
    cases v with
    | true =>
      obtain ⟨hne, hp⟩ := hv
      refine ⟨?_, fun _ _ => rfl⟩
      have hp' : ∀ p ∈ c.parentIds id, c.exports autoBinding p r.key = true :=
        fun p hm => (hexports p r.key).1 (hp p hm)
      simp [grants, hne, List.all_eq_true.2 hp']
    | false =>
      have unexported : ∀ {p}, h'.answers.get? ⟨p, r.key⟩ = some false →
          c.exports autoBinding p r.key = false := by
        intro p hfalse
        by_contra htrue
        have hanswer := (hexports p r.key).2 (by simpa using htrue)
        rw [hfalse] at hanswer
        cases hanswer
      refine ⟨?_, fun hne hsup => ?_⟩
      · by_cases hne : c.parentIds id = []
        · simp [grants, hne]
        · obtain ⟨p, hp, hfalse⟩ := hv hne
          have hno := unexported hfalse
          have hnall : (c.parentIds id).all (c.exports autoBinding · r.key) = false :=
            List.all_eq_false.2 ⟨p, hp, by simp [hno]⟩
          simp [grants, hnall]
      · obtain ⟨p, hp, hfalse⟩ := hv hne
        rcases hsup p hp with hs | he
        · exact absurd hs (hcons.withheld p r.key hfalse)
        · rw [unexported hfalse] at he
          cases he
  constructor
  · rw [← hfst, List.map_map]
    refine Eq.trans (List.map_id _).symm (List.map_congr_left fun rv hrv => ?_)
    exact Prod.ext rfl (hgrants rv hrv).1
  · intro r hr hne hsup
    rw [← hfst] at hr
    obtain ⟨rv, hrv, rfl⟩ := List.mem_map.1 hr
    rw [← (hgrants rv hrv).1]
    exact (hgrants rv hrv).2 hne hsup

theorem diagnostics_linked_eq_nil_iff (hc : c.Sound)
    (hs : (c.built autoBinding).site? id = some s) :
    (s.serveAll (c.requests autoBinding id)).diagnostics = [] ↔
      s.diagnostics = [] ∧ ∀ r ∈ s.pending, c.grants autoBinding id r.key := by
  rw [Site.diagnostics_serveAll, (verdicts_requests hc hs).1, List.append_eq_nil_iff,
    List.flatMap_map, List.flatMap_eq_nil_iff]
  refine and_congr_right fun _ => forall₂_congr fun r hr => ?_
  obtain ⟨a, _, hone⟩ := Site.incomplete_of_mem hr
  cases c.grants autoBinding id r.key <;> simp [hone]

end Catalog

end Wiring
