import Wiring.Proofs.Drawing

/-!
Where the settling of a hierarchy grants more than the rule. An offer succeeds only for what can be
made from an injector's own bindings and from values that it has drawn before, so a key is exported
against the rule only where drawn values are made use of.
-/

set_option autoImplicit false

namespace Wiring

namespace Lookup.Yields

variable {l : Lookup} {drawn drawn' : Key → Prop} {s s' : Store} {k : Key}

theorem mono (h : l.Yields drawn s) (hd : ∀ j, drawn j → drawn' j) : l.Yields drawn' s :=
  fun j i hj => (h j i hj).mono hd

theorem rollback (h : l.Yields drawn s') (hs : s.Extends s') : l.Yields drawn (s'.rollback s) := by
  intro j i hj
  rw [Store.status?_rollback hs] at hj
  split at hj
  · cases hj
  · exact h j i hj

theorem inherit (h : l.Yields drawn s) (hk : drawn k) : l.Yields drawn (s.inherit k).2 := by
  rcases s.inherit_cases k with ⟨i, _, hs⟩ | ⟨_, hs⟩
  · rw [hs]
    exact h
  · rw [hs]
    exact h.addNode.remember fun _ _ => .drawn hk

end Lookup.Yields

namespace Site

variable {s : Site} {q : Request} {qs : List Request} {k : Key} {drawn : Key → Prop}

theorem yields_serve (hi : s.store.Idle) (h : s.lookup.Yields drawn s.store)
    (hq : ∀ j, q.drawn? = some j → drawn j) :
    (s.serve q).lookup.Yields drawn (s.serve q).store := by
  rw [keeps_serve.lookup]
  rcases s.serve_store q with ⟨j, _, hs | hs⟩ | ⟨j, hj, hs⟩ | hs
  · rw [hs]
    exact (Lookup.walk_attainable hi h).1
  · rw [hs]
    exact (Lookup.walk_attainable hi h).1.rollback (Lookup.walk_gathers hi).extends
  · rw [hs]
    exact h.inherit (hq j hj)
  · rwa [hs]

theorem yields_serveAll (hi : s.store.Idle) (h : s.lookup.Yields drawn s.store)
    (hqs : ∀ q ∈ qs, ∀ j, q.drawn? = some j → drawn j) :
    (s.serveAll qs).lookup.Yields drawn (s.serveAll qs).store := by
  induction qs generalizing s with
  | nil => exact h
  | cons q qs ih =>
    obtain ⟨hq, hqs⟩ := List.forall_mem_cons.1 hqs
    exact ih (idle_serve hi) (yields_serve hi h hq) hqs

theorem attainable_of_exportKey (hi : s.store.Idle) (h : s.lookup.Yields drawn s.store)
    (hx : (s.exportKey k).1.isSome) : s.lookup.Attainable drawn k := by
  rcases s.exportKey_cases k with ⟨i, hnode, _⟩ | ⟨e, _, hs⟩
  · exact (Lookup.walk_attainable hi h).2 i hnode
  · rw [hs] at hx
    cases hx

theorem exports_serveAll : ((s.serveAll qs).exports.get? k).isSome ↔
    (s.exports.get? k).isSome ∨ .pass k ∈ qs ∨
      ∃ n, qs[n]? = some (.offer k) ∧ ((s.serveAll (qs.take n)).exportKey k).1.isSome := by
  induction qs generalizing s with
  | nil => simp [serveAll]
  | cons q qs ih =>
    change (((s.serve q).serveAll qs).exports.get? k).isSome ↔ _
    rw [ih, exports_serve]
    constructor
    · rintro ((hold | hq | ⟨hq, hx⟩) | hq | ⟨n, hn, hx⟩)
      · exact .inl hold
      · exact .inr (.inl (hq ▸ List.mem_cons_self))
      · exact .inr (.inr ⟨0, congrArg some hq, hx⟩)
      · exact .inr (.inl (List.mem_cons_of_mem _ hq))
      · exact .inr (.inr ⟨n + 1, hn, hx⟩)
    · rintro (hold | hq | ⟨_ | n, hn, hx⟩)
      · exact .inl (.inl hold)
      · exact (List.mem_cons.1 hq).elim (fun hq => .inl (.inr (.inl hq.symm))) (.inr ∘ .inl)
      · exact .inl (.inr (.inr ⟨Option.some.inj hn, hx⟩))
      · exact .inr (.inr ⟨n, hn, hx⟩)

end Site

namespace Catalog

section Rules

variable (c : Catalog) (autoBinding : Bool)

/-- What an injector may expect from its parents by the rule. -/
def Entitled (id : InjectorId) (k : Key) : Prop :=
  c.parentIds id ≠ [] ∧ ∀ p ∈ c.parentIds id, c.Supplies autoBinding k p

/-- The rule for the supply of a key if values that may be drawn count as an injector's own. -/
inductive Affords : InjectorId → Key → Prop where
  | inherited {id : InjectorId} {k : Key} {l : Lookup} : c.lookup? autoBinding id = some l →
      c.parentIds id ≠ [] → (∀ p ∈ c.parentIds id, Affords p k) → Affords id k
  | shared {id : InjectorId} {k : Key} {l : Lookup} {r : Resolved} :
      c.lookup? autoBinding id = some l → l.resolve k = .ok r → Affords id r.key → Affords id k
  | made {id : InjectorId} {k : Key} {l : Lookup} {r : Resolved} :
      c.lookup? autoBinding id = some l → l.resolve k = .ok r →
      (∀ d ∈ r.provider.dependencies, Affords id d) → Affords id k

/-- The request with a number is an offer of the key, and succeeds. -/
def Offers (k : Key) (id : InjectorId) (n : Nat) : Prop :=
  ∃ s, (c.built autoBinding).site? id = some s ∧
    (c.requests autoBinding id)[n]? = some (.offer k) ∧
    ((s.serveAll ((c.requests autoBinding id).take n)).exportKey k).1.isSome

/-- An injector has drawn a value before the request with a number. -/
def DrawnBefore (id : InjectorId) (n : Nat) (k : Key) : Prop :=
  ∃ q ∈ (c.requests autoBinding id).take n, q.drawn? = some k

/-- A key goes out that the rule withholds: it is made with values that have been drawn before, or
passed on from a parent that lends it. -/
inductive Lends (k : Key) : InjectorId → Prop where
  | offered {id : InjectorId} {l : Lookup} {n : Nat} : c.lookup? autoBinding id = some l →
      ¬ c.Supplies autoBinding k id → c.Offers autoBinding k id n →
      l.Attainable (c.DrawnBefore autoBinding id n) k → Lends k id
  | passed {id p : InjectorId} {l : Lookup} : c.lookup? autoBinding id = some l →
      ¬ c.Supplies autoBinding k id → .pass k ∈ c.requests autoBinding id →
      p ∈ c.parentIds id → Lends k p → Lends k id

end Rules

variable {m : Model} {c : Catalog} {autoBinding : Bool} {id p : InjectorId} {s : Site} {k : Key}
  {l : Lookup} {n : Nat}

theorem yields_built (hs : (c.built autoBinding).site? id = some s) :
    s.store.Idle ∧ s.lookup.Yields (fun _ => False) s.store :=
  store_built hs .empty fun hi h => (Lookup.walk_attainable hi h).1

/-- An offer succeeds only for what can be made from what has been drawn before. -/
theorem Offers.attainable (h : c.Offers autoBinding k id n)
    (hl : c.lookup? autoBinding id = some l) : l.Attainable (c.DrawnBefore autoBinding id n) k := by
  obtain ⟨s, hs, _, hx⟩ := h
  obtain ⟨hi, hyields⟩ := yields_built hs
  rw [← lookup?_eq, hs, Option.map_some, Option.some.injEq] at hl
  subst hl
  rw [← Site.keeps_serveAll.lookup]
  exact Site.attainable_of_exportKey (Site.idle_serveAll hi)
    (Site.yields_serveAll hi (hyields.mono fun _ => False.elim) fun q hq j hj => ⟨q, hq, hj⟩) hx

theorem exports_iff (hc : c.Sound) (hs : (c.built autoBinding).site? id = some s) :
    c.exports autoBinding id k ↔
      .pass k ∈ c.requests autoBinding id ∨ ∃ n, c.Offers autoBinding k id n := by
  have hlinked : (c.linked autoBinding).site? id = _ := site?_linked hc
  rw [hs, Option.map_some] at hlinked
  have hnone : s.exports.get? k = none := by
    obtain ⟨i, s₀, _, hs₀, rfl⟩ := site?_built.1 hs
    obtain ⟨registry, rfl⟩ := Site.start_ok hs₀
    rw [(Site.Grows.buildLocal _).exports]
    simp
  simp only [Catalog.exports, hlinked, Option.any_some, Table.contains]
  rw [Site.exports_serveAll, hnone]
  simp [Offers, hs]

theorem exists_lookup (hc : c.Sound) (he : c.exports autoBinding id k) :
    ∃ s, (c.built autoBinding).site? id = some s ∧ c.lookup? autoBinding id = some s.lookup := by
  obtain ⟨s, hs⟩ := site_of_exports hc he
  exact ⟨s, hs, by rw [← lookup?_eq, hs]; rfl⟩

theorem site_of_lookup (hl : c.lookup? autoBinding id = some l) :
    ∃ s, (c.built autoBinding).site? id = some s := by
  rw [← lookup?_eq] at hl
  obtain ⟨s, hs, _⟩ := Option.map_eq_some_iff.1 hl
  exact ⟨s, hs⟩

theorem exports_of_passed (hc : c.Sound) (hs : (c.built autoBinding).site? id = some s)
    (hq : .pass k ∈ c.requests autoBinding id) :
    c.parentIds id ≠ [] ∧ ∀ p ∈ c.parentIds id, c.exports autoBinding p k :=
  grants_iff.1 (grants_of_drawn hc hs hq rfl)

theorem lends_iff (hc : c.Sound) :
    c.Lends autoBinding k id ↔ c.exports autoBinding id k ∧ ¬ c.Supplies autoBinding k id := by
  constructor
  · intro h
    cases h with
    | offered hl hno ho =>
      obtain ⟨s, hs⟩ := site_of_lookup hl
      exact ⟨(exports_iff hc hs).2 (.inr ⟨_, ho⟩), hno⟩
    | passed hl hno hq =>
      obtain ⟨s, hs⟩ := site_of_lookup hl
      exact ⟨(exports_iff hc hs).2 (.inl hq), hno⟩
  · obtain ⟨rank, hrank, _⟩ := hc.exists_rank
    -- by going up: a key that is passed on comes from a parent that is not to supply it either
    induction hn : rank id using Nat.strong_induction_on generalizing id with
    | _ n ih =>
      rintro ⟨he, hno⟩
      obtain ⟨s, hs, hl⟩ := exists_lookup hc he
      rcases (exports_iff hc hs).1 he with hq | ⟨n, ho⟩
      · obtain ⟨hne, hall⟩ := exports_of_passed hc hs hq
        obtain ⟨p, hp, hpno⟩ : ∃ p ∈ c.parentIds id, ¬ c.Supplies autoBinding k p := by
          by_contra hsup
          push Not at hsup
          exact hno (.inherited hl hne hsup)
        exact .passed hl hno hq hp (ih _ (hn ▸ hrank id p hp) rfl ⟨hall p hp, hpno⟩)
      · exact .offered hl hno ho (ho.attainable hl)

theorem affords_of_exports (hc : c.Sound) (he : c.exports autoBinding id k) :
    c.Affords autoBinding id k := by
  obtain ⟨rank, hrank, _⟩ := hc.exists_rank
  induction hn : rank id using Nat.strong_induction_on generalizing id k with
  | _ n ih =>
    obtain ⟨s, hs, hl⟩ := exists_lookup hc he
    have inherited : ∀ {q : Request} {j : Key}, q ∈ c.requests autoBinding id → q.drawn? = some j →
        c.Affords autoBinding id j := by
      intro q j hq hj
      obtain ⟨hne, hall⟩ := grants_iff.1 (grants_of_drawn hc hs hq hj)
      exact .inherited hl hne fun p hp => ih _ (hn ▸ hrank id p hp) (hall p hp) rfl
    rcases (exports_iff hc hs).1 he with hq | ⟨n, ho⟩
    · exact inherited hq rfl
    · have hk := ho.attainable hl
      clear he ho
      induction hk with
      | drawn hd =>
        obtain ⟨q, hq, hj⟩ := hd
        exact inherited (List.mem_of_mem_take hq) hj
      | shared hr _ ih => exact .shared hl hr ih
      | made hr _ ih => exact .made hl hr ih

/-- Every requirement is settled, by what the parents export, and reported once if it is refused. It
is granted exactly if every parent is to supply the key or lends it, so that the rule is never
undercut, and exceeded exactly where a parent lends. Even then every parent affords the key. -/
theorem linked_settles_iff (hm : Catalog.ofModel m = .ok c)
    (hs : (c.built autoBinding).site? id = some s) :
    ∃ final, (c.linked autoBinding).site? id = some final ∧
      final.diagnostics = s.diagnostics ++
        (s.pending.filter fun r => !c.grants autoBinding id r.key).flatMap s.incomplete ∧
      ∀ r ∈ s.pending,
        (∃ n, final.argument? r.child r.argument = some (r.key,
          if c.grants autoBinding id r.key then .resolved n else .failed)) ∧
        (∃ a ∈ s.accessors, s.incomplete r =
          [.of s.id (.incomplete s.id a.injector r.key) [r.key] a.location]) ∧
        (c.grants autoBinding id r.key ↔ c.parentIds id ≠ [] ∧ ∀ p ∈ c.parentIds id,
          c.Supplies autoBinding r.key p ∨ c.Lends autoBinding r.key p) ∧
        ((c.grants autoBinding id r.key ↔ c.Entitled autoBinding id r.key) ↔
          ¬ (c.grants autoBinding id r.key ∧ ∃ p ∈ c.parentIds id, c.Lends autoBinding r.key p)) ∧
        (c.grants autoBinding id r.key → ∀ p ∈ c.parentIds id, c.Affords autoBinding p r.key) := by
  have hc := sound_of_ofModel hm
  have hlinked : (c.linked autoBinding).site? id = _ := site?_linked hc
  obtain ⟨hverdicts, hgrants⟩ := verdicts_requests hc hs
  rw [hs] at hlinked
  have granted : ∀ r ∈ s.pending, c.grants autoBinding id r.key ↔ c.parentIds id ≠ [] ∧
      ∀ p ∈ c.parentIds id, c.Supplies autoBinding r.key p ∨ c.Lends autoBinding r.key p := by
    intro r hr
    constructor
    · intro hg
      obtain ⟨hne, hall⟩ := grants_iff.1 hg
      refine ⟨hne, fun p hp => or_iff_not_imp_left.2 fun hpno => ?_⟩
      exact (lends_iff hc).2 ⟨hall p hp, hpno⟩
    · rintro ⟨hne, hall⟩
      exact hgrants r hr hne fun p hp =>
        (hall p hp).imp_right fun hlent => ((lends_iff hc).1 hlent).1
  refine ⟨_, hlinked, ?_, fun r hr => ⟨?_, Site.incomplete_of_mem hr, granted r hr, ?_, ?_⟩⟩
  · rw [Site.diagnostics_serveAll, hverdicts, List.flatMap_map]
    congr 1
    induction s.pending with
    | nil => rfl
    | cons r rs ih =>
      rw [List.flatMap_cons, ih, List.filter_cons]
      cases c.grants autoBinding id r.key <;> rfl
  · refine Site.argument?_serveAll ?_ (v := c.grants autoBinding id r.key) ?_
      (Site.mem_pending.1 hr)
    · rw [hverdicts, List.pairwise_map]
      exact Site.pending_pairwise
    · rw [hverdicts]
      exact List.mem_map.2 ⟨r, hr, rfl⟩
  · constructor
    · rintro hiff ⟨hg, p, hp, hlent⟩
      exact ((lends_iff hc).1 hlent).2 ((hiff.1 hg).2 p hp)
    · refine fun hno => ⟨fun hg => ?_, fun hent => ?_⟩
      · obtain ⟨hne, hall⟩ := (granted r hr).1 hg
        exact ⟨hne, fun p hp => (hall p hp).resolve_right fun hlent => hno ⟨hg, p, hp, hlent⟩⟩
      · exact (granted r hr).2 ⟨hent.1, fun p hp => .inl (hent.2 p hp)⟩
  · exact fun hg p hp => affords_of_exports hc ((grants_iff.1 hg).2 p hp)

end Catalog

/-- `Mid` makes `T` from `D`, which only `Root` has. `Leaf` expects both, in the order given. -/
def loanModel (keys : List Key) : Model := .lineage
  { id := "R", factories := [.ofKey "make_d" ⟨"D", none⟩] }
  { id := "M", factories := [(Factory.ofKey "make_t" ⟨"T", none⟩).parameter ⟨"D", none⟩] }
  keys

def Catalog.lacksLoan (c : Catalog) : Bool :=
  decide (c.parentIds "Mid" = ["Root"]) && decide (c.parentIds "Root" = []) &&
    (c.lookup? true "Root").all (fun l => (l.resolve ⟨"T", none⟩).toOption.isNone) &&
    (c.lookup? true "Mid").all fun l => (l.resolve ⟨"D", none⟩).toOption.isNone &&
      (l.resolve ⟨"T", none⟩).toOption.all fun r => r.provider.dependencies.contains ⟨"D", none⟩

theorem Catalog.not_supplies_loan {c : Catalog} (h : c.lacksLoan) :
    ¬ c.Supplies true ⟨"T", none⟩ "Mid" := by
  simp only [lacksLoan, Bool.and_eq_true, decide_eq_true_eq, Option.all_eq_true] at h
  obtain ⟨⟨⟨hmid, hroot⟩, hnoT⟩, hneedsD⟩ := h
  intro hsup
  cases hsup with
  | own hl hd =>
    obtain ⟨hnoD, hdep⟩ := hneedsD _ hl
    obtain ⟨r, hres⟩ := hd.resolve_ok
    have hm := hdep r (by rw [hres]; rfl)
    obtain ⟨r', hres'⟩ := (hd.of_needs ⟨r, hres, by simpa using hm⟩).resolve_ok
    rw [hres'] at hnoD
    cases hnoD
  | inherited _ _ hup =>
    cases hup "Root" (by simp [hmid]) with
    | own hl hd =>
      obtain ⟨r, hres⟩ := hd.resolve_ok
      have hnone := hnoT _ hl
      rw [hres] at hnone
      cases hnone
    | inherited _ hne _ => exact hne hroot

theorem exists_granted_loan : ∃ c s,
    Catalog.ofModel (loanModel [⟨"D", none⟩, ⟨"T", none⟩]) = .ok c ∧
    ¬ c.Supplies true ⟨"T", none⟩ "Mid" ∧ (c.built true).site? "Low" = some s ∧
    ⟨0, 1, ⟨"T", none⟩⟩ ∈ s.pending ∧ c.grants true "Low" ⟨"T", none⟩ ∧
    "Mid" ∈ c.parentIds "Low" := by
  have h : (Catalog.ofModel (loanModel [⟨"D", none⟩, ⟨"T", none⟩])).toOption.any fun c =>
      c.lacksLoan && ((c.built true).site? "Low").any fun s =>
        decide ((⟨0, 1, ⟨"T", none⟩⟩ : Requirement) ∈ s.pending) &&
          c.grants true "Low" ⟨"T", none⟩ && decide ("Mid" ∈ c.parentIds "Low") := by
    decide +kernel
  obtain ⟨c, hc, h⟩ := exists_of_any h
  obtain ⟨hlacks, h⟩ := Bool.and_eq_true_iff.1 h
  obtain ⟨s, hs, h⟩ := (Option.any_eq_true _ _).1 h
  simp only [Bool.and_eq_true, decide_eq_true_eq] at h
  obtain ⟨⟨hr, hg⟩, hmid⟩ := h
  exact ⟨c, s, hc, Catalog.not_supplies_loan hlacks, hs, hr, hg, hmid⟩

theorem linked_settles_low : ∃ c s final n,
    Catalog.ofModel (loanModel [⟨"D", none⟩, ⟨"T", none⟩]) = .ok c ∧
    (c.built true).site? "Low" = some s ∧ (c.linked true).site? "Low" = some final ∧
    final.argument? 0 1 = some (⟨"T", none⟩, .resolved n) ∧
    c.Lends true ⟨"T", none⟩ "Mid" ∧ c.Affords true "Mid" ⟨"T", none⟩ := by
  obtain ⟨c, s, hc, hno, hs, hr, hg, hmid⟩ := exists_granted_loan
  obtain ⟨final, hf, _, hall⟩ := Catalog.linked_settles_iff hc hs
  obtain ⟨⟨n, hn⟩, _, hgranted, _, haffords⟩ := hall _ hr
  rw [hg] at hn
  have hlent := ((hgranted.1 hg).2 "Mid" hmid).resolve_left hno
  exact ⟨c, s, final, n, hc, hs, hf, hn, hlent, haffords hg "Mid" hmid⟩

/-- `Low` is granted `T` although `Mid` is not to supply it, but only if `D` is asked for before. -/
theorem linked_exceeds_rule :
    (∃ c s r, Catalog.ofModel (loanModel [⟨"D", none⟩, ⟨"T", none⟩]) = .ok c ∧
      (c.built true).site? "Low" = some s ∧ r ∈ s.pending ∧ c.grants true "Low" r.key ∧
      ¬ c.Entitled true "Low" r.key) ∧
    ∃ c, Catalog.ofModel (loanModel [⟨"T", none⟩, ⟨"D", none⟩]) = .ok c ∧
      c.grants true "Low" ⟨"T", none⟩ = false := by
  constructor
  · obtain ⟨c, s, hc, hno, hs, hr, hg, hmid⟩ := exists_granted_loan
    exact ⟨c, s, _, hc, hs, hr, hg, fun hent => hno (hent.2 "Mid" hmid)⟩
  · have h : (Catalog.ofModel (loanModel [⟨"T", none⟩, ⟨"D", none⟩])).toOption.any fun c =>
        !c.grants true "Low" ⟨"T", none⟩ := by decide +kernel
    obtain ⟨c, hc, h⟩ := exists_of_any h
    exact ⟨c, hc, by simpa using h⟩

end Wiring
