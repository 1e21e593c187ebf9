import Wiring.Proofs.Freezing
import Wiring.Proofs.Supply

/-!
The surface of a graph. Providers and builders that are declared are there, since the first failure
of a key is reported. A child accessor is there unless a key that it passes has a provider and
cannot be derived: such a key may fail silently, after a key that was left to the ancestors.
-/

set_option autoImplicit false

namespace Wiring

def Store.Unfailed (s : Store) : Prop := ∀ k, s.status? k ≠ some .failed

namespace Lookup

/-- A key without a provider, or one that can be derived from it. -/
def Whole (l : Lookup) (k : Key) : Prop := (∃ r, l.resolve k = .ok r) → l.Derivable k

instance {l : Lookup} {k : Key} : Decidable (l.Whole k) :=
  decidable_of_iff ((l.resolve k).toOption.isSome → l.Derivable k) (by
    cases hr : l.resolve k <;> simp [Whole, hr, Except.toOption])

variable {l : Lookup} {s s' : Store} {k : Key} {out : Gathered} {e : Report}

theorem Gathers.resolve_of_rootMissing {trail : List Key} {asker : Option Location} {ks : List Key}
    (h : l.Gathers trail asker ks s out s') (htrail : trail = []) (hks : ks = [k])
    (hout : out = .error (some e)) (he : e.rootMissing) : ∃ e', l.resolve k = .error e' := by
  -- nothing is left to fail after the root
  have only : ∀ {trail : List Key} {asker : Option Location} {ks : List Key} {s s' : Store}
      {out : Gathered} {i : Nat}, l.Gathers trail asker ks s out s' → ks = [] →
      out.map (i :: ·) ≠ .error (some e) := by
    rintro _ _ _ _ _ _ _ h rfl
    cases h
    simp [Except.map]
  cases h with
  | nil | refused | spoiled => cases hout
  | known _ hrest => exact absurd hout (only hrest (List.cons.inj hks).2)
  | shared _ _ _ hrest => exact absurd hout (only hrest (List.cons.inj hks).2)
  | built _ _ _ _ hrest => exact absurd hout (only hrest (List.cons.inj hks).2)
  | closing | looping =>
    cases hout
    cases he
  | unresolved _ hr =>
    cases hks
    exact ⟨_, hr⟩
  | broken _ _ _ hin =>
    cases hout
    subst htrail
    have hlen := hin.length_trail rfl
    simp only [Report.rootMissing, Bool.and_eq_true, beq_iff_eq] at he
    simp only [List.nil_append, List.length_singleton] at hlen
    omega

theorem walk_unresolved {e : BindingError} (hk : s.status? k = none) (hr : l.resolve k = .error e) :
    l.walk k s = (.failed (some ⟨e, [k], none⟩), s.remember k .failed) := by
  simp [walk, hk, visit, hr]

theorem walk_unfailed (hi : s.Idle) (hu : s.Unfailed) :
    (∃ i, (l.walk k s).1 = .node i ∧ (l.walk k s).2.Unfailed) ∨
      ∃ e, (l.walk k s).1 = .failed (some e) := by
  have hg := walk_gathers (l := l) (k := k) hi
  cases ho : (l.walk k s).1 with
  | node i =>
    rw [ho] at hg
    exact .inl ⟨i, rfl, fun j hj => hu j (hg.failed_before rfl hj)⟩
  | failed e =>
    cases e with
    | some e => exact .inr ⟨e, rfl⟩
    | none =>
      rw [ho] at hg
      obtain ⟨_, _, j, _, hj | ⟨r, _, hj⟩⟩ := hg.spoilt rfl
      · exact absurd hj (hu j)
      · exact absurd hj (hu r.key)

theorem Gathers.failed_resolve {trail : List Key} {asker : Option Location} {ks : List Key}
    (h : l.Gathers trail asker ks s out s') (hout : ∀ e, out ≠ .error (some e)) {j : Key}
    (hj : s'.status? j = some .failed) : s.status? j = some .failed ∨ ∃ r, l.resolve j = .ok r := by
  -- what is remembered for a provider is remembered for keys that lead to it
  have released : ∀ {s : Store} {k : Key} {r : Resolved} {st : Status}, l.resolve k = .ok r →
      (s.release r st).status? j = some .failed →
      s.status? j = some .failed ∨ ∃ r, l.resolve j = .ok r := by
    intro s k r st hr hj
    rw [Store.status?_release] at hj
    split at hj
    · rename_i hm
      obtain ⟨via, hv⟩ := resolve_passed hr hm
      exact .inr ⟨_, hv⟩
    · exact .inl hj
  have rest : ∀ {i : Nat} {out : Gathered}, (∀ e, out.map (i :: ·) ≠ .error (some e)) →
      ∀ e, out ≠ .error (some e) :=
    fun hout e he => hout e (Gathered.map_eq_error_iff.2 he)
  induction h with
  | nil | refused => exact .inl hj
  | closing | unresolved | looping => exact absurd rfl (hout _)
  | known _ _ ih => exact ih (rest hout) hj
  | spoiled _ hr _ =>
    rw [Store.status?_remember] at hj
    split at hj
    · rename_i hjk
      exact .inr ⟨_, hjk ▸ hr⟩
    · rw [Store.status?_rememberAll] at hj
      split at hj
      · rename_i hm
        obtain ⟨via, hv⟩ := resolve_via hr hm
        exact .inr ⟨_, hv⟩
      · exact .inl hj
  | shared _ _ _ _ ih =>
    exact (ih (rest hout) hj).imp_left fun hj => Store.status?_of_rememberAll hj (by simp)
  | broken _ hr _ _ ih =>
    rcases released hr hj with hj | hr
    · exact (ih hout hj).imp_left fun hj => Store.status?_of_claim hj (by simp)
    · exact .inr hr
  | built _ hr _ _ _ ih ih' =>
    rcases ih' (rest hout) hj with hj | hr'
    · rcases released hr hj with hj | hr'
      · exact (ih (by simp) hj).imp_left fun hj => Store.status?_of_claim hj (by simp)
      · exact .inr hr'
    · exact .inr hr'

end Lookup

namespace Site

variable {s s' : Site} {k : Key}

structure Clean (s : Site) : Prop where
  idle : s.store.Idle
  unfailed : s.store.Unfailed

theorem Clean.fresh (i : Injector) (l : Lookup) : Clean { injector := i, lookup := l } :=
  ⟨Store.idle_empty, fun _ => by simp⟩

theorem Grows.diagnostics_nil (h : s.Grows s') (hd : s'.diagnostics = []) : s.diagnostics = [] := by
  have hp := h.diagnostics
  rw [hd] at hp
  exact List.prefix_nil.1 hp

theorem Clean.request {requestedBy : Option Key} {location : Option Location} (h : s.Clean)
    (hd : (s.request requestedBy location k).2.diagnostics = []) :
    (∃ i, (s.request requestedBy location k).1 = some i) ∧
      (s.request requestedBy location k).2.Clean := by
  have hi := (Lookup.walk_gathers (l := s.lookup) (k := k) h.idle).idle h.idle
  rcases Lookup.walk_unfailed (l := s.lookup) (k := k) h.idle h.unfailed with ⟨i, hn, hu⟩ | ⟨e, he⟩
  · refine ⟨⟨i, ?_⟩, hi, hu⟩
    change (s.lookup.walk k s.store).1.node? = _
    rw [hn]
    rfl
  · change s.diagnostics ++ ((s.lookup.walk k s.store).1.report?.toList.map _) = [] at hd
    rw [he] at hd
    simp [Outcome.report?] at hd

theorem Clean.addProvider (h : s.Clean) {m : ProviderMethod}
    (hd : (s.addProvider m).diagnostics = []) :
    (s.addProvider m).Clean ∧ (s.addProvider m).builders = s.builders ∧
      (s.addProvider m).children = s.children ∧
      (s.addProvider m).providers.map (fun e => (e.1, e.2.1)) =
        s.providers.map (fun e => (e.1, e.2.1)) ++ [(m.name, m.key)] := by
  have hd' : (s.request none m.location m.key).2.diagnostics = [] := by
    unfold Site.addProvider at hd
    dsimp only at hd
    split at hd <;> exact hd
  obtain ⟨⟨i, hi⟩, hclean⟩ := h.request hd'
  have hprov : (s.request none m.location m.key).2.providers = s.providers := rfl
  simp only [Site.addProvider, hi, hprov]
  exact ⟨⟨hclean.idle, hclean.unfailed⟩, rfl, rfl, by simp⟩

theorem Clean.requestAll {requestedBy : Option Key} {location : Option Location} {ks : List Key}
    (h : s.Clean) (hd : (s.requestAll requestedBy location ks).2.diagnostics = []) :
    (s.requestAll requestedBy location ks).1.length = ks.length ∧
      (s.requestAll requestedBy location ks).2.Clean := by
  induction ks generalizing s with
  | nil => exact ⟨rfl, h⟩
  | cons k ks ih =>
    have hrest := Grows.requestAll (s.request requestedBy location k).2 requestedBy location ks
    obtain ⟨⟨i, hi⟩, hclean⟩ := h.request (hrest.diagnostics_nil hd)
    obtain ⟨hlen, hclean'⟩ := ih hclean hd
    refine ⟨?_, hclean'⟩
    simp only [Site.requestAll, hi, Option.toList_some, List.singleton_append,
      List.length_cons, hlen]

theorem requestAll_lists (s : Site) (requestedBy : Option Key) (location : Option Location)
    (ks : List Key) :
    (s.requestAll requestedBy location ks).2.providers = s.providers ∧
      (s.requestAll requestedBy location ks).2.builders = s.builders ∧
      (s.requestAll requestedBy location ks).2.children = s.children := by
  induction ks generalizing s with
  | nil => exact ⟨rfl, rfl, rfl⟩
  | cons k ks ih => exact ih (s.request requestedBy location k).2

theorem Clean.addBuilder (h : s.Clean) {m : BuilderMethod}
    (hd : (s.addBuilder m).diagnostics = []) :
    (s.addBuilder m).Clean ∧ (s.addBuilder m).providers = s.providers ∧
      (s.addBuilder m).children = s.children ∧
      (s.addBuilder m).builders.map (fun b => (b.method, b.key)) =
        s.builders.map (fun b => (b.method, b.key)) ++ [(m.name, m.key)] := by
  unfold Site.addBuilder at hd ⊢
  cases hc : s.lookup.completion m.key with
  | error e => simp [hc, Site.report] at hd
  | ok completion =>
    simp only [hc] at hd ⊢
    have hd' : (s.requestAll (some m.key) (completion.location <|> m.location)
        completion.dependencies).2.diagnostics = [] := by
      split at hd <;> exact hd
    obtain ⟨hlen, hclean⟩ := h.requestAll hd'
    obtain ⟨hp, hb, hch⟩ := requestAll_lists s (some m.key) (completion.location <|> m.location)
      completion.dependencies
    rw [if_pos hlen]
    refine ⟨⟨hclean.idle, hclean.unfailed⟩, hp, hch, ?_⟩
    rw [hb, List.map_append]
    rfl

theorem Clean.addMethods (h : s.Clean) (ps : List ProviderMethod) (bs : List BuilderMethod)
    (hd : (bs.foldl Site.addBuilder (ps.foldl Site.addProvider s)).diagnostics = []) :
    let t := bs.foldl Site.addBuilder (ps.foldl Site.addProvider s)
    t.Clean ∧ t.children = s.children ∧
      t.providers.map (fun e => (e.1, e.2.1)) =
        s.providers.map (fun e => (e.1, e.2.1)) ++ ps.map (fun m => (m.name, m.key)) ∧
      t.builders.map (fun b => (b.method, b.key)) =
        s.builders.map (fun b => (b.method, b.key)) ++ bs.map (fun m => (m.name, m.key)) := by
  induction ps generalizing s with
  | cons m ps ih =>
    have hrest := (Grows.foldl Grows.addProvider (s.addProvider m) ps).trans
      (Grows.foldl Grows.addBuilder _ bs)
    obtain ⟨hclean, hb, hc, hp⟩ := h.addProvider (hrest.diagnostics_nil hd)
    obtain ⟨hclean', hc', hp', hb'⟩ := ih hclean hd
    refine ⟨hclean', hc'.trans hc, ?_, ?_⟩
    · rw [hp, List.append_assoc] at hp'
      exact hp'
    · rw [hb] at hb'
      exact hb'
  | nil =>
    simp only [List.foldl_nil] at hd ⊢
    induction bs generalizing s with
    | nil => exact ⟨h, rfl, by simp, by simp⟩
    | cons m bs ih =>
      have hrest := Grows.foldl Grows.addBuilder (s.addBuilder m) bs
      obtain ⟨hclean, hp, hc, hb⟩ := h.addBuilder (hrest.diagnostics_nil hd)
      obtain ⟨hclean', hc', hp', hb'⟩ := ih hclean hd
      refine ⟨hclean', hc'.trans hc, ?_, ?_⟩
      · rw [hp] at hp'
        exact hp'
      · rw [hb, List.append_assoc] at hb'
        exact hb'

/-- What is known of the keys is right: nodes are of keys that can be derived, failures of others.
-/
structure Right (s : Site) : Prop where
  sane : s.Sane
  makes : s.lookup.MakesRightly s.store

theorem Right.fresh (i : Injector) (l : Lookup) : Right { injector := i, lookup := l } :=
  ⟨⟨Store.idle_empty, .empty⟩, .empty⟩

theorem Right.grows (h : s.Right) (hg : s.Grows s') : s'.Right := by
  obtain ⟨hidle, hfails⟩ :=
    Lookup.walked_keeps hg.store (fun hi hf => (Lookup.walk_not_derivable hi hf).1)
    h.sane.idle h.sane.fails
  obtain ⟨_, hmakes⟩ := Lookup.walked_keeps hg.store (fun hi hm => (Lookup.walk_derivable hi hm).1)
    h.sane.idle h.makes
  exact ⟨⟨hidle, hg.lookup ▸ hfails⟩, hg.lookup ▸ hmakes⟩

/-- The keys that have been left to the ancestors are those that have failed for want of a provider.
-/
structure Sifted (s : Site) (missing : List Key) : Prop where
  right : s.Right
  unresolved : ∀ j ∈ missing, ∃ e, s.lookup.resolve j = .error e
  listed : ∀ j e, s.store.status? j = some .failed → s.lookup.resolve j = .error e → j ∈ missing

variable {missing : List Key} {location : Option Location}

theorem Sifted.addArgument_unresolved {e : BindingError} (h : s.Sifted missing)
    (hres : s.lookup.resolve k = .error e)
    (hd : (s.addArgument missing location k).2.2.diagnostics = []) :
    (s.addArgument missing location k).2.2.Sifted (s.addArgument missing location k).2.1 ∧
      (s.addArgument missing location k).1 = .pending := by
  have hright := h.right.grows (Grows.addArgument s missing location k)
  have hcons : ∀ j ∈ k :: missing, ∃ e, s.lookup.resolve j = .error e := by
    intro j hj
    rcases List.mem_cons.1 hj with rfl | hj
    · exact ⟨e, hres⟩
    · exact h.unresolved j hj
  unfold Site.addArgument at hd hright ⊢
  dsimp only at hd hright ⊢
  cases hst : s.store.status? k with
  | none =>
    have hwalk : s.walk k = (.failed (some ⟨e, [k], none⟩),
        { s with store := s.store.remember k .failed }) := by
      simp only [Site.walk, Lookup.walk_unresolved hst hres]
    rw [hwalk] at hd hright ⊢
    dsimp only at hd hright ⊢
    split at hd
    · rename_i hcond
      rw [if_pos hcond] at hright ⊢
      refine ⟨⟨hright, hcons, fun j e' hj hr => ?_⟩, rfl⟩
      change (s.store.remember k .failed).status? j = _ at hj
      rw [Store.status?_remember] at hj
      split at hj
      · rename_i hjk
        exact hjk ▸ List.mem_cons_self
      · exact List.mem_cons_of_mem _ (h.listed j e' hj hr)
    · simp [Site.report] at hd
  | some st =>
    cases st with
    | done i => exact absurd (h.right.makes k i hst) (Lookup.not_derivable_of_error hres)
    | inProgress => exact absurd hst (h.right.sane.idle k)
    | failed =>
      have hwalk : s.walk k = (.failed none, s) := by simp only [Site.walk, Lookup.walk, hst]
      have hmem : missing.contains k = true := by simpa using h.listed k e hst hres
      rw [hwalk] at hright ⊢
      simp only [hmem, Bool.or_true, if_true] at hright ⊢
      exact ⟨⟨hright, hcons, fun j e' hj hr => List.mem_cons_of_mem _ (h.listed j e' hj hr)⟩,
        trivial⟩

theorem Sifted.not_left {r : Resolved} {report : Option Report} (h : s.Sifted missing)
    (hres : s.lookup.resolve k = .ok r) (ho : (s.lookup.walk k s.store).1 = .failed report) :
    ((report.map Report.rootMissing).getD false || missing.contains k) = false := by
  have hg := Lookup.walk_gathers (l := s.lookup) (k := k) h.right.sane.idle
  rw [ho] at hg
  rw [Bool.or_eq_false_iff]
  constructor
  · cases report with
    | none => rfl
    | some e =>
      by_contra hroot
      obtain ⟨e', he'⟩ := hg.resolve_of_rootMissing rfl rfl rfl (Bool.eq_true_of_not_eq_false hroot)
      rw [hres] at he'
      cases he'
  · by_contra hmem
    obtain ⟨e, he⟩ := h.unresolved k (by simpa using hmem)
    rw [hres] at he
    cases he

theorem Sifted.addArgument_resolved {r : Resolved} (h : s.Sifted missing)
    (hres : s.lookup.resolve k = .ok r)
    (hd : (s.addArgument missing location k).2.2.diagnostics = []) :
    (s.addArgument missing location k).2.2.Sifted (s.addArgument missing location k).2.1 ∧
      (s.addArgument missing location k).1 ≠ .pending ∧
      ((s.addArgument missing location k).1 ≠ .failed ↔ s.lookup.Derivable k) := by
  have hright := h.right.grows (Grows.addArgument s missing location k)
  have hg := Lookup.walk_gathers (l := s.lookup) (k := k) h.right.sane.idle
  have hnode := (Lookup.walk_derivable (k := k) h.right.sane.idle h.right.makes).2
  have hnot := (Lookup.walk_not_derivable (k := k) h.right.sane.idle h.right.sane.fails).2
  unfold Site.addArgument at hd hright ⊢
  dsimp only at hd hright ⊢
  generalize ho : (s.walk k).1 = outcome at hd hright ⊢
  change (s.lookup.walk k s.store).1 = _ at ho
  rw [ho] at hg
  cases outcome with
  | node i =>
    exact ⟨⟨hright, h.unresolved, fun j e hj => h.listed j e (hg.failed_before rfl hj)⟩,
      by simp, by simpa using hnode i ho⟩
  | failed report =>
    simp only [h.not_left hres ho, Bool.false_eq_true, if_false] at hd hright ⊢
    refine ⟨⟨hright, h.unresolved, fun j e hj hr => ?_⟩, by simp, by simpa using hnot report ho⟩
    cases report with
    | some e => simp [Site.report] at hd
    | none =>
      rcases hg.failed_resolve (by simp [Outcome.gathered]) hj with hj | ⟨r, hr'⟩
      · exact h.listed j e hj hr
      · change s.lookup.resolve j = _ at hr
        rw [hr] at hr'
        cases hr'

/-- Only keys without a provider are left to the ancestors, and only keys that are not whole fail
silently. -/
structure Judges (l : Lookup) (k : Key) (a : Argument) : Prop where
  failed : a ≠ .failed ↔ l.Whole k
  pending : a = .pending → ∃ e, l.resolve k = .error e

theorem Sifted.addArgument (h : s.Sifted missing)
    (hd : (s.addArgument missing location k).2.2.diagnostics = []) :
    (s.addArgument missing location k).2.2.Sifted (s.addArgument missing location k).2.1 ∧
      Judges s.lookup k (s.addArgument missing location k).1 := by
  cases hres : s.lookup.resolve k with
  | error e =>
    obtain ⟨hs, hp⟩ := h.addArgument_unresolved hres hd
    rw [hp]
    exact ⟨hs, by simp [Lookup.Whole, hres], fun _ => ⟨e, hres⟩⟩
  | ok r =>
    obtain ⟨hs, hne, hiff⟩ := h.addArgument_resolved hres hd
    exact ⟨hs, by simp [hiff, Lookup.Whole, hres], fun hp => absurd hp hne⟩

theorem Sifted.addArguments {ks : List Key} : ∀ {s : Site} {missing : List Key}, s.Sifted missing →
    (s.addArguments missing location ks).2.2.diagnostics = [] →
    (s.addArguments missing location ks).2.2.Sifted (s.addArguments missing location ks).2.1 ∧
      (s.addArguments missing location ks).1.map (·.1) = ks ∧
      ∀ e ∈ (s.addArguments missing location ks).1, Judges s.lookup e.1 e.2 := by
  induction ks with
  | nil => exact fun h _ => ⟨h, rfl, by simp [Site.addArguments]⟩
  | cons k ks ih =>
    intro s missing h hd
    have hgrows := Grows.addArgument s missing location k
    have hrest := Grows.addArguments (s.addArgument missing location k).2.2
      (s.addArgument missing location k).2.1 location ks
    obtain ⟨h', hk⟩ := h.addArgument (hrest.diagnostics_nil hd)
    obtain ⟨h'', hkeys, hks⟩ := ih h' hd
    rw [hgrows.lookup] at hks
    exact ⟨h'', congrArg (k :: ·) hkeys, List.forall_mem_cons.2 ⟨hk, hks⟩⟩

theorem addArgument_lists (s : Site) (missing : List Key) (location : Option Location) (k : Key) :
    (s.addArgument missing location k).2.2.providers = s.providers ∧
      (s.addArgument missing location k).2.2.builders = s.builders ∧
      (s.addArgument missing location k).2.2.children = s.children := by
  unfold Site.addArgument
  dsimp only
  split
  · exact ⟨rfl, rfl, rfl⟩
  · split <;> exact ⟨rfl, rfl, rfl⟩

theorem addArguments_lists (location : Option Location) (ks : List Key) :
    ∀ (s : Site) (missing : List Key),
      (s.addArguments missing location ks).2.2.providers = s.providers ∧
        (s.addArguments missing location ks).2.2.builders = s.builders ∧
        (s.addArguments missing location ks).2.2.children = s.children := by
  induction ks with
  | nil => exact fun _ _ => ⟨rfl, rfl, rfl⟩
  | cons k ks ih =>
    intro s missing
    obtain ⟨hp, hb, hc⟩ := addArgument_lists s missing location k
    obtain ⟨hp', hb', hc'⟩ := ih (s.addArgument missing location k).2.2
      (s.addArgument missing location k).2.1
    exact ⟨hp'.trans hp, hb'.trans hb, hc'.trans hc⟩

def addChild (s : Site) (missing : List Key) (a : ChildAccessor) : List Key × Site :=
  let (args, missing, s) :=
    s.addArguments missing a.location (requiredBy s.lookup.catalog a.injector)
  (missing, { s with children := s.children ++ [⟨a, args⟩] })

theorem addChildren_cons {a : ChildAccessor} {as : List ChildAccessor} :
    s.addChildren missing (a :: as) =
      (s.addChild missing a).2.addChildren (s.addChild missing a).1 as := rfl

theorem Grows.addChild (s : Site) (missing : List Key) (a : ChildAccessor) :
    s.Grows (s.addChild missing a).2 := by
  have h := addArguments s missing a.location (requiredBy s.lookup.catalog a.injector)
  exact ⟨h.injector, h.lookup, h.exports, h.store, h.diagnostics, h.reports⟩

theorem children_addChild {a : ChildAccessor} :
    (s.addChild missing a).2.children = s.children ++
      [⟨a, (s.addArguments missing a.location (requiredBy s.lookup.catalog a.injector)).1⟩] := by
  obtain ⟨_, _, hc⟩ :=
    addArguments_lists a.location (requiredBy s.lookup.catalog a.injector) s missing
  simp only [addChild, hc]

theorem addChildren_lists (as : List ChildAccessor) : ∀ (s : Site) (missing : List Key),
    (s.addChildren missing as).providers = s.providers ∧
      (s.addChildren missing as).builders = s.builders := by
  induction as with
  | nil => exact fun _ _ => ⟨rfl, rfl⟩
  | cons a as ih =>
    intro s missing
    obtain ⟨hp, hb, _⟩ :=
      addArguments_lists a.location (requiredBy s.lookup.catalog a.injector) s missing
    obtain ⟨hp', hb'⟩ := ih (s.addChild missing a).2 (s.addChild missing a).1
    exact ⟨hp'.trans hp, hb'.trans hb⟩

end Site

def ChildSite.unfailed (c : ChildSite) : Bool := c.args.all fun e => decide (e.2 ≠ .failed)

def Lookup.wholeFor (l : Lookup) (a : ChildAccessor) : Bool :=
  (Site.requiredBy l.catalog a.injector).all fun k => decide (l.Whole k)

theorem Lookup.filter_wholeFor_iff {β : Type} {l : Lookup} {as : List ChildAccessor}
    {f : ChildAccessor → β} :
    (as.filter l.wholeFor).map f = as.map f ↔
      ∀ a ∈ as, ∀ k ∈ Site.requiredBy l.catalog a.injector, l.Whole k := by
  constructor
  · intro h
    have hlen := congrArg List.length h
    rw [List.length_map, List.length_map, List.length_filter_eq_length_iff] at hlen
    simpa [wholeFor] using hlen
  · intro h
    rw [List.filter_eq_self.2]
    simpa [wholeFor] using h

structure ChildSite.Judged (l : Lookup) (c : ChildSite) : Prop where
  keys : c.args.map (·.1) = Site.requiredBy l.catalog c.accessor.injector
  args : ∀ e ∈ c.args, Site.Judges l e.1 e.2

theorem ChildSite.Judged.unfailed_eq {l : Lookup} {c : ChildSite} (h : c.Judged l) :
    c.unfailed = l.wholeFor c.accessor := by
  rw [Lookup.wholeFor, ← h.keys, List.all_map, ChildSite.unfailed, Bool.eq_iff_iff,
    List.all_eq_true, List.all_eq_true]
  refine forall₂_congr fun e he => ?_
  simpa using (h.args e he).failed

namespace Site

variable {s s' : Site} {k : Key} {missing : List Key} {location : Option Location}

theorem Sifted.addChild {a : ChildAccessor} (h : s.Sifted missing)
    (hd : (s.addChild missing a).2.diagnostics = []) :
    (s.addChild missing a).2.Sifted (s.addChild missing a).1 := by
  obtain ⟨h', _⟩ := h.addArguments hd
  have hright := h'.right
  exact ⟨⟨⟨hright.sane.idle, hright.sane.fails⟩, hright.makes⟩, h'.unresolved, h'.listed⟩

theorem Sifted.addChildren {as : List ChildAccessor} : ∀ {s : Site} {missing : List Key},
    s.Sifted missing → (∀ ch ∈ s.children, ch.Judged s.lookup) →
    (s.addChildren missing as).diagnostics = [] →
    (s.addChildren missing as).accessors = s.accessors ++ as ∧
      ∀ ch ∈ (s.addChildren missing as).children, ch.Judged s.lookup := by
  induction as with
  | nil => exact fun _ hj _ => ⟨(List.append_nil _).symm, hj⟩
  | cons a as ih =>
    intro s missing h hj hd
    rw [addChildren_cons] at hd ⊢
    have hgrows := Grows.addChild s missing a
    have hrest := Grows.addChildren (s.addChild missing a).2 (s.addChild missing a).1 as
    have hd' : (s.addArguments missing a.location
        (requiredBy s.lookup.catalog a.injector)).2.2.diagnostics = [] := hrest.diagnostics_nil hd
    obtain ⟨_, hkeys, hargs⟩ := h.addArguments hd'
    have hjudged : ∀ ch ∈ (s.addChild missing a).2.children,
        ch.Judged (s.addChild missing a).2.lookup := by
      rw [children_addChild, hgrows.lookup]
      intro ch hch
      rcases List.mem_append.1 hch with hch | hch
      · exact hj ch hch
      · obtain rfl := List.mem_singleton.1 hch
        exact ⟨hkeys, hargs⟩
    obtain ⟨hacc, hall⟩ := ih (h.addChild hd') hjudged hd
    rw [hgrows.lookup] at hall
    refine ⟨?_, hall⟩
    rw [hacc]
    simp [accessors, children_addChild]

theorem addMethods_sifted {i : Injector} {l : Lookup}
    (hd : (i.builders.foldl Site.addBuilder
      (i.providers.foldl Site.addProvider { injector := i, lookup := l })).diagnostics = []) :
    let t := i.builders.foldl Site.addBuilder
      (i.providers.foldl Site.addProvider { injector := i, lookup := l })
    t.Sifted [] ∧ t.lookup = l ∧ t.children = [] ∧
      t.providers.map (fun e => (e.1, e.2.1)) = i.providers.map (fun m => (m.name, m.key)) ∧
      t.builders.map (fun b => (b.method, b.key)) = i.builders.map (fun m => (m.name, m.key)) := by
  have hgrows := (Grows.foldl Grows.addProvider { injector := i, lookup := l } i.providers).trans
    (Grows.foldl Grows.addBuilder _ i.builders)
  obtain ⟨hclean, hc, hp, hb⟩ := (Clean.fresh i l).addMethods i.providers i.builders hd
  exact ⟨⟨(Right.fresh i l).grows hgrows, by simp, fun j e hj => absurd hj (hclean.unfailed j)⟩,
    hgrows.lookup, hc, hp, hb⟩

theorem buildLocal_surface {i : Injector} {l : Lookup}
    (hd : (Site.buildLocal { injector := i, lookup := l }).diagnostics = []) :
    let s := Site.buildLocal { injector := i, lookup := l }
    s.providers.map (fun e => (e.1, e.2.1)) = i.providers.map (fun m => (m.name, m.key)) ∧
      s.builders.map (fun b => (b.method, b.key)) = i.builders.map (fun m => (m.name, m.key)) ∧
      s.accessors = i.children ∧ ∀ ch ∈ s.children, ch.Judged l := by
  rw [buildLocal_eq] at hd
  simp only [buildLocal_eq]
  obtain ⟨hsifted, hlookup, hc, hp, hb⟩ :=
    addMethods_sifted ((Grows.addChildren _ _ _).diagnostics_nil hd)
  obtain ⟨hacc, hjudged⟩ := hsifted.addChildren (by simp [hc]) hd
  rw [hlookup] at hjudged
  obtain ⟨hp', hb'⟩ := addChildren_lists i.children (i.builders.foldl Site.addBuilder
    (i.providers.foldl Site.addProvider { injector := i, lookup := l })) []
  rw [hp', hb']
  refine ⟨hp, hb, ?_, hjudged⟩
  rw [hacc, accessors, hc]
  rfl

end Site

namespace ChildSite

variable {c : ChildSite}

theorem draft?_isSome : c.draft?.isSome = c.args.all fun e => e.2.node?.isSome := by
  rw [Bool.eq_iff_iff, List.all_eq_true]
  simp [draft?, mapM_isSome_iff]

theorem draft?_eq {d : DraftChild} (h : c.draft? = some d) :
    d.method = c.accessor.name ∧ d.child = c.accessor.injector := by
  obtain ⟨args, _, rfl⟩ := Option.map_eq_some_iff.1 h
  exact ⟨rfl, rfl⟩

theorem filterMap_draft? (cs : List ChildSite) :
    (cs.filterMap draft?).map (fun d => (d.method, d.child)) =
      ((cs.map fun c => (c.accessor, c.draft?.isSome)).filter (·.2)).map
        fun e => (e.1.name, e.1.injector) := by
  induction cs with
  | nil => rfl
  | cons c cs ih =>
    cases hd : c.draft? with
    | none => simp [hd, ih]
    | some d =>
      obtain ⟨hm, hc⟩ := draft?_eq hd
      simp [hd, ih, hm, hc]

end ChildSite

namespace Catalog

variable {m : Model} {c : Catalog} {autoBinding : Bool} {id : InjectorId} {s : Site}
  {res : Resolution} {g : Graph}

theorem pending_unresolved (hs : (c.built autoBinding).site? id = some s) (hd : s.diagnostics = [])
    {r : Requirement} (hr : r ∈ s.pending) : ∃ e, s.lookup.resolve r.key = .error e := by
  obtain ⟨i, s₀, hi, hs₀, rfl⟩ := site?_built.1 hs
  obtain ⟨registry, rfl⟩ := Site.start_ok hs₀
  obtain ⟨_, _, _, hjudged⟩ := Site.buildLocal_surface hd
  have ha := Site.mem_pending.1 hr
  unfold Site.argument? at ha
  obtain ⟨ch, hch, ha⟩ := Option.bind_eq_some_iff.1 ha
  rw [(Site.Grows.buildLocal _).lookup]
  exact ((hjudged ch (List.mem_of_getElem? hch)).args _ (List.mem_of_getElem? ha)).pending rfl

/-- Where nothing is refused, every argument ends up with a node unless it had failed before. -/
theorem argument?_linked (hc : c.Sound) (hs : (c.built autoBinding).site? id = some s)
    (hd : (s.serveAll (c.requests autoBinding id)).diagnostics = []) (n i : Nat) :
    ((s.serveAll (c.requests autoBinding id)).argument? n i).map (fun e => e.2.node?.isSome) =
      (s.argument? n i).map fun e => decide (e.2 ≠ .failed) := by
  obtain ⟨hverdicts, _⟩ := verdicts_requests hc hs
  have hgranted := ((diagnostics_linked_eq_nil_iff hc hs).1 hd).2
  by_cases hp : ∃ r ∈ s.pending, n = r.child ∧ i = r.argument
  · obtain ⟨r, hr, rfl, rfl⟩ := hp
    have ha := Site.mem_pending.1 hr
    have hmem : (r, c.grants autoBinding id r.key) ∈
        (c.requests autoBinding id).filterMap Request.verdict? := by
      rw [hverdicts]
      exact List.mem_map.2 ⟨r, hr, rfl⟩
    obtain ⟨j, hj⟩ := Site.argument?_serveAll
      (by rw [hverdicts, List.pairwise_map]; exact Site.pending_pairwise) hmem ha
    rw [hj, ha, hgranted r hr]
    rfl
  · have hother : (s.serveAll (c.requests autoBinding id)).argument? n i = s.argument? n i := by
      refine Site.argument?_serveAll_of_other fun rv hrv hpos => hp ?_
      rw [hverdicts] at hrv
      obtain ⟨r, hr, rfl⟩ := List.mem_map.1 hrv
      exact ⟨r, hr, hpos⟩
    rw [hother]
    cases ha : s.argument? n i with
    | none => rfl
    | some e =>
      obtain ⟨k, a⟩ := e
      cases a with
      | resolved j => rfl
      | failed => rfl
      | pending => exact absurd ⟨⟨n, i, k⟩, Site.mem_pending.2 ha, rfl, rfl⟩ hp

theorem children_linked (hc : c.Sound) (hs : (c.built autoBinding).site? id = some s)
    (hd : (s.serveAll (c.requests autoBinding id)).diagnostics = []) :
    (s.serveAll (c.requests autoBinding id)).children.map
      (fun ch => (ch.accessor, ch.draft?.isSome)) =
      s.children.map fun ch => (ch.accessor, ch.unfailed) := by
  have hargs := argument?_linked hc hs hd
  have hkeeps : s.Keeps (s.serveAll (c.requests autoBinding id)) := Site.keeps_serveAll
  have hacc := hkeeps.accessors
  generalize s.serveAll (c.requests autoBinding id) = final at hargs hacc
  refine List.ext_getElem? fun n => ?_
  have hn : final.accessors[n]? = s.accessors[n]? := by rw [hacc]
  simp only [Site.accessors, List.getElem?_map] at hn ⊢
  simp only [Site.argument?] at hargs
  cases hf : final.children[n]? with
  | none =>
    cases hc : s.children[n]? with
    | none => rfl
    | some ch => simp [hf, hc] at hn
  | some ch' =>
    cases hc : s.children[n]? with
    | none => simp [hf, hc] at hn
    | some ch =>
      simp only [hf, hc, Option.map_some, Option.some.injEq] at hn
      have hmap : ch'.args.map (fun e => e.2.node?.isSome) = ch.args.map fun e =>
          decide (e.2 ≠ .failed) := by
        refine List.ext_getElem? fun i => ?_
        have hi := hargs n i
        simpa [hf, hc] using hi
      have hall : ch'.draft?.isSome = ch.unfailed := by
        have h : (ch'.args.map fun e => e.2.node?.isSome).all (fun b => b) =
            (ch.args.map fun e => decide (e.2 ≠ .failed)).all fun b => b := by rw [hmap]
        rw [List.all_map, List.all_map] at h
        rw [ChildSite.draft?_isSome]
        exact h
      simp only [Option.map_some, hn, hall]

/-- Where nothing is refused, the children that are listed are those for which every key is whole.
-/
theorem children_draft (hc : c.Sound) (hs : (c.built autoBinding).site? id = some s)
    (hd : (s.serveAll (c.requests autoBinding id)).diagnostics = []) {l : Lookup}
    (hjudged : ∀ ch ∈ s.children, ch.Judged l) :
    (s.serveAll (c.requests autoBinding id)).draft.children.map (fun d => (d.method, d.child)) =
      (s.accessors.filter l.wholeFor).map fun a => (a.name, a.injector) := by
  have hmarked : s.children.map (fun ch => (ch.accessor, ch.unfailed)) =
      s.accessors.map fun a => (a, l.wholeFor a) := by
    rw [Site.accessors, List.map_map]
    exact List.map_congr_left fun ch hch => by rw [(hjudged ch hch).unfailed_eq]; rfl
  refine (ChildSite.filterMap_draft? _).trans ?_
  rw [children_linked hc hs hd, hmarked]
  simp [List.filter_map, Function.comp_def]

/-- A graph has every provider and every builder that its injector declares, and the accessors of
those children for which every key that they require is whole. -/
theorem graph_surface (hm : Catalog.ofModel m = .ok c) (hr : c.resolve autoBinding = some res)
    (hg : res.graph? id = some g) :
    ∃ i l, c.injectors.get? id = some i ∧ c.lookup? autoBinding id = some l ∧
      g.providers.map (fun p => (p.method, p.key)) = i.providers.map (fun p => (p.name, p.key)) ∧
      g.builders.map (fun b => (b.method, b.key)) = i.builders.map (fun b => (b.name, b.key)) ∧
      g.children.map (fun ch => (ch.method, ch.child)) =
        (i.children.filter l.wholeFor).map (fun a => (a.name, a.injector)) ∧
      (g.children.map (fun ch => (ch.method, ch.child)) =
        i.children.map (fun a => (a.name, a.injector)) ↔
        ∀ a ∈ i.children, ∀ k ∈ Site.requiredBy c a.injector, l.Whole k) := by
  have hc := sound_of_ofModel hm
  obtain ⟨s, hs, hd, hfreeze⟩ := graph?_linked hc hr hg
  obtain ⟨_, _, _, hproviders, hbuilders, hchildren⟩ := Draft.freeze_some hfreeze
  have hkeeps : s.Keeps (s.serveAll (c.requests autoBinding id)) := Site.keeps_serveAll
  have hd' := hd
  rw [Site.diagnostics_serveAll, List.append_eq_nil_iff] at hd'
  obtain ⟨i, s₀, hi, hs₀, rfl⟩ := site?_built.1 hs
  obtain ⟨registry, rfl⟩ := Site.start_ok hs₀
  obtain ⟨hp, hb, hacc, hjudged⟩ := Site.buildLocal_surface hd'.1
  have hl : c.lookup? autoBinding id = some ⟨c, registry, autoBinding⟩ := by
    rw [← lookup?_eq, hs]
    exact congrArg some (Site.Grows.buildLocal _).lookup
  have hlisted := hchildren.trans (children_draft hc hs hd hjudged)
  rw [hacc] at hlisted
  refine ⟨i, _, hi, hl, ?_, ?_, hlisted, ?_⟩
  · rw [hproviders, ← hp]
    exact congrArg _ hkeeps.providers
  · rw [hbuilders, ← hb]
    exact congrArg _ hkeeps.builders
  · rw [hlisted]
    exact Lookup.filter_wholeFor_iff

end Catalog

/-- `Mid` makes `S` from `K`, which only `Root` has. `Leaf` expects some keys of `Mid`. -/
def quietModel (keys : List Key) : Model where
  injectors := [
    { id := "Root", specifications := ["R"], children := [{ name := "mid", injector := "Mid" }] },
    { id := "Mid", specifications := ["M"], children := [{ name := "leaf", injector := "Leaf" }] },
    { id := "Leaf", dependencies := ["I"] }]
  specifications := [
    { id := "R", factories := [.ofKey "make_k" ⟨"K", none⟩] },
    { id := "M", factories := [(Factory.ofKey "make_s" ⟨"S", none⟩).parameter ⟨"K", none⟩] }]
  interfaces := [{ id := "I", keys }]

theorem graph_surface_mid : ∃ c res g i, Catalog.ofModel (quietModel [⟨"K", none⟩]) = .ok c ∧
    c.resolve true = some res ∧ res.graph? "Mid" = some g ∧ c.injectors.get? "Mid" = some i ∧
    g.children.map (fun ch => (ch.method, ch.child)) = i.children.map fun a =>
      (a.name, a.injector) := by
  have h : (Catalog.ofModel (quietModel [⟨"K", none⟩])).toOption.any fun c =>
      (c.resolve true).any fun res => (res.graph? "Mid").isSome &&
        (c.injectors.get? "Mid").all fun i => (c.lookup? true "Mid").all fun l =>
          i.children.all fun a =>
            (Site.requiredBy c a.injector).all fun k => decide (l.Whole k) := by
    decide +kernel
  obtain ⟨c, hc, h⟩ := exists_of_any h
  obtain ⟨res, hr, h⟩ := (Option.any_eq_true _ _).1 h
  simp only [Bool.and_eq_true, Option.all_eq_true, List.all_eq_true, decide_eq_true_eq] at h
  obtain ⟨hg, hwhole⟩ := h
  obtain ⟨g, hg⟩ := Option.isSome_iff_exists.1 hg
  obtain ⟨i, l, hi, hl, _, _, _, hiff⟩ := Catalog.graph_surface hc hr hg
  exact ⟨c, res, g, i, hc, hr, hg, hi, hiff.2 (hwhole i hi l hl)⟩

/-- `K` is left to the ancestors before `S` fails for want of it, and `Mid` loses its accessor
silently. -/
theorem graph_drops_accessor : ∃ c res g i,
    Catalog.ofModel (quietModel [⟨"K", none⟩, ⟨"S", none⟩]) = .ok c ∧ c.resolve true = some res ∧
    res.graph? "Mid" = some g ∧ c.injectors.get? "Mid" = some i ∧ res.diagnosticsFor "Mid" = [] ∧
    g.children = [] ∧ i.children.map (·.name) = ["leaf"] := by
  have h : (Catalog.ofModel (quietModel [⟨"K", none⟩, ⟨"S", none⟩])).toOption.any fun c =>
      (c.resolve true).any fun res => (res.graph? "Mid").any fun g =>
        (c.injectors.get? "Mid").any fun i =>
          decide (res.diagnosticsFor "Mid" = [] ∧ g.children = [] ∧
          i.children.map (·.name) = ["leaf"]) := by
    decide +kernel
  obtain ⟨c, hc, h⟩ := exists_of_any h
  obtain ⟨res, hr, h⟩ := (Option.any_eq_true _ _).1 h
  obtain ⟨g, hg, h⟩ := (Option.any_eq_true _ _).1 h
  obtain ⟨i, hi, h⟩ := (Option.any_eq_true _ _).1 h
  exact ⟨c, res, g, i, hc, hr, hg, hi, of_decide_eq_true h⟩

end Wiring
