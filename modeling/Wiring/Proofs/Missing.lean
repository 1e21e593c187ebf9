import Mathlib.Data.List.Nodup
import Wiring.Proofs.Independence
import Wiring.Proofs.Routes
import Wiring.Proofs.Surface

/-!
What is reported of keys without a binding. A key that is asked for and leads to such a key fails,
and this is reported once, unless the key is left to the ancestors. Different keys that lead to the
same one are reported each.
-/

set_option autoImplicit false

namespace Wiring

def Gathered.report? : Gathered → Option Report
  | .ok _ => none
  | .error e => e

theorem Gathered.report?_map {out : Gathered} {i : Nat} :
    Gathered.report? (out.map (i :: ·)) = out.report? := by
  cases out <;> rfl

theorem Outcome.report?_gathered (out : Outcome) : out.gathered.report? = out.report? := by
  cases out <;> rfl

namespace Lookup

variable {l : Lookup} {s s' t t' : Store} {j k y : Key} {e : Option Report} {r : Resolved}
  {st : Status}

def Agree (l : Lookup) (s s' : Store) : Prop :=
  ∀ k y, l.resolve k = .error (.missing y) → s'.status? k = s.status? k

theorem Agree.refl (l : Lookup) (s : Store) : l.Agree s s := fun _ _ _ => rfl

theorem Agree.trans (h : l.Agree s s') (h' : l.Agree s' t) : l.Agree s t := fun k y hk =>
  (h' k y hk).trans (h k y hk)

theorem Agree.remember (hk : ∀ y, l.resolve k ≠ .error (.missing y)) :
    l.Agree s (s.remember k st) := by
  intro j y hj
  rw [Store.status?_remember, if_neg]
  rintro rfl
  exact hk y hj

theorem Agree.rememberAll (hr : l.resolve k = .ok r) : l.Agree s (s.rememberAll r.via st) := by
  intro j y hj
  rw [Store.status?_rememberAll, if_neg]
  intro hm
  obtain ⟨via, hv⟩ := resolve_via hr hm
  cases hv.symm.trans hj

theorem ne_missing_of_ok (hr : l.resolve k = .ok r) (y : Key) :
    l.resolve k ≠ .error (.missing y) := by
  rw [hr]
  exact nofun

theorem Agree.claim (hr : l.resolve k = .ok r) : l.Agree s (s.claim r) :=
  (Agree.remember (ne_missing_of_ok (resolve_key hr))).trans (.rememberAll hr)

theorem Agree.release (hr : l.resolve k = .ok r) : l.Agree s (s.release r st) :=
  (Agree.rememberAll hr).trans (.remember (ne_missing_of_ok (resolve_key hr)))

/-- What becomes known of keys that lead to one without a binding: nothing without a report, and
with one the failure of the key that it comes upon last. -/
inductive Notes (l : Lookup) (s s' : Store) : Option Report → Prop where
  | nothing {e : Option Report} : (∀ r ∈ e, r.error.isMissing = false) →
      l.Agree s s' → Notes l s s' e
  | failure {r : Report} {k y : Key} : r.error = .missing y → r.trail.getLast? = some k →
      s.status? k = none →
      l.resolve k = .error (.missing y) → l.Agree (s.remember k .failed) s' → Notes l s s' (some r)

theorem Notes.agree (h : l.Notes t t' e) (hs : l.Agree s t) (hs' : l.Agree t' s') :
    l.Notes s s' e := by
  cases h with
  | nothing he ht => exact .nothing he ((hs.trans ht).trans hs')
  | @failure r k y he hlast hk hr ht =>
    refine .failure he hlast ((hs k y hr).symm.trans hk) hr (fun j z hj => ?_)
    rw [hs' j z hj, ht j z hj, Store.status?_remember, Store.status?_remember, hs j z hj]

theorem Gathers.notes {trail : List Key} {asker : Option Location} {ks : List Key} {out : Gathered}
    (h : l.Gathers trail asker ks s out s') : l.Notes s s' out.report? := by
  have silent : ∀ r ∈ (none : Option Report), r.error.isMissing = false := by simp
  induction h with
  | nil | refused => exact .nothing silent (.refl _ _)
  | closing => exact .nothing (by rintro _ ⟨⟩; rfl) (.refl _ _)
  | known _ _ ih =>
    rw [Gathered.report?_map]
    exact ih
  | @unresolved trail _ k _ _ err hk hr =>
    cases err with
    | missing y => exact .failure rfl (by simp) hk hr (.refl _ _)
    | duplicate | invalidLink | cyclic | incomplete =>
      refine .nothing (by rintro _ ⟨⟩; rfl) (.remember fun y hy => ?_)
      cases hr.symm.trans hy
  | looping _ hr _ => exact .nothing (by rintro _ ⟨⟩; rfl) (.remember (ne_missing_of_ok hr))
  | spoiled _ hr _ =>
    exact .nothing silent ((Agree.rememberAll hr).trans (.remember (ne_missing_of_ok hr)))
  | shared _ hr _ _ ih =>
    rw [Gathered.report?_map]
    exact ih.agree (.rememberAll hr) (.refl _ _)
  | broken _ hr _ _ ih => exact ih.agree (.claim hr) (.release hr)
  | built _ hr _ _ _ ih ih' =>
    rw [Gathered.report?_map]
    cases ih with
    | nothing _ hin =>
      exact ih'.agree (((Agree.claim hr).trans hin).trans (.release hr)) (.refl _ _)

theorem walk_notes (hs : s.Idle) : l.Notes s (l.walk k s).2 (l.walk k s).1.report? := by
  have h := (walk_gathers (l := l) (k := k) hs).notes
  rwa [Outcome.report?_gathered] at h

/-- What is known and what has been reported after some keys have been asked for. Besides some
diagnostics about the targets of builders there is one for each key that has failed for want of a
binding and has not been left. -/
structure Tells (l : Lookup) (s : Store) (reported : List Diagnostic) (left : List Key)
    (targets : List Diagnostic) (asked : List Key) (ds : List Diagnostic) : Prop where
  idle : s.Idle
  listed : (reported.filter (·.error.isMissing)).Perm (targets ++ ds)
  nodup : asked.Nodup
  mem : ∀ k, k ∈ asked ↔ (∃ y, l.resolve k = .error (.missing y)) ∧
    s.status? k = some .failed ∧ k ∉ left
  left : ∀ k ∈ left, (∃ y, l.resolve k = .error (.missing y)) ∧ s.status? k = some .failed
  chains : ds.map (·.chain.getLast?) = asked.map some
  errors : ds.map (fun d => Except.error d.error) = asked.map l.resolve

def Told (l : Lookup) (s : Store) (reported : List Diagnostic) (left : List Key)
    (targets : List Diagnostic) : Prop :=
  ∃ asked ds, l.Tells s reported left targets asked ds

namespace Tells

variable {reported targets ds : List Diagnostic} {left asked : List Key} {d : Diagnostic}

theorem nodup_errors (h : l.Tells s reported left targets asked ds) :
    (ds.map (·.error)).Nodup ↔ ∀ j ∈ asked, ∀ k ∈ asked, l.resolve j = l.resolve k → j = k := by
  have herror :
      Function.Injective (Except.error : BindingError → Except BindingError Resolved) :=
    fun _ _ => Except.error.inj
  rw [← List.nodup_map_iff herror, List.map_map]
  change (ds.map fun d => Except.error d.error).Nodup ↔ _
  rw [h.errors, List.nodup_map_iff_inj_on h.nodup]

theorem notMem (h : l.Tells s reported left targets asked ds) (hk : s.status? k = none) :
    k ∉ asked ∧ k ∉ left := by
  constructor
  · intro hm
    have hfailed := ((h.mem k).1 hm).2.1
    rw [hk] at hfailed
    cases hfailed
  · intro hm
    have hfailed := (h.left k hm).2
    rw [hk] at hfailed
    cases hfailed

theorem agree {others : List Diagnostic} (h : l.Tells s reported left targets asked ds)
    (hs : l.Agree s s') (hi : s'.Idle) (hothers : ∀ d ∈ others, d.error.isMissing = false) :
    l.Tells s' (reported ++ others) left targets asked ds where
  idle := hi
  listed := by
    rw [List.filter_append, List.filter_eq_nil_iff.2 fun d hd => Bool.eq_false_iff.1 (hothers d hd),
      List.append_nil]
    exact h.listed
  nodup := h.nodup
  mem k := (h.mem k).trans (and_congr_right fun ⟨y, hy⟩ => by rw [hs k y hy])
  left k hk := by
    obtain ⟨⟨y, hy⟩, hfailed⟩ := h.left k hk
    exact ⟨⟨y, hy⟩, (hs k y hy).trans hfailed⟩
  chains := h.chains
  errors := h.errors

theorem failure (h : l.Tells s reported left targets asked ds) (hk : s.status? k = none)
    (hr : l.resolve k = .error (.missing y)) (hs : l.Agree (s.remember k .failed) s') (hi : s'.Idle)
    (herror : d.error = .missing y) (hchain : d.chain.getLast? = some k) :
    l.Tells s' (reported ++ [d]) left targets (asked ++ [k]) (ds ++ [d]) := by
  have hstatus : ∀ j z, l.resolve j = .error (.missing z) →
      s'.status? j = if j = k then some .failed else s.status? j := fun j z hj => by
    rw [hs j z hj, Store.status?_remember]
  obtain ⟨hnotasked, hnotleft⟩ := h.notMem hk
  refine ⟨hi, ?_, ?_, fun j => ?_, fun j hj => ?_, ?_, ?_⟩
  · have hone : [d].filter (·.error.isMissing) = [d] := by simp [herror, BindingError.isMissing]
    rw [List.filter_append, hone, ← List.append_assoc]
    exact h.listed.append_right _
  · exact h.nodup.append (List.nodup_singleton k) (List.disjoint_singleton.2 hnotasked)
  · rw [List.mem_append, List.mem_singleton, h.mem]
    by_cases hjk : j = k
    · subst hjk
      simp [hr, hstatus j y hr, hnotleft]
    · simp only [hjk, or_false]
      exact and_congr_right fun ⟨z, hz⟩ => by rw [hstatus j z hz, if_neg hjk]
  · obtain ⟨⟨z, hz⟩, hfailed⟩ := h.left j hj
    exact ⟨⟨z, hz⟩, by rw [hstatus j z hz, hfailed, ite_self]⟩
  · simp [h.chains, hchain]
  · simp [h.errors, herror, hr]

theorem leave (h : l.Tells s reported left targets asked ds) (hk : s.status? k = none)
    (hr : l.resolve k = .error (.missing y)) :
    l.Tells (s.remember k .failed) reported (k :: left) targets asked ds := by
  refine ⟨fun j hj => ?_, h.listed, h.nodup, fun j => ?_, fun j hj => ?_, h.chains, h.errors⟩
  · exact h.idle j (Store.status?_of_remember hj (by simp))
  · by_cases hjk : j = k
    · subst hjk
      simp [(h.notMem hk).1]
    · rw [h.mem, Store.status?_remember, if_neg hjk, List.mem_cons, or_iff_right hjk]
  · rw [Store.status?_remember]
    rcases List.mem_cons.1 hj with rfl | hj
    · exact ⟨⟨y, hr⟩, if_pos rfl⟩
    · obtain ⟨hz, hfailed⟩ := h.left j hj
      exact ⟨hz, by rw [hfailed, ite_self]⟩

theorem leave_again (h : l.Tells s reported left targets asked ds) (hk : k ∈ left) :
    l.Tells s reported (k :: left) targets asked ds := by
  have hsame : ∀ j, j ∈ k :: left ↔ j ∈ left := fun j => by
    rw [List.mem_cons, or_iff_right_of_imp]
    rintro rfl
    exact hk
  exact ⟨h.idle, h.listed, h.nodup,
    fun j => by rw [h.mem, hsame], fun j hj => h.left j ((hsame j).1 hj), h.chains, h.errors⟩

theorem target (h : l.Tells s reported left targets asked ds) (hd : d.error.isMissing) :
    l.Tells s (reported ++ [d]) left (targets ++ [d]) asked ds := by
  refine ⟨h.idle, ?_, h.nodup, h.mem, h.left, h.chains, h.errors⟩
  rw [List.filter_append, List.filter_singleton, hd, cond_true, List.append_assoc,
    List.singleton_append]
  exact (List.perm_append_singleton _ _).trans ((h.listed.cons d).trans List.perm_middle.symm)

end Tells

theorem Told.empty (l : Lookup) : l.Told .empty [] [] [] :=
  ⟨[], [], Store.idle_empty, .refl _, .nil, by simp, by simp, rfl, rfl⟩

theorem Told.notes {reported targets : List Diagnostic} {left : List Key} {f : Report → Diagnostic}
    (h : l.Told s reported left targets) (hn : l.Notes s s' e) (hi : s'.Idle)
    (herror : ∀ r, (f r).error = r.error)
    (hchain : ∀ r k, r.trail.getLast? = some k → (f r).chain.getLast? = some k) :
    l.Told s' (reported ++ e.toList.map f) left targets := by
  obtain ⟨asked, ds, h⟩ := h
  cases hn with
  | nothing he hs =>
    refine ⟨asked, ds, h.agree hs hi fun d hd => ?_⟩
    obtain ⟨r, hr, rfl⟩ := List.mem_map.1 hd
    rw [herror, he r (Option.mem_toList.1 hr)]
  | @failure r k y he hlast hk hr hs =>
    exact ⟨_, _, h.failure hk hr hs hi ((herror r).trans he) (hchain r k hlast)⟩

def untargeted (l : Lookup) (id : InjectorId) (m : BuilderMethod) : List Diagnostic :=
  match l.completion m.key with
  | .error e => [.of id e [m.key] m.location]
  | .ok _ => []

theorem completion_error {e : BindingError} (h : l.completion k = .error e) : e = .missing k := by
  unfold completion at h
  split at h
  · cases h
  · split at h
    · split at h
      · exact (Except.error.inj h).symm
      · cases h
    · exact (Except.error.inj h).symm

end Lookup

namespace Registry

theorem isMissing_of_mem_conflictsIn {κ α : Type} [Ord κ] {groups : Table κ (List α)}
    {pick : List α → Option α} {key : κ → List α → Key} {describe : α → String × Option Location}
    {e : BindingError} (he : e ∈ Candidates.conflictsIn groups pick key describe) :
    e.isMissing = false := by
  obtain ⟨⟨k, ds⟩, _, he⟩ := List.mem_filterMap.1 he
  dsimp only at he
  split at he
  · cases he
  · cases he
    rfl

theorem register_error {ss : List Specification} {is : List Interface} {es : List BindingError}
    (h : register ss is = .error es) : ∀ e ∈ es, e.isMissing = false := by
  unfold register at h
  dsimp only at h
  split at h
  · cases h
  · cases h
    intro e he
    rcases List.mem_append.1 he with he | he
    · simp only [Candidates.conflicts, List.mem_append] at he
      rcases he with ((he | he) | he) | he <;> exact isMissing_of_mem_conflictsIn he
    · obtain ⟨i, _, he⟩ := List.mem_flatMap.1 he
      obtain ⟨k, _, he⟩ := List.mem_filterMap.1 he
      obtain ⟨d, _, rfl⟩ := Option.map_eq_some_iff.1 he
      rfl

end Registry

namespace Site

/-- What has been reported of an injector, where some keys have been left to the ancestors. -/
def Told (s : Site) (left : List Key) (targets : List Diagnostic) : Prop :=
  s.lookup.Told s.store s.diagnostics left targets

namespace Told

variable {s : Site} {left : List Key} {targets : List Diagnostic} {k : Key}

theorem walk (h : s.Told left targets) (requestedBy : Option Key)
    (location : Option Location) (k : Key) :
    s.lookup.Told (s.lookup.walk k s.store).2
      (s.diagnostics ++ (s.lookup.walk k s.store).1.report?.toList.map fun r =>
        r.diagnostic s.id requestedBy location)
      left targets := by
  obtain ⟨asked, ds, ht⟩ := h
  refine Lookup.Told.notes ⟨asked, ds, ht⟩ (Lookup.walk_notes ht.idle)
    ((Lookup.walk_gathers ht.idle).idle ht.idle) (fun _ => rfl) fun r j hj => ?_
  simp [Report.diagnostic, Diagnostic.of, List.getLast?_append, hj]

theorem request (h : s.Told left targets) (requestedBy : Option Key)
    (location : Option Location) (k : Key) :
    (s.request requestedBy location k).2.Told left targets :=
  h.walk requestedBy location k

theorem addProvider (h : s.Told left targets) (m : ProviderMethod) :
    (s.addProvider m).Told left targets := by
  have hr := h.request none m.location m.key
  unfold Site.addProvider
  dsimp only
  split <;> exact hr

theorem requestAll (h : s.Told left targets) (requestedBy : Option Key) (location : Option Location)
    (ks : List Key) : (s.requestAll requestedBy location ks).2.Told left targets := by
  induction ks generalizing s with
  | nil => exact h
  | cons k ks ih => exact ih (h.request requestedBy location k)

theorem addBuilder (h : s.Told left targets) (m : BuilderMethod) :
    (s.addBuilder m).Told left (targets ++ s.lookup.untargeted s.id m) := by
  unfold Site.addBuilder Lookup.untargeted
  cases hc : s.lookup.completion m.key with
  | error e =>
    obtain ⟨asked, ds, ht⟩ := h
    refine ⟨asked, ds, ht.target ?_⟩
    rw [Lookup.completion_error hc]
    rfl
  | ok completion =>
    have hr :=
      h.requestAll (some m.key) (completion.location <|> m.location) completion.dependencies
    rw [List.append_nil]
    dsimp only
    split <;> exact hr

theorem addProviders (h : s.Told left targets) (ms : List ProviderMethod) :
    (ms.foldl Site.addProvider s).Told left targets := by
  induction ms generalizing s with
  | nil => exact h
  | cons m ms ih => exact ih (h.addProvider m)

theorem addBuilders (h : s.Told left targets) (ms : List BuilderMethod) :
    (ms.foldl Site.addBuilder s).Told left (targets ++ ms.flatMap (s.lookup.untargeted s.id)) := by
  induction ms generalizing s targets with
  | nil => simpa using h
  | cons m ms ih =>
    have hgrows := Grows.addBuilder s m
    have hid : (s.addBuilder m).id = s.id := congrArg Injector.id hgrows.injector
    have hrest := ih (h.addBuilder m)
    rwa [hgrows.lookup, hid, List.append_assoc, ← List.flatMap_cons] at hrest

theorem leave {r : Option Report} (h : s.Told left targets)
    (ho : (s.lookup.walk k s.store).1 = .failed r)
    (hleft : (r.map Report.rootMissing).getD false || left.contains k) :
    s.lookup.Told (s.lookup.walk k s.store).2 s.diagnostics (k :: left) targets := by
  obtain ⟨asked, ds, ht⟩ := h
  refine ⟨asked, ds, ?_⟩
  cases hst : s.store.status? k with
  | none =>
    have hnot := (ht.notMem hst).2
    cases r with
    | none => simp [hnot] at hleft
    | some rep =>
      have hroot : rep.rootMissing := by simpa [hnot] using hleft
      have hg := Lookup.walk_gathers (l := s.lookup) (k := k) ht.idle
      rw [ho] at hg
      obtain ⟨e, he⟩ := hg.resolve_of_rootMissing rfl rfl rfl hroot
      have hw := Lookup.walk_unresolved hst he
      rw [hw] at ho ⊢
      cases ho
      cases e with
      | missing y => exact ht.leave hst he
      | duplicate | invalidLink | cyclic | incomplete => cases hroot
  | some st =>
    cases st with
    | inProgress => exact absurd hst (ht.idle k)
    | done i => simp [Lookup.walk, hst] at ho
    | failed =>
      have hw : s.lookup.walk k s.store = (.failed none, s.store) := by simp only [Lookup.walk, hst]
      rw [hw] at ho ⊢
      cases ho
      exact ht.leave_again (by simpa using hleft)

theorem addArgument (h : s.Told left targets) (location : Option Location) (k : Key) :
    (s.addArgument left location k).2.2.Told (s.addArgument left location k).2.1 targets ∧
      ∀ j, j ∈ (s.addArgument left location k).2.1 ↔
        j ∈ left ∨ j = k ∧ (s.addArgument left location k).1 = .pending := by
  have hwalk := h.walk none location k
  unfold Site.addArgument
  dsimp only
  generalize ho : (s.walk k).1 = outcome
  change (s.lookup.walk k s.store).1 = _ at ho
  rw [ho] at hwalk
  cases outcome with
  | node i =>
    simp only [Outcome.report?, Option.toList_none, List.map_nil, List.append_nil] at hwalk
    exact ⟨hwalk, by simp⟩
  | failed r =>
    dsimp only
    split
    · rename_i hleft
      exact ⟨h.leave ho hleft, fun j => by simp [or_comm]⟩
    · exact ⟨hwalk, by simp⟩

theorem addArguments (h : s.Told left targets) (location : Option Location) (ks : List Key) :
    (s.addArguments left location ks).2.2.Told (s.addArguments left location ks).2.1 targets ∧
      ∀ j, j ∈ (s.addArguments left location ks).2.1 ↔
        j ∈ left ∨ (j, Argument.pending) ∈ (s.addArguments left location ks).1 := by
  induction ks generalizing s left with
  | nil => exact ⟨h, by simp [Site.addArguments]⟩
  | cons k ks ih =>
    obtain ⟨hfirst, hk⟩ := h.addArgument location k
    obtain ⟨hrest, hks⟩ := ih hfirst
    refine ⟨hrest, fun j => (hks j).trans ?_⟩
    rw [hk j]
    simp [Site.addArguments, or_assoc, eq_comm]

/-- The keys that have been left are those of the arguments that wait for the ancestors. -/
theorem addChildren {as : List ChildAccessor} (h : s.Told left targets)
    (hleft : ∀ j, j ∈ left ↔ ∃ ch ∈ s.children, (j, Argument.pending) ∈ ch.args) :
    ∃ left', (s.addChildren left as).Told left' targets ∧
      ∀ j, j ∈ left' ↔ ∃ ch ∈ (s.addChildren left as).children,
        (j, Argument.pending) ∈ ch.args := by
  induction as generalizing s left with
  | nil => exact ⟨left, h, hleft⟩
  | cons a as ih =>
    obtain ⟨hargs, hks⟩ := h.addArguments a.location (requiredBy s.lookup.catalog a.injector)
    have hchild : (s.addChild left a).2.Told (s.addChild left a).1 targets := hargs
    rw [addChildren_cons]
    refine ih hchild fun j => (hks j).trans ?_
    rw [children_addChild, hleft j]
    simp [or_and_right, exists_or]

end Told

theorem children_addProvider (s : Site) (m : ProviderMethod) :
    (s.addProvider m).children = s.children := by
  unfold addProvider
  dsimp only
  split <;> rfl

theorem children_addBuilder (s : Site) (m : BuilderMethod) :
    (s.addBuilder m).children = s.children := by
  unfold addBuilder
  split
  · rfl
  · rename_i completion _
    obtain ⟨_, _, hc⟩ :=
      requestAll_lists s (some m.key) (completion.location <|> m.location) completion.dependencies
    dsimp only
    split <;> exact hc

theorem children_foldl {α : Type} {add : Site → α → Site}
    (hadd : ∀ s a, (add s a).children = s.children) (s : Site) (as : List α) :
    (as.foldl add s).children = s.children := by
  induction as generalizing s with
  | nil => rfl
  | cons a as ih => exact (ih _).trans (hadd s a)

theorem exists_pending_iff {s : Site} {k : Key} :
    (∃ r ∈ s.pending, r.key = k) ↔ ∃ ch ∈ s.children, (k, Argument.pending) ∈ ch.args := by
  simp only [mem_pending, argument?, Option.bind_eq_some_iff]
  constructor
  · rintro ⟨r, ⟨ch, hch, ha⟩, rfl⟩
    exact ⟨ch, List.mem_of_getElem? hch, List.mem_of_getElem? ha⟩
  · rintro ⟨ch, hch, ha⟩
    obtain ⟨c, hc⟩ := List.mem_iff_getElem?.1 hch
    obtain ⟨n, hn⟩ := List.mem_iff_getElem?.1 ha
    exact ⟨⟨c, n, k⟩, ⟨ch, hc, hn⟩, rfl⟩

theorem missing_start_error {c : Catalog} {autoBinding : Bool} {i : Injector} {ds : List Diagnostic}
    (h : start c autoBinding i = .error ds) : ds.filter (·.error.isMissing) = [] := by
  obtain ⟨es, hregister, rfl⟩ := start_conflicts h
  refine List.filter_eq_nil_iff.2 fun d hd => ?_
  obtain ⟨e, he, rfl⟩ := List.mem_map.1 hd
  exact Bool.eq_false_iff.1 (Registry.register_error hregister e he)

theorem missing_serveAll {s : Site} {qs : List Request} :
    (s.serveAll qs).diagnostics.filter (·.error.isMissing) =
    s.diagnostics.filter (·.error.isMissing) := by
  have hnone : ((qs.filterMap Request.verdict?).flatMap fun rv =>
      if rv.2 then [] else s.incomplete rv.1).filter (·.error.isMissing) = [] := by
    refine List.filter_eq_nil_iff.2 fun d hd => ?_
    obtain ⟨rv, _, hd⟩ := List.mem_flatMap.1 hd
    split_ifs at hd
    · cases hd
    · obtain ⟨a, _, rfl⟩ := List.mem_map.1 hd
      exact Bool.false_ne_true
  rw [diagnostics_serveAll, List.filter_append, hnone, List.append_nil]

theorem told_buildLocal (i : Injector) (l : Lookup) :
    ∃ left, (buildLocal { injector := i, lookup := l }).Told left
      (i.builders.flatMap (l.untargeted i.id)) ∧
      ∀ k, k ∈ left ↔ ∃ r ∈ (buildLocal { injector := i, lookup := l }).pending, r.key = k := by
  have hstart : Told { injector := i, lookup := l } [] [] := Lookup.Told.empty l
  have hgrows := Grows.foldl Grows.addProvider { injector := i, lookup := l } i.providers
  have hmethods := (hstart.addProviders i.providers).addBuilders i.builders
  rw [hgrows.lookup, Site.id, hgrows.injector, List.nil_append] at hmethods
  simp only [exists_pending_iff]
  rw [buildLocal_eq]
  refine hmethods.addChildren fun j => ?_
  rw [children_foldl children_addBuilder, children_foldl children_addProvider]
  simp

end Site

namespace Resolution

variable {sites : Table InjectorId SiteState} {res : Resolution} {id : InjectorId}

theorem reports_building (s : Site) : reports (.building s) = s.diagnostics := by
  simp only [reports, SiteState.finish, Site.finish]
  by_cases hd : s.diagnostics = []
  · cases s.draft.freeze s.id <;> simp [hd]
  · simp [hd]

theorem diagnosticsFor_ofSites (h : ofSites sites = some res)
    (hall : ∀ id state, sites.get? id = some state →
      ∀ out, state.finish = some out → Concerns id out)
    {state : SiteState} (hs : sites.get? id = some state) :
    res.diagnosticsFor id = reports state := by
  obtain ⟨pre, post, hentries⟩ := List.append_of_mem (Table.get?_eq_some_iff.1 hs)
  have hkeys : (sites.entries.map (·.1)).Nodup := Table.keys_nodup sites
  rw [hentries, List.map_append, List.map_cons, List.nodup_middle, List.nodup_cons, List.mem_append,
    not_or] at hkeys
  -- no other entry has the key
  have hother : ∀ es : List (InjectorId × SiteState), id ∉ es.map (·.1) →
    es.filter (·.1 = id) = [] := fun es hid =>
    List.filter_eq_nil_iff.2 fun e he => by
      simp only [decide_eq_true_eq]
      rintro rfl
      exact hid (List.mem_map_of_mem he)
  have hmine : sites.entries.filter (·.1 = id) = [(id, state)] := by
    rw [hentries, List.filter_append, List.filter_cons_of_pos (by simp), hother pre hkeys.1.1,
      hother post hkeys.1.2]
    rfl
  rw [(ofSites_eq_some h).2, diagnosticsFor, Table.values, List.flatMap_map]
  dsimp only
  rw [filter_flatMap_eq (p := fun e => decide (e.1 = id)), hmine, List.flatMap_singleton]
  intro e he d hd
  rw [injector_of_mem_reports (hall e.1 e.2 (Table.get?_eq_some_iff.2 he)) hd]

end Resolution

namespace Catalog

variable {c : Catalog} {autoBinding : Bool} {id : InjectorId} {i : Injector} {res : Resolution}

/-- A key that an injector asks for while it is built, that leads to one without a binding, and that
it does not leave to its ancestors. -/
def Misses (c : Catalog) (autoBinding : Bool) (id : InjectorId) (k y : Key) : Prop :=
  ∃ s, (c.built autoBinding).site? id = some s ∧ s.store.status? k = some .failed ∧
    s.lookup.resolve k = .error (.missing y) ∧ ∀ r ∈ s.pending, r.key ≠ k

/-- Some diagnostics report the keys that an injector misses, each once: the key stands last in the
chain, and the one that it leads to is named. -/
structure ReportsMissed (c : Catalog) (autoBinding : Bool) (id : InjectorId) (asked : List Key)
    (ds : List Diagnostic) : Prop where
  nodup : asked.Nodup
  mem : ∀ k, k ∈ asked ↔ ∃ y, c.Misses autoBinding id k y
  chains : ds.map (·.chain.getLast?) = asked.map some
  names : List.Forall₂ (fun k d => ∀ y, c.Misses autoBinding id k y → d.error = .missing y) asked ds

def untargeted (c : Catalog) (autoBinding : Bool) (i : Injector) : List Diagnostic :=
  ((c.lookup? autoBinding i.id).map fun l => i.builders.flatMap (l.untargeted i.id)).getD []

theorem untargeted_of_builders (h : i.builders = []) : c.untargeted autoBinding i = [] := by
  unfold untargeted
  cases c.lookup? autoBinding i.id <;> simp [h]

theorem diagnosticsFor_resolve (hc : c.Sound) (hi : c.injectors.get? id = some i)
    (hr : c.resolve autoBinding = some res) : res.diagnosticsFor id =
      Resolution.reports ((SiteState.build c autoBinding i).serveAll
        (c.requests autoBinding id)) := by
  refine Resolution.diagnosticsFor_ofSites hr (fun _ _ hs _ ho => concerns_finish hc hs ho) ?_
  have hlinked : (c.linked autoBinding).sites.get? id = _ := get?_linked hc
  rw [sites, Table.get?_filterMap, hi] at hlinked
  exact hlinked

variable {s : Site} {left asked : List Key} {targets ds : List Diagnostic} {k y : Key}

theorem untargeted_of_site (hs : (c.built autoBinding).site? i.id = some s) :
    c.untargeted autoBinding i = i.builders.flatMap (s.lookup.untargeted i.id) := by
  rw [untargeted, ← lookup?_eq, hs]
  rfl

theorem misses_iff (hs : (c.built autoBinding).site? id = some s)
    (ht : s.lookup.Tells s.store s.diagnostics left targets asked ds)
    (hleft : ∀ k, k ∈ left ↔ ∃ r ∈ s.pending, r.key = k) :
    c.Misses autoBinding id k y ↔ k ∈ asked ∧ s.lookup.resolve k = .error (.missing y) := by
  have hpending : k ∉ left ↔ ∀ r ∈ s.pending, r.key ≠ k := by simp [hleft]
  rw [ht.mem, hpending]
  constructor
  · rintro ⟨s', hs', hfailed, hres, hnot⟩
    obtain rfl := Option.some.inj (hs.symm.trans hs')
    exact ⟨⟨⟨y, hres⟩, hfailed, hnot⟩, hres⟩
  · rintro ⟨⟨_, hfailed, hnot⟩, hres⟩
    exact ⟨s, hs, hfailed, hres, hnot⟩

theorem reportsMissed_of_tells (hs : (c.built autoBinding).site? id = some s)
    (ht : s.lookup.Tells s.store s.diagnostics left targets asked ds)
    (hleft : ∀ k, k ∈ left ↔ ∃ r ∈ s.pending, r.key = k) :
    c.ReportsMissed autoBinding id asked ds where
  nodup := ht.nodup
  mem k := by
    simp only [misses_iff hs ht hleft, exists_and_left, iff_self_and]
    exact fun hk => ((ht.mem k).1 hk).1
  chains := ht.chains
  names := by
    have hnames := List.forall₂_eq_eq_eq.symm ▸ ht.errors.symm
    rw [List.forall₂_map_left_iff, List.forall₂_map_right_iff] at hnames
    refine hnames.imp fun k d hd y hy => ?_
    exact Except.error.inj (hd.symm.trans ((misses_iff hs ht hleft).1 hy).2)

theorem nodup_errors_iff_of_tells (hs : (c.built autoBinding).site? id = some s)
    (ht : s.lookup.Tells s.store s.diagnostics left targets asked ds)
    (hleft : ∀ k, k ∈ left ↔ ∃ r ∈ s.pending, r.key = k) : (ds.map (·.error)).Nodup ↔
      ∀ j k y, c.Misses autoBinding id j y → c.Misses autoBinding id k y → j = k := by
  rw [ht.nodup_errors]
  constructor
  · intro h j k y hj hk
    obtain ⟨hj, hjy⟩ := (misses_iff hs ht hleft).1 hj
    obtain ⟨hk, hky⟩ := (misses_iff hs ht hleft).1 hk
    exact h j hj k hk (hjy.trans hky.symm)
  · intro h j hj k hk hjk
    obtain ⟨y, hjy⟩ := ((ht.mem j).1 hj).1
    exact h j k y ((misses_iff hs ht hleft).2 ⟨hj, hjy⟩)
      ((misses_iff hs ht hleft).2 ⟨hk, hjk.symm.trans hjy⟩)

theorem site?_built_of_error {ds : List Diagnostic} (hi : c.injectors.get? id = some i)
    (hs : Site.start c autoBinding i = .error ds) : (c.built autoBinding).site? id = none := by
  refine Option.eq_none_iff_forall_not_mem.2 fun s hm => ?_
  obtain ⟨i', s₀, hi', hs₀, _⟩ := site?_built.1 hm
  cases hi.symm.trans hi'
  cases hs.symm.trans hs₀

theorem missing_reported (hc : c.Sound) (hi : c.injectors.get? i.id = some i)
    (hr : c.resolve autoBinding = some res) :
    ∃ asked ds, ((res.diagnosticsFor i.id).filter (·.error.isMissing)).Perm
      (c.untargeted autoBinding i ++ ds) ∧ c.ReportsMissed autoBinding i.id asked ds ∧
      ((ds.map (·.error)).Nodup ↔
        ∀ j k y, c.Misses autoBinding i.id j y → c.Misses autoBinding i.id k y → j = k) := by
  rw [diagnosticsFor_resolve hc hi hr]
  unfold SiteState.build
  cases hs : Site.start c autoBinding i with
  | error es =>
    have hnone := site?_built_of_error hi hs
    have hmisses : ∀ k y, ¬ c.Misses autoBinding i.id k y := by
      rintro k y ⟨s, hs, _⟩
      cases hnone.symm.trans hs
    have huntargeted : c.untargeted autoBinding i = [] := by
      rw [untargeted, ← lookup?_eq, hnone]
      rfl
    refine ⟨[], [], ?_, ⟨.nil, by simp [hmisses], rfl, .nil⟩, by simp [hmisses]⟩
    rw [huntargeted]
    exact List.Perm.of_eq (Site.missing_start_error hs)
  | ok s₀ =>
    have hbuilt : (c.built autoBinding).site? i.id = some s₀.buildLocal :=
      site?_built.2 ⟨i, s₀, hi, hs, rfl⟩
    obtain ⟨registry, rfl⟩ := Site.start_ok hs
    obtain ⟨left, ⟨asked, ds, ht⟩, hleft⟩ := Site.told_buildLocal i ⟨c, registry, autoBinding⟩
    refine ⟨asked, ds, ?_, reportsMissed_of_tells hbuilt ht hleft,
      nodup_errors_iff_of_tells hbuilt ht hleft⟩
    change ((Resolution.reports (.building (Site.serveAll _ _))).filter _).Perm _
    rw [Resolution.reports_building, Site.missing_serveAll, untargeted_of_site hbuilt,
      (Site.Grows.buildLocal _).lookup]
    exact ht.listed

theorem Misses.route (h : c.Misses autoBinding id k y) :
    ∃ l via, c.lookup? autoBinding id = some l ∧
    l.Route k via y ∧ l.Unbound y := by
  obtain ⟨s, hs, -, hres, -⟩ := h
  have hl : c.lookup? autoBinding id = some s.lookup := by
    rw [← lookup?_eq, hs]
    rfl
  obtain ⟨i, s₀, _, hs₀, rfl⟩ := site?_built.1 hs
  have hsorted : (Site.buildLocal s₀).lookup.registry.Sorted := by
    rw [(Site.Grows.buildLocal s₀).lookup]
    unfold Site.start at hs₀
    split at hs₀
    · rename_i hregister
      cases hs₀
      exact Registry.sorted_of_register hregister
    · cases hs₀
  cases (Lookup.resolve_eq_iff hsorted).1 hres with
  | @lacking via e _ hroute _ hlack =>
    cases hlack with
    | missing hunbound _ => exact ⟨_, via, hl, hroute, hunbound⟩

end Catalog

/-- In a batch that is not cancelled each injector reports the keys that it misses, each once,
besides the targets of its builder methods that cannot be completed. No two of these reports name
the same key exactly if no two keys that it misses lead to the same one, for which nothing is
declared. -/
theorem Model.missing_reported_once {m : Model} {c : Catalog} {s : Settings} {course : Course}
    {t : Token} {res : Resolution} {i : Injector} (hm : Catalog.ofModel m = .ok c)
    (h : m.resolveDuring s course t = .ok (some res)) (hgoes : res.cancelled = [])
    (hi : i ∈ m.injectors) :
    ∃ asked ds,
      ((res.diagnosticsFor i.id).filter (·.error.isMissing)).Perm
        (c.untargeted s.autoBinding i ++ ds) ∧
      c.ReportsMissed s.autoBinding i.id asked ds ∧
      ((ds.map (·.error)).Nodup ↔
        ∀ j k y, c.Misses s.autoBinding i.id j y → c.Misses s.autoBinding i.id k y → j = k) ∧
      ∀ k y, c.Misses s.autoBinding i.id k y →
        ∃ l via, c.lookup? s.autoBinding i.id = some l ∧ l.Route k via y ∧ l.Unbound y := by
  obtain ⟨c', hc', hres⟩ := resolveDuring_eq_some h
  obtain rfl : c = c' := Except.ok.inj (hm.symm.trans hc')
  have hget : c.injectors.get? i.id = some i := (Catalog.get?_injectors hm).2 ⟨hi, rfl⟩
  split at hres
  · rw [hres] at hgoes
    have hkeys : i.id ∈ c.injectors.keys := Table.mem_keys_iff.2 ⟨i, hget⟩
    rw [show c.injectors.keys = [] from hgoes] at hkeys
    cases hkeys
  · obtain ⟨asked, ds, hperm, hreports, hiff⟩ :=
      Catalog.missing_reported (Catalog.sound_of_ofModel hm) hget hres
    exact ⟨asked, ds, hperm, hreports, hiff, fun k y hk => hk.route⟩

/-- `App` asks for some keys. Two factories need `Y`, which nothing provides, and a link leads from
`X` to it. -/
def wantingModel (keys : List Key) : Model where
  injectors := [
    { id := "App", specifications := ["Core"],
      providers := keys.map fun k => { name := k.type, key := k } }]
  specifications := [
    { id := "Core"
      factories := [(Factory.ofKey "make_s" ⟨"S", none⟩).parameter ⟨"Y", none⟩,
        (Factory.ofKey "make_w" ⟨"W", none⟩).parameter ⟨"Y", none⟩]
      links := [.between ⟨"X", none⟩ ⟨"Y", none⟩] }]

theorem missing_reported_once_wanting : ∃ c res ds,
    Catalog.ofModel (wantingModel [⟨"S", none⟩, ⟨"W", none⟩, ⟨"Y", none⟩]) = .ok c ∧
    (wantingModel [⟨"S", none⟩, ⟨"W", none⟩, ⟨"Y", none⟩]).resolveDuring {}
      (.still {} 0 (Nat.zero_le _)) ⟨0, none⟩ =
      .ok (some res) ∧ res.cancelled = [] ∧
    ((res.diagnosticsFor "App").filter (·.error.isMissing)).Perm ds ∧ (ds.map (·.error)).Nodup ∧
    ∀ j k y, c.Misses true "App" j y → c.Misses true "App" k y → j = k := by
  have h : ((wantingModel [⟨"S", none⟩, ⟨"W", none⟩, ⟨"Y", none⟩]).resolveDuring {}
    (.still {} 0 (Nat.zero_le _))
      ⟨0, none⟩).toOption.any fun out => out.any fun res =>
        decide (res.cancelled = [] ∧
          ((res.diagnosticsFor "App").filter (·.error.isMissing)).length = 1) := by
    decide +kernel
  obtain ⟨res, hres, h⟩ := exists_of_any_any h
  obtain ⟨hgoes, hone⟩ := of_decide_eq_true h
  obtain ⟨c, hc, -⟩ := Model.resolveDuring_eq_some hres
  obtain ⟨asked, ds, hperm, -, hiff, -⟩ :=
    Model.missing_reported_once hc hres hgoes List.mem_cons_self
  rw [Catalog.untargeted_of_builders rfl, List.nil_append] at hperm
  have hnodup : (ds.map (·.error)).Nodup := by
    obtain ⟨d, hd⟩ := List.length_eq_one_iff.1 (hperm.length_eq.symm.trans hone)
    rw [hd]
    exact List.nodup_singleton _
  exact ⟨c, res, ds, hc, hres, hgoes, hperm, hnodup, hiff.1 hnodup⟩

/-- `Y` is reported for itself and again for `X`, and there is no builder method. -/
theorem missing_reported_twice : ∃ res,
    (wantingModel [⟨"Y", none⟩, ⟨"X", none⟩]).resolveDuring {}
      (.still {} 0 (Nat.zero_le _)) ⟨0, none⟩ =
      .ok (some res) ∧ res.cancelled = [] ∧
    (∀ i ∈ (wantingModel [⟨"Y", none⟩, ⟨"X", none⟩]).injectors, i.builders = []) ∧
    (res.diagnosticsFor "App").map (fun d => (d.error, d.chain)) =
      [(.missing ⟨"Y", none⟩, [⟨"Y", none⟩]), (.missing ⟨"Y", none⟩, [⟨"X", none⟩])] := by
  have h : ((wantingModel [⟨"Y", none⟩, ⟨"X", none⟩]).resolveDuring {} (.still {} 0 (Nat.zero_le _))
      ⟨0, none⟩).toOption.any fun out => out.any fun res =>
        decide (res.cancelled = [] ∧ (res.diagnosticsFor "App").map (fun d => (d.error, d.chain)) =
          [(.missing ⟨"Y", none⟩, [⟨"Y", none⟩]), (.missing ⟨"Y", none⟩, [⟨"X", none⟩])]) := by
    decide +kernel
  obtain ⟨res, hres, h⟩ := exists_of_any_any h
  obtain ⟨hgoes, hboth⟩ := of_decide_eq_true h
  exact ⟨res, hres, hgoes, by simp [wantingModel], hboth⟩

end Wiring
