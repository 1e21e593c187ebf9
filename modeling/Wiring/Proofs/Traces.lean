import Wiring.Proofs.Drawing
import Wiring.Proofs.Order

/-!
What a failed offer leaves behind. Everything is taken back but what it has made of the links that
it passed: a key that was known before stands for whatever its provider came to in the attempt.
-/

set_option autoImplicit false

namespace Wiring

namespace Lookup

variable {l : Lookup} {trail : List Key} {asker : Option Location} {j k : Key} {ks : List Key}
  {s s' s₁ : Store} {out : Gathered} {r : Resolved} {i : Nat} {st : Status} {n : Node}

/-- A key is passed while keys are gathered: it is a link on the way from one of them to a provider
that is not in progress, or is passed while that provider is tried. The keys in front of that one
have found their nodes by then. -/
inductive Passes (l : Lookup) (j : Key) : List Key → Store → Prop where
  | via {k : Key} {ks : List Key} {s : Store} {r : Resolved} :
      s.status? k = none → l.resolve k = .ok r → s.status? r.key ≠ some .inProgress → j ∈ r.via →
      Passes l j (k :: ks) s
  | inside {k : Key} {ks : List Key} {s : Store} {r : Resolved} :
      s.status? k = none → l.resolve k = .ok r → s.status? r.key = none →
      Passes l j r.provider.dependencies (s.claim r) → Passes l j (k :: ks) s
  | known {k : Key} {ks : List Key} {s : Store} {i : Nat} :
      s.status? k = some (.done i) → Passes l j ks s → Passes l j (k :: ks) s
  | shared {k : Key} {ks : List Key} {s : Store} {r : Resolved} {i : Nat} :
      s.status? k = none → l.resolve k = .ok r → s.status? r.key = some (.done i) →
      Passes l j ks (s.rememberAll r.via (.done i)) → Passes l j (k :: ks) s
  | built {trail : List Key} {asker : Option Location} {k : Key} {ks : List Key}
      {s s₁ : Store} {r : Resolved} {args : List Nat} :
      s.status? k = none → l.resolve k = .ok r → s.status? r.key = none →
      Gathers l trail asker r.provider.dependencies (s.claim r) (.ok args) s₁ →
      Passes l j ks ((s₁.addNode (r.node args)).release r (.done s₁.nodes.length)) →
      Passes l j (k :: ks) s

theorem outside_of_unpassed (hj : s.status? j ≠ none) (hk : s.status? k = none)
    (hr : l.resolve k = .ok r) (hs : s.status? r.key = none) (hp : ¬ l.Passes j (k :: ks) s) :
    ¬ (j = r.key ∨ j ∈ r.via) ∧ (s.claim r).status? j = s.status? j := by
  have hout : ¬ (j = r.key ∨ j ∈ r.via) := by
    rintro (rfl | hm)
    · exact hj hs
    · exact hp (.via hk hr (by simp [hs]) hm)
  exact ⟨hout, by rw [Store.status?_claim, if_neg hout]⟩

/-- What is known of a key stays as it is unless the key is passed. -/
theorem Gathers.status?_unpassed (h : l.Gathers trail asker ks s out s') (hj : s.status? j ≠ none)
    (hp : ¬ l.Passes j ks s) : s'.status? j = s.status? j := by
  have hne : ∀ {k : Key} {s : Store}, s.status? j ≠ none → s.status? k = none → j ≠ k := by
    rintro k s hj hk rfl
    exact hj hk
  induction h with
  | nil | closing | refused => rfl
  | known hk _ ih => exact ih hj fun h => hp (.known hk h)
  | unresolved hk | looping hk => rw [Store.status?_remember, if_neg (hne hj hk)]
  | @spoiled _ _ _ _ s r hk hr hs =>
    have hvia : j ∉ r.via := fun hm => hp (.via hk hr (by simp [hs]) hm)
    rw [Store.status?_remember, if_neg (hne hj hk), Store.status?_rememberAll, if_neg hvia]
  | @shared _ _ _ _ s _ r i _ hk hr hs _ ih =>
    have hvia : j ∉ r.via := fun hm => hp (.via hk hr (by simp [hs]) hm)
    have hmid : (s.rememberAll r.via (.done i)).status? j = s.status? j := by
      rw [Store.status?_rememberAll, if_neg hvia]
    rw [ih (by rwa [hmid]) fun h => hp (.shared hk hr hs h), hmid]
  | broken hk hr hs _ ih =>
    obtain ⟨hout, hclaim⟩ := outside_of_unpassed hj hk hr hs hp
    have hin := ih (by rwa [hclaim]) fun h => hp (.inside hk hr hs h)
    rw [Store.status?_release, if_neg hout, hin, hclaim]
  | @built _ _ _ _ s s₁ _ r args _ hk hr hs h _ ih ih' =>
    obtain ⟨hout, hclaim⟩ := outside_of_unpassed hj hk hr hs hp
    have hin := ih (by rwa [hclaim]) fun h => hp (.inside hk hr hs h)
    have hmid : ((s₁.addNode (r.node args)).release r (.done s₁.nodes.length)).status? j =
        s.status? j := by
      rw [Store.status?_release, if_neg hout, Store.status?_addNode, hin, hclaim]
    rw [ih' (by rwa [hmid]) fun hrest => hp (.built hk hr hs h hrest), hmid]

/-- A key is known, and stands for whatever the key with its provider has come to. -/
def Aligned (l : Lookup) (s : Store) (j : Key) : Prop :=
  ∃ r, l.resolve j = .ok r ∧ s.status? j ≠ none ∧ s.status? j = s.status? r.key

theorem aligned_release (hr : l.resolve k = .ok r) (hj : j = r.key ∨ j ∈ r.via) :
    l.Aligned (s.release r st) j := by
  obtain ⟨via, hv⟩ := resolve_passed hr hj
  have hstatus : (s.release r st).status? j = some st := by rw [Store.status?_release, if_pos hj]
  exact ⟨_, hv, by simp [hstatus], by rw [hstatus, Store.status?_release, if_pos (.inl rfl)]⟩

theorem aligned_pass (hr : l.resolve k = .ok r) (hj : j ∈ r.via) (hs : s.status? r.key = some st) :
    l.Aligned (s.rememberAll r.via st) j := by
  obtain ⟨via, hv⟩ := resolve_via hr hj
  have hstatus : (s.rememberAll r.via st).status? j = some st := by
    rw [Store.status?_rememberAll, if_pos hj]
  refine ⟨_, hv, by simp [hstatus], ?_⟩
  rw [hstatus, Store.status?_rememberAll, hs, ite_self]

namespace Aligned

theorem congr (h : l.Aligned s j) (hs : ∀ d, s'.status? d = s.status? d) : l.Aligned s' j := by
  obtain ⟨r, hr, hknown, heq⟩ := h
  exact ⟨r, hr, by rwa [hs], by rw [hs, hs, heq]⟩

theorem keep (h : l.Aligned s j) (hr : l.resolve k = .ok r)
    (hne : ∀ r', l.resolve j = .ok r' → r'.key ≠ r.key)
    (hs' : ∀ d, ¬ (d = r.key ∨ d ∈ r.via) → s'.status? d = s.status? d) : l.Aligned s' j := by
  obtain ⟨r', hr', hknown, heq⟩ := h
  have hj : ¬ (j = r.key ∨ j ∈ r.via) := by
    intro hm
    obtain ⟨via, hv⟩ := resolve_passed hr hm
    cases hr'.symm.trans hv
    exact hne _ hr' rfl
  have hkey : ¬ (r'.key = r.key ∨ r'.key ∈ r.via) :=
    not_or.2 ⟨hne r' hr', notMem_via_of_find (find_key hr') hr⟩
  exact ⟨r', hr', by rwa [hs' j hj], by rw [hs' j hj, hs' _ hkey, heq]⟩

theorem pass (h : l.Aligned s j) (hr : l.resolve k = .ok r) (hs : s.status? r.key = some st) :
    l.Aligned (s.rememberAll r.via st) j := by
  by_cases hj : j ∈ r.via
  · exact aligned_pass hr hj hs
  · obtain ⟨r', hr', hknown, heq⟩ := h
    have hkey : r'.key ∉ r.via := notMem_via_of_find (find_key hr') hr
    refine ⟨r', hr', ?_, ?_⟩
    · rwa [Store.status?_rememberAll, if_neg hj]
    · rw [Store.status?_rememberAll, if_neg hj, Store.status?_rememberAll, if_neg hkey, heq]

theorem fail (h : l.Aligned s j) (hk : s.status? k = none) :
    l.Aligned (s.remember k .failed) j := by
  obtain ⟨r, hr, hknown, heq⟩ := h
  have hj : j ≠ k := by
    rintro rfl
    exact hknown hk
  have hkey : r.key ≠ k := by
    rintro rfl
    exact hknown (heq.trans hk)
  refine ⟨r, hr, ?_, ?_⟩
  · rwa [Store.status?_remember, if_neg hj]
  · rw [Store.status?_remember, if_neg hj, Store.status?_remember, if_neg hkey, heq]

theorem key_ne (h : l.Aligned s j) (hs : s.status? r.key = none) :
    ∀ r', l.resolve j = .ok r' → r'.key ≠ r.key := by
  rintro r' hr' hkey
  obtain ⟨r'', hr'', hknown, heq⟩ := h
  cases hr'.symm.trans hr''
  exact hknown (by rw [heq, hkey, hs])

end Aligned

theorem status?_spoil (hk : s.status? k = none) (hr : l.resolve k = .ok r)
    (hs : s.status? r.key = some .failed) (d : Key) :
    ((s.rememberAll r.via .failed).remember k .failed).status? d =
      (s.rememberAll r.via .failed).status? d := by
  have hm : k ∈ r.via := by
    rcases mem_via_or_eq_key hr with hm | ⟨hm, _⟩
    · exact hm
    · rw [← hm, hk] at hs
      cases hs
  rw [Store.status?_remember]
  split
  · rename_i hd
    rw [hd, Store.status?_rememberAll, if_pos hm]
  · rfl

theorem Gathers.aligned (h : l.Gathers trail asker ks s out s') (hj : l.Aligned s j) :
    l.Aligned s' j := by
  refine h.induct_steps (R := fun s s' => l.Aligned s j → l.Aligned s' j) ?_ ?_ ?_ ?_ ?_ ?_ ?_ hj
  · exact fun _ h => h
  · exact fun h h' hs => h' (h hs)
  · exact fun s k hk _ h => h.fail hk
  · exact fun s k r i hr hs h => h.pass hr hs
  · exact fun s k r hk hr hs h => (h.pass hr hs).congr (status?_spoil hk hr hs)
  · intro s s₁ k r hr hs h hj
    have hne := hj.key_ne hs
    have hclaim := hj.keep hr hne fun d hd => by rw [Store.status?_claim, if_neg hd]
    exact (h hclaim).keep hr hne fun d hd => by rw [Store.status?_release, if_neg hd]
  · intro s s₁ k r args hr hs h hj
    have hne := hj.key_ne hs
    have hclaim := hj.keep hr hne fun d hd => by rw [Store.status?_claim, if_neg hd]
    exact (h hclaim).keep hr hne fun d hd =>
      by rw [Store.status?_release, if_neg hd, Store.status?_addNode]

/-- A key waits only together with the key that has its provider. -/
def Paired (l : Lookup) (s : Store) : Prop :=
  ∀ j r, l.resolve j = .ok r → s.status? j = some .inProgress →
  s.status? r.key = some .inProgress

namespace Paired

theorem of_idle (h : s.Idle) : l.Paired s := fun j _ _ hj => absurd hj (h j)

theorem claim (h : l.Paired s) (hr : l.resolve k = .ok r) : l.Paired (s.claim r) := by
  intro j r' hr' hj
  rw [Store.status?_claim] at hj ⊢
  split
  · rfl
  · rename_i hkey
    split at hj
    · rename_i hm
      obtain ⟨via, hv⟩ := resolve_passed hr hm
      cases hr'.symm.trans hv
      exact absurd (.inl rfl) hkey
    · exact h j r' hr' hj

theorem pass (h : l.Paired s) (hr : l.resolve k = .ok r) :
    l.Paired (s.rememberAll r.via (.done i)) := by
  intro j r' hr' hj
  have hj := Store.status?_of_rememberAll hj (by simp)
  rw [Store.status?_rememberAll, if_neg (notMem_via_of_find (find_key hr') hr)]
  exact h j r' hr' hj

theorem visit (h : l.Paired s) (hr : l.resolve k = .ok r) (hs : s.status? r.key = none)
    (hg : l.Gathers trail asker ks (s.claim r) out s₁) (hst : st ≠ .inProgress) :
    l.Paired ((s₁.addNode n).release r st) := by
  intro j r' hr' hj
  have hkey := h j r' hr' (Store.status?_of_visit hj hst hg.inProgress_before)
  have hout : ¬ (r'.key = r.key ∨ r'.key ∈ r.via) := by
    refine not_or.2 ⟨fun heq => ?_, notMem_via_of_find (find_key hr') hr⟩
    rw [heq, hs] at hkey
    cases hkey
  have hclaim : (s.claim r).status? r'.key = some .inProgress := by
    rw [Store.status?_claim, if_neg hout, hkey]
  rw [Store.status?_release, if_neg hout, Store.status?_addNode,
    hg.status?_provided (find_key hr') (by simp [hclaim]), hclaim]

end Paired

/-- A key that is passed by the way stands for whatever its provider has come to, also after the
visit. -/
theorem Aligned.release (h : l.Aligned s₁ j) (hs : l.Paired s) (hr : l.resolve k = .ok r)
    (hkey : s.status? r.key = none) (hg : l.Gathers trail asker ks (s.claim r) out s₁) :
    l.Aligned (s₁.release r st) j := by
  by_cases hm : j = r.key ∨ j ∈ r.via
  · exact aligned_release hr hm
  · refine h.keep hr (fun r' hr' heq => ?_) fun d hd => by rw [Store.status?_release, if_neg hd]
    obtain ⟨r'', hr'', _, hj⟩ := h
    cases hr'.symm.trans hr''
    -- a key that waits for this provider has been waiting before, when the provider had not been
    -- tried
    rw [heq, hg.claimed hr] at hj
    have hbefore := hg.inProgress_before hj
    rw [Store.status?_claim, if_neg hm] at hbefore
    have hstill := hs j r' hr' hbefore
    rw [heq, hkey] at hstill
    cases hstill

theorem Gathers.aligned_of_passes (hp : l.Passes j ks s) (h : l.Gathers trail asker ks s out s')
    (hs : l.Paired s) : l.Aligned s' j := by
  induction hp generalizing trail asker out s' with
  | @via k ks s r hk hr hne hm =>
    cases hst : s.status? r.key with
    | none =>
      obtain ⟨_, _, _, ⟨_, _, _, rfl⟩ | ⟨_, _, _, _, hrest⟩⟩ := h.of_fresh hk hr hst
      · exact aligned_release hr (.inr hm)
      · exact hrest.aligned (aligned_release hr (.inr hm))
    | some st =>
      cases st with
      | inProgress => exact absurd hst hne
      | failed =>
        obtain ⟨_, rfl⟩ := h.of_spoiled hk hr hst
        exact (aligned_pass hr hm hst).congr (status?_spoil hk hr hst)
      | done i =>
        obtain ⟨_, _, hrest⟩ := h.of_shared hk hr hst
        exact hrest.aligned (aligned_pass hr hm hst)
  | inside hk hr hst _ ih =>
    obtain ⟨_, s₁, hin, ⟨_, _, _, rfl⟩ | ⟨_, _, _, _, hrest⟩⟩ := h.of_fresh hk hr hst
    · exact (ih hin (hs.claim hr)).release hs hr hst hin
    · have hdone : l.Aligned (s₁.release _ (.done s₁.nodes.length)) j :=
        (ih hin (hs.claim hr)).release hs hr hst hin
      refine hrest.aligned (hdone.congr fun d => ?_)
      rw [Store.status?_release, Store.status?_release, Store.status?_addNode]
  | known hk _ ih =>
    obtain ⟨_, _, hrest⟩ := h.of_known hk
    exact ih hrest hs
  | shared hk hr hst _ ih =>
    obtain ⟨_, _, hrest⟩ := h.of_shared hk hr hst
    exact ih hrest (hs.pass hr)
  | built hk hr hst hg _ ih =>
    obtain ⟨_, _, hin, ⟨_, rfl, _, _⟩ | ⟨_, _, rfl, _, hrest⟩⟩ := h.of_fresh hk hr hst
    · cases (hg.unique hin).1
    · obtain ⟨ho, rfl⟩ := hg.unique hin
      cases ho
      exact ih hrest (hs.visit hr hst hg (by simp))

/-- A walk overwrites what is known of a key: it passes the key, and the provider that the key leads
to comes to something else. -/
def Overwrites (l : Lookup) (k : Key) (s : Store) (j : Key) : Prop :=
  s.status? j ≠ none ∧ l.Passes j [k] s ∧
    ∃ r, l.resolve j = .ok r ∧ (l.walk k s).2.status? r.key ≠ s.status? j

theorem status?_walk_of_passes (hi : s.Idle) (hp : l.Passes j [k] s) (hr : l.resolve j = .ok r) :
    (l.walk k s).2.status? j = (l.walk k s).2.status? r.key := by
  obtain ⟨r', hr', _, heq⟩ := (walk_gathers hi).aligned_of_passes hp (.of_idle hi)
  cases hr.symm.trans hr'
  exact heq

theorem rollback_ne_iff (hi : s.Idle) :
    ((l.walk k s).2.rollback s).status? j ≠ s.status? j ↔ l.Overwrites k s j := by
  have hg := walk_gathers (l := l) (k := k) hi
  rw [Store.status?_rollback hg.extends]
  by_cases hj : s.status? j = none
  · simp [Overwrites, hj]
  · rw [if_neg hj]
    constructor
    · intro hne
      have hp : l.Passes j [k] s := by
        by_contra hp
        exact hne (hg.status?_unpassed hj hp)
      obtain ⟨r, hr, _, heq⟩ := hg.aligned_of_passes hp (.of_idle hi)
      exact ⟨hj, hp, r, hr, heq ▸ hne⟩
    · rintro ⟨_, hp, r, hr, hne⟩
      rwa [status?_walk_of_passes hi hp hr]

end Lookup

theorem Store.journal_rollback {s s' : Store} (h : s.Extends s') :
    (s'.rollback s).journal = s.journal := by
  obtain ⟨new, hj, _⟩ := h.journal
  simp [Store.rollback, hj]

theorem Store.ext_status? {s s' : Store} (hnodes : s.nodes = s'.nodes)
    (hjournal : s.journal = s'.journal) (h : ∀ k, s.status? k = s'.status? k) : s = s' := by
  obtain ⟨nodes, memo, journal⟩ := s
  obtain ⟨nodes', memo', journal'⟩ := s'
  obtain rfl : memo = memo' := Table.ext_get? h
  cases hnodes
  cases hjournal
  rfl

namespace Site

variable {s : Site} {k : Key}

theorem exportKey_none (h : (s.exportKey k).1 = none) :
    (s.exportKey k).2 = { s with store := (s.lookup.walk k s.store).2.rollback s.store } := by
  rcases s.exportKey_cases k with ⟨i, _, hs⟩ | ⟨e, _, hs⟩
  · rw [hs] at h
    cases h
  · rw [hs]
    rfl

theorem exportKey_eq_iff (hi : s.store.Idle) (h : (s.exportKey k).1 = none) :
    (s.exportKey k).2 = s ↔ ∀ j, ¬ s.lookup.Overwrites k s.store j := by
  have hg := Lookup.walk_gathers (l := s.lookup) (k := k) hi
  rw [exportKey_none h]
  constructor
  · intro heq j hj
    exact (Lookup.rollback_ne_iff hi).2 hj (congrArg (fun t : Site => t.store.status? j) heq)
  · intro hnone
    have hstore : (s.lookup.walk k s.store).2.rollback s.store = s.store :=
      Store.ext_status? (Store.nodes_rollback hg.extends) (Store.journal_rollback hg.extends)
        fun j => by
        by_contra hne
        exact hnone j ((Lookup.rollback_ne_iff hi).1 hne)
    rw [hstore]

end Site

namespace Catalog

variable {c : Catalog} {autoBinding : Bool} {id : InjectorId} {s t : Site} {k : Key}

/-- A failed offer leaves everything as it was, except that a known key may be overwritten: a link
that the attempt passes then has what its provider came to. It leaves no trace exactly if no key is
overwritten. -/
theorem failed_offer_iff (hs : (c.built autoBinding).site? id = some s) (n : Nat)
    (ht : t = s.serveAll ((c.requests autoBinding id).take n)) (h : (t.exportKey k).1 = none) :
    (t.exportKey k).2 = { t with store := (t.exportKey k).2.store } ∧
    (t.exportKey k).2.store.nodes = t.store.nodes ∧
    (t.exportKey k).2.store.journal = t.store.journal ∧
    (∀ j, (t.exportKey k).2.store.status? j = none ↔ t.store.status? j = none) ∧
    (∀ j, (t.exportKey k).2.store.status? j ≠ t.store.status? j ↔ t.lookup.Overwrites k t.store j) ∧
    (∀ j r, t.lookup.Overwrites k t.store j → t.lookup.resolve j = .ok r →
      (t.exportKey k).2.store.status? j = (t.lookup.walk k t.store).2.status? r.key) ∧
    ((t.exportKey k).2 = t ↔ ∀ j, ¬ t.lookup.Overwrites k t.store j) := by
  have hi : t.store.Idle := ht ▸ Site.idle_serveAll (built_inOrder hs).idle
  have hg := Lookup.walk_gathers (l := t.lookup) (k := k) hi
  refine ⟨?_, ?_, ?_, fun j => ?_, fun j => ?_, fun j r hj hr => ?_, Site.exportKey_eq_iff hi h⟩
  all_goals rw [Site.exportKey_none h]
  · exact Store.nodes_rollback hg.extends
  · exact Store.journal_rollback hg.extends
  · rw [Store.status?_rollback hg.extends]
    split
    · simp_all
    · rename_i hj
      exact ⟨fun hnone => absurd hnone (hg.extends.known j hj), fun hnone => absurd hnone hj⟩
  · exact Lookup.rollback_ne_iff hi
  · rw [Store.status?_rollback hg.extends, if_neg hj.1, Lookup.status?_walk_of_passes hi hj.2.1 hr]

end Catalog

/-- `Mid` draws `K` from `Root`, since its own binding for `K` fails. The failed attempt at `K2`
passes `K` again. -/
def tracedModel : Model := .lineage
  { id := "R", factories := [.ofKey "make_k" ⟨"K", none⟩] }
  { id := "M"
    factories := [(Factory.ofKey "make_t" ⟨"T", none⟩).parameter ⟨"X", none⟩]
    links := [.between ⟨"K", none⟩ ⟨"T", none⟩, .between ⟨"K2", none⟩ ⟨"K", none⟩] }
  [⟨"K", none⟩, ⟨"K2", none⟩]

theorem failed_offer_root : ∃ c s t, Catalog.ofModel tracedModel = .ok c ∧
    (c.built true).site? "Root" = some s ∧ t = s.serveAll ((c.requests true "Root").take 1) ∧
    (t.exportKey ⟨"K2", none⟩).1 = none ∧ t.store.status? ⟨"K", none⟩ = some (.done 0) ∧
    (t.exportKey ⟨"K2", none⟩).2 = t ∧ ∀ j, ¬ t.lookup.Overwrites ⟨"K2", none⟩ t.store j := by
  have h : (Catalog.ofModel tracedModel).toOption.any fun c =>
    ((c.built true).site? "Root").any fun s =>
      let t := s.serveAll ((c.requests true "Root").take 1)
      (t.exportKey ⟨"K2", none⟩).1.isNone &&
        decide (t.store.status? ⟨"K", none⟩ = some (.done 0)) &&
        decide ((t.exportKey ⟨"K2", none⟩).2 = t) := by
    decide +kernel
  obtain ⟨c, hc, h⟩ := exists_of_any h
  obtain ⟨s, hs, h⟩ := (Option.any_eq_true _ _).1 h
  obtain ⟨⟨hnone, hk⟩, hsame⟩ : (_ ∧ _) ∧ _ := by
    simpa only [Bool.and_eq_true, decide_eq_true_eq, Option.isNone_iff_eq_none] using h
  obtain ⟨_, _, _, _, _, _, hiff⟩ := Catalog.failed_offer_iff hs 1 rfl hnone
  exact ⟨c, s, _, hc, hs, rfl, hnone, hk, hsame, hiff.1 hsame⟩

theorem failed_offer_traced : ∃ c s t, Catalog.ofModel tracedModel = .ok c ∧
    (c.built true).site? "Mid" = some s ∧ t = s.serveAll ((c.requests true "Mid").take 2) ∧
    (c.requests true "Mid")[2]? = some (.offer ⟨"K2", none⟩) ∧ (t.exportKey ⟨"K2", none⟩).1 = none ∧
    t.store.status? ⟨"K", none⟩ = some (.done 0) ∧
    (t.exportKey ⟨"K2", none⟩).2.store.status? ⟨"K", none⟩ = some .failed := by
  have h : (Catalog.ofModel tracedModel).toOption.any fun c =>
    ((c.built true).site? "Mid").any fun s =>
      let t := s.serveAll ((c.requests true "Mid").take 2)
      decide ((c.requests true "Mid")[2]? = some (.offer ⟨"K2", none⟩)) &&
        (t.exportKey ⟨"K2", none⟩).1.isNone &&
        decide (t.store.status? ⟨"K", none⟩ = some (.done 0)) &&
        decide ((t.exportKey ⟨"K2", none⟩).2.store.status? ⟨"K", none⟩ = some .failed) := by
    decide +kernel
  obtain ⟨c, hc, h⟩ := exists_of_any h
  obtain ⟨s, hs, h⟩ := (Option.any_eq_true _ _).1 h
  obtain ⟨⟨⟨hrequest, hnone⟩, hk⟩, hfailed⟩ : ((_ ∧ _) ∧ _) ∧ _ := by
    simpa only [Bool.and_eq_true, decide_eq_true_eq, Option.isNone_iff_eq_none] using h
  exact ⟨c, s, _, hc, hs, rfl, hrequest, hnone, hk, hfailed⟩

end Wiring
