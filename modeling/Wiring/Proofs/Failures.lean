import Wiring.Proofs.Derivation
import Wiring.Proofs.Gathering

/-!
What walks find. A key fails only if it cannot be derived, since the keys in progress are those that
wait for it, and a failure without a report goes back to a key that had failed before. A node is of
a key that is attainable from what has been drawn, whatever has been walked to before.
-/

set_option autoImplicit false

namespace Wiring

open Relation

namespace Lookup

variable {l : Lookup} {trail : List Key} {asker : Option Location} {k j : Key} {ks : List Key}
  {s s' s₁ : Store} {out : Gathered} {r : Resolved} {st : Status} {drawn : Key → Prop}

def FailsRightly (l : Lookup) (s : Store) : Prop :=
  ∀ j, s.status? j = some .failed → ¬ l.Derivable j

theorem not_derivable_of_error {e : BindingError} (hk : l.resolve k = .error e) :
    ¬ l.Derivable k := by
  intro h
  obtain ⟨r, hr⟩ := h.resolve_ok
  rw [hk] at hr
  cases hr

theorem derivable_passed (hr : l.resolve k = .ok r) (hj : j = r.key ∨ j ∈ r.via) :
    l.Derivable j ↔ l.Derivable r.key := by
  obtain ⟨via, hv⟩ := resolve_passed hr hj
  exact (derivable_key_iff hv).symm

namespace FailsRightly

theorem empty : l.FailsRightly .empty := fun _ h => by simp at h

theorem remember (h : l.FailsRightly s) (hst : st = .failed → ¬ l.Derivable k) :
    l.FailsRightly (s.remember k st) := by
  intro j hj
  rw [Store.status?_remember] at hj
  split at hj
  · rename_i hjk
    cases hj
    exact hjk ▸ hst rfl
  · exact h j hj

theorem rememberAll (h : l.FailsRightly s) (hst : st = .failed → ∀ k ∈ ks, ¬ l.Derivable k) :
    l.FailsRightly (s.rememberAll ks st) := by
  intro j hj
  rw [Store.status?_rememberAll] at hj
  split at hj
  · rename_i hm
    cases hj
    exact hst rfl j hm
  · exact h j hj

theorem claim (h : l.FailsRightly s) : l.FailsRightly (s.claim r) :=
  (h.remember (by simp)).rememberAll (by simp)

theorem addNode {n : Node} (h : l.FailsRightly s) : l.FailsRightly (s.addNode n) := h

theorem release (h : l.FailsRightly s) (hr : l.resolve k = .ok r)
    (hst : st = .failed → ¬ l.Derivable r.key) : l.FailsRightly (s.release r st) :=
  (h.rememberAll fun he _ hj => (derivable_passed hr (.inr hj)).not.2 (hst he)).remember hst

end FailsRightly

/-- The keys in progress are led to providers on the way, and all that is on the way needs the keys
ahead. -/
structure Awaited (l : Lookup) (trail ks : List Key) (s : Store) : Prop where
  inProgress : ∀ j, s.status? j = some .inProgress → ∃ r, l.resolve j = .ok r ∧ r.key ∈ trail
  needed : ∀ t ∈ trail, ∀ k ∈ ks, TransGen l.Needs t k

namespace Awaited

theorem tail (h : l.Awaited trail (k :: ks) s) (hs : ∀ j, s'.status? j = some .inProgress →
    s.status? j = some .inProgress) : l.Awaited trail ks s' :=
  ⟨fun j hj => h.inProgress j (hs j hj),
    fun t ht d hd => h.needed t ht d (List.mem_cons_of_mem _ hd)⟩

theorem not_derivable (h : l.Awaited trail (k :: ks) s) (hr : l.resolve k = .ok r)
    (hs : s.status? r.key = some .inProgress) : ¬ l.Derivable k := by
  obtain ⟨r', hr', hm⟩ := h.inProgress _ hs
  rw [resolve_key hr] at hr'
  cases hr'
  exact not_derivable_of_needs_key hr (h.needed _ hm _ List.mem_cons_self)

theorem claim (h : l.Awaited trail (k :: ks) s) (hr : l.resolve k = .ok r) :
    l.Awaited (trail ++ [r.key]) r.provider.dependencies (s.claim r) where
  inProgress j hj := by
    rw [Store.status?_claim] at hj
    split at hj
    · rename_i hm
      obtain ⟨via, hv⟩ := resolve_passed hr hm
      exact ⟨_, hv, by simp⟩
    · obtain ⟨r', hr', hm⟩ := h.inProgress j hj
      exact ⟨r', hr', List.mem_append_left _ hm⟩
  needed t ht d hd := by
    rcases List.mem_append.1 ht with ht | ht
    · exact (h.needed t ht k List.mem_cons_self).tail ⟨r, hr, hd⟩
    · obtain rfl := List.mem_singleton.1 ht
      exact .single ((needs_key_iff hr).2 ⟨r, hr, hd⟩)

end Awaited

/-- A gathering that fails comes upon a key that cannot be derived. -/
theorem Gathers.not_derivable (h : l.Gathers trail asker ks s out s') (hw : l.Awaited trail ks s)
    (hf : l.FailsRightly s) :
    l.FailsRightly s' ∧ ∀ e, out = .error e → ∃ k ∈ ks, ¬ l.Derivable k := by
  -- the failure of one of the other keys is a failure of the list
  have later : ∀ {k : Key} {ks : List Key} {i : Nat} {out : Gathered},
      (∀ e, out = .error e → ∃ d ∈ ks, ¬ l.Derivable d) →
      ∀ e, out.map (i :: ·) = .error e → ∃ d ∈ k :: ks, ¬ l.Derivable d := by
    intro k ks i out hout e he
    obtain ⟨d, hd, hnot⟩ := hout e (Gathered.map_eq_error_iff.1 he)
    exact ⟨d, List.mem_cons_of_mem _ hd, hnot⟩
  induction h with
  | nil => exact ⟨hf, by simp⟩
  | known _ _ ih =>
    obtain ⟨hf', hout⟩ := ih (hw.tail fun _ h => h) hf
    exact ⟨hf', later hout⟩
  | @closing _ _ k _ _ hk =>
    obtain ⟨r, hr, hm⟩ := hw.inProgress k hk
    have hnot : ¬ l.Derivable k :=
      not_derivable_of_needs_key hr (hw.needed _ hm _ List.mem_cons_self)
    exact ⟨hf, fun _ _ => ⟨k, List.mem_cons_self, hnot⟩⟩
  | @refused _ _ k _ _ hk => exact ⟨hf, fun _ _ => ⟨k, List.mem_cons_self, hf k hk⟩⟩
  | unresolved _ hr =>
    have hnot := not_derivable_of_error hr
    exact ⟨hf.remember fun _ => hnot, fun _ _ => ⟨_, List.mem_cons_self, hnot⟩⟩
  | looping _ hr hs =>
    have hnot := hw.not_derivable hr hs
    exact ⟨hf.remember fun _ => hnot, fun _ _ => ⟨_, List.mem_cons_self, hnot⟩⟩
  | @spoiled _ _ _ _ s r _ hr hs =>
    have hkey := hf _ hs
    have hnot := (derivable_key_iff hr).not.1 hkey
    have hvia : l.FailsRightly (s.rememberAll r.via .failed) :=
      hf.rememberAll fun _ _ hj => (derivable_passed hr (.inr hj)).not.2 hkey
    exact ⟨hvia.remember fun _ => hnot, fun _ _ => ⟨_, List.mem_cons_self, hnot⟩⟩
  | shared _ hr hs _ ih =>
    obtain ⟨hf', hout⟩ := ih (hw.tail fun _ hj => Store.status?_of_rememberAll hj (by simp))
      (hf.rememberAll (by simp))
    exact ⟨hf', later hout⟩
  | broken _ hr hs h ih =>
    obtain ⟨hf₁, hout⟩ := ih (hw.claim hr) hf.claim
    obtain ⟨d, hd, hnot⟩ := hout _ rfl
    have hkey : ¬ l.Derivable (Resolved.key _) :=
      fun hk => hnot (hk.of_needs ((needs_key_iff hr).2 ⟨_, hr, hd⟩))
    exact ⟨hf₁.release hr fun _ => hkey,
      fun _ _ => ⟨_, List.mem_cons_self, (derivable_key_iff hr).not.1 hkey⟩⟩
  | built _ hr hs h _ ih ih' =>
    obtain ⟨hf₁, _⟩ := ih (hw.claim hr) hf.claim
    obtain ⟨hf', hout⟩ := ih'
      (hw.tail fun _ hj => Store.status?_of_visit hj (by simp) h.inProgress_before)
      (hf₁.addNode.release hr (by simp))
    exact ⟨hf', later hout⟩

theorem Gathers.length_trail (h : l.Gathers trail asker ks s out s') {e : Report}
    (he : out = .error (some e)) : trail.length < e.trail.length := by
  induction h with
  | nil | refused | spoiled => simp at he
  | known _ _ ih => exact ih (Gathered.map_eq_error_iff.1 he)
  | shared _ _ _ _ ih => exact ih (Gathered.map_eq_error_iff.1 he)
  | built _ _ _ _ _ _ ih => exact ih (Gathered.map_eq_error_iff.1 he)
  | closing | unresolved | looping =>
    cases he
    simp
  | broken _ _ _ _ ih =>
    have := ih he
    rw [List.length_append] at this
    omega

theorem Gathers.failed_before {is : List Nat} (h : l.Gathers trail asker ks s out s')
    (hout : out = .ok is) (hj : s'.status? j = some .failed) : s.status? j = some .failed := by
  induction h generalizing is with
  | nil => exact hj
  | closing | refused | unresolved | looping | spoiled | broken => cases hout
  | known _ _ ih =>
    obtain ⟨_, hrest, _⟩ := Gathered.map_eq_ok_iff.1 hout
    exact ih hrest hj
  | shared _ _ _ _ ih =>
    obtain ⟨_, hrest, _⟩ := Gathered.map_eq_ok_iff.1 hout
    exact Store.status?_of_rememberAll (ih hrest hj) (by simp)
  | built _ _ _ _ _ ih ih' =>
    obtain ⟨_, hrest, _⟩ := Gathered.map_eq_ok_iff.1 hout
    exact Store.status?_of_visit (ih' hrest hj) (by simp) (ih rfl)

/-- A key has failed, or the key with its provider has. -/
def Spoilt (l : Lookup) (s : Store) (k : Key) : Prop :=
  s.status? k = some .failed ∨ ∃ r, l.resolve k = .ok r ∧ s.status? r.key = some .failed

theorem Spoilt.back (h : l.Spoilt s' k)
    (hs : ∀ j, s'.status? j = some .failed → s.status? j = some .failed) : l.Spoilt s k :=
  h.imp (hs k) fun ⟨r, hr, hkey⟩ => ⟨r, hr, hs r.key hkey⟩

/-- A failure without a report goes back to a failure that has been there before, of a key that is
needed. -/
theorem Gathers.spoilt (h : l.Gathers trail asker ks s out s') (he : out = .error none) :
    ∃ k ∈ ks, ∃ j, ReflTransGen l.Needs k j ∧ l.Spoilt s j := by
  have later : ∀ {k : Key} {ks : List Key} {s s' : Store},
      (∀ j, s'.status? j = some .failed → s.status? j = some .failed) →
      (∃ d ∈ ks, ∃ j, ReflTransGen l.Needs d j ∧ l.Spoilt s' j) →
      ∃ d ∈ k :: ks, ∃ j, ReflTransGen l.Needs d j ∧ l.Spoilt s j :=
    fun back ⟨d, hd, j, hj, hst⟩ => ⟨d, List.mem_cons_of_mem _ hd, j, hj, hst.back back⟩
  induction h with
  | nil | closing | unresolved | looping => simp at he
  | refused hk => exact ⟨_, List.mem_cons_self, _, .refl, .inl hk⟩
  | spoiled _ hr hs => exact ⟨_, List.mem_cons_self, _, .refl, .inr ⟨_, hr, hs⟩⟩
  | known _ _ ih => exact later (fun _ hj => hj) (ih (Gathered.map_eq_error_iff.1 he))
  | shared _ _ _ _ ih =>
    exact later (fun _ hj => Store.status?_of_rememberAll hj (by simp))
      (ih (Gathered.map_eq_error_iff.1 he))
  | @built _ _ _ _ s s₁ _ r args _ _ _ _ h _ _ ih =>
    have back : ∀ j,
        ((s₁.addNode (r.node args)).release r (.done s₁.nodes.length)).status? j = some .failed →
          s.status? j = some .failed :=
      fun _ hj => Store.status?_of_visit hj (by simp) (h.failed_before rfl)
    exact later back (ih (Gathered.map_eq_error_iff.1 he))
  | broken _ hr _ _ ih =>
    obtain ⟨d, hd, j, hj, hst⟩ := ih he
    exact ⟨_, List.mem_cons_self, j, .head ⟨_, hr, hd⟩ hj,
      hst.back fun _ hj => Store.status?_of_claim hj (by simp)⟩

/-- All nodes are of keys that are attainable from those that have been drawn. -/
def Yields (l : Lookup) (drawn : Key → Prop) (s : Store) : Prop :=
  ∀ j i, s.status? j = some (.done i) → l.Attainable drawn j

theorem attainable_passed (hr : l.resolve k = .ok r) (hj : j ∈ r.via)
    (h : l.Attainable drawn r.key) : l.Attainable drawn j := by
  obtain ⟨via, hv⟩ := resolve_passed hr (.inr hj)
  exact .shared hv h

namespace Yields

theorem empty : l.Yields drawn .empty := fun _ _ h => by simp at h

theorem rememberAll (h : l.Yields drawn s)
    (hst : ∀ i, st = .done i → ∀ k ∈ ks, l.Attainable drawn k) :
    l.Yields drawn (s.rememberAll ks st) := by
  intro j i hj
  rw [Store.status?_rememberAll] at hj
  split at hj
  · rename_i hm
    exact hst i (by simpa using hj) j hm
  · exact h j i hj

theorem remember (h : l.Yields drawn s) (hst : ∀ i, st = .done i → l.Attainable drawn k) :
    l.Yields drawn (s.remember k st) := by
  have hall : l.Yields drawn (s.rememberAll [k] st) := h.rememberAll fun i hi j hj => by
    obtain rfl := List.mem_singleton.1 hj
    exact hst i hi
  exact hall

theorem claim (h : l.Yields drawn s) : l.Yields drawn (s.claim r) :=
  (h.remember (by simp)).rememberAll (by simp)

theorem addNode {n : Node} (h : l.Yields drawn s) : l.Yields drawn (s.addNode n) := h

theorem release (h : l.Yields drawn s) (hr : l.resolve k = .ok r)
    (hst : ∀ i, st = .done i → l.Attainable drawn r.key) : l.Yields drawn (s.release r st) :=
  (h.rememberAll fun i hi _ hj => attainable_passed hr hj (hst i hi)).remember hst

end Yields

theorem Gathers.attainable (h : l.Gathers trail asker ks s out s') (hd : l.Yields drawn s) :
    l.Yields drawn s' ∧ ∀ is, out = .ok is → ∀ k ∈ ks, l.Attainable drawn k := by
  have first : ∀ {k : Key} {ks : List Key} {i : Nat} {out : Gathered}, l.Attainable drawn k →
      (∀ is, out = .ok is → ∀ d ∈ ks, l.Attainable drawn d) →
      ∀ is, out.map (i :: ·) = .ok is → ∀ d ∈ k :: ks, l.Attainable drawn d := by
    intro k ks i out hk hout is his d hd
    obtain ⟨js, hjs, _⟩ := Gathered.map_eq_ok_iff.1 his
    rcases List.mem_cons.1 hd with rfl | hd
    · exact hk
    · exact hout js hjs d hd
  induction h with
  | nil => exact ⟨hd, by simp⟩
  | closing | refused => exact ⟨hd, by simp⟩
  | unresolved | looping => exact ⟨hd.remember (by simp), by simp⟩
  | spoiled => exact ⟨(hd.rememberAll (by simp)).remember (by simp), by simp⟩
  | known hk _ ih =>
    obtain ⟨hd', hout⟩ := ih hd
    exact ⟨hd', first (hd _ _ hk) hout⟩
  | shared _ hr hs _ ih =>
    have hkey := hd _ _ hs
    obtain ⟨hd', hout⟩ := ih (hd.rememberAll fun _ _ _ hj => attainable_passed hr hj hkey)
    exact ⟨hd', first (.shared hr hkey) hout⟩
  | broken _ hr _ _ ih => exact ⟨(ih hd.claim).1.release hr (by simp), by simp⟩
  | built _ hr _ _ _ ih ih' =>
    obtain ⟨hd₁, hargs⟩ := ih hd.claim
    have hdeps := hargs _ rfl
    obtain ⟨hd', hout⟩ := ih' (hd₁.addNode.release hr fun _ _ => .made (resolve_key hr) hdeps)
    exact ⟨hd', first (.made hr hdeps) hout⟩

def MakesRightly (l : Lookup) (s : Store) : Prop :=
  ∀ j i, s.status? j = some (.done i) → l.Derivable j

theorem yields_none_iff : l.Yields (fun _ => False) s ↔ l.MakesRightly s := by
  simp only [Yields, MakesRightly, attainable_none_iff]

theorem MakesRightly.empty : l.MakesRightly .empty := yields_none_iff.1 .empty

theorem walk_not_derivable (hi : s.Idle) (hf : l.FailsRightly s) :
    l.FailsRightly (l.walk k s).2 ∧ ∀ e, (l.walk k s).1 = .failed e → ¬ l.Derivable k := by
  have hw : l.Awaited [] [k] s := ⟨fun j hj => absurd hj (hi j), by simp⟩
  obtain ⟨hf', hout⟩ := (walk_gathers hi).not_derivable hw hf
  refine ⟨hf', fun e he => ?_⟩
  obtain ⟨d, hd, hnot⟩ := hout e (by rw [he]; rfl)
  obtain rfl := List.mem_singleton.1 hd
  exact hnot

theorem walk_attainable (hi : s.Idle) (h : l.Yields drawn s) :
    l.Yields drawn (l.walk k s).2 ∧ ∀ i, (l.walk k s).1 = .node i → l.Attainable drawn k := by
  obtain ⟨h', hout⟩ := (walk_gathers hi).attainable h
  refine ⟨h', fun i hi => hout [i] ?_ k List.mem_cons_self⟩
  rw [hi]
  rfl

theorem walk_derivable (hi : s.Idle) (hm : l.MakesRightly s) :
    l.MakesRightly (l.walk k s).2 ∧ ∀ i, (l.walk k s).1 = .node i → l.Derivable k := by
  obtain ⟨hm', hout⟩ := walk_attainable (k := k) hi (yields_none_iff.2 hm)
  exact ⟨yields_none_iff.1 hm', fun i hnode => attainable_none_iff.1 (hout i hnode)⟩

/-- A walk from nothing finds out whether a key can be derived. -/
theorem derivable_iff_walk : l.Derivable k ↔ (l.walk k .empty).1.node?.isSome := by
  cases ho : (l.walk k .empty).1 with
  | node i => simpa [Outcome.node?] using (walk_derivable Store.idle_empty .empty).2 i ho
  | failed e => simpa [Outcome.node?] using (walk_not_derivable Store.idle_empty .empty).2 e ho

instance : Decidable (l.Derivable k) := decidable_of_iff _ derivable_iff_walk.symm

end Lookup

end Wiring
