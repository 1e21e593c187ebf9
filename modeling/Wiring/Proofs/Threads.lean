import Mathlib.Data.List.Forall2
import Wiring.Proofs.Gathering

/-!
Which node a key leads to. A key that is linked leads to the node of the key with the provider, once
it has been gathered; and a node takes what its dependencies lead to. Only values drawn from an
ancestor may come in between.
-/

set_option autoImplicit false

namespace Wiring

section Prefix

variable {α : Type} {l l' : List α} {i : Nat} {a b : α}

theorem getElem?_mono (h : l <+: l') (ha : l[i]? = some a) : l'[i]? = some a := by
  obtain ⟨hlt, rfl⟩ := List.getElem?_eq_some_iff.1 ha
  exact List.prefix_iff_getElem?.1 h i hlt

theorem getElem?_of_prefix (h : l <+: l') (ha : l'[i]? = some a) :
    l[i]? = some a ∨ l.length ≤ i := by
  rcases Nat.lt_or_ge i l.length with hlt | hge
  · rw [List.prefix_iff_getElem?.1 h i hlt] at ha
    exact .inl (by rw [List.getElem?_eq_getElem hlt, ha])
  · exact .inr hge

theorem getElem?_of_prefix_concat (h : l ++ [b] <+: l') (ha : l'[i]? = some a) :
    l[i]? = some a ∨ a = b ∨ l.length + 1 ≤ i := by
  rcases getElem?_of_prefix h ha with hold | hge
  · rw [List.getElem?_append] at hold
    split at hold
    · exact .inl hold
    · exact .inr (.inl (List.mem_singleton.1 (List.mem_of_getElem? hold)))
  · exact .inr (.inr (by simpa using hge))

end Prefix

namespace Lookup

/-- A key and the key with its provider have the same node. -/
def Backed (l : Lookup) (s : Store) (k : Key) (i : Nat) : Prop :=
  s.status? k = some (.done i) ∧ ∃ r, l.resolve k = .ok r ∧ s.status? r.key = some (.done i)

/-- A key has had its node since an earlier store, or shares it with the key with its provider. -/
def Sourced (l : Lookup) (a s : Store) (k : Key) (i : Nat) : Prop :=
  a.status? k = some (.done i) ∨ l.Backed s k i

/-- A node of a provider, made from nodes of the keys that the provider needs. -/
def Made (l : Lookup) (a s : Store) (n : Node) : Prop :=
  ∃ p, l.find n.key = .provider p ∧ n.binding = p.binding ∧
    List.Forall₂ (l.Sourced a s) p.dependencies n.dependencies

theorem Made.not_inherited {l : Lookup} {a s : Store} {n : Node} (h : l.Made a s n) :
    n.binding ≠ .inherited := by
  obtain ⟨p, _, hb, _⟩ := h
  rw [hb]
  cases p <;> exact fun h => by cases h

/-- The nodes of keys with a provider of their own are nodes of these keys. -/
def Rooted (l : Lookup) (s : Store) : Prop := ∀ j p i, l.find j = .provider p →
  s.status? j = some (.done i) → ∃ n, s.nodes[i]? = some n ∧ n.key = j

/-- A key with a provider fails only after something is known of the key that has it. -/
def Informed (l : Lookup) (s : Store) : Prop := ∀ j r, s.status? j = some .failed →
  l.resolve j = .ok r → s.status? r.key ≠ none

variable {l : Lookup} {trail : List Key} {asker : Option Location} {j k : Key} {ks : List Key}
  {a s s' s₁ : Store} {out : Gathered} {r : Resolved} {i : Nat} {st : Status} {n : Node}

theorem Backed.apart (h : l.Backed s j i) (hr : l.resolve k = .ok r)
    (hne : s.status? r.key ≠ some (.done i)) : ¬ (j = r.key ∨ j ∈ r.via) := by
  intro hj
  obtain ⟨_, r', hr', hs⟩ := h
  obtain ⟨via, hv⟩ := resolve_passed hr hj
  rw [hv] at hr'
  cases hr'
  exact hne hs

theorem Backed.keep (h : l.Backed s j i) (hr : l.resolve k = .ok r)
    (hne : s.status? r.key ≠ some (.done i))
    (hs' : ∀ d, ¬ (d = r.key ∨ d ∈ r.via) → s'.status? d = s.status? d) : l.Backed s' j i := by
  have hj := h.apart hr hne
  obtain ⟨hs, r', hr', hsr⟩ := h
  have hkey : l.Backed s r'.key i := ⟨hsr, _, resolve_key hr', hsr⟩
  exact ⟨by rw [hs' j hj, hs], r', hr', by rw [hs' _ (hkey.apart hr hne), hsr]⟩

theorem Backed.claim (h : l.Backed s j i) (hr : l.resolve k = .ok r) (hs : s.status? r.key = none) :
    l.Backed (s.claim r) j i :=
  h.keep hr (by simp [hs]) fun d hd => by rw [Store.status?_claim, if_neg hd]

theorem Backed.release (h : l.Backed s j i) (hr : l.resolve k = .ok r)
    (hs : s.status? r.key = some .inProgress) : l.Backed (s.release r st) j i :=
  h.keep hr (by simp [hs]) fun d hd => by rw [Store.status?_release, if_neg hd]

theorem Backed.fail (h : l.Backed s j i) (hk : s.status? k = none) :
    l.Backed (s.remember k .failed) j i := by
  have hkeep : ∀ d, s.status? d ≠ none → (s.remember k .failed).status? d = s.status? d := by
    intro d hd
    rw [Store.status?_remember, if_neg]
    rintro rfl
    exact hd hk
  obtain ⟨hs, r, hr, hsr⟩ := h
  exact ⟨by rw [hkeep j (by simp [hs]), hs], r, hr, by rw [hkeep _ (by simp [hsr]), hsr]⟩

theorem Backed.spoil (h : l.Backed s j i) (hr : l.resolve k = .ok r)
    (hs : s.status? r.key = some .failed) :
    l.Backed ((s.rememberAll r.via .failed).remember k .failed) j i := by
  refine h.keep hr (by simp [hs]) fun d hd => ?_
  have hdk : d ≠ k := by
    rintro rfl
    rcases mem_via_or_eq_key hr with hm | ⟨hm, _⟩
    · exact hd (.inr hm)
    · exact hd (.inl hm)
  rw [Store.status?_remember, if_neg hdk, Store.status?_rememberAll, if_neg fun hm => hd (.inr hm)]

theorem Backed.share {n : Nat} (h : l.Backed s j i) (hr : l.resolve k = .ok r)
    (hs : s.status? r.key = some (.done n)) : l.Backed (s.rememberAll r.via (.done n)) j i := by
  by_cases hn : n = i
  · subst hn
    obtain ⟨hs, r', hr', hsr⟩ := h
    exact ⟨by simp [Store.status?_rememberAll, hs], r', hr',
      by simp [Store.status?_rememberAll, hsr]⟩
  · refine h.keep hr (by simpa [hs] using hn) fun d hd => ?_
    rw [Store.status?_rememberAll, if_neg fun hm => hd (.inr hm)]

theorem Backed.addNode (h : l.Backed s j i) : l.Backed (s.addNode n) j i := h

theorem Gathers.claimed (h : l.Gathers trail asker ks (s.claim r) out s₁)
    (hr : l.resolve k = .ok r) : s₁.status? r.key = some .inProgress := by
  have hs : (s.claim r).status? r.key = some .inProgress := by simp [Store.status?_claim]
  rw [h.status?_provided (find_key hr) (by simp [hs]), hs]

theorem Gathers.backed (h : l.Gathers trail asker ks s out s') (hj : l.Backed s j i) :
    l.Backed s' j i := by
  induction h with
  | nil | closing | refused => exact hj
  | known _ _ ih => exact ih hj
  | unresolved hk _ => exact hj.fail hk
  | looping hk _ _ => exact hj.fail hk
  | spoiled _ hr hs => exact hj.spoil hr hs
  | shared _ hr hs _ ih => exact ih (hj.share hr hs)
  | broken _ hr hs h ih => exact (ih (hj.claim hr hs)).release hr (h.claimed hr)
  | built _ hr hs h _ ih ih' =>
    exact ih' ((ih (hj.claim hr hs)).addNode.release hr (h.claimed hr))

theorem Gathers.sourced_stays (h : l.Gathers trail asker ks s out s') (hj : l.Sourced a s j i) :
    l.Sourced a s' j i := hj.imp_right h.backed

theorem Made.mono (h : l.Made a s n) (hs : ∀ d i, l.Sourced a s d i → l.Sourced a s' d i) :
    l.Made a s' n := by
  obtain ⟨p, hp, hb, hall⟩ := h
  exact ⟨p, hp, hb, hall.imp hs⟩

def AllSourced (l : Lookup) (a s : Store) : Prop :=
  ∀ d i, s.status? d = some (.done i) → l.Sourced a s d i

namespace AllSourced

theorem fail (h : l.AllSourced a s) (hk : s.status? k = none) :
    l.AllSourced a (s.remember k .failed) := by
  intro d i hd
  have hd := Store.status?_of_remember hd (by simp)
  exact (h d i hd).imp_right (·.fail hk)

theorem spoil (h : l.AllSourced a s) (hr : l.resolve k = .ok r)
    (hs : s.status? r.key = some .failed) :
    l.AllSourced a ((s.rememberAll r.via .failed).remember k .failed) := by
  intro d i hd
  have hd := Store.status?_of_rememberAll (Store.status?_of_remember hd (by simp)) (by simp)
  exact (h d i hd).imp_right (·.spoil hr hs)

theorem share {m : Nat} (h : l.AllSourced a s) (hr : l.resolve k = .ok r)
    (hs : s.status? r.key = some (.done m)) : l.AllSourced a (s.rememberAll r.via (.done m)) := by
  intro d i hd
  have hd' := hd
  rw [Store.status?_rememberAll] at hd
  split at hd
  · rename_i hm
    cases hd
    obtain ⟨via, hv⟩ := resolve_via hr hm
    refine .inr ⟨hd', _, hv, ?_⟩
    rw [Store.status?_rememberAll]
    split
    · rfl
    · exact hs
  · exact (h d i hd).imp_right (·.share hr hs)

theorem claim (h : l.AllSourced a s) (hr : l.resolve k = .ok r) (hs : s.status? r.key = none) :
    l.AllSourced a (s.claim r) := by
  intro d i hd
  have hd := Store.status?_of_claim hd (by simp)
  exact (h d i hd).imp_right (·.claim hr hs)

theorem addNode (h : l.AllSourced a s) : l.AllSourced a (s.addNode n) := h

theorem release (h : l.AllSourced a s) (hr : l.resolve k = .ok r)
    (hs : s.status? r.key = some .inProgress) : l.AllSourced a (s.release r st) := by
  intro d i hd
  have hd' := hd
  rw [Store.status?_release] at hd
  split at hd
  · rename_i hm
    cases hd
    obtain ⟨via, hv⟩ := resolve_passed hr hm
    exact .inr ⟨hd', _, hv, by rw [Store.status?_release, if_pos (.inl rfl)]⟩
  · exact (h d i hd).imp_right (·.release hr hs)

end AllSourced

/-- Whatever has a node while keys are gathered has had it before, or shares it with the key with
its provider; and so it is with what the new nodes take. -/
theorem Gathers.sourced (h : l.Gathers trail asker ks s out s') (hs : l.AllSourced a s) :
    l.AllSourced a s' ∧ (∀ is, out = .ok is → List.Forall₂ (l.Sourced a s') ks is) ∧
      ∀ i n, s.nodes.length ≤ i → s'.nodes[i]? = some n → l.Made a s' n := by
  -- the first key of a list that succeeds, and the others
  have first : ∀ {k : Key} {ks : List Key} {i : Nat} {out : Gathered} {s' : Store},
      l.Sourced a s' k i → (∀ is, out = .ok is → List.Forall₂ (l.Sourced a s') ks is) →
      ∀ is, out.map (i :: ·) = .ok is → List.Forall₂ (l.Sourced a s') (k :: ks) is := by
    intro k ks i out s' hk hout is his
    obtain ⟨js, hjs, rfl⟩ := Gathered.map_eq_ok_iff.1 his
    exact .cons hk (hout js hjs)
  have beyond : ∀ {s s' : Store} {i : Nat} {n : Node}, s'.nodes = s.nodes → s.nodes.length ≤ i →
      s'.nodes[i]? ≠ some n := by
    intro s s' i n hnodes hi hn
    rw [hnodes, List.getElem?_eq_none hi] at hn
    cases hn
  induction h with
  | nil =>
    refine ⟨hs, fun is his => ?_, fun i n hi hn => absurd hn (beyond rfl hi)⟩
    cases his
    exact .nil
  | closing | refused => exact ⟨hs, by simp, fun i n hi hn => absurd hn (beyond rfl hi)⟩
  | unresolved hk _ => exact ⟨hs.fail hk, by simp, fun i n hi hn => absurd hn (beyond rfl hi)⟩
  | looping hk _ _ => exact ⟨hs.fail hk, by simp, fun i n hi hn => absurd hn (beyond rfl hi)⟩
  | spoiled _ hr hst =>
    exact ⟨hs.spoil hr hst, by simp, fun i n hi hn => absurd hn (beyond (by simp) hi)⟩
  | known hk h ih =>
    obtain ⟨hs', hout, hmade⟩ := ih hs
    exact ⟨hs', first (h.sourced_stays (hs _ _ hk)) hout, hmade⟩
  | @shared _ _ k _ s _ r m _ hk hr hst h ih =>
    have hmid := hs.share hr hst
    obtain ⟨hs', hout, hmade⟩ := ih hmid
    have hvia : (s.rememberAll r.via (.done m)).status? k = some (.done m) := by
      rw [Store.status?_rememberAll, if_pos]
      rcases mem_via_or_eq_key hr with hm | ⟨hm, _⟩
      · exact hm
      · rw [← hm, hk] at hst
        cases hst
    refine ⟨hs', first (h.sourced_stays (hmid _ _ hvia)) hout, fun i n hi hn => hmade i n ?_ hn⟩
    simpa using hi
  | broken _ hr hst h ih =>
    obtain ⟨hs₁, _, hmade⟩ := ih (hs.claim hr hst)
    have hkey := h.claimed hr
    refine ⟨hs₁.release hr hkey, by simp, fun i n hi hn => ?_⟩
    rw [Store.nodes_release] at hn
    refine (hmade i n (by simpa using hi) hn).mono fun d i hd => ?_
    exact hd.imp_right (·.release hr hkey)
  | @built _ _ k _ s s₁ s' r args _ _ hr hst h hrest ih ih' =>
    obtain ⟨hs₁, hargs, hmade⟩ := ih (hs.claim hr hst)
    have hkey := h.claimed hr
    have hmid : l.AllSourced a ((s₁.addNode (r.node args)).release r (.done s₁.nodes.length)) :=
      hs₁.addNode.release hr hkey
    obtain ⟨hs', hout, hmade'⟩ := ih' hmid
    -- what is known when the node is made is known in the end
    have later : ∀ d i, l.Sourced a s₁ d i → l.Sourced a s' d i :=
      fun d i hd => hrest.sourced_stays (hd.imp_right (·.addNode.release hr hkey))
    refine ⟨hs', first (hrest.sourced_stays (hmid _ _ ?_)) hout, fun i n hi hn => ?_⟩
    · rw [Store.status?_release, if_pos]
      rcases mem_via_or_eq_key hr with hm | ⟨hm, _⟩
      · exact .inr hm
      · exact .inl hm
    · have hpre : s₁.nodes ++ [r.node args] <+: s'.nodes := by simpa using hrest.extends.nodes
      rcases getElem?_of_prefix_concat hpre hn with hold | rfl | hnew
      · exact (hmade i n (by simpa using hi) hold).mono later
      · exact ⟨r.provider, find_key hr, rfl, (hargs _ rfl).imp later⟩
      · exact hmade' i n (by simpa using hnew) hn

namespace Informed

theorem fail (h : l.Informed s) (hk : ∀ r, l.resolve k = .ok r → s.status? r.key ≠ none) :
    l.Informed (s.remember k .failed) := by
  intro j r hj hr
  refine (Store.Extends.remember s k .failed).known _ ?_
  rw [Store.status?_remember] at hj
  split at hj
  · rename_i hjk
    exact hk r (hjk ▸ hr)
  · exact h j r hj hr

theorem rememberAll (h : l.Informed s) (hst : st = .failed → ∀ j ∈ ks, ∀ r, l.resolve j = .ok r →
    s.status? r.key ≠ none) : l.Informed (s.rememberAll ks st) := by
  intro j r hj hr
  refine (Store.Extends.rememberAll s ks st).known _ ?_
  rw [Store.status?_rememberAll] at hj
  split at hj
  · rename_i hm
    cases hj
    exact hst rfl j hm r hr
  · exact h j r hj hr

theorem claim (h : l.Informed s) : l.Informed (s.claim r) := by
  intro j r' hj hr'
  exact (Store.Extends.claim s r).known _ (h j r' (Store.status?_of_claim hj (by simp)) hr')

theorem addNode (h : l.Informed s) : l.Informed (s.addNode n) := h

theorem release (h : l.Informed s) (hr : l.resolve k = .ok r) : l.Informed (s.release r st) := by
  intro j r' hj hr'
  rw [Store.status?_release] at hj
  split at hj
  · rename_i hm
    obtain ⟨via, hv⟩ := resolve_passed hr hm
    rw [hv] at hr'
    cases hr'
    rw [Store.status?_release, if_pos (.inl rfl)]
    simp
  · exact (Store.Extends.release s r st).known _ (h j r' hj hr')

end Informed

theorem Gathers.informed (h : l.Gathers trail asker ks s out s') (hs : l.Informed s) :
    l.Informed s' := by
  refine h.induct_steps (R := fun s s' => l.Informed s → l.Informed s') ?_ ?_ ?_ ?_ ?_ ?_ ?_ hs
  · exact fun s h => h
  · exact fun h h' hs => h' (h hs)
  · exact fun s k _ hk h => h.fail hk
  · exact fun s k r i _ _ h => h.rememberAll (by simp)
  · intro s k r _ hr hst h
    have hvia : l.Informed (s.rememberAll r.via .failed) := by
      refine h.rememberAll fun _ j hj r' hr' => ?_
      obtain ⟨via, hv⟩ := resolve_via hr hj
      rw [hv] at hr'
      cases hr'
      simp [hst]
    refine hvia.fail fun r' hr' => ?_
    rw [hr] at hr'
    cases hr'
    exact (Store.Extends.rememberAll s r.via .failed).known _ (by simp [hst])
  · exact fun s s₁ k r hr _ h hs => (h hs.claim).release hr
  · exact fun s s₁ k r args hr _ h hs => (h hs.claim).addNode.release hr

namespace Rooted

theorem remember (h : l.Rooted s) (hst : ∀ i, st ≠ .done i) : l.Rooted (s.remember k st) := by
  intro j p i hp hj
  rw [Store.status?_remember] at hj
  split at hj
  · exact absurd (by simpa using hj) (hst i)
  · exact h j p i hp hj

theorem rememberAll (h : l.Rooted s) (hr : l.resolve k = .ok r) :
    l.Rooted (s.rememberAll r.via st) := by
  intro j p i hp hj
  rw [Store.status?_rememberAll, if_neg (notMem_via_of_find hp hr)] at hj
  rw [Store.nodes_rememberAll]
  exact h j p i hp hj

theorem addNode (h : l.Rooted s) : l.Rooted (s.addNode n) := by
  intro j p i hp hj
  obtain ⟨m, hm, hkey⟩ := h j p i hp hj
  obtain ⟨hlt, _⟩ := List.getElem?_eq_some_iff.1 hm
  exact ⟨m, by rw [Store.nodes_addNode, List.getElem?_append_left hlt, hm], hkey⟩

theorem claim (h : l.Rooted s) (hr : l.resolve k = .ok r) : l.Rooted (s.claim r) :=
  (h.remember (by simp)).rememberAll hr

end Rooted

theorem Gathers.rooted (h : l.Gathers trail asker ks s out s') (hs : l.Rooted s) : l.Rooted s' := by
  refine h.induct_steps (R := fun s s' => l.Rooted s → l.Rooted s') ?_ ?_ ?_ ?_ ?_ ?_ ?_ hs
  · exact fun s h => h
  · exact fun h h' hs => h' (h hs)
  · exact fun s k _ _ h => h.remember (by simp)
  · exact fun s k r i hr _ h => h.rememberAll hr
  · exact fun s k r _ hr _ h => (h.rememberAll hr).remember (by simp)
  · intro s s₁ k r hr _ h hs
    exact ((h (hs.claim hr)).rememberAll hr).remember (by simp)
  · intro s s₁ k r args hr _ h hs j p i hp hj
    rw [Store.status?_release] at hj
    split at hj
    · rename_i hm
      cases hj
      rcases hm with rfl | hm
      · exact ⟨r.node args, by simp, rfl⟩
      · exact absurd hm (notMem_via_of_find hp hr)
    · rw [Store.nodes_release]
      exact (h (hs.claim hr)).addNode j p i hp hj

namespace Rooted

theorem rollback (h : l.Rooted s) (hi : s.Idle) : l.Rooted ((l.walk k s).2.rollback s) := by
  have hg := walk_gathers (l := l) (k := k) hi
  intro j p i hp hj
  rw [Store.status?_rollback hg.extends] at hj
  rw [Store.nodes_rollback hg.extends]
  split at hj
  · cases hj
  · rename_i hne
    rw [hg.status?_provided hp hne] at hj
    exact h j p i hp hj

theorem inherit (h : l.Rooted s) : l.Rooted (s.inherit k).2 := by
  rcases Store.inherit_cases s k with ⟨i, _, hs⟩ | ⟨_, hs⟩
  · rw [hs]
    exact h
  · rw [hs]
    intro j p i hp hj
    rw [Store.status?_remember] at hj
    split at hj
    · rename_i hjk
      cases hj
      exact ⟨⟨k, .inherited, [], none⟩, by simp, hjk.symm⟩
    · exact h.addNode j p i hp hj

end Rooted

end Lookup

def Store.Steady (s s' : Store) : Prop :=
  ∀ j i, s.status? j = some (.done i) → s'.status? j = some (.done i)

/-- Every key leads to the node of the key with its provider, or to a value drawn for this key; and
every node that is made here takes what its dependencies lead to. -/
structure Lookup.Threaded (l : Lookup) (s : Store) : Prop where
  idle : s.Idle
  informed : l.Informed s
  rooted : l.Rooted s
  backed : ∀ j i, s.status? j = some (.done i) → l.Backed s j i ∨
    ∃ n, s.nodes[i]? = some n ∧ n.binding = .inherited ∧ n.key = j
  made : ∀ n ∈ s.nodes, n.binding ≠ .inherited → ∃ p, l.find n.key = .provider p ∧
    n.binding = p.binding ∧
    List.Forall₂ (fun d i => s.status? d = some (.done i)) p.dependencies n.dependencies

namespace Lookup.Threaded

variable {l : Lookup} {s s' : Store} {j k : Key} {i : Nat}

theorem empty : l.Threaded .empty where
  idle := Store.idle_empty
  informed _ _ h := by simp at h
  rooted _ _ _ _ h := by simp at h
  backed _ _ h := by simp at h
  made _ h := by simp at h

theorem sourced (h : l.Threaded s) (k : Key) : l.AllSourced s (l.walk k s).2 ∧
    (∀ i, (l.walk k s).1 = .node i → l.Sourced s (l.walk k s).2 k i) ∧
    ∀ i n, s.nodes.length ≤ i → (l.walk k s).2.nodes[i]? = some n → l.Made s (l.walk k s).2 n := by
  obtain ⟨hall, hout, hmade⟩ :=
    (walk_gathers (l := l) (k := k) h.idle).sourced fun _ _ hd => .inl hd
  refine ⟨hall, fun i hi => ?_, hmade⟩
  have hargs := hout [i] (by rw [hi]; rfl)
  cases hargs with
  | cons hk _ => exact hk

theorem walk (h : l.Threaded s) (hs : s.Steady (l.walk k s).2) : l.Threaded (l.walk k s).2 ∧
    ∀ i, (l.walk k s).1 = .node i → (l.walk k s).2.status? k = some (.done i) := by
  have hg := walk_gathers (l := l) (k := k) h.idle
  obtain ⟨hall, hout, hmade⟩ := h.sourced k
  have hnow : ∀ d i, l.Sourced s (l.walk k s).2 d i →
      (l.walk k s).2.status? d = some (.done i) := by
    rintro d i (hd | hd)
    · exact hs d i hd
    · exact hd.1
  refine ⟨⟨hg.idle h.idle, hg.informed h.informed, hg.rooted h.rooted, fun j i hj => ?_,
    fun n hn hb => ?_⟩, fun i hi => hnow k i (hout i hi)⟩
  · rcases hall j i hj with hj | hj
    · rcases h.backed j i hj with hb | ⟨n, hn, hb, hkey⟩
      · exact .inl (hg.backed hb)
      · exact .inr ⟨n, getElem?_mono hg.extends.nodes hn, hb, hkey⟩
    · exact .inl hj
  · obtain ⟨i, hi⟩ := List.mem_iff_getElem?.1 hn
    rcases getElem?_of_prefix hg.extends.nodes hi with hold | hnew
    · obtain ⟨p, hp, hbind, hdeps⟩ := h.made n (List.mem_of_getElem? hold) hb
      exact ⟨p, hp, hbind, hdeps.imp hs⟩
    · obtain ⟨p, hp, hbind, hdeps⟩ := hmade i n hnew hi
      exact ⟨p, hp, hbind, hdeps.imp hnow⟩

theorem key_stays {d : Key} {r : Resolved} (h : l.Threaded s) (hr : l.resolve d = .ok r)
    (hd : s.status? r.key ≠ none) : (l.walk k s).2.status? r.key = s.status? r.key ∧
      ((l.walk k s).2.rollback s).status? r.key = s.status? r.key := by
  have hg := walk_gathers (l := l) (k := k) h.idle
  have hsame := hg.status?_provided (find_key hr) hd
  rw [Store.status?_rollback hg.extends, if_neg hd, hsame]
  exact ⟨rfl, rfl⟩

/-- Where a failed attempt moves no key, taking it back leaves everything as it should be. -/
theorem rollback (h : l.Threaded s) (hs : s.Steady ((l.walk k s).2.rollback s)) :
    l.Threaded ((l.walk k s).2.rollback s) := by
  have hg := walk_gathers (l := l) (k := k) h.idle
  obtain ⟨hall, _, _⟩ := h.sourced k
  have hnodes := Store.nodes_rollback hg.extends
  have hwalk : ∀ {d : Key} {st : Status}, ((l.walk k s).2.rollback s).status? d = some st →
      s.status? d ≠ none ∧ (l.walk k s).2.status? d = some st := by
    intro d st hd
    rw [Store.status?_rollback hg.extends] at hd
    split at hd
    · cases hd
    · exact ⟨‹_›, hd⟩
  have hbefore : ∀ {d : Key} {st : Status}, ((l.walk k s).2.rollback s).status? d = some st →
      s.status? d = some st ∨ s.status? d = some .failed := by
    intro d st hd
    cases hst : s.status? d with
    | none => exact absurd hst (hwalk hd).1
    | some st' =>
      cases st' with
      | done i =>
        have hstill := hs d i hst
        rw [hd] at hstill
        exact .inl hstill.symm
      | inProgress => exact absurd hst (h.idle d)
      | failed => exact .inr rfl
  refine ⟨(hg.idle h.idle).rollback hg.extends, fun j r hj hr => ?_, h.rooted.rollback h.idle,
    fun j i hj => ?_, fun n hn hb => ?_⟩
  · have hfailed : s.status? j = some .failed := (hbefore hj).elim (fun h => h) fun h => h
    have hne := h.informed j r hfailed hr
    rwa [(h.key_stays hr hne).2]
  · rcases hbefore hj with hold | hfailed
    · rcases h.backed j i hold with ⟨_, r, hr, hsr⟩ | hown
      · refine .inl ⟨hj, r, hr, ?_⟩
        rw [(h.key_stays hr (by simp [hsr])).2, hsr]
      · rw [hnodes]
        exact .inr hown
    · rcases hall j i (hwalk hj).2 with hold | ⟨_, r, hr, hr'⟩
      · rw [hfailed] at hold
        cases hold
      · refine .inl ⟨hj, r, hr, ?_⟩
        obtain ⟨hsame, hroll⟩ := h.key_stays (k := k) hr (h.informed j r hfailed hr)
        rw [hroll, ← hsame, hr']
  · rw [hnodes] at hn
    obtain ⟨p, hp, hbind, hdeps⟩ := h.made n hn hb
    exact ⟨p, hp, hbind, hdeps.imp hs⟩

theorem lt (h : l.Threaded s) (hj : s.status? j = some (.done i)) : i < s.nodes.length := by
  have hnode : ∃ n, s.nodes[i]? = some n := by
    rcases h.backed j i hj with ⟨_, r, hr, hsr⟩ | ⟨n, hn, _⟩
    · obtain ⟨n, hn, _⟩ := h.rooted r.key r.provider i (find_key hr) hsr
      exact ⟨n, hn⟩
    · exact ⟨n, hn⟩
  obtain ⟨n, hn⟩ := hnode
  exact (List.getElem?_eq_some_iff.1 hn).1

theorem inherit (h : l.Threaded s) : l.Threaded (s.inherit k).2 ∧
    (s.inherit k).2.status? k = some (.done (s.inherit k).1) ∧ s.Steady (s.inherit k).2 := by
  have hidle := h.idle.inherit (k := k)
  have hrooted := h.rooted.inherit (k := k)
  rcases Store.inherit_cases s k with ⟨i, hk, hs⟩ | ⟨hk, hs⟩
  · rw [hs]
    exact ⟨h, hk, fun _ _ hj => hj⟩
  · rw [hs] at hidle hrooted ⊢
    have hstatus : ∀ d, ((s.addNode ⟨k, .inherited, [], none⟩).remember k
        (.done s.nodes.length)).status? d =
        if d = k then some (.done s.nodes.length) else s.status? d :=
      fun d => Store.status?_remember _ _ _ _
    have hsteady : s.Steady ((s.addNode ⟨k, .inherited, [], none⟩).remember k
        (.done s.nodes.length)) := by
      intro j i hj
      rw [hstatus, if_neg]
      · exact hj
      · rintro rfl
        exact hk i hj
    have hlast : (s.nodes ++ [(⟨k, .inherited, [], none⟩ : Node)])[s.nodes.length]? =
        some ⟨k, .inherited, [], none⟩ := by simp
    refine ⟨⟨hidle, fun j r hj hr => ?_, hrooted, fun j i hj => ?_, fun n hn hb => ?_⟩,
      by rw [hstatus, if_pos rfl], hsteady⟩
    · rw [hstatus] at hj ⊢
      split at hj
      · cases hj
      · split
        · simp
        · exact h.informed j r hj hr
    · have hj' := hj
      rw [hstatus] at hj
      split at hj
      · rename_i hjk
        cases hj
        exact .inr ⟨_, hlast, rfl, hjk.symm⟩
      · rcases h.backed j i hj with ⟨_, r, hr, hsr⟩ | ⟨n, hn, hb, hkey⟩
        · exact .inl ⟨hj', r, hr, hsteady _ _ hsr⟩
        · exact .inr ⟨n, getElem?_mono (List.prefix_append _ _) hn, hb, hkey⟩
    · rcases List.mem_append.1 hn with hn | hn
      · obtain ⟨p, hp, hbind, hdeps⟩ := h.made n hn hb
        exact ⟨p, hp, hbind, hdeps.imp hsteady⟩
      · obtain rfl := List.mem_singleton.1 hn
        exact absurd rfl hb

end Lookup.Threaded

structure Lookup.Local (l : Lookup) (s : Store) : Prop where
  threaded : l.Threaded s
  own : ∀ n ∈ s.nodes, n.binding ≠ .inherited

namespace Lookup.Local

variable {l : Lookup} {s : Store} {k : Key} {i : Nat}

theorem empty : l.Local .empty := ⟨.empty, by simp⟩

theorem backed (h : l.Local s) (hk : s.status? k = some (.done i)) : l.Backed s k i := by
  refine (h.threaded.backed k i hk).resolve_right ?_
  rintro ⟨n, hn, hb, _⟩
  exact h.own n (List.mem_of_getElem? hn) hb

theorem steady (h : l.Local s) : s.Steady (l.walk k s).2 := fun _ _ hj =>
  ((walk_gathers h.threaded.idle).backed (h.backed hj)).1

theorem walk (h : l.Local s) : l.Local (l.walk k s).2 := by
  refine ⟨(h.threaded.walk h.steady).1, fun n hn => ?_⟩
  have hg := walk_gathers (l := l) (k := k) h.threaded.idle
  obtain ⟨i, hi⟩ := List.mem_iff_getElem?.1 hn
  rcases getElem?_of_prefix hg.extends.nodes hi with hold | hnew
  · exact h.own n (List.mem_of_getElem? hold)
  · exact ((h.threaded.sourced k).2.2 i n hnew hi).not_inherited

theorem node (h : l.Local s) (hk : s.status? k = some (.done i)) :
    ∃ r n, l.resolve k = .ok r ∧ s.nodes[i]? = some n ∧ n.key = r.key := by
  obtain ⟨_, r, hr, hs⟩ := h.backed hk
  obtain ⟨n, hn, hkey⟩ := h.threaded.rooted r.key r.provider i (find_key hr) hs
  exact ⟨r, n, hr, hn, hkey⟩

end Lookup.Local

end Wiring
