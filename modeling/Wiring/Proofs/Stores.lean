import Wiring.Construction.Visit
import Wiring.Proofs.Tables

set_option autoImplicit false

namespace Wiring.Store

variable {s s' s'' : Store} {j k : Key} {ks : List Key} {st st' : Status} {r : Resolved} {i : Nat}

/-- The provider that was found begins to be built. -/
def claim (s : Store) (r : Resolved) : Store :=
  (s.remember r.key .inProgress).rememberAll r.via .inProgress

/-- The building of a provider ends, one way or the other. -/
def release (s : Store) (r : Resolved) (st : Status) : Store :=
  (s.rememberAll r.via st).remember r.key st

@[simp] theorem nodes_remember : (s.remember k st).nodes = s.nodes := rfl

@[simp] theorem nodes_rememberAll : (s.rememberAll ks st).nodes = s.nodes := by
  induction ks generalizing s with
  | nil => rfl
  | cons k ks ih => exact ih

@[simp] theorem nodes_claim : (s.claim r).nodes = s.nodes := nodes_rememberAll

@[simp] theorem nodes_release : (s.release r st).nodes = s.nodes := nodes_rememberAll

@[simp] theorem nodes_addNode {n : Node} : (s.addNode n).nodes = s.nodes ++ [n] := rfl

theorem nodes_addNode_cases {m n : Node} (h : (s.addNode n).nodes[i]? = some m) :
    s.nodes[i]? = some m ∨ i = s.nodes.length ∧ m = n := by
  rw [nodes_addNode, List.getElem?_append] at h
  split at h
  · exact .inl h
  · obtain ⟨hlt, rfl⟩ := List.getElem?_eq_some_iff.1 h
    rw [List.length_singleton] at hlt
    exact .inr ⟨by omega, List.getElem_singleton _⟩

@[simp] theorem status?_addNode {n : Node} : (s.addNode n).status? j = s.status? j := rfl

theorem status?_rememberAll :
    (s.rememberAll ks st).status? j = if j ∈ ks then some st else s.status? j := by
  induction ks generalizing s with
  | nil => rfl
  | cons k ks ih =>
    have h : (s.rememberAll (k :: ks) st) = (s.remember k st).rememberAll ks st := rfl
    rw [h, ih, status?_remember]
    by_cases hk : j = k <;> by_cases hks : j ∈ ks <;> simp [hk, hks]

theorem status?_claim :
    (s.claim r).status? j = if j = r.key ∨ j ∈ r.via then some .inProgress else s.status? j := by
  rw [claim, status?_rememberAll, status?_remember]
  by_cases hk : j = r.key <;> by_cases hv : j ∈ r.via <;> simp [hk, hv]

theorem status?_release :
    (s.release r st).status? j = if j = r.key ∨ j ∈ r.via then some st else s.status? j := by
  rw [release, status?_remember, status?_rememberAll]
  by_cases hk : j = r.key <;> by_cases hv : j ∈ r.via <;> simp [hk, hv]

theorem status?_of_remember (hj : (s.remember k st).status? j = some st') (hne : st ≠ st') :
    s.status? j = some st' := by
  rw [status?_remember] at hj
  split at hj
  · exact absurd (Option.some.inj hj) hne
  · exact hj

theorem status?_of_rememberAll (hj : (s.rememberAll ks st).status? j = some st') (hne : st ≠ st') :
    s.status? j = some st' := by
  rw [status?_rememberAll] at hj
  split at hj
  · exact absurd (Option.some.inj hj) hne
  · exact hj

theorem status?_of_claim (hj : (s.claim r).status? j = some st') (hne : st' ≠ .inProgress) :
    s.status? j = some st' := status?_of_remember (status?_of_rememberAll hj hne.symm) hne.symm

theorem status?_of_release (hj : (s.release r st).status? j = some st') (hne : st ≠ st') :
    ¬ (j = r.key ∨ j ∈ r.via) ∧ s.status? j = some st' := by
  rw [status?_release] at hj
  split at hj
  · exact absurd (Option.some.inj hj) hne
  · exact ⟨‹_›, hj⟩

theorem status?_of_visit (hj : (s'.release r st).status? j = some st') (hne : st ≠ st')
    (hs : s'.status? j = some st' → (s.claim r).status? j = some st') : s.status? j = some st' := by
  obtain ⟨hout, hj⟩ := status?_of_release hj hne
  have hb := hs hj
  rwa [status?_claim, if_neg hout] at hb

theorem contains_memo : s.memo.contains k = (s.status? k).isSome := rfl

@[simp] theorem nodes_empty : Store.empty.nodes = [] := rfl

@[simp] theorem status?_empty : Store.empty.status? k = none := Table.get?_empty

def Idle (s : Store) : Prop := ∀ k, s.status? k ≠ some .inProgress

theorem idle_empty : Store.empty.Idle := fun _ => by simp

/-- A store with more nodes and more keys, the new keys being those at the end of the journal. -/
structure Extends (s s' : Store) : Prop where
  nodes : s.nodes <+: s'.nodes
  known : ∀ k, s.status? k ≠ none → s'.status? k ≠ none
  journal : ∃ new, s'.journal = s.journal ++ new ∧
    ∀ k, k ∈ new ↔ s.status? k = none ∧ s'.status? k ≠ none

namespace Extends

theorem refl (s : Store) : s.Extends s :=
  ⟨List.prefix_refl _, fun _ h => h, [], by simp, by simp⟩

theorem trans (h : s.Extends s') (h' : s'.Extends s'') : s.Extends s'' := by
  obtain ⟨new, hj, hnew⟩ := h.journal
  obtain ⟨new', hj', hnew'⟩ := h'.journal
  refine ⟨h.nodes.trans h'.nodes,
    fun k hk => h'.known k (h.known k hk), new ++ new', ?_, fun k => ?_⟩
  · rw [hj', hj, List.append_assoc]
  · have hk := h.known k
    have hk' := h'.known k
    simp only [List.mem_append, hnew, hnew']
    grind

theorem remember (s : Store) (k : Key) (st : Status) : s.Extends (s.remember k st) := by
  refine ⟨List.prefix_refl _, fun j hj => ?_, ?_⟩
  · rw [status?_remember]
    split <;> simp [hj]
  · cases hk : s.status? k with
    | none =>
      refine ⟨[k], by simp [Store.remember, contains_memo, hk], fun j => ?_⟩
      rw [List.mem_singleton, status?_remember]
      by_cases hj : j = k <;> simp [hj, hk]
    | some st' =>
      refine ⟨[], by simp [Store.remember, contains_memo, hk], fun j => ?_⟩
      rw [status?_remember]
      by_cases hj : j = k <;> simp [hj, hk]

theorem rememberAll (s : Store) (ks : List Key) (st : Status) :
    s.Extends (s.rememberAll ks st) := by
  induction ks generalizing s with
  | nil => exact refl s
  | cons k ks ih => exact (remember s k st).trans (ih _)

theorem claim (s : Store) (r : Resolved) : s.Extends (s.claim r) :=
  (remember _ _ _).trans (rememberAll _ _ _)

theorem release (s : Store) (r : Resolved) (st : Status) : s.Extends (s.release r st) :=
  (rememberAll _ _ _).trans (remember _ _ _)

theorem addNode (s : Store) (n : Node) : s.Extends (s.addNode n) :=
  ⟨List.prefix_append _ _, fun _ h => h, [], by simp [Store.addNode], by simp⟩

end Extends

theorem get?_foldl_erase {ks : List Key} {t : Table Key Status} :
    (ks.foldl (fun t k => t.erase k) t).get? j = if j ∈ ks then none else t.get? j := by
  induction ks generalizing t with
  | nil => rfl
  | cons k ks ih =>
    rw [List.foldl_cons, ih, Table.get?_erase]
    by_cases hk : j = k <;> by_cases hks : j ∈ ks <;> simp [hk, hks]

/-- A rollback forgets what was not known before; what was known keeps its present status. -/
theorem status?_rollback (h : s.Extends s') :
    (s'.rollback s).status? j = if s.status? j = none then none else s'.status? j := by
  obtain ⟨new, hj, hnew⟩ := h.journal
  have hdrop : s'.journal.drop s.journal.length = new := by simp [hj]
  change (List.foldl _ _ _ : Table Key Status).get? j = _
  rw [hdrop, get?_foldl_erase]
  change (if j ∈ new then none else s'.status? j) = _
  simp only [hnew]
  by_cases hs : s.status? j = none <;> by_cases hs' : s'.status? j = none <;> simp [hs, hs']

theorem nodes_rollback (h : s.Extends s') : (s'.rollback s).nodes = s.nodes :=
  (List.prefix_iff_eq_take.1 h.nodes).symm

theorem inherit_cases (s : Store) (k : Key) :
    (∃ i, s.status? k = some (.done i) ∧ s.inherit k = (i, s)) ∨
      (∀ i, s.status? k ≠ some (.done i)) ∧ s.inherit k = (s.nodes.length,
        (s.addNode ⟨k, .inherited, [], none⟩).remember k (.done s.nodes.length)) := by
  unfold inherit
  cases hk : s.status? k with
  | none => exact .inr ⟨by simp, rfl⟩
  | some st =>
    cases st with
    | done i => exact .inl ⟨i, rfl, rfl⟩
    | inProgress => exact .inr ⟨by simp, rfl⟩
    | failed => exact .inr ⟨by simp, rfl⟩

theorem nodes_inherit (s : Store) (k : Key) : s.nodes <+: (s.inherit k).2.nodes := by
  rcases inherit_cases s k with ⟨i, _, hs⟩ | ⟨_, hs⟩
  · exact ⟨[], by rw [hs, List.append_nil]⟩
  · exact ⟨[⟨k, .inherited, [], none⟩], by rw [hs]; rfl⟩

theorem Idle.inherit (h : s.Idle) : (s.inherit k).2.Idle := by
  rcases inherit_cases s k with ⟨i, _, hs⟩ | ⟨_, hs⟩
  · rw [hs]
    exact h
  · rw [hs]
    intro j
    rw [status?_remember]
    split
    · simp
    · exact h j

theorem Idle.rollback (h : s'.Idle) (hs : s.Extends s') : (s'.rollback s).Idle := by
  intro j
  rw [status?_rollback hs]
  split
  · simp
  · exact h j

theorem get?_nodeKeys : s.nodeKeys.get? k = some i ↔ s.status? k = some (.done i) := by
  rw [nodeKeys, Table.get?_filterMap]
  change (s.status? k).bind _ = _ ↔ _
  cases s.status? k with
  | none => simp
  | some st => cases st <;> simp

end Wiring.Store
