import Wiring.Proofs.Surface
import Wiring.Proofs.Threads

/-!
The wiring of a graph. A graph is wired if every node takes, and every key and every export stands
for, what the key leads to. It is, exactly if no offer moves a key from its node and none gives a
key the value that was drawn for another.
-/

set_option autoImplicit false

namespace Wiring

structure Graph.Wired (l : Lookup) (g : Graph) : Prop where
  nodes : ∀ n ∈ g.nodes, n.binding.isConstructed → ∃ r, l.resolve n.key = .ok r ∧
    r.provider.dependencies.map g.keys.get? = n.dependencies.map some
  keys : ∀ k i, g.keys.get? k = some i → ∃ n, g.node? i = some n ∧
    if n.binding = .inherited then n.key = k else ∃ r, l.resolve k = .ok r ∧ r.key = n.key
  exports : ∀ k i, g.exports.get? k = some i → g.keys.get? k = some i

/-- No key leads to a value that was drawn for another. -/
def Store.Own (s : Store) : Prop := ∀ j i (n : Node), s.status? j = some (.done i) →
  s.nodes[i]? = some n → n.binding = .inherited → n.key = j

instance {s s' : Store} : Decidable (s.Steady s') :=
  decidable_of_iff (∀ e ∈ s.nodeKeys.entries, s'.status? e.1 = some (.done e.2)) (by
    simp only [Prod.forall, ← Table.get?_eq_some_iff, Store.get?_nodeKeys]
    exact Iff.rfl)

instance {s : Store} : Decidable s.Own :=
  decidable_of_iff (∀ e ∈ s.nodeKeys.entries, s.nodes[e.2]?.all fun n =>
      decide (n.binding = .inherited → n.key = e.1)) (by
    simp only [Prod.forall, ← Table.get?_eq_some_iff, Store.get?_nodeKeys, Option.all_eq_true,
      decide_eq_true_eq]
    exact ⟨fun h j i n hj => h j i hj n, fun h j i hj n => h j i n hj⟩)

namespace Site

variable {s : Site} {q : Request} {qs : List Request} {k j : Key} {i : Nat}

structure Threaded (s : Site) : Prop where
  store : s.lookup.Threaded s.store
  exports : ∀ k i, s.exports.get? k = some i → s.store.status? k = some (.done i)

def Steadies (s : Site) (k : Key) : Prop := s.store.Steady (s.exportKey k).2.store

instance : Decidable (s.Steadies k) := inferInstanceAs (Decidable (Store.Steady _ _))

theorem Threaded.offer (h : s.Threaded) (hk : s.Steadies k) : (s.exportKey k).2.Threaded := by
  unfold Steadies at hk
  rcases s.exportKey_cases k with ⟨i, hi, hs⟩ | ⟨e, _, hs⟩
  · rw [hs] at hk ⊢
    obtain ⟨hwalk, hout⟩ := h.store.walk (k := k) hk
    refine ⟨hwalk, fun j n hj => ?_⟩
    simp only [Table.get?_insert] at hj
    split at hj
    · rename_i hjk
      cases hj
      subst hjk
      exact hout i hi
    · exact hk j n (h.exports j n hj)
  · rw [hs] at hk ⊢
    exact ⟨h.store.rollback hk, fun j n hj => hk j n (h.exports j n hj)⟩

theorem Threaded.inherit (h : s.Threaded) : (s.inherit k).2.Threaded := by
  obtain ⟨hs, _, hsteady⟩ := h.store.inherit (k := k)
  exact ⟨hs, fun j i hj => hsteady j i (h.exports j i hj)⟩

theorem Threaded.forward (h : s.Threaded) : (s.forward k).Threaded := by
  obtain ⟨hs, hk, hsteady⟩ := h.store.inherit (k := k)
  refine ⟨hs, fun j i hj => ?_⟩
  simp only [Site.forward, Table.get?_insert] at hj
  split at hj
  · rename_i hjk
    cases hj
    subst hjk
    exact hk
  · exact hsteady j i (h.exports j i hj)

theorem Threaded.serve (h : s.Threaded) (hq : ∀ k, q = .offer k → s.Steadies k) :
    (s.serve q).Threaded ∧ s.store.Steady (s.serve q).store := by
  cases q with
  | offer k => exact ⟨h.offer (hq k rfl), hq k rfl⟩
  | pass k => exact ⟨h.forward, (h.store.inherit (k := k)).2.2⟩
  | satisfy r =>
    have hi := h.inherit (k := r.key)
    exact ⟨⟨hi.store, hi.exports⟩, (h.store.inherit (k := r.key)).2.2⟩
  | refuse r =>
    simp only [Site.serve, Site.refuse]
    split
    · exact ⟨h, fun _ _ hj => hj⟩
    · exact ⟨⟨h.store, h.exports⟩, fun _ _ hj => hj⟩

theorem nodes_serve (hi : s.store.Idle) : s.store.nodes <+: (s.serve q).store.nodes := by
  rcases s.serve_store q with ⟨k, _, hs | hs⟩ | ⟨k, _, hs⟩ | hs
  · rw [hs]
    exact (Lookup.walk_gathers hi).extends.nodes
  · rw [hs, Store.nodes_rollback (Lookup.walk_gathers hi).extends]
  · rw [hs]
    exact s.store.nodes_inherit k
  · rw [hs]

theorem Threaded.own_inherit (h : s.Threaded) (ho : s.store.Own) : (s.store.inherit k).2.Own := by
  rcases Store.inherit_cases s.store k with ⟨i, _, hs⟩ | ⟨_, hs⟩
  · rw [hs]
    exact ho
  · rw [hs]
    intro j i n hj hn hb
    rw [Store.status?_remember] at hj
    simp only [Store.nodes_remember, Store.nodes_addNode] at hn
    split at hj
    · rename_i hjk
      cases hj
      rw [List.getElem?_concat_length] at hn
      cases hn
      exact hjk.symm
    · rw [List.getElem?_append_left (h.store.lt hj)] at hn
      exact ho j i n hj hn hb

theorem Threaded.own_serve (h : s.Threaded) (ho : s.store.Own)
    (hq : ∀ k, q = .offer k → (s.exportKey k).2.store.Own) : (s.serve q).store.Own := by
  rcases s.serve_store q with ⟨k, rfl, _⟩ | ⟨k, _, hs⟩ | hs
  · exact hq k rfl
  · rw [hs]
    exact h.own_inherit ho
  · rw [hs]
    exact ho

theorem Threaded.take (h : s.Threaded) {n : Nat} (hq : ∀ m k, m < n → qs[m]? = some (.offer k) →
    (s.serveAll (qs.take m)).Steadies k) : (s.serveAll (qs.take n)).Threaded := by
  induction n with
  | zero => exact h
  | succ n ih =>
    have hn := ih fun m k hm => hq m k (Nat.lt_succ_of_lt hm)
    rw [serveAll_take_succ]
    split
    · rename_i q hqn
      exact (hn.serve fun k hk => hq n k (Nat.lt_succ_self n) (hk ▸ hqn)).1
    · exact hn

theorem Threaded.stays (h : s.Threaded) (hq : ∀ m k, qs[m]? = some (.offer k) →
    (s.serveAll (qs.take m)).Steadies k) {n n' : Nat} (hn : n ≤ n') :
    (s.serveAll (qs.take n)).store.Steady (s.serveAll (qs.take n')).store ∧
      (s.serveAll (qs.take n)).store.nodes <+: (s.serveAll (qs.take n')).store.nodes := by
  induction hn with
  | refl => exact ⟨fun _ _ hj => hj, List.prefix_refl _⟩
  | @step n' _ ih =>
    obtain ⟨hsteady, hnodes⟩ := ih
    have hthreaded := h.take (n := n') fun m k _ => hq m k
    rw [Nat.succ_eq_add_one, serveAll_take_succ]
    split
    · rename_i q hqn
      obtain ⟨_, hstep⟩ := hthreaded.serve fun k hk => hq n' k (hk ▸ hqn)
      exact ⟨fun j i hj => hstep j i (hsteady j i hj),
        hnodes.trans (nodes_serve hthreaded.store.idle)⟩
    · exact ⟨hsteady, hnodes⟩

theorem Threaded.own_take (h : s.Threaded) (ho : s.store.Own)
    (hq : ∀ m k, qs[m]? = some (.offer k) → (s.serveAll (qs.take m)).Steadies k ∧
      ((s.serveAll (qs.take m)).exportKey k).2.store.Own)
    (n : Nat) : (s.serveAll (qs.take n)).store.Own := by
  induction n with
  | zero => exact ho
  | succ n ih =>
    have hn := h.take (n := n) fun m k _ hm => (hq m k hm).1
    rw [serveAll_take_succ]
    split
    · rename_i q hqn
      exact hn.own_serve ih fun k hk => (hq n k (hk ▸ hqn)).2
    · exact ih

theorem Threaded.wired (h : s.Threaded) (ho : s.store.Own) {id : InjectorId} {g : Graph}
    (hg : s.draft.freeze id = some g) : g.Wired s.lookup := by
  obtain ⟨hnodes, hkeys, hexports, _⟩ := Draft.freeze_some hg
  have hget : ∀ k i, g.keys.get? k = some i ↔ s.store.status? k = some (.done i) := by
    intro k i
    rw [hkeys]
    exact Store.get?_nodeKeys
  refine ⟨fun n hn hc => ?_, fun k i hk => ?_, fun k i hk => ?_⟩
  · rw [hnodes] at hn
    have hb : n.binding ≠ .inherited := by
      intro hb
      rw [hb] at hc
      cases hc
    obtain ⟨p, hp, _, hdeps⟩ := h.store.made n hn hb
    refine ⟨_, Lookup.resolve_of_find hp, ?_⟩
    dsimp only
    generalize p.dependencies = ds at hdeps
    generalize n.dependencies = is at hdeps
    induction hdeps with
    | nil => rfl
    | cons hd _ ih => rw [List.map_cons, List.map_cons, ih, (hget _ _).2 hd]
  · rw [hget] at hk
    rw [Graph.node?, hnodes]
    change ∃ n, s.store.nodes[i]? = some n ∧ _
    rcases h.store.backed k i hk with ⟨_, r, hr, hsr⟩ | ⟨n, hn, hb, hkey⟩
    · obtain ⟨n, hn, hkey⟩ := h.store.rooted r.key r.provider i (Lookup.find_key hr) hsr
      refine ⟨n, hn, ?_⟩
      split
      · rename_i hb
        exact ho k i n hk hn hb
      · exact ⟨r, hr, hkey.symm⟩
    · exact ⟨n, hn, by rw [if_pos hb, hkey]⟩
  · rw [hexports] at hk
    rw [hget]
    exact h.exports k i hk

theorem exports_own_of_wired {id : InjectorId} {g : Graph} {l : Lookup}
    (hg : s.draft.freeze id = some g) (hw : g.Wired l) :
    (∀ k i, s.exports.get? k = some i → s.store.status? k = some (.done i)) ∧ s.store.Own := by
  obtain ⟨hnodes, hkeys, hexports, _⟩ := Draft.freeze_some hg
  have hget : ∀ k i, g.keys.get? k = some i ↔ s.store.status? k = some (.done i) := by
    intro k i
    rw [hkeys]
    exact Store.get?_nodeKeys
  refine ⟨fun k i hx => (hget k i).1 (hw.exports k i (by rw [hexports]; exact hx)),
    fun j i n hj hn hb => ?_⟩
  obtain ⟨n', hn', hown⟩ := hw.keys j i ((hget j i).2 hj)
  rw [Graph.node?, hnodes] at hn'
  change s.store.nodes[i]? = _ at hn'
  rw [hn] at hn'
  cases hn'
  rwa [if_pos hb] at hown

theorem inherit_new {m : Node} (hm : (s.inherit k).2.store.nodes[i]? = some m) :
    s.store.nodes[i]? = some m ∨ m.key = k ∧ i = (s.inherit k).1 := by
  unfold Site.inherit at hm ⊢
  dsimp only at hm ⊢
  rcases Store.inherit_cases s.store k with ⟨n, _, hs⟩ | ⟨_, hs⟩
  · rw [hs] at hm
    exact .inl hm
  · rw [hs] at hm ⊢
    exact (Store.nodes_addNode_cases hm).imp_right fun ⟨hi, hnew⟩ => ⟨congrArg Node.key hnew, hi⟩

theorem drawn_serve {m : Node} (hi : s.store.Idle) (hm : (s.serve q).store.nodes[i]? = some m)
    (hb : m.binding = .inherited) : s.store.nodes[i]? = some m ∨
      q = .pass m.key ∧ (s.serve q).exports.get? m.key = some i ∨
      ∃ r, q = .satisfy r ∧ r.key = m.key := by
  cases q with
  | offer k =>
    have hg := Lookup.walk_gathers (l := s.lookup) (k := k) hi
    simp only [Site.serve] at hm
    left
    rcases s.exportKey_cases k with ⟨n, _, hs⟩ | ⟨e, _, hs⟩
    · rw [hs] at hm
      rcases getElem?_of_prefix hg.extends.nodes hm with hold | hnew
      · exact hold
      · have hmade := (hg.sourced (a := s.store) fun _ _ hd => .inl hd).2.2 i m hnew hm
        exact absurd hb hmade.not_inherited
    · rw [hs] at hm
      change ((s.lookup.walk k s.store).2.rollback s.store).nodes[i]? = _ at hm
      rwa [Store.nodes_rollback hg.extends] at hm
  | pass k =>
    rcases inherit_new hm with hold | ⟨rfl, rfl⟩
    · exact .inl hold
    · refine .inr (.inl ⟨rfl, ?_⟩)
      simp only [Site.serve, Site.forward, Table.get?_insert, if_true]
  | satisfy r =>
    rcases inherit_new hm with hold | ⟨hkey, _⟩
    · exact .inl hold
    · exact .inr (.inr ⟨r, rfl, hkey.symm⟩)
  | refuse r =>
    simp only [Site.serve, Site.refuse] at hm
    left
    split at hm <;> exact hm

theorem exports_serve_of_ne (ho : q ≠ .offer j) (hp : q ≠ .pass j) :
    (s.serve q).exports.get? j = s.exports.get? j := by
  cases q with
  | offer k =>
    have hne : j ≠ k := by
      rintro rfl
      exact ho rfl
    simp only [Site.serve]
    rcases s.exportKey_cases k with ⟨n, _, hs⟩ | ⟨e, _, hs⟩
    · rw [hs]
      simp [Table.get?_insert, hne]
    · rw [hs]
  | pass k =>
    have hne : j ≠ k := by
      rintro rfl
      exact hp rfl
    have hi : (s.inherit k).2.exports = s.exports := rfl
    simp [Site.serve, Site.forward, Table.get?_insert, hne, hi]
  | satisfy r => rfl
  | refuse r =>
    simp only [Site.serve, Site.refuse]
    split <;> rfl

end Site

/-- A list of requests in which a key that has been passed on is not asked for again. -/
def Request.Once (qs : List Request) : Prop :=
  qs.Pairwise fun q q' => ∀ k, q = .pass k → q' ≠ .offer k ∧ q' ≠ .pass k

theorem Request.Once.after {qs : List Request} (h : Once qs) {n : Nat} {q : Request} {j : Key}
    (hn : qs[n]? = some q) (hm : .pass j ∈ qs.take n) : q ≠ .offer j ∧ q ≠ .pass j := by
  obtain ⟨i, hi⟩ := List.mem_iff_getElem?.1 hm
  rw [List.getElem?_take] at hi
  split at hi
  · rename_i hlt
    obtain ⟨hn', rfl⟩ := List.getElem?_eq_some_iff.1 hn
    obtain ⟨hi', hpass⟩ := List.getElem?_eq_some_iff.1 hi
    exact List.pairwise_iff_getElem.1 h i n hi' hn' hlt j hpass
  · cases hi

namespace Site

variable {s : Site} {q : Request} {qs : List Request} {k j : Key} {i : Nat} {r : Resolved}

theorem Threaded.drawn (h : s.Threaded) (hfresh : ∀ n ∈ s.store.nodes, n.binding ≠ .inherited)
    (honce : Request.Once qs)
    (hsat : ∀ r, .satisfy r ∈ qs → ∃ e, s.lookup.resolve r.key = .error e) {n : Nat}
    (hq : ∀ m k, m < n → qs[m]? = some (.offer k) → (s.serveAll (qs.take m)).Steadies k) {m : Node}
    (hm : (s.serveAll (qs.take n)).store.nodes[i]? = some m) (hb : m.binding = .inherited) :
    (∃ e, s.lookup.resolve m.key = .error e) ∨
      .pass m.key ∈ qs.take n ∧ (s.serveAll (qs.take n)).exports.get? m.key = some i := by
  induction n with
  | zero => exact absurd hb (hfresh m (List.mem_of_getElem? hm))
  | succ n ih =>
    have hn := h.take fun m k hm => hq m k (Nat.lt_succ_of_lt hm)
    rw [serveAll_take_succ] at hm ⊢
    cases hqn : qs[n]? with
    | none =>
      simp only [hqn] at hm ⊢
      rcases ih (fun m k hm => hq m k (Nat.lt_succ_of_lt hm)) hm with he | ⟨hp, hx⟩
      · exact .inl he
      · exact .inr ⟨List.take_subset_take_left _ (Nat.le_succ n) hp, hx⟩
    | some q =>
      simp only [hqn] at hm ⊢
      rcases drawn_serve hn.store.idle hm hb with hold | ⟨rfl, hx⟩ | ⟨r, rfl, hkey⟩
      · rcases ih (fun m k hm => hq m k (Nat.lt_succ_of_lt hm)) hold with he | ⟨hp, hx⟩
        · exact .inl he
        · obtain ⟨ho, hp'⟩ := honce.after hqn hp
          refine .inr ⟨List.take_subset_take_left _ (Nat.le_succ n) hp, ?_⟩
          rw [exports_serve_of_ne ho hp', hx]
      · refine .inr ⟨?_, hx⟩
        rw [List.take_add_one, hqn]
        exact List.mem_append_right _ (List.mem_singleton_self _)
      · rw [← hkey]
        exact .inl (hsat r (List.mem_of_getElem? hqn))

theorem Threaded.moved (h : s.Threaded) (hj : s.store.status? j = some (.done i))
    (hne : (s.exportKey k).2.store.status? j ≠ some (.done i)) :
    (∃ r, s.lookup.resolve j = .ok r ∧ r.key ≠ j) ∧
      ∃ m, s.store.nodes[i]? = some m ∧ m.binding = .inherited ∧ m.key = j := by
  have hg := Lookup.walk_gathers (l := s.lookup) (k := k) h.store.idle
  have hwalk : (s.lookup.walk k s.store).2.status? j ≠ some (.done i) := by
    intro hsame
    rcases s.exportKey_cases k with ⟨n, _, hs⟩ | ⟨e, _, hs⟩
    · rw [hs] at hne
      exact hne hsame
    · rw [hs] at hne
      refine hne ?_
      change ((s.lookup.walk k s.store).2.rollback s.store).status? j = _
      rw [Store.status?_rollback hg.extends, if_neg (by simp [hj]), hsame]
  have hnot : ¬ s.lookup.Backed s.store j i := fun hb => hwalk (hg.backed hb).1
  refine ⟨?_, (h.store.backed j i hj).resolve_left hnot⟩
  cases hr : s.lookup.resolve j with
  | error e =>
    rw [hg.status?_unresolved hr (by simp [hj]), hj] at hwalk
    exact absurd rfl hwalk
  | ok r =>
    refine ⟨r, rfl, fun hkey => hnot ⟨hj, r, hr, ?_⟩⟩
    rw [hkey, hj]

/-- A key that is exported with a value that it does not lead to any more. -/
structure Lost (s : Site) (j : Key) (i : Nat) : Prop where
  idle : s.store.Idle
  rooted : s.lookup.Rooted s.store
  node : ∃ m, s.store.nodes[i]? = some m ∧ m.key = j
  moved : s.store.status? j ≠ some (.done i)
  exported : s.exports.get? j = some i

theorem rooted_serve (hi : s.store.Idle) (h : s.lookup.Rooted s.store) :
    (s.serve q).store.Idle ∧ s.lookup.Rooted (s.serve q).store := by
  refine ⟨idle_serve hi, ?_⟩
  rcases s.serve_store q with ⟨k, _, hs | hs⟩ | ⟨k, _, hs⟩ | hs
  · rw [hs]
    exact (Lookup.walk_gathers hi).rooted h
  · rw [hs]
    exact h.rollback hi
  · rw [hs]
    exact h.inherit
  · rw [hs]
    exact h

theorem Lost.moved_inherit (h : s.Lost j i) : (s.store.inherit k).2.status? j ≠ some (.done i) := by
  obtain ⟨m, hm, _⟩ := h.node
  obtain ⟨hlt, _⟩ := List.getElem?_eq_some_iff.1 hm
  rcases Store.inherit_cases s.store k with ⟨n, _, hs⟩ | ⟨_, hs⟩
  · rw [hs]
    exact h.moved
  · rw [hs, Store.status?_remember]
    split
    · intro hi
      simp only [Option.some.injEq, Status.done.injEq] at hi
      omega
    · exact h.moved

theorem Lost.moved_walk (h : s.Lost j i) (hr : s.lookup.resolve j = .ok r) (hne : r.key ≠ j) :
    (s.lookup.walk k s.store).2.status? j ≠ some (.done i) := by
  obtain ⟨m, hm, hkey⟩ := h.node
  have hg := Lookup.walk_gathers (l := s.lookup) (k := k) h.idle
  intro hd
  rcases (hg.sourced (a := s.store) fun _ _ hd => .inl hd).1 j i hd with hold | ⟨_, r', hr', hsr⟩
  · exact h.moved hold
  · rw [hr] at hr'
    cases hr'
    obtain ⟨m', hm', hkey'⟩ := hg.rooted h.rooted r.key r.provider i (Lookup.find_key hr) hsr
    rw [getElem?_mono hg.extends.nodes hm] at hm'
    cases hm'
    exact hne (hkey'.symm.trans hkey)

theorem Lost.moved_serve (h : s.Lost j i) (hr : s.lookup.resolve j = .ok r) (hne : r.key ≠ j) :
    (s.serve q).store.status? j ≠ some (.done i) := by
  rcases s.serve_store q with ⟨k, _, hs | hs⟩ | ⟨k, _, hs⟩ | hs
  · rw [hs]
    exact h.moved_walk hr hne
  · rw [hs, Store.status?_rollback (Lookup.walk_gathers h.idle).extends]
    split
    · simp
    · exact h.moved_walk hr hne
  · rw [hs]
    exact h.moved_inherit
  · rw [hs]
    exact h.moved

theorem Lost.serve (h : s.Lost j i) (hr : s.lookup.resolve j = .ok r) (hne : r.key ≠ j)
    (ho : q ≠ .offer j) (hp : q ≠ .pass j) : (s.serve q).Lost j i := by
  obtain ⟨hidle, hrooted⟩ := rooted_serve (q := q) h.idle h.rooted
  obtain ⟨m, hm, hkey⟩ := h.node
  refine ⟨hidle, ?_, ⟨m, getElem?_mono (nodes_serve h.idle) hm, hkey⟩, h.moved_serve hr hne, ?_⟩
  · rw [keeps_serve.lookup]
    exact hrooted
  · rw [exports_serve_of_ne ho hp, h.exported]

theorem Lost.take {n n' : Nat} (h : (s.serveAll (qs.take n)).Lost j i)
    (hr : s.lookup.resolve j = .ok r) (hne : r.key ≠ j) (honce : Request.Once qs)
    (hp : .pass j ∈ qs.take n) (hn : n ≤ n') : (s.serveAll (qs.take n')).Lost j i := by
  induction hn with
  | refl => exact h
  | @step n' hle ih =>
    rw [Nat.succ_eq_add_one, serveAll_take_succ]
    split
    · rename_i q hq
      obtain ⟨ho, hp⟩ := honce.after hq (List.take_subset_take_left qs hle hp)
      have hr' : (s.serveAll (qs.take n')).lookup.resolve j = .ok r := by
        rw [keeps_serveAll.lookup, hr]
      exact ih.serve hr' hne ho hp
    · exact ih

/-- The first offer that moves a key leaves the key lost. -/
theorem Threaded.lost (h : s.Threaded) (hfresh : ∀ n ∈ s.store.nodes, n.binding ≠ .inherited)
    (honce : Request.Once qs)
    (hsat : ∀ r, .satisfy r ∈ qs → ∃ e, s.lookup.resolve r.key = .error e) {n : Nat}
    (hq : ∀ m k, m < n → qs[m]? = some (.offer k) → (s.serveAll (qs.take m)).Steadies k)
    (hn : qs[n]? = some (.offer k)) (hk : ¬ (s.serveAll (qs.take n)).Steadies k) :
    ∃ j i, (s.serveAll qs).Lost j i := by
  have ht := h.take hq
  have hlookup : ∀ n, (s.serveAll (qs.take n)).lookup = s.lookup := fun n => keeps_serveAll.lookup
  obtain ⟨j, i, hj, hne⟩ : ∃ j i, (s.serveAll (qs.take n)).store.status? j = some (.done i) ∧
      ((s.serveAll (qs.take n)).exportKey k).2.store.status? j ≠ some (.done i) := by
    by_contra hno
    exact hk fun j i hj => by
      by_contra hne
      exact hno ⟨j, i, hj, hne⟩
  obtain ⟨⟨r, hr, hrj⟩, m, hm, hb, hkey⟩ := ht.moved hj hne
  rw [hlookup] at hr
  obtain ⟨hpassed, hx⟩ := (h.drawn hfresh honce hsat hq hm hb).resolve_left fun ⟨e, he⟩ => by
    rw [hkey, hr] at he
    cases he
  rw [hkey] at hpassed hx
  have hlost : (s.serveAll (qs.take (n + 1))).Lost j i := by
    obtain ⟨ho, hp⟩ := honce.after hn hpassed
    obtain ⟨hidle, hrooted⟩ := rooted_serve (q := .offer k) ht.store.idle ht.store.rooted
    have hnode := getElem?_mono (nodes_serve (q := .offer k) ht.store.idle) hm
    rw [serveAll_take_succ, hn]
    refine ⟨hidle, by rwa [keeps_serve.lookup], ⟨m, hnode, hkey⟩, hne, ?_⟩
    rw [exports_serve_of_ne ho hp, hx]
  obtain ⟨hlt, _⟩ := List.getElem?_eq_some_iff.1 hn
  have hend := hlost.take hr hrj honce (List.take_subset_take_left qs (Nat.le_succ n) hpassed) hlt
  rw [List.take_length] at hend
  exact ⟨j, i, hend⟩

theorem Threaded.steadies (h : s.Threaded) (hfresh : ∀ n ∈ s.store.nodes, n.binding ≠ .inherited)
    (honce : Request.Once qs)
    (hsat : ∀ r, .satisfy r ∈ qs → ∃ e, s.lookup.resolve r.key = .error e)
    (hx : ∀ k i, (s.serveAll qs).exports.get? k = some i →
      (s.serveAll qs).store.status? k = some (.done i)) :
    ∀ n k, qs[n]? = some (.offer k) → (s.serveAll (qs.take n)).Steadies k := by
  intro n
  induction n using Nat.strong_induction_on with
  | _ n ih =>
    intro k hn
    by_contra hk
    obtain ⟨j, i, hlost⟩ := h.lost hfresh honce hsat (fun m k hm => ih m hm k) hn hk
    exact hlost.moved (hx j i hlost.exported)

theorem Threaded.own_before (h : s.Threaded)
    (hq : ∀ m k, qs[m]? = some (.offer k) → (s.serveAll (qs.take m)).Steadies k)
    (ho : (s.serveAll qs).store.Own) {n : Nat} (hn : n ≤ qs.length) :
    (s.serveAll (qs.take n)).store.Own := by
  obtain ⟨hsteady, hnodes⟩ := h.stays hq hn
  rw [List.take_length] at hsteady hnodes
  exact fun j i m hj hm hb => ho j i m (hsteady j i hj) (getElem?_mono hnodes hm) hb

end Site

namespace Catalog

variable {m : Model} {c : Catalog} {autoBinding : Bool} {id : InjectorId} {s : Site}
  {res : Resolution} {g : Graph}

theorem threaded_built (hs : (c.built autoBinding).site? id = some s) :
    s.Threaded ∧ ∀ n ∈ s.store.nodes, n.binding ≠ .inherited := by
  have hlocal : s.lookup.Local s.store := (store_built hs .empty fun _ h => h.walk).2
  refine ⟨⟨hlocal.threaded, fun k i hk => ?_⟩, hlocal.own⟩
  obtain ⟨i, s₀, _, hs₀, rfl⟩ := site?_built.1 hs
  obtain ⟨registry, rfl⟩ := Site.start_ok hs₀
  rw [(Site.Grows.buildLocal _).exports] at hk
  simp at hk

theorem satisfy_unresolved (hc : c.Sound) (hs : (c.built autoBinding).site? id = some s)
    (hd : (s.serveAll (c.requests autoBinding id)).diagnostics = []) {r : Requirement}
    (hr : .satisfy r ∈ c.requests autoBinding id) : ∃ e, s.lookup.resolve r.key = .error e := by
  have hv : (r, true) ∈ (c.requests autoBinding id).filterMap Request.verdict? :=
    List.mem_filterMap.2 ⟨_, hr, rfl⟩
  rw [(verdicts_requests hc hs).1] at hv
  obtain ⟨r', hr', he⟩ := List.mem_map.1 hv
  obtain rfl : r' = r := congrArg Prod.fst he
  exact pending_unresolved hs ((diagnostics_linked_eq_nil_iff hc hs).1 hd).1 hr'

/-- A graph is wired exactly if no offer has moved a key from its node and none has given a key the
value that was drawn for another. -/
theorem graph_wired_iff (hm : Catalog.ofModel m = .ok c) (hr : c.resolve autoBinding = some res)
    (hg : res.graph? id = some g) :
    ∃ s, (c.built autoBinding).site? id = some s ∧ c.lookup? autoBinding id = some s.lookup ∧
      (g.Wired s.lookup ↔ ∀ n k, (c.requests autoBinding id)[n]? = some (.offer k) →
        (s.serveAll ((c.requests autoBinding id).take n)).Steadies k ∧
        ((s.serveAll ((c.requests autoBinding id).take n)).exportKey k).2.store.Own) := by
  have hc := sound_of_ofModel hm
  obtain ⟨s, hs, hd, hfreeze⟩ := graph?_linked hc hr hg
  obtain ⟨ht, hfresh⟩ := threaded_built hs
  have hlookup : (s.serveAll (c.requests autoBinding id)).lookup = s.lookup :=
    Site.keeps_serveAll.lookup
  have hend : s.serveAll ((c.requests autoBinding id).take (c.requests autoBinding id).length) =
      s.serveAll (c.requests autoBinding id) := by rw [List.take_length]
  refine ⟨s, hs, by rw [← lookup?_eq, hs]; rfl, fun hw => ?_, fun hq => ?_⟩
  · obtain ⟨hexports, hown⟩ := Site.exports_own_of_wired hfreeze hw
    have hsteady := ht.steadies hfresh (requests_pairwise hc autoBinding id)
      (fun r hr => satisfy_unresolved hc hs hd hr) hexports
    intro n k hn
    obtain ⟨hlt, _⟩ := List.getElem?_eq_some_iff.1 hn
    have hbefore := ht.own_before hsteady hown (n := n + 1) hlt
    rw [Site.serveAll_take_succ, hn] at hbefore
    exact ⟨hsteady n k hn, hbefore⟩
  · have hfinal := ht.take (n := (c.requests autoBinding id).length) fun n k _ hn => (hq n k hn).1
    have hown := ht.own_take (fun j i node _ hnode hb =>
      absurd hb (hfresh node (List.mem_of_getElem? hnode))) hq (c.requests autoBinding id).length
    rw [hend] at hfinal hown
    rw [← hlookup]
    exact hfinal.wired hown hfreeze

end Catalog

def crossedKeys : List Key := [⟨"K", none⟩, ⟨"D", none⟩]

/-- `Mid` draws `K` and `D` from `Root`. A request for `K2` then passes `K` on the way to `T`, which
can be made by now. -/
def crossedModel (keys : List Key) : Model := .lineage
  { id := "R", factories := [.ofKey "make_k" ⟨"K", none⟩, .ofKey "make_d" ⟨"D", none⟩] }
  { id := "M"
    factories := [(Factory.ofKey "make_t" ⟨"T", none⟩).parameter ⟨"D", none⟩]
    links := [.between ⟨"K", none⟩ ⟨"T", none⟩, .between ⟨"K2", none⟩ ⟨"K", none⟩] }
  keys

theorem graph_wired_mid : ∃ c res g l, Catalog.ofModel (crossedModel crossedKeys) = .ok c ∧
    c.resolve true = some res ∧ res.graph? "Mid" = some g ∧
    c.lookup? true "Mid" = some l ∧ g.Wired l := by
  have h : (Catalog.ofModel (crossedModel crossedKeys)).toOption.any fun c =>
      (c.resolve true).any fun res => (res.graph? "Mid").isSome &&
        decide (c.requests true "Mid" = crossedKeys.flatMap fun k => [.offer k, .pass k]) &&
        ((c.built true).site? "Mid").all fun s => decide (∀ n ∈ List.range 4, ∀ k ∈ crossedKeys,
          (s.serveAll ((c.requests true "Mid").take n)).Steadies k ∧
          ((s.serveAll ((c.requests true "Mid").take n)).exportKey k).2.store.Own) := by
    decide +kernel
  obtain ⟨c, hc, h⟩ := exists_of_any h
  obtain ⟨res, hr, h⟩ := (Option.any_eq_true _ _).1 h
  simp only [Bool.and_eq_true, Option.all_eq_true, decide_eq_true_eq] at h
  obtain ⟨⟨hg, hq⟩, hoffers⟩ := h
  obtain ⟨g, hg⟩ := Option.isSome_iff_exists.1 hg
  obtain ⟨s, hs, hl, hiff⟩ := Catalog.graph_wired_iff hc hr hg
  refine ⟨c, res, g, _, hc, hr, hg, hl, hiff.2 fun n k hk => hoffers s hs n ?_ k ?_⟩
  · obtain ⟨hlt, _⟩ := List.getElem?_eq_some_iff.1 hk
    simpa [hq, crossedKeys, List.mem_range] using hlt
  · have hm := List.mem_of_getElem? hk
    simpa [hq] using hm

/-- `Mid` exports for `K` what it drew from `Root`, while `K` itself has come to stand for `T`. -/
theorem graph_crossed : ∃ c res g l,
    Catalog.ofModel (crossedModel (crossedKeys ++ [⟨"K2", none⟩])) = .ok c ∧
    c.resolve true = some res ∧ res.graph? "Mid" = some g ∧ c.lookup? true "Mid" = some l ∧
    ¬ g.Wired l := by
  have h : (Catalog.ofModel (crossedModel (crossedKeys ++ [⟨"K2", none⟩]))).toOption.any fun c =>
      (c.lookup? true "Mid").isSome &&
        (c.resolve true).any fun res => (res.graph? "Mid").any fun g =>
        (g.exports.get? ⟨"K", none⟩).any fun i => decide (g.keys.get? ⟨"K", none⟩ ≠ some i) := by
    decide +kernel
  obtain ⟨c, hc, h⟩ := exists_of_any h
  rw [Bool.and_eq_true] at h
  obtain ⟨l, hl⟩ := Option.isSome_iff_exists.1 h.1
  obtain ⟨res, hr, h⟩ := (Option.any_eq_true _ _).1 h.2
  obtain ⟨g, hg, h⟩ := (Option.any_eq_true _ _).1 h
  obtain ⟨i, hi, h⟩ := (Option.any_eq_true _ _).1 h
  exact ⟨c, res, g, l, hc, hr, hg, hl, fun hw => of_decide_eq_true h (hw.exports _ _ hi)⟩

end Wiring
