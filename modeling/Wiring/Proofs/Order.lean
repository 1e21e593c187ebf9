import Wiring.Model.Compose
import Wiring.Proofs.Building
import Wiring.Proofs.Freezing

/-!
The order of nodes. Gathering makes dependencies before the nodes that need them, and so an injector
stays in order whatever is asked of it, except that a failed attempt may leave a key standing for a
node that it takes back.
-/

set_option autoImplicit false

namespace Wiring

theorem mem_modify {α : Type} {f : α → α} {a : α} {l : List α} {i : Nat} (h : a ∈ l.modify i f) :
    a ∈ l ∨ ∃ b ∈ l, a = f b := by
  induction l generalizing i with
  | nil => simp at h
  | cons x xs ih =>
    cases i with
    | zero =>
      rw [List.modify_zero_cons] at h
      rcases List.mem_cons.1 h with rfl | h
      · exact .inr ⟨x, List.mem_cons_self, rfl⟩
      · exact .inl (List.mem_cons_of_mem _ h)
    | succ i =>
      rw [List.modify_succ_cons] at h
      rcases List.mem_cons.1 h with rfl | h
      · exact .inl List.mem_cons_self
      · rcases ih h with h | ⟨b, hb, rfl⟩
        · exact .inl (List.mem_cons_of_mem _ h)
        · exact .inr ⟨b, List.mem_cons_of_mem _ hb, rfl⟩

structure Store.InOrder (s : Store) : Prop where
  memo : ∀ k i, s.status? k = some (.done i) → i < s.nodes.length
  nodes : ∀ i (n : Node), s.nodes[i]? = some n → ∀ j ∈ n.dependencies, j < i

namespace Store.InOrder

variable {s : Store} {k : Key} {st : Status}

theorem empty : Store.empty.InOrder where
  memo _ _ h := by simp at h
  nodes _ _ h := by simp at h

theorem remember (h : s.InOrder) (hst : ∀ i, st = .done i → i < s.nodes.length) :
    (s.remember k st).InOrder where
  memo j i hj := by
    rw [status?_remember] at hj
    split at hj
    · exact hst i (by simpa using hj)
    · exact h.memo j i hj
  nodes := h.nodes

theorem rememberAll {ks : List Key} (h : s.InOrder) (hst : ∀ i, st = .done i → i < s.nodes.length) :
    (s.rememberAll ks st).InOrder := by
  induction ks generalizing s with
  | nil => exact h
  | cons k ks ih => exact ih (h.remember hst) hst

theorem claim {r : Resolved} (h : s.InOrder) : (s.claim r).InOrder :=
  (h.remember (by simp)).rememberAll (by simp)

theorem release {r : Resolved} (h : s.InOrder) (hst : ∀ i, st = .done i → i < s.nodes.length) :
    (s.release r st).InOrder :=
  (h.rememberAll hst).remember (by simpa using hst)

theorem addNode {n : Node} (h : s.InOrder) (hn : ∀ j ∈ n.dependencies, j < s.nodes.length) :
    (s.addNode n).InOrder where
  memo j i hj := by
    have := h.memo j i hj
    rw [nodes_addNode, List.length_append, List.length_singleton]
    omega
  nodes i m hm j hj := by
    rcases nodes_addNode_cases hm with hold | ⟨rfl, rfl⟩
    · exact h.nodes i m hold j hj
    · exact hn j hj

end Store.InOrder

namespace Lookup

variable {l : Lookup} {trail : List Key} {asker : Option Location} {ks : List Key} {s s' : Store}
  {out : Gathered}

theorem Gathers.length_le (h : l.Gathers trail asker ks s out s') :
    s.nodes.length ≤ s'.nodes.length := h.extends.nodes.length_le

theorem Gathers.inOrder (h : l.Gathers trail asker ks s out s') (hs : s.InOrder) :
    s'.InOrder ∧ ∀ is, out = .ok is → ∀ i ∈ is, i < s'.nodes.length := by
  -- the node of the first key stays where it is while the others are gathered
  have first : ∀ {trail : List Key} {asker : Option Location} {ks : List Key} {s s' : Store}
      {out : Gathered} {i : Nat}, l.Gathers trail asker ks s out s' → i < s.nodes.length →
      (∀ is, out = .ok is → ∀ j ∈ is, j < s'.nodes.length) →
      ∀ is, out.map (i :: ·) = .ok is → ∀ j ∈ is, j < s'.nodes.length := by
    intro _ _ _ _ _ _ i h hi hrest is his j hj
    obtain ⟨js, hjs, rfl⟩ := Gathered.map_eq_ok_iff.1 his
    rcases List.mem_cons.1 hj with rfl | hj
    · exact Nat.lt_of_lt_of_le hi h.length_le
    · exact hrest js hjs j hj
  induction h with
  | nil => exact ⟨hs, by simp⟩
  | closing | refused => exact ⟨hs, by simp⟩
  | unresolved | looping => exact ⟨hs.remember (by simp), by simp⟩
  | spoiled => exact ⟨(hs.rememberAll (by simp)).remember (by simp), by simp⟩
  | known hk h ih =>
    obtain ⟨hs', hrest⟩ := ih hs
    exact ⟨hs', first h (hs.memo _ _ hk) hrest⟩
  | shared _ _ hst h ih =>
    have hi := hs.memo _ _ hst
    obtain ⟨hs', hrest⟩ := ih (hs.rememberAll (by simpa using hi))
    exact ⟨hs', first h (by simpa using hi) hrest⟩
  | broken _ _ _ _ ih => exact ⟨(ih hs.claim).1.release (by simp), by simp⟩
  | @built _ _ _ _ _ s₁ _ r args _ _ _ _ _ h ih ih' =>
    obtain ⟨hs₁, hargs⟩ := ih hs.claim
    have hi : s₁.nodes.length < (s₁.addNode (r.node args)).nodes.length := by simp
    have hnode : (s₁.addNode (r.node args)).InOrder := hs₁.addNode (hargs args rfl)
    obtain ⟨hs', hrest⟩ := ih' (hnode.release (by simp))
    exact ⟨hs', first h (by simp) hrest⟩

theorem walk_inOrder {k : Key} (hs : s.InOrder) (hi : s.Idle) :
    (l.walk k s).2.InOrder ∧ ∀ i, (l.walk k s).1 = .node i → i < (l.walk k s).2.nodes.length := by
  obtain ⟨hs', hout⟩ := (walk_gathers (l := l) (k := k) hi).inOrder hs
  refine ⟨hs', fun i hi => hout [i] ?_ i List.mem_cons_self⟩
  rw [hi]
  rfl

end Lookup

namespace Site

variable {s : Site} {k : Key}

/-- The store is in order, and everything listed names nodes that are there. -/
structure InOrder (s : Site) : Prop where
  idle : s.store.Idle
  store : s.store.InOrder
  providers : ∀ e ∈ s.providers, e.2.2 < s.store.nodes.length
  builders : ∀ b ∈ s.builders, ∀ i ∈ b.args, i < s.store.nodes.length
  children : ∀ c ∈ s.children, ∀ e ∈ c.args, ∀ i, e.2 = .resolved i → i < s.store.nodes.length
  exports : ∀ k i, s.exports.get? k = some i → i < s.store.nodes.length

namespace InOrder

theorem start (i : Injector) (l : Lookup) : InOrder { injector := i, lookup := l } :=
  ⟨Store.idle_empty, .empty, by simp, by simp, by simp, by simp⟩

theorem extend {store : Store} (h : s.InOrder) (hi : store.Idle) (hs : store.InOrder)
    (hn : s.store.nodes.length ≤ store.nodes.length) : InOrder { s with store } where
  idle := hi
  store := hs
  providers e he := Nat.lt_of_lt_of_le (h.providers e he) hn
  builders b hb i hi := Nat.lt_of_lt_of_le (h.builders b hb i hi) hn
  children c hc e he i hi := Nat.lt_of_lt_of_le (h.children c hc e he i hi) hn
  exports k i hk := Nat.lt_of_lt_of_le (h.exports k i hk) hn

theorem walk (h : s.InOrder) (k : Key) :
    (s.walk k).2.InOrder ∧ ∀ i, (s.walk k).1 = .node i → i < (s.walk k).2.store.nodes.length := by
  have hg := Lookup.walk_gathers (l := s.lookup) (k := k) h.idle
  obtain ⟨hs, hout⟩ := Lookup.walk_inOrder (l := s.lookup) (k := k) h.store h.idle
  exact ⟨h.extend (hg.idle h.idle) hs hg.length_le, hout⟩

theorem report (h : s.InOrder) (ds : List Diagnostic) : (s.report ds).InOrder :=
  ⟨h.idle, h.store, h.providers, h.builders, h.children, h.exports⟩

theorem request (h : s.InOrder) (requestedBy : Option Key) (location : Option Location) (k : Key) :
    (s.request requestedBy location k).2.InOrder ∧
      ∀ i, (s.request requestedBy location k).1 = some i →
        i < (s.request requestedBy location k).2.store.nodes.length := by
  obtain ⟨hw, hout⟩ := h.walk k
  refine ⟨hw.report _, fun i hi => hout i ?_⟩
  simp only [Site.request] at hi
  cases ho : (s.walk k).1 with
  | node j =>
    rw [ho] at hi
    cases hi
    rfl
  | failed e =>
    rw [ho] at hi
    cases hi

theorem addProvider (h : s.InOrder) (m : ProviderMethod) : (s.addProvider m).InOrder := by
  obtain ⟨hr, hout⟩ := h.request none m.location m.key
  unfold Site.addProvider
  dsimp only
  split
  · rename_i i hi
    refine ⟨hr.idle, hr.store, fun e he => ?_, hr.builders, hr.children, hr.exports⟩
    rcases List.mem_append.1 he with he | he
    · exact hr.providers e he
    · obtain rfl := List.mem_singleton.1 he
      exact hout i hi
  · exact hr

theorem requestAll (requestedBy : Option Key) (location : Option Location) (ks : List Key)
    (h : s.InOrder) : (s.requestAll requestedBy location ks).2.InOrder ∧
      s.store.nodes.length ≤ (s.requestAll requestedBy location ks).2.store.nodes.length ∧
      ∀ i ∈ (s.requestAll requestedBy location ks).1,
        i < (s.requestAll requestedBy location ks).2.store.nodes.length := by
  induction ks generalizing s with
  | nil => exact ⟨h, Nat.le_refl _, by simp [Site.requestAll]⟩
  | cons k ks ih =>
    obtain ⟨hr, hout⟩ := h.request requestedBy location k
    obtain ⟨hs, hle, hrest⟩ := ih hr
    have hgrow : s.store.nodes.length ≤ (s.request requestedBy location k).2.store.nodes.length :=
      (Lookup.walk_gathers (l := s.lookup) (k := k) h.idle).length_le
    refine ⟨hs, Nat.le_trans hgrow hle, fun i hi => ?_⟩
    rcases List.mem_append.1 hi with hi | hi
    · exact Nat.lt_of_lt_of_le (hout i (Option.mem_toList.1 hi)) hle
    · exact hrest i hi

theorem addBuilder (h : s.InOrder) (m : BuilderMethod) : (s.addBuilder m).InOrder := by
  unfold Site.addBuilder
  split
  · exact h.report _
  · rename_i completion _
    obtain ⟨hr, _, hout⟩ :=
      h.requestAll (some m.key) (completion.location <|> m.location) completion.dependencies
    dsimp only
    split
    · refine ⟨hr.idle, hr.store, hr.providers, fun b hb => ?_, hr.children, hr.exports⟩
      rcases List.mem_append.1 hb with hb | hb
      · exact hr.builders b hb
      · obtain rfl := List.mem_singleton.1 hb
        exact hout
    · exact hr

theorem addArgument (h : s.InOrder) (missing : List Key) (location : Option Location) (k : Key) :
    (s.addArgument missing location k).2.2.InOrder ∧
      s.store.nodes.length ≤ (s.addArgument missing location k).2.2.store.nodes.length ∧
      ∀ i, (s.addArgument missing location k).1 = .resolved i →
        i < (s.addArgument missing location k).2.2.store.nodes.length := by
  obtain ⟨hw, hout⟩ := h.walk k
  have hgrow : s.store.nodes.length ≤ (s.walk k).2.store.nodes.length :=
    (Lookup.walk_gathers (l := s.lookup) (k := k) h.idle).length_le
  unfold Site.addArgument
  dsimp only
  split
  · rename_i i hi
    exact ⟨hw, hgrow, fun j hj => hout j (by cases hj; exact hi)⟩
  · split
    · exact ⟨hw, hgrow, by simp⟩
    · exact ⟨hw.report _, hgrow, by simp⟩

theorem addArguments (location : Option Location) (ks : List Key) (missing : List Key)
    (h : s.InOrder) : (s.addArguments missing location ks).2.2.InOrder ∧
      s.store.nodes.length ≤ (s.addArguments missing location ks).2.2.store.nodes.length ∧
      ∀ e ∈ (s.addArguments missing location ks).1, ∀ i, e.2 = .resolved i →
        i < (s.addArguments missing location ks).2.2.store.nodes.length := by
  induction ks generalizing s missing with
  | nil => exact ⟨h, Nat.le_refl _, by simp [Site.addArguments]⟩
  | cons k ks ih =>
    obtain ⟨ha, hgrow, hout⟩ := h.addArgument missing location k
    obtain ⟨hs, hle, hrest⟩ := ih (s.addArgument missing location k).2.1 ha
    refine ⟨hs, Nat.le_trans hgrow hle, fun e he i hi => ?_⟩
    rcases List.mem_cons.1 he with rfl | he
    · exact Nat.lt_of_lt_of_le (hout i hi) hle
    · exact hrest e he i hi

theorem addChildren (as : List ChildAccessor) (missing : List Key) (h : s.InOrder) :
    (s.addChildren missing as).InOrder := by
  induction as generalizing s missing with
  | nil => exact h
  | cons a as ih =>
    obtain ⟨hs, _, hout⟩ :=
      h.addArguments a.location (requiredBy s.lookup.catalog a.injector) missing
    refine ih _ ⟨hs.idle, hs.store, hs.providers, hs.builders, fun c hc => ?_, hs.exports⟩
    rcases List.mem_append.1 hc with hc | hc
    · exact hs.children c hc
    · obtain rfl := List.mem_singleton.1 hc
      exact hout

theorem foldl {α : Type} {add : Site → α → Site}
    (hadd : ∀ {s : Site}, s.InOrder → ∀ a, (add s a).InOrder) (as : List α) (h : s.InOrder) :
    (as.foldl add s).InOrder := by
  induction as generalizing s with
  | nil => exact h
  | cons a as ih => exact ih (hadd h a)

theorem buildLocal (h : s.InOrder) : s.buildLocal.InOrder :=
  addChildren _ _ (foldl addBuilder _ (foldl addProvider _ h))

theorem inherit (h : s.InOrder) (k : Key) :
    (s.inherit k).2.InOrder ∧ (s.inherit k).1 < (s.inherit k).2.store.nodes.length := by
  have hidle := h.idle.inherit (k := k)
  unfold Site.inherit
  dsimp only
  rcases Store.inherit_cases s.store k with ⟨i, hk, hs⟩ | ⟨_, hs⟩
  · rw [hs]
    exact ⟨h, h.store.memo k i hk⟩
  · rw [hs] at hidle ⊢
    have hnode : (s.store.addNode ⟨k, .inherited, [], none⟩).InOrder := h.store.addNode (by simp)
    exact ⟨h.extend hidle (hnode.remember (by simp)) (by simp), by simp⟩

theorem setArgument (h : s.InOrder) (r : Requirement) {a : Argument}
    (ha : ∀ i, a = .resolved i → i < s.store.nodes.length) : (s.setArgument r a).InOrder := by
  refine ⟨h.idle, h.store, h.providers, h.builders, fun c hc e he i hi => ?_, h.exports⟩
  rcases mem_modify hc with hc | ⟨c', hc', rfl⟩
  · exact h.children c hc e he i hi
  · rcases mem_modify he with he | ⟨e', he', rfl⟩
    · exact h.children c' hc' e he i hi
    · exact ha i hi

theorem satisfy (h : s.InOrder) (r : Requirement) : (s.satisfy r).InOrder := by
  obtain ⟨hs, hi⟩ := h.inherit r.key
  exact hs.setArgument r fun i h => by cases h; exact hi

theorem refuse (h : s.InOrder) (r : Requirement) : (s.refuse r).InOrder := by
  unfold Site.refuse
  split
  · exact h
  · exact (h.setArgument r (by simp)).report _

theorem insertExport (h : s.InOrder) {i : Nat} (hi : i < s.store.nodes.length) (k : Key) :
    InOrder { s with exports := s.exports.insert k i } := by
  refine ⟨h.idle, h.store, h.providers, h.builders, h.children, fun j n hj => ?_⟩
  rw [Table.get?_insert] at hj
  split at hj
  · cases hj
    exact hi
  · exact h.exports j n hj

theorem forward (h : s.InOrder) (k : Key) : (s.forward k).InOrder := by
  obtain ⟨hs, hi⟩ := h.inherit k
  exact hs.insertExport hi k

theorem draft (h : s.InOrder) : s.draft.InOrder where
  nodes := h.store.nodes
  keys k i hk := h.store.memo k i (Store.get?_nodeKeys.1 hk)
  providers := h.providers
  builders := h.builders
  children c hc e he := by
    obtain ⟨c', hc', hd⟩ := List.mem_filterMap.1 hc
    simp only [ChildSite.draft?, Option.map_eq_some_iff] at hd
    obtain ⟨args, hargs, rfl⟩ := hd
    obtain ⟨e', he', hx⟩ := mem_of_mem_mapM hargs he
    obtain ⟨i, hi, rfl⟩ := Option.map_eq_some_iff.1 hx
    refine h.children c' hc' e' he' i ?_
    cases ha : e'.2 <;> simp_all [Argument.node?]
  exports := h.exports

end InOrder

end Site

/-- A key stands for a node that is not there. -/
def Store.Strays (s : Store) : Prop := ∃ k i, s.status? k = some (.done i) ∧ s.nodes.length ≤ i

instance (s : Store) : Decidable s.Strays :=
  decidable_of_iff (∃ i ∈ s.nodeKeys.values, s.nodes.length ≤ i) (by
    simp only [Table.mem_values_iff, Store.get?_nodeKeys]
    constructor
    · rintro ⟨i, ⟨k, hk⟩, hi⟩
      exact ⟨k, i, hk, hi⟩
    · rintro ⟨k, i, hk, hi⟩
      exact ⟨i, ⟨k, hk⟩, hi⟩)

namespace Site

variable {s : Site} {k : Key}

theorem InOrder.offer (h : s.InOrder)
    (hk : (s.exportKey k).1 = none → ¬ (s.exportKey k).2.store.Strays) :
    (s.exportKey k).2.InOrder := by
  obtain ⟨hw, hout⟩ := h.walk k
  rcases s.exportKey_cases k with ⟨i, hi, hs⟩ | ⟨e, _, hs⟩
  · rw [hs]
    exact hw.insertExport (hout i hi) k
  · rw [hs] at hk ⊢
    have hg : s.store.Extends (s.walk k).2.store := (Lookup.walk_gathers h.idle).extends
    have hnodes : ((s.walk k).2.store.rollback s.store).nodes = s.store.nodes :=
      Store.nodes_rollback hg
    refine h.extend (hw.idle.rollback hg) ⟨fun j i hj => ?_, ?_⟩ (Nat.le_of_eq (by rw [hnodes]))
    · by_contra hlt
      exact hk rfl ⟨j, i, hj, Nat.le_of_not_lt hlt⟩
    · rw [hnodes]
      exact h.store.nodes

/-- One request keeps a site in order, unless it is an offer that fails and leaves a key astray. -/
theorem InOrder.serve (h : s.InOrder) (q : Request)
    (hq : ∀ k, q = .offer k → (s.exportKey k).1 = none → ¬ (s.exportKey k).2.store.Strays) :
    (s.serve q).InOrder := by
  cases q with
  | offer k => exact h.offer (hq k rfl)
  | pass k => exact h.forward k
  | satisfy r => exact h.satisfy r
  | refuse r => exact h.refuse r

theorem InOrder.serveAll_take {qs : List Request} (h : s.InOrder)
    (hq : ∀ n k, qs[n]? = some (.offer k) → ((s.serveAll (qs.take n)).exportKey k).1 = none →
      ¬ ((s.serveAll (qs.take n)).exportKey k).2.store.Strays) (n : Nat) :
    (s.serveAll (qs.take n)).InOrder := by
  induction n with
  | zero => exact h
  | succ n ih =>
    rw [serveAll_take_succ]
    split
    · rename_i q hn
      exact ih.serve q fun k hk => hq n k (by rw [hn, hk])
    · exact ih

theorem not_strays_of_inOrder (h : s.draft.InOrder) : ¬ s.store.Strays := by
  rintro ⟨k, i, hk, hle⟩
  have := h.keys k i (Store.get?_nodeKeys.2 hk)
  exact absurd this (Nat.not_lt.2 hle)

theorem InOrder.draft_take_iff {qs : List Request} (h : s.InOrder) :
    (∀ n, (s.serveAll (qs.take n)).draft.InOrder) ↔
      ∀ n k, qs[n]? = some (.offer k) → ((s.serveAll (qs.take n)).exportKey k).1 = none →
        ¬ ((s.serveAll (qs.take n)).exportKey k).2.store.Strays := by
  constructor
  · intro hd n k hn _
    have hnext := hd (n + 1)
    rw [serveAll_take_succ, hn] at hnext
    exact not_strays_of_inOrder hnext
  · intro hq n
    exact (h.serveAll_take hq n).draft

end Site

namespace Catalog

variable {m : Model} {c : Catalog} {autoBinding : Bool} {id : InjectorId} {s : Site}

theorem built_inOrder (hs : (c.built autoBinding).site? id = some s) : s.InOrder := by
  obtain ⟨i, s₀, _, hs₀, rfl⟩ := site?_built.1 hs
  obtain ⟨registry, rfl⟩ := Site.start_ok hs₀
  exact (Site.InOrder.start _ _).buildLocal

/-- After any number of requests an injector is in order exactly if no offer so far has failed and
left a key standing for a node that was taken back. In that case nothing keeps its draft from being
frozen. -/
theorem linked_inOrder_iff (hm : Catalog.ofModel m = .ok c)
    (hs : (c.built autoBinding).site? id = some s) :
    ∃ final, (c.linked autoBinding).site? id = some final ∧
      final = s.serveAll (c.requests autoBinding id) ∧
      ((∀ n, (s.serveAll ((c.requests autoBinding id).take n)).draft.InOrder) ↔
        ∀ n k, (c.requests autoBinding id)[n]? = some (.offer k) →
          ((s.serveAll ((c.requests autoBinding id).take n)).exportKey k).1 = none →
          ¬ ((s.serveAll ((c.requests autoBinding id).take n)).exportKey k).2.store.Strays) ∧
      (final.draft.InOrder → final.finish.isSome) := by
  have hlinked : (c.linked autoBinding).site? id = _ := site?_linked (sound_of_ofModel hm)
  rw [hs] at hlinked
  refine ⟨_, hlinked, rfl, (built_inOrder hs).draft_take_iff, fun hd => ?_⟩
  unfold Site.finish
  split
  · obtain ⟨g, hg⟩ := Option.isSome_iff_exists.1 (Draft.freeze_isSome hd)
    rw [hg]
    rfl
  · rfl

end Catalog

def strayKeys : List Key := [⟨"K", none⟩, ⟨"D", none⟩, ⟨"W", none⟩]

/-- `Mid` draws `K` from `Root`. The failed attempt at `W` then builds `T` for it and takes `T`
back. If `N` is asked for as well, the new node needs what `K` stands for by then. -/
def strayModel (withN : Bool) : Model := .lineage
  { id := "R", factories := [.ofKey "make_k" ⟨"K", none⟩, .ofKey "make_d" ⟨"D", none⟩] }
  { id := "M"
    factories :=
      [(Factory.ofKey "make_t" ⟨"T", none⟩).parameter ⟨"D", none⟩,
        ((Factory.ofKey "make_w" ⟨"W", none⟩).parameter ⟨"K2", none⟩).parameter ⟨"X", none⟩,
        (Factory.ofKey "make_n" ⟨"N", none⟩).parameter ⟨"K", none⟩]
    links := [.between ⟨"K", none⟩ ⟨"T", none⟩, .between ⟨"K2", none⟩ ⟨"K", none⟩] }
  (strayKeys ++ if withN then [⟨"N", none⟩] else [])

/-- `Root` is asked for the same keys and lacks `W`, but loses nothing over it. -/
theorem linked_inOrder_root : ∃ c s, Catalog.ofModel (strayModel false) = .ok c ∧
    (c.built true).site? "Root" = some s ∧
    ∀ n, (s.serveAll ((c.requests true "Root").take n)).draft.InOrder := by
  have h : (Catalog.ofModel (strayModel false)).toOption.any fun c =>
      ((c.built true).site? "Root").any fun s =>
        decide (c.requests true "Root" = strayKeys.map .offer) &&
        decide (∀ n ∈ List.range 3, ∀ k ∈ strayKeys,
          ¬ ((s.serveAll ((c.requests true "Root").take n)).exportKey k).2.store.Strays) := by
    decide +kernel
  obtain ⟨c, hc, h⟩ := exists_of_any h
  obtain ⟨s, hs, h⟩ := (Option.any_eq_true _ _).1 h
  simp only [Bool.and_eq_true, decide_eq_true_eq] at h
  obtain ⟨hq, hn⟩ := h
  obtain ⟨_, _, _, hiff, _⟩ := Catalog.linked_inOrder_iff hc hs
  refine ⟨c, s, hc, hs, hiff.2 fun n k hk _ => hn n ?_ k ?_⟩
  · obtain ⟨hlt, _⟩ := List.getElem?_eq_some_iff.1 hk
    simpa [hq, strayKeys, List.mem_range] using hlt
  · have hm := List.mem_of_getElem? hk
    simpa [hq] using hm

theorem linked_not_inOrder :
    (∃ c final, Catalog.ofModel (strayModel false) = .ok c ∧
      (c.linked true).site? "Mid" = some final ∧ final.diagnostics = [] ∧ ¬ final.draft.InOrder) ∧
    ∃ c, Catalog.ofModel (strayModel true) = .ok c ∧ c.resolve true = none := by
  constructor
  · have h : (Catalog.ofModel (strayModel false)).toOption.any fun c =>
        ((c.linked true).site? "Mid").any fun s =>
          decide (s.diagnostics = [] ∧ s.store.Strays) := by
      decide +kernel
    obtain ⟨c, hc, h⟩ := exists_of_any h
    obtain ⟨final, hf, h⟩ := (Option.any_eq_true _ _).1 h
    obtain ⟨hd, hstray⟩ := of_decide_eq_true h
    exact ⟨c, final, hc, hf, hd, fun ho => Site.not_strays_of_inOrder ho hstray⟩
  · have h : (Catalog.ofModel (strayModel true)).toOption.any fun c => (c.resolve true).isNone := by
      decide +kernel
    obtain ⟨c, hc, h⟩ := exists_of_any h
    exact ⟨c, hc, Option.isNone_iff_eq_none.1 h⟩

end Wiring
