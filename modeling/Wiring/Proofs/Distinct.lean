import Wiring.Proofs.Outcomes
import Wiring.Proofs.Slots
import Wiring.Proofs.Wired

/-!
No value is made or drawn twice: the nodes of an injector have different keys. A key that other keys
may lead through can lose its node, but it is passed on only once; any other key keeps the node that
it has.
-/

set_option autoImplicit false

namespace Wiring

namespace Lookup

/-- A key that a request passes on its way to a provider. -/
def Aliased (l : Lookup) (j : Key) : Prop := ∃ k r, l.resolve k = .ok r ∧ j ∈ r.via

/-- Different nodes have different keys. A node of an aliased key has been drawn to be passed on,
and any other is the node of its key. -/
structure Distinct (l : Lookup) (past : List Request) (s : Store) : Prop where
  nodup : (s.nodes.map (·.key)).Nodup
  passed : ∀ n ∈ s.nodes, l.Aliased n.key → .pass n.key ∈ past
  settled : ∀ n ∈ s.nodes, ¬ l.Aliased n.key → ∃ i, s.status? n.key = some (.done i)

variable {l : Lookup} {trail : List Key} {asker : Option Location} {j k : Key} {ks : List Key}
  {s s' s₁ : Store} {out : Gathered} {r : Resolved} {i : Nat} {st : Status} {p : Provider}
  {past past' : List Request}

theorem not_aliased_of_find (h : l.find j = .provider p) : ¬ l.Aliased j :=
  fun ⟨_, _, hr, hm⟩ => notMem_via_of_find h hr hm

theorem not_aliased_of_error {e : BindingError} (h : l.resolve j = .error e) : ¬ l.Aliased j := by
  rintro ⟨k, r, hr, hm⟩
  obtain ⟨via, hv⟩ := resolve_via hr hm
  rw [h] at hv
  cases hv

theorem notMem_via (h : ¬ l.Aliased j) (hr : l.resolve k = .ok r) : j ∉ r.via :=
  fun hm => h ⟨k, r, hr, hm⟩

namespace Distinct

theorem empty : l.Distinct past .empty :=
  ⟨.nil, by simp, by simp⟩

theorem keep (h : l.Distinct past s) (hn : s'.nodes = s.nodes)
    (hs : ∀ j i, ¬ l.Aliased j → s.status? j = some (.done i) → s'.status? j = some (.done i)) :
    l.Distinct past s' := by
  refine ⟨by rw [hn]; exact h.nodup, by rw [hn]; exact h.passed, fun n hm hj => ?_⟩
  rw [hn] at hm
  obtain ⟨i, hi⟩ := h.settled n hm hj
  exact ⟨i, hs _ i hj hi⟩

theorem fail (h : l.Distinct past s) (hk : s.status? k = none) :
    l.Distinct past (s.remember k .failed) := by
  refine h.keep rfl fun j i _ hj => ?_
  rw [Store.status?_remember, if_neg, hj]
  rintro rfl
  rw [hk] at hj
  cases hj

theorem rememberAll (h : l.Distinct past s) (hr : l.resolve k = .ok r) :
    l.Distinct past (s.rememberAll r.via st) := by
  refine h.keep Store.nodes_rememberAll fun j i hj hs => ?_
  rw [Store.status?_rememberAll, if_neg (notMem_via hj hr), hs]

theorem claim (h : l.Distinct past s) (hr : l.resolve k = .ok r) (hs : s.status? r.key = none) :
    l.Distinct past (s.claim r) := by
  refine h.keep Store.nodes_claim fun j i hj hd => ?_
  rw [Store.status?_claim, if_neg, hd]
  rintro (rfl | hm)
  · rw [hs] at hd
    cases hd
  · exact notMem_via hj hr hm

theorem release (h : l.Distinct past s) (hr : l.resolve k = .ok r)
    (hs : s.status? r.key = some .inProgress) : l.Distinct past (s.release r st) := by
  refine h.keep Store.nodes_release fun j i hj hd => ?_
  rw [Store.status?_release, if_neg, hd]
  rintro (rfl | hm)
  · rw [hs] at hd
    cases hd
  · exact notMem_via hj hr hm

theorem fresh (h : l.Distinct past s) (hp : l.Aliased k → .pass k ∉ past)
    (hs : ∀ i, s.status? k ≠ some (.done i)) : k ∉ s.nodes.map (·.key) := by
  intro hm
  obtain ⟨n, hn, rfl⟩ := List.mem_map.1 hm
  by_cases ha : l.Aliased n.key
  · exact hp ha (h.passed n hn ha)
  · obtain ⟨i, hi⟩ := h.settled n hn ha
    exact hs i hi

theorem add {n : Node} (h : l.Distinct past s) (hnew : n.key ∉ s.nodes.map (·.key))
    (hpast : past ⊆ past') (hp : l.Aliased n.key → .pass n.key ∈ past')
    (hn : s'.nodes = s.nodes ++ [n])
    (hs : ∀ j i, ¬ l.Aliased j → s.status? j = some (.done i) →
      ∃ i', s'.status? j = some (.done i'))
    (hi : ∃ i, s'.status? n.key = some (.done i)) : l.Distinct past' s' := by
  refine ⟨?_, fun m hm ha => ?_, fun m hm ha => ?_⟩
  · rw [hn, List.map_append, List.map_singleton, List.nodup_append]
    refine ⟨h.nodup, List.nodup_singleton _, ?_⟩
    rintro j hj _ hk rfl
    exact hnew (List.mem_singleton.1 hk ▸ hj)
  · rw [hn] at hm
    rcases List.mem_append.1 hm with hm | hm
    · exact hpast (h.passed m hm ha)
    · obtain rfl := List.mem_singleton.1 hm
      exact hp ha
  · rw [hn] at hm
    rcases List.mem_append.1 hm with hm | hm
    · obtain ⟨i, hi⟩ := h.settled m hm ha
      exact hs _ i ha hi
    · obtain rfl := List.mem_singleton.1 hm
      exact hi

theorem build {args : List Nat} (h : l.Distinct past s) (hr : l.resolve k = .ok r)
    (hs : s.status? r.key = some .inProgress) :
    l.Distinct past ((s.addNode (r.node args)).release r (.done s.nodes.length)) := by
  have hown : ¬ l.Aliased r.key := not_aliased_of_find (find_key hr)
  refine h.add (n := r.node args) ?_ (List.Subset.refl _) (fun ha => absurd ha hown) (by simp) ?_ ?_
  · exact h.fresh (k := r.key) (fun ha => absurd ha hown) (by simp [hs])
  · intro j i hj hd
    rw [Store.status?_release]
    split
    · exact ⟨_, rfl⟩
    · exact ⟨i, hd⟩
  · exact ⟨_, by rw [Store.status?_release]; exact if_pos (.inl rfl)⟩

end Distinct

theorem Gathers.distinct (h : l.Gathers trail asker ks s out s') (hs : l.Distinct past s) :
    l.Distinct past s' := by
  induction h with
  | nil | closing | refused => exact hs
  | known _ _ ih => exact ih hs
  | unresolved hk _ => exact hs.fail hk
  | looping hk _ _ => exact hs.fail hk
  | @spoiled _ _ k _ s r hk hr _ =>
    have hvia : l.Distinct past (s.rememberAll r.via .failed) := hs.rememberAll hr
    refine hvia.keep rfl fun j i hj hd => ?_
    rw [Store.status?_remember, if_neg, hd]
    rintro rfl
    rw [Store.status?_rememberAll, if_neg (notMem_via hj hr), hk] at hd
    cases hd
  | shared _ hr _ _ ih => exact ih (hs.rememberAll hr)
  | broken _ hr hst h ih => exact (ih (hs.claim hr hst)).release hr (h.claimed hr)
  | built _ hr hst h _ ih ih' => exact ih' ((ih (hs.claim hr hst)).build hr (h.claimed hr))

namespace Distinct

theorem walk (h : l.Distinct past s) (hi : s.Idle) : l.Distinct past (l.walk k s).2 :=
  (walk_gathers hi).distinct h

/-- An attempt that is taken back leaves no node behind and takes none from a key that is not
aliased. -/
theorem rollback (h : l.Distinct past s) (hi : s.Idle) :
    l.Distinct past ((l.walk k s).2.rollback s) := by
  have hg := walk_gathers (l := l) (k := k) hi
  refine h.keep (Store.nodes_rollback hg.extends) fun j i hj hd => ?_
  have hne : s.status? j ≠ none := by simp [hd]
  rw [Store.status?_rollback hg.extends, if_neg hne, hg.status?_settled (notMem_via hj) hne, hd]

theorem inherit (h : l.Distinct past s) (hold : l.Aliased k → .pass k ∉ past) (hpast : past ⊆ past')
    (hnew : l.Aliased k → .pass k ∈ past') : l.Distinct past' (s.inherit k).2 := by
  rcases Store.inherit_cases s k with ⟨i, _, hs⟩ | ⟨hk, hs⟩
  · rw [hs]
    exact ⟨h.nodup, fun n hn ha => hpast (h.passed n hn ha), h.settled⟩
  · rw [hs]
    refine h.add (n := ⟨k, .inherited, [], none⟩) (h.fresh hold hk) hpast hnew rfl
      (fun j i _ hd => ?_) ?_
    · rw [Store.status?_remember]
      split
      · exact ⟨_, rfl⟩
      · exact ⟨i, hd⟩
    · exact ⟨_, by rw [Store.status?_remember]; exact if_pos rfl⟩

end Distinct

end Lookup

namespace Site

variable {s : Site} {q : Request} {qs past : List Request}

/-- Requests leave the nodes with different keys, as long as an aliased key is passed on once at
most and only keys without a provider are drawn for arguments. -/
theorem distinct_serve (h : s.lookup.Distinct past s.store) (hi : s.store.Idle)
    (hpass : ∀ k, q = .pass k → .pass k ∉ past)
    (hsat : ∀ r, q = .satisfy r → ∃ e, s.lookup.resolve r.key = .error e) :
    s.lookup.Distinct (past ++ [q]) (s.serve q).store := by
  have hpast : past ⊆ past ++ [q] := List.subset_append_left _ _
  have grow : ∀ {t : Store}, s.lookup.Distinct past t → s.lookup.Distinct (past ++ [q]) t :=
    fun ht => ⟨ht.nodup, fun n hn ha => hpast (ht.passed n hn ha), ht.settled⟩
  cases q with
  | offer k =>
    simp only [Site.serve]
    rcases s.exportKey_cases k with ⟨i, _, hs⟩ | ⟨e, _, hs⟩
    · rw [hs]
      exact grow (h.walk hi)
    · rw [hs]
      exact grow (h.rollback hi)
  | pass k => exact h.inherit (fun _ => hpass k rfl) hpast fun _ => by simp
  | satisfy r =>
    obtain ⟨e, he⟩ := hsat r rfl
    have hown := Lookup.not_aliased_of_error he
    exact h.inherit (fun ha => absurd ha hown) hpast fun ha => absurd ha hown
  | refuse r =>
    simp only [Site.serve, Site.refuse]
    split <;> exact grow h

theorem distinct_take (h : s.lookup.Distinct [] s.store) (hi : s.store.Idle)
    (honce : Request.Once qs)
    (hsat : ∀ r, .satisfy r ∈ qs → ∃ e, s.lookup.resolve r.key = .error e) (n : Nat) :
    s.lookup.Distinct (qs.take n) (s.serveAll (qs.take n)).store ∧
    (s.serveAll (qs.take n)).store.Idle := by
  induction n with
  | zero => exact ⟨h, hi⟩
  | succ n ih =>
    obtain ⟨hd, hidle⟩ := ih
    have hlookup : (s.serveAll (qs.take n)).lookup = s.lookup := keeps_serveAll.lookup
    rw [serveAll_take_succ, List.take_add_one]
    cases hq : qs[n]? with
    | none => simpa using ⟨hd, hidle⟩
    | some q =>
      rw [← hlookup] at hd hsat ⊢
      refine ⟨distinct_serve hd hidle (fun k hk hm => ?_) fun r hr => ?_, idle_serve hidle⟩
      · exact (honce.after hq hm).2 hk
      · exact hsat r (hr ▸ List.mem_of_getElem? hq)

end Site

namespace Catalog

variable {c : Catalog} {autoBinding : Bool} {id : InjectorId} {s : Site} {res : Resolution}
  {g : Graph}

theorem distinct_built (hs : (c.built autoBinding).site? id = some s) :
    s.lookup.Distinct [] s.store ∧ s.store.Idle :=
  (store_built hs .empty fun hi hd => hd.walk hi).symm

theorem graph_distinct (hc : c.Sound) (hr : c.resolve autoBinding = some res)
    (hg : res.graph? id = some g) :
    ∃ s, (c.linked autoBinding).site? id = some s ∧ s.draft.freeze s.id = some g ∧
      (g.nodes.map (·.key)).Nodup := by
  obtain ⟨s, hs, hd, hfreeze⟩ := graph?_linked hc hr hg
  obtain ⟨hdistinct, hi⟩ := distinct_built hs
  refine ⟨_, by rw [site?_linked hc, hs]; rfl, hfreeze, ?_⟩
  have hfinal := (Site.distinct_take hdistinct hi (requests_pairwise hc autoBinding id)
    (fun r hr => satisfy_unresolved hc hs hd hr) (c.requests autoBinding id).length).1
  rw [List.take_length] at hfinal
  rw [(Draft.freeze_some hfreeze).1]
  exact hfinal.nodup

end Catalog

namespace Model

variable {m : Model} {s : Settings} {course : Course} {t : Token} {res : Resolution} {c : Catalog}
  {id : InjectorId} {g : Graph}

theorem resolve_of_graph? (h : m.resolveDuring s course t = .ok (some res))
    (hg : res.graph? id = some g) :
    ∃ c, Catalog.ofModel m = .ok c ∧ c.resolve s.autoBinding = some res := by
  obtain ⟨c, hc, hres⟩ := resolveDuring_eq_some h
  split at hres
  · subst hres
    simp [Resolution.graph?, Resolution.allCancelled] at hg
  · exact ⟨c, hc, hres⟩

/-- In every graph of a batch the nodes have different keys, the scoped ones have the slots, in
their order, and what has a slot is made there and nowhere else. -/
theorem graph_makes_once (h : m.resolveDuring s course t = .ok (some res))
    (hg : res.graph? id = some g) :
    (g.nodes.map (·.key)).Nodup ∧ g.slots.map (·.slot) = List.range g.slots.length ∧
      g.slots.map (·.node) = Node.scopedIds g.nodes ∧
      ∃ c site, Catalog.ofModel m = .ok c ∧ (c.linked s.autoBinding).site? id = some site ∧
        site.draft.freeze site.id = some g ∧ ∀ slot ∈ g.slots, g.MadeOnce site.draft slot := by
  obtain ⟨c, hc, hr⟩ := resolve_of_graph? h hg
  obtain ⟨site, hs, hfreeze, hnodup⟩ := Catalog.graph_distinct (Catalog.sound_of_ofModel hc) hr hg
  obtain ⟨es, hes⟩ := Graph.exists_expressed hfreeze
  refine ⟨hnodup, ?_, ?_, c, site, hc, hs, hfreeze, fun slot hslot => hes.madeOnce hslot⟩
  · rw [hes.slots]
    exact hes.describes.slotIds
  · rw [hes.slots]
    exact hes.describes.slotNodes

end Model

/-- `Mid` makes `D` once, for `Leaf` and for `F`. It passes `K` on from `Root`, and what it makes
for `E` is taken back. -/
def sharedModel : Model := .lineage
  { id := "R", factories := [.ofKey "make_k" ⟨"K", none⟩, .ofKey "make_e" ⟨"E", none⟩] }
  { id := "M"
    factories := [(Factory.ofKey "make_d" ⟨"D", none⟩).inScope,
      ((Factory.ofKey "make_f" ⟨"F", none⟩).parameter ⟨"D", none⟩).inScope,
      .ofKey "make_g" ⟨"G", none⟩,
      ((Factory.ofKey "make_e" ⟨"E", none⟩).parameter ⟨"G", none⟩).parameter ⟨"X", none⟩] }
  [⟨"D", none⟩, ⟨"K", none⟩, ⟨"E", none⟩, ⟨"F", none⟩]

theorem graph_makes_once_mid :
    ∃ res g,
      sharedModel.resolveDuring {} (.still {} 0 (Nat.zero_le _)) ⟨0, none⟩ = .ok (some res) ∧
      res.graph? "Mid" = some g ∧ g.slots.length = 2 ∧ (g.nodes.map (·.key)).Nodup ∧
      g.slots.map (·.node) = Node.scopedIds g.nodes := by
  have h :
      (sharedModel.resolveDuring {} (.still {} 0 (Nat.zero_le _)) ⟨0, none⟩).toOption.any fun out =>
      out.any fun res => (res.graph? "Mid").any fun g => decide (g.slots.length = 2) := by
    decide +kernel
  obtain ⟨out, hout, h⟩ := exists_of_any h
  obtain ⟨res, rfl, h⟩ := (Option.any_eq_true _ out).1 h
  obtain ⟨g, hg, hlen⟩ := (Option.any_eq_true _ (res.graph? "Mid")).1 h
  obtain ⟨hnodup, _, hslots, _⟩ := Model.graph_makes_once hout hg
  exact ⟨res, g, hout, hg, of_decide_eq_true hlen, hnodup, hslots⟩

end Wiring
