import Wiring.Proofs.Traces
import Wiring.Proofs.Walks

/-!
The books of an injector between operations. Nothing is left in progress, the journal lists what is
known, and a key with a provider of its own has no second node. Every way that a walk can take keeps
the books, and so does every request that is made afterwards.
-/

set_option autoImplicit false

namespace Wiring

namespace Store

variable {s s' : Store}

/-- The journal lists the keys of the memo, each of them once. -/
structure Journaled (s : Store) : Prop where
  once : s.journal.Nodup
  listed : ∀ k, k ∈ s.journal ↔ s.status? k ≠ none

namespace Journaled

theorem empty : Store.empty.Journaled where
  once := .nil
  listed k := iff_of_false List.not_mem_nil (by simp)

theorem extend (h : s.Journaled) (hs : s.Extends s') (hn : s'.journal.Nodup) : s'.Journaled := by
  obtain ⟨new, hj, hnew⟩ := hs.journal
  refine ⟨hn, fun k => ?_⟩
  have hknown := hs.known k
  rw [hj, List.mem_append, h.listed, hnew]
  grind

theorem remember (h : s.Journaled) (k : Key) (st : Status) : (s.remember k st).Journaled := by
  refine h.extend (.remember s k st) ?_
  cases hk : s.status? k with
  | some _ => simpa [Store.remember, contains_memo, hk] using h.once
  | none =>
    have hnew : k ∉ s.journal := fun hmem => (h.listed k).1 hmem hk
    simpa [Store.remember, contains_memo, hk] using h.once.concat hnew

theorem rememberAll (h : s.Journaled) (ks : List Key) (st : Status) :
    (s.rememberAll ks st).Journaled := by
  induction ks generalizing s with
  | nil => exact h
  | cons k ks ih => exact ih (h.remember k st)

theorem claim (h : s.Journaled) (r : Resolved) : (s.claim r).Journaled :=
  (h.remember _ _).rememberAll _ _

theorem release (h : s.Journaled) (r : Resolved) (st : Status) : (s.release r st).Journaled :=
  (h.rememberAll _ _).remember _ _

theorem addNode (h : s.Journaled) (n : Node) : (s.addNode n).Journaled := ⟨h.once, h.listed⟩

theorem inherit (h : s.Journaled) (k : Key) : (s.inherit k).2.Journaled := by
  rcases inherit_cases s k with ⟨i, _, hs⟩ | ⟨_, hs⟩
  · rw [hs]
    exact h
  · rw [hs]
    exact (h.addNode _).remember _ _

theorem rollback (h : s.Journaled) (hs : s.Extends s') : (s'.rollback s).Journaled := by
  refine ⟨by rw [journal_rollback hs]; exact h.once, fun k => ?_⟩
  rw [journal_rollback hs, status?_rollback hs, h.listed]
  split
  · simp_all
  · rename_i hk
    exact iff_of_true hk (hs.known k hk)

end Journaled

end Store

/-- A key that a factory makes, or that an interface brings in. -/
def Registry.Declares (r : Registry) (k : Key) : Prop :=
  (r.factory? k).isSome ∨ (r.external? k).isSome

namespace Lookup

variable {l : Lookup} {trail : List Key} {asker : Option Location} {j k : Key} {ks : List Key}
  {s s' : Store} {out : Gathered} {p : Provider} {r : Resolved} {st : Status} {i b : Nat}

theorem Gathers.journaled (h : l.Gathers trail asker ks s out s') (hs : s.Journaled) :
    s'.Journaled := by
  refine h.induct_steps (R := fun s s' => s.Journaled → s'.Journaled) ?_ ?_ ?_ ?_ ?_ ?_ ?_ hs
  · exact fun _ h => h
  · exact fun h h' hs => h' (h hs)
  · exact fun s k _ _ h => h.remember _ _
  · exact fun s k r i _ _ h => h.rememberAll _ _
  · exact fun s k r _ _ _ h => (h.rememberAll _ _).remember _ _
  · exact fun s s₁ k r _ _ h hs => (h (hs.claim r)).release _ _
  · exact fun s s₁ k r args _ _ h hs => ((h (hs.claim r)).addNode _).release _ _

theorem done_release (hr : l.resolve k = .ok r) (hs : s.status? r.key = some .inProgress)
    (hp : l.find j = .provider p) (hj : s.status? j = some (.done i)) :
    (s.release r st).status? j = some (.done i) := by
  rw [Store.status?_release, if_neg, hj]
  rintro (rfl | hm)
  · rw [hs] at hj
    cases hj
  · exact notMem_via_of_find hp hr hm

/-- From some node on, a node of a key with a provider of its own is the node that the key has. -/
def Filed (l : Lookup) (b : Nat) (s : Store) : Prop := ∀ i n p, b ≤ i → s.nodes[i]? = some n →
  l.find n.key = .provider p → s.status? n.key = some (.done i)

namespace Filed

theorem beyond (h : s.nodes.length ≤ b) : l.Filed b s := by
  intro i n p hi hn _
  rw [List.getElem?_eq_none (h.trans hi)] at hn
  cases hn

theorem release (h : l.Filed b s) (hr : l.resolve k = .ok r)
    (hs : s.status? r.key = some .inProgress) : l.Filed b (s.release r st) := by
  intro i n p hi hn hp
  rw [Store.nodes_release] at hn
  exact done_release hr hs hp (h i n p hi hn hp)

theorem build {args : List Nat} (h : l.Filed b s) (hr : l.resolve k = .ok r)
    (hs : s.status? r.key = some .inProgress) :
    l.Filed b ((s.addNode (r.node args)).release r (.done s.nodes.length)) := by
  intro i n p hi hn hp
  rw [Store.nodes_release] at hn
  rcases Store.nodes_addNode_cases hn with hold | ⟨rfl, rfl⟩
  · exact done_release hr hs hp (h i n p hi hold hp)
  · rw [Store.status?_release, if_pos (.inl rfl)]

theorem later (h : l.Filed b s) (hg : l.Gathers trail asker ks s out s')
    (h' : l.Filed s.nodes.length s') : l.Filed b s' := by
  intro i n p hi hn hp
  rcases getElem?_of_prefix hg.extends.nodes hn with hold | hnew
  · have hd := h i n p hi hold hp
    rw [hg.status?_provided hp (by simp [hd]), hd]
  · exact h' i n p hnew hn hp

end Filed

theorem Gathers.filed (h : l.Gathers trail asker ks s out s') : l.Filed s.nodes.length s' := by
  induction h with
  | nil | closing | refused | unresolved | looping => exact .beyond (Nat.le_refl _)
  | spoiled => exact .beyond (by simp)
  | known _ _ ih => exact ih
  | shared _ _ _ _ ih => simpa using ih
  -- the provider is in progress until its dependencies are gathered, so no key with a node ends
  -- with it
  | broken _ hr _ h ih =>
    rw [Store.nodes_claim] at ih
    exact ih.release hr (h.claimed hr)
  | built _ hr _ h hrest ih ih' =>
    rw [Store.nodes_claim] at ih
    exact (ih.build hr (h.claimed hr)).later hrest ih'

/-- The books of a store, with the keys that have a provider of their own on one side and the nodes
of these keys on the other. -/
structure Booked (l : Lookup) (s : Store) : Prop where
  idle : s.Idle
  journaled : s.Journaled
  rooted : l.Rooted s
  filed : l.Filed 0 s

namespace Booked

theorem empty : l.Booked .empty where
  idle := Store.idle_empty
  journaled := .empty
  rooted _ _ _ _ h := by simp at h
  filed := .beyond (Nat.le_refl _)

theorem walk (h : l.Booked s) (k : Key) : l.Booked (l.walk k s).2 := by
  have hg := walk_gathers (l := l) (k := k) h.idle
  exact ⟨hg.idle h.idle, hg.journaled h.journaled, hg.rooted h.rooted, h.filed.later hg hg.filed⟩

theorem walkAll (h : l.Booked s) (ks : List Key) : l.Booked (l.walkAll ks s) := by
  induction ks generalizing s with
  | nil => exact h
  | cons k ks ih => exact ih (h.walk k)

theorem rollback (h : l.Booked s) (k : Key) : l.Booked ((l.walk k s).2.rollback s) := by
  have hg := walk_gathers (l := l) (k := k) h.idle
  refine ⟨(hg.idle h.idle).rollback hg.extends, h.journaled.rollback hg.extends,
    h.rooted.rollback h.idle, fun i n p hi hn hp => ?_⟩
  -- a node that is kept was the node of its key before the walk, which leaves such keys alone
  rw [Store.nodes_rollback hg.extends] at hn
  have hd := h.filed i n p hi hn hp
  have hknown : s.status? n.key ≠ none := by simp [hd]
  rw [Store.status?_rollback hg.extends, if_neg hknown, hg.status?_provided hp hknown, hd]

theorem inherit (h : l.Booked s) (k : Key) : l.Booked (s.inherit k).2 := by
  refine ⟨h.idle.inherit, h.journaled.inherit k, h.rooted.inherit, ?_⟩
  rcases Store.inherit_cases s k with ⟨i, _, hs⟩ | ⟨hk, hs⟩
  · rw [hs]
    exact h.filed
  · rw [hs]
    intro i n p hi hn hp
    rw [Store.status?_remember, Store.status?_addNode]
    rcases Store.nodes_addNode_cases hn with hold | ⟨rfl, rfl⟩
    -- a value is drawn only for a key without a node, so the key of an older node is another one
    · have hd := h.filed i n p hi hold hp
      rw [if_neg, hd]
      rintro rfl
      exact hk i hd
    · rw [if_pos rfl]

theorem sole {m : Nat} (h : l.Booked s) (hp : l.find k = .provider p)
    (hk : s.status? k = some (.done i)) : (∃ n, s.nodes[m]? = some n ∧ n.key = k) ↔ m = i := by
  constructor
  · rintro ⟨n, hn, rfl⟩
    have hm := h.filed m n p (Nat.zero_le m) hn hp
    rw [hk] at hm
    cases hm
    rfl
  · rintro rfl
    exact h.rooted k p m hp hk

end Booked

theorem find_of_declares (h : l.registry.Declares k) : ∃ p, l.find k = .provider p := by
  unfold find
  split
  · exact ⟨_, rfl⟩
  · split
    · exact ⟨_, rfl⟩
    · simp_all [Registry.Declares]

/-- The books are in order: nothing is in progress, the journal lists the keys of the memo, each of
them once, and a declared key that has a node has the only node with this key. -/
structure Orderly (l : Lookup) (s : Store) : Prop where
  idle : s.Idle
  journaled : s.Journaled
  sole : ∀ k i, l.registry.Declares k → s.status? k = some (.done i) →
    ∀ j, (∃ n, s.nodes[j]? = some n ∧ n.key = k) ↔ j = i

theorem Booked.orderly (h : l.Booked s) : l.Orderly s where
  idle := h.idle
  journaled := h.journaled
  sole k i hk hi j := by
    obtain ⟨p, hp⟩ := find_of_declares hk
    exact h.sole hp hi

end Lookup

namespace Site

variable {s : Site} {q : Request} {qs : List Request}

theorem booked_serve (h : s.lookup.Booked s.store) :
    (s.serve q).lookup.Booked (s.serve q).store := by
  rw [keeps_serve.lookup]
  rcases s.serve_store q with ⟨k, _, hs | hs⟩ | ⟨k, _, hs⟩ | hs
  · rw [hs]
    exact h.walk k
  · rw [hs]
    exact h.rollback k
  · rw [hs]
    exact h.inherit k
  · rwa [hs]

theorem booked_serveAll (h : s.lookup.Booked s.store) :
    (s.serveAll qs).lookup.Booked (s.serveAll qs).store := by
  induction qs generalizing s with
  | nil => exact h
  | cons q qs ih => exact ih (booked_serve h)

end Site

namespace Hierarchy

variable {h : Hierarchy} {log : List Move}

def performAll (h : Hierarchy) (log : List Move) : Hierarchy := log.foldl perform h

theorem Follows.performAll : Follows h log (h.performAll log) := by
  induction log generalizing h with
  | nil => exact .refl
  | cons m log ih => exact .cons ih

def Booked (h : Hierarchy) : Prop := ∀ id s, h.site? id = some s → s.lookup.Booked s.store

theorem Booked.perform (hb : h.Booked) (m : Move) : (h.perform m).Booked := by
  intro id s' hs'
  rw [site?_perform] at hs'
  obtain ⟨s, hs, rfl⟩ := Option.map_eq_some_iff.1 hs'
  exact Site.booked_serveAll (hb id s hs)

theorem Booked.performAll (hb : h.Booked) (log : List Move) : (h.performAll log).Booked := by
  induction log generalizing h with
  | nil => exact hb
  | cons m log ih => exact ih (hb.perform m)

end Hierarchy

namespace Catalog

variable {c : Catalog} {autoBinding : Bool}

theorem booked_built : (c.built autoBinding).Booked := fun _ _ hs =>
  (store_built hs .empty fun _ h => h.walk _).2

/-- What the moves of a batch leave is what its injectors are finished from. -/
theorem sites_performAll (hc : c.Sound) :
    ((c.built autoBinding).performAll (c.moves autoBinding)).sites =
      Hierarchy.link c (c.sites autoBinding) := by
  refine Table.ext_get? fun id => ?_
  have hlinked : (Hierarchy.link c (c.sites autoBinding)).get? id = _ := get?_linked hc
  rw [hlinked, Hierarchy.Follows.performAll]
  rfl

end Catalog

/-- In a batch that is not cancelled the books of every injector are in order after each of the
walks that build it, and after each of the moves that settle the hierarchy; for they are so after
any walks and any moves. -/
theorem Model.books_orderly {m : Model} {c : Catalog} {s : Settings} {course : Course} {t : Token}
    (hm : Catalog.ofModel m = .ok c)
    (hgoes : course.abandons (s.batchToken course.start t) = false) :
    (∀ id i site, c.injectors.get? id = some i → Site.start c s.autoBinding i = .ok site →
      (∀ ks, site.lookup.Orderly (site.lookup.walkAll ks .empty)) ∧
      site.buildLocal.store = site.lookup.walkAll site.roots .empty ∧
      (c.built s.autoBinding).site? id = some site.buildLocal) ∧
    (∀ log id site, ((c.built s.autoBinding).performAll log).site? id = some site →
      site.lookup.Orderly site.store) ∧
    m.resolveDuring s course t =
      .ok (Resolution.ofSites
        ((c.built s.autoBinding).performAll (c.moves s.autoBinding)).sites) := by
  refine ⟨fun id i site hi hs => ⟨fun ks => ?_, ?_, ?_⟩, fun log id site hs => ?_, ?_⟩
  · exact (Lookup.Booked.empty.walkAll ks).orderly
  · obtain ⟨registry, rfl⟩ := Site.start_ok hs
    exact Site.store_buildLocal _
  · exact Catalog.site?_built.2 ⟨i, site, hi, hs, rfl⟩
  · exact (Catalog.booked_built.performAll log id site hs).orderly
  · rw [Catalog.sites_performAll (Catalog.sound_of_ofModel hm)]
    simp only [resolveDuring, hm, Catalog.resolveDuring_eq, hgoes]
    rfl

/-- `K` is left with the number of a node that has been taken back, and `N` gets a node with this
number. `N` has no other node, though its node comes to need itself, so that nothing can be
finished. -/
theorem books_orderly_stray : ∃ c site, Catalog.ofModel (strayModel true) = .ok c ∧
    ((c.built true).performAll (c.moves true)).site? "Mid" = some site ∧
    site.store.status? ⟨"K", none⟩ = some (.done 2) ∧
    site.store.status? ⟨"N", none⟩ = some (.done 2) ∧
    (∀ j, (∃ n, site.store.nodes[j]? = some n ∧ n.key = ⟨"N", none⟩) ↔ j = 2) ∧
    site.store.Idle ∧ site.store.Journaled ∧
    (strayModel true).resolveDuring {} (.still {} 0 (Nat.zero_le _)) ⟨0, none⟩ = .ok none := by
  have h : (Catalog.ofModel (strayModel true)).toOption.any fun c =>
      let settled := (c.built true).performAll (c.moves true)
      decide (Resolution.ofSites settled.sites = none) && (settled.site? "Mid").any fun site =>
        decide (site.store.status? ⟨"K", none⟩ = some (.done 2)) &&
        decide (site.store.status? ⟨"N", none⟩ = some (.done 2)) &&
        (site.lookup.registry.factory? ⟨"N", none⟩).isSome := by
    decide +kernel
  obtain ⟨c, hc, h⟩ := exists_of_any h
  obtain ⟨hnone, h⟩ := Bool.and_eq_true_iff.1 h
  obtain ⟨site, hs, h⟩ := (Option.any_eq_true _ _).1 h
  obtain ⟨⟨hk, hn⟩, hfactory⟩ : (_ ∧ _) ∧ _ := by
    simpa only [Bool.and_eq_true, decide_eq_true_eq] using h
  have hgoes : (Course.still {} 0 (Nat.zero_le _)).abandons
      (({} : Settings).batchToken 0 ⟨0, none⟩) = false := by
    decide
  obtain ⟨_, hbooks, hbatch⟩ := Model.books_orderly (s := {}) hc hgoes
  have ho := hbooks _ _ _ hs
  exact ⟨c, site, hc, hs, hk, hn, ho.sole _ _ (.inl hfactory) hn, ho.idle, ho.journaled,
    hbatch.trans (congrArg _ (of_decide_eq_true hnone))⟩

end Wiring
