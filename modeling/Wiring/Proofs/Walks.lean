import Wiring.Proofs.Local
import Wiring.Proofs.Reaching

/-!
The walks that build an injector from its own bindings. Each of them comes to an end, and it comes
to the node of its root exactly if the root can be derived. What it finds, and why it finds nothing,
is there to be read from the store.
-/

set_option autoImplicit false

namespace Wiring

open Relation

namespace Lookup

variable {l : Lookup} {trail : List Key} {asker : Option Location} {j k : Key} {ks : List Key}
  {s s' : Store} {out : Gathered} {e : Option Report} {r : Resolved} {st : Status} {n : Node}

/-- A key on which a gathering stops has failed, or its construction has begun. -/
def Stuck (s : Store) (k : Key) : Prop :=
  s.status? k = some .failed ∨ s.status? k = some .inProgress

theorem Stuck.known (h : Stuck s k) : s.status? k ≠ none := by
  rcases h with h | h <;> simp [h]

theorem Gathers.stuck (h : l.Gathers trail asker ks s out s') (he : out = .error e) :
    ∃ k ∈ ks, Stuck s' k := by
  have later : ∀ {k : Key} {ks : List Key} {s' : Store}, (∃ d ∈ ks, Stuck s' d) →
      ∃ d ∈ k :: ks, Stuck s' d :=
    fun ⟨d, hd, hst⟩ => ⟨d, List.mem_cons_of_mem _ hd, hst⟩
  induction h generalizing e with
  | nil => cases he
  | known _ _ ih | shared _ _ _ _ ih | built _ _ _ _ _ _ ih =>
    exact later (ih (Gathered.map_eq_error_iff.1 he))
  | closing hk => exact ⟨_, List.mem_cons_self, .inr hk⟩
  | refused hk => exact ⟨_, List.mem_cons_self, .inl hk⟩
  | unresolved | looping | spoiled =>
    exact ⟨_, List.mem_cons_self, .inl (by rw [Store.status?_remember, if_pos rfl])⟩
  | broken _ hr =>
    refine ⟨_, List.mem_cons_self, .inl ?_⟩
    rw [Store.status?_release, if_pos]
    rcases mem_via_or_eq_key hr with hm | ⟨hm, _⟩
    · exact .inr hm
    · exact .inl hm

theorem find_ne_provider (hk : s.status? k = none) (hr : l.resolve k = .ok r)
    (hs : s.status? r.key = some st) (p : Provider) : l.find k ≠ .provider p := by
  intro hp
  cases (resolve_of_find hp).symm.trans hr
  rw [hk] at hs
  cases hs

/-- A provider that failed needs a key that is known, and that cannot be derived. -/
def Blames (l : Lookup) (s : Store) : Prop :=
  ∀ j p, l.find j = .provider p → s.status? j = some .failed →
  ∃ d ∈ p.dependencies, s.status? d ≠ none ∧ ¬ l.Derivable d

namespace Blames

theorem empty : l.Blames .empty := fun _ _ _ h => by simp at h

theorem extend (h : l.Blames s) (hs : s.Extends s')
    (hfailed : ∀ j p, l.find j = .provider p → s'.status? j = some .failed →
      s.status? j = some .failed) : l.Blames s' := by
  intro j p hp hj
  obtain ⟨d, hd, hknown, hnot⟩ := h j p hp (hfailed j p hp hj)
  exact ⟨d, hd, hs.known d hknown, hnot⟩

theorem fail (h : l.Blames s) (hk : ∀ p, l.find k ≠ .provider p) :
    l.Blames (s.remember k .failed) := by
  refine h.extend (.remember _ _ _) fun j p hp hj => ?_
  rw [Store.status?_remember, if_neg] at hj
  · exact hj
  · rintro rfl
    exact hk p hp

theorem pass (h : l.Blames s) (hr : l.resolve k = .ok r) : l.Blames (s.rememberAll r.via st) := by
  refine h.extend (.rememberAll _ _ _) fun j p hp hj => ?_
  rwa [Store.status?_rememberAll, if_neg (notMem_via_of_find hp hr)] at hj

theorem claim (h : l.Blames s) : l.Blames (s.claim r) :=
  h.extend (.claim _ _) fun _ _ _ hj => Store.status?_of_claim hj (by simp)

theorem make {i : Nat} (h : l.Blames s) : l.Blames ((s.addNode n).release r (.done i)) :=
  h.extend ((Store.Extends.addNode _ _).trans (.release _ _ _)) fun _ _ _ hj =>
    (Store.status?_of_release hj (by simp)).2

theorem broke {d : Key} (h : l.Blames s) (hr : l.resolve k = .ok r)
    (hd : d ∈ r.provider.dependencies) (hknown : s.status? d ≠ none) (hnot : ¬ l.Derivable d) :
    l.Blames (s.release r .failed) := by
  have hext := Store.Extends.release s r .failed
  intro j p hp hj
  by_cases hkey : j = r.key
  · subst hkey
    cases (find_key hr).symm.trans hp
    exact ⟨d, hd, hext.known d hknown, hnot⟩
  · have hout : ¬ (j = r.key ∨ j ∈ r.via) := by
      rintro (hj | hj)
      · exact hkey hj
      · exact notMem_via_of_find hp hr hj
    rw [Store.status?_release, if_neg hout] at hj
    obtain ⟨d', hd', hknown', hnot'⟩ := h j p hp hj
    exact ⟨d', hd', hext.known d' hknown', hnot'⟩

end Blames

theorem Gathers.blames (h : l.Gathers trail asker ks s out s') (hw : l.Awaited trail ks s)
    (hf : l.FailsRightly s) (hb : l.Blames s) : l.Blames s' := by
  induction h with
  | nil | closing | refused => exact hb
  | known _ _ ih => exact ih (hw.tail fun _ h => h) hf hb
  | unresolved _ hr =>
    refine hb.fail fun p hp => ?_
    rw [resolve_of_find hp] at hr
    cases hr
  | looping hk hr hs => exact hb.fail (find_ne_provider hk hr hs)
  | spoiled hk hr hs => exact (hb.pass hr).fail (find_ne_provider hk hr hs)
  | shared _ hr _ _ ih =>
    exact ih (hw.tail fun _ hj => Store.status?_of_rememberAll hj (by simp))
      (hf.rememberAll (by simp)) (hb.pass hr)
  | broken _ hr _ h ih =>
    have hclaim := hw.claim hr
    have hf₁ := (h.not_derivable hclaim hf.claim).1
    obtain ⟨d, hd, hst⟩ := h.stuck rfl
    refine (ih hclaim hf.claim hb.claim).broke hr hd hst.known ?_
    rcases hst with hst | hst
    · exact hf₁ d hst
    · obtain ⟨r', hr', hm⟩ := hclaim.inProgress d (h.inProgress_before hst)
      exact not_derivable_of_needs_key hr' (hclaim.needed _ hm d hd)
  | built _ hr _ h _ ih ih' =>
    have hf₁ := (h.not_derivable (hw.claim hr) hf.claim).1
    exact ih' (hw.tail fun _ hj => Store.status?_of_visit hj (by simp) h.inProgress_before)
      (hf₁.addNode.release hr (by simp)) (ih (hw.claim hr) hf.claim hb.claim).make

/-- All that a store knows is right, and for every failure there is a reason. -/
structure Exact (l : Lookup) (s : Store) : Prop where
  own : l.Local s
  order : s.InOrder
  fails : l.FailsRightly s
  makes : l.MakesRightly s
  blames : l.Blames s

namespace Exact

theorem empty : l.Exact .empty := ⟨.empty, .empty, .empty, .empty, .empty⟩

theorem walk (h : l.Exact s) (k : Key) : l.Exact (l.walk k s).2 where
  own := h.own.walk
  order := (walk_inOrder h.order h.own.threaded.idle).1
  fails := (walk_not_derivable h.own.threaded.idle h.fails).1
  makes := (walk_derivable h.own.threaded.idle h.makes).1
  blames := (walk_gathers h.own.threaded.idle).blames
    ⟨fun j hj => absurd hj (h.own.threaded.idle j), by simp⟩
    h.fails h.blames

theorem failed_of_spoilt (h : l.Exact s) (hk : l.Spoilt s k) :
    ∃ j, ReflTransGen l.Needs k j ∧ s.status? j = some .failed := by
  rcases hk with hk | ⟨r, hr, hkey⟩
  · exact ⟨k, .refl, hk⟩
  · obtain ⟨d, hd, hknown, hnot⟩ := h.blames _ _ (find_key hr) hkey
    refine ⟨d, .single ⟨r, hr, hd⟩, ?_⟩
    cases hst : s.status? d with
    | none => exact absurd hst hknown
    | some st =>
      cases st with
      | inProgress => exact absurd hst (h.own.threaded.idle d)
      | done i => exact absurd (h.makes d i hst) hnot
      | failed => rfl

end Exact

/-- The node that a key is listed with, made for the key that its request comes to. -/
def NodeOf (l : Lookup) (s : Store) (k : Key) (i : Nat) : Prop :=
  s.status? k = some (.done i) ∧ ∃ r n, l.resolve k = .ok r ∧ s.nodes[i]? = some n ∧ n.key = r.key

/-- What a walk to a key does. It comes to an end; it finds a node if there is one to be found, made
by the provider of the key from the nodes of what the provider needs; and where it says nothing,
something has failed before. -/
structure WalksRightly (l : Lookup) (k : Key) (s : Store) : Prop where
  ends : l.Gathers [] none [k] s (l.walk k s).1.gathered (l.walk k s).2
  node_iff : (∃ i, (l.walk k s).1 = .node i) ↔ l.Derivable k
  node : ∀ i, (l.walk k s).1 = .node i → (l.walk k s).2.status? k = some (.done i) ∧
    ∃ r n, l.resolve k = .ok r ∧ (l.walk k s).2.nodes[i]? = some n ∧ n.key = r.key ∧
      n.binding = r.provider.binding ∧ (∀ j ∈ n.dependencies, j < i) ∧
      List.Forall₂ (l.NodeOf (l.walk k s).2) r.provider.dependencies n.dependencies
  keeps : s.nodes <+: (l.walk k s).2.nodes
  silent : (l.walk k s).1 = .failed none →
    ∃ j, ReflTransGen l.Needs k j ∧ s.status? j = some .failed

theorem Exact.node_iff (h : l.Exact s) : (∃ i, (l.walk k s).1 = .node i) ↔ l.Derivable k := by
  constructor
  · rintro ⟨i, hi⟩
    exact (walk_derivable h.own.threaded.idle h.makes).2 i hi
  · intro hk
    cases ho : (l.walk k s).1 with
    | node i => exact ⟨i, rfl⟩
    | failed e => exact absurd hk ((walk_not_derivable h.own.threaded.idle h.fails).2 e ho)

theorem Exact.walksRightly (h : l.Exact s) (k : Key) : l.WalksRightly k s where
  ends := walk_gathers h.own.threaded.idle
  node_iff := h.node_iff
  node i hi := by
    have hwalk := h.walk k
    have hk := (h.own.threaded.walk h.own.steady).2 i hi
    obtain ⟨r, n, hr, hn, hkey⟩ := hwalk.own.node hk
    have hmem := List.mem_of_getElem? hn
    obtain ⟨p, hp, hbinding, hdeps⟩ := hwalk.own.threaded.made n hmem (hwalk.own.own n hmem)
    rw [hkey, find_key hr] at hp
    cases hp
    exact ⟨hk, r, n, hr, hn, hkey, hbinding, hwalk.order.nodes i n hn,
      hdeps.imp fun d j hd => ⟨hd, hwalk.own.node hd⟩⟩
  keeps := (walk_gathers h.own.threaded.idle).extends.nodes
  silent hk := by
    obtain ⟨d, hd, j, hj, hst⟩ :=
      (walk_gathers (l := l) (k := k) h.own.threaded.idle).spoilt (by rw [hk]; rfl)
    obtain rfl := List.mem_singleton.1 hd
    obtain ⟨j', hj', hfailed⟩ := h.failed_of_spoilt hst
    exact ⟨j', hj.trans hj', hfailed⟩

def walkAll (l : Lookup) (ks : List Key) (s : Store) : Store :=
  ks.foldl (fun s k => (l.walk k s).2) s

theorem walkAll_append {ks' : List Key} :
    l.walkAll (ks ++ ks') s = l.walkAll ks' (l.walkAll ks s) :=
  List.foldl_append

theorem Exact.walkAll (h : l.Exact s) (ks : List Key) : l.Exact (l.walkAll ks s) := by
  induction ks generalizing s with
  | nil => exact h
  | cons k ks ih => exact ih (h.walk k)

def completing (l : Lookup) (k : Key) : List Key :=
  ((l.completion k).toOption.map Completion.dependencies).getD []

end Lookup

namespace Site

variable {s : Site} {requestedBy : Option Key} {location : Option Location} {missing : List Key}

/-- The keys that an injector walks to while it is built: those of its provider methods, then what
its builder methods need, then what its children expect. -/
def roots (s : Site) : List Key :=
  s.injector.providers.map (·.key) ++ s.injector.builders.flatMap
    (fun m => s.lookup.completing m.key) ++
    s.injector.children.flatMap fun a => requiredBy s.lookup.catalog a.injector

theorem store_addProvider (s : Site) (m : ProviderMethod) :
    (s.addProvider m).store = s.lookup.walkAll [m.key] s.store := by
  unfold addProvider
  dsimp only
  split <;> rfl

theorem store_requestAll (ks : List Key) :
    (s.requestAll requestedBy location ks).2.store = s.lookup.walkAll ks s.store := by
  induction ks generalizing s with
  | nil => rfl
  | cons k ks ih =>
    change ((s.request requestedBy location k).2.requestAll requestedBy location ks).2.store = _
    rw [ih]
    rfl

theorem store_addBuilder (s : Site) (m : BuilderMethod) :
    (s.addBuilder m).store = s.lookup.walkAll (s.lookup.completing m.key) s.store := by
  unfold addBuilder Lookup.completing
  cases s.lookup.completion m.key with
  | error e => rfl
  | ok completion =>
    dsimp only
    split <;> exact store_requestAll _

theorem store_addArguments (missing : List Key) (location : Option Location) (ks : List Key) :
    (s.addArguments missing location ks).2.2.store = s.lookup.walkAll ks s.store := by
  induction ks generalizing s missing with
  | nil => rfl
  | cons k ks ih =>
    change ((s.addArgument missing location k).2.2.addArguments _ location ks).2.2.store = _
    rw [ih, (Grows.addArgument s missing location k).lookup, store_addArgument]
    rfl

theorem store_addChildren (as : List ChildAccessor) : (s.addChildren missing as).store =
    s.lookup.walkAll (as.flatMap fun a => requiredBy s.lookup.catalog a.injector) s.store := by
  induction as generalizing s missing with
  | nil => rfl
  | cons a as ih =>
    have hlookup :=
      (Grows.addArguments s missing a.location (requiredBy s.lookup.catalog a.injector)).lookup
    have hstore :=
      store_addArguments (s := s) missing a.location (requiredBy s.lookup.catalog a.injector)
    refine ih.trans ?_
    rw [List.flatMap_cons, Lookup.walkAll_append, ← hstore]
    simp only [hlookup]

theorem store_foldl {α : Type} {add : Site → α → Site} (keys : Lookup → α → List Key)
    (hgrows : ∀ s a, Grows s (add s a))
    (hstore : ∀ (s : Site) a, (add s a).store = s.lookup.walkAll (keys s.lookup a) s.store)
    (as : List α) :
    (as.foldl add s).store = s.lookup.walkAll (as.flatMap (keys s.lookup)) s.store := by
  induction as generalizing s with
  | nil => rfl
  | cons a as ih =>
    rw [List.foldl_cons, ih, (hgrows s a).lookup, hstore, List.flatMap_cons, Lookup.walkAll_append]

theorem store_buildLocal (s : Site) : s.buildLocal.store = s.lookup.walkAll s.roots s.store := by
  have hp := (Grows.foldl Grows.addProvider s s.injector.providers).lookup
  have hb :=
    (Grows.foldl Grows.addBuilder
      (s.injector.providers.foldl addProvider s) s.injector.builders).lookup
  have hproviders :=
    store_foldl (s := s) (fun _ (m : ProviderMethod) => [m.key]) Grows.addProvider store_addProvider
    s.injector.providers
  have hbuilders := store_foldl (s := s.injector.providers.foldl addProvider s)
    (fun l (m : BuilderMethod) => l.completing m.key) Grows.addBuilder store_addBuilder
      s.injector.builders
  rw [buildLocal_eq, store_addChildren, hbuilders, hb, hproviders, hp, roots, Lookup.walkAll_append,
    Lookup.walkAll_append, List.map_eq_flatMap]

/-- An injector is built by walks to its roots, from nothing and one after another; and whatever has
been walked to before, a walk does as it should. -/
theorem buildLocal_walks {c : Catalog} {autoBinding : Bool} {i : Injector}
    (h : start c autoBinding i = .ok s) :
    s.buildLocal.store = s.lookup.walkAll s.roots .empty ∧
      ∀ ks k, s.lookup.WalksRightly k (s.lookup.walkAll ks .empty) := by
  obtain ⟨registry, rfl⟩ := start_ok h
  exact ⟨store_buildLocal _, fun ks k => (Lookup.Exact.empty.walkAll ks).walksRightly k⟩

end Site

def spoiltInjector : Injector where
  id := "One"
  specifications := ["S"]
  providers := [{ name := "k", key := ⟨"K", none⟩ }, { name := "e", key := ⟨"E", none⟩ },
    { name := "f", key := ⟨"F", none⟩ }]
  builders := [{ name := "t", key := ⟨"T", none⟩ }]

def spoiltModel : Model where
  injectors := [spoiltInjector]
  specifications := [
    { id := "S"
      factories :=
        [.ofKey "make_d" ⟨"D", none⟩, (Factory.ofKey "make_k" ⟨"K", none⟩).parameter ⟨"D", none⟩,
        (Factory.ofKey "make_e" ⟨"E", none⟩).parameter ⟨"X", none⟩,
        ((Factory.ofKey "make_f" ⟨"F", none⟩).parameter ⟨"K", none⟩).parameter ⟨"E", none⟩]
      builders := [(Builder.ofKey "fill_t" ⟨"T", none⟩).parameter ⟨"K", none⟩] }]

theorem buildLocal_walks_spoilt : ∃ c s, Catalog.ofModel spoiltModel = .ok c ∧
    Site.start c true spoiltInjector = .ok s ∧
    s.roots = [⟨"K", none⟩, ⟨"E", none⟩, ⟨"F", none⟩, ⟨"K", none⟩] ∧
    s.buildLocal.store = s.lookup.walkAll s.roots .empty ∧
    s.lookup.WalksRightly ⟨"K", none⟩ .empty ∧ (s.lookup.walk ⟨"K", none⟩ .empty).1 = .node 1 ∧
    s.lookup.WalksRightly ⟨"F", none⟩ (s.lookup.walkAll [⟨"K", none⟩, ⟨"E", none⟩] .empty) ∧
    (s.lookup.walk ⟨"F", none⟩ (s.lookup.walkAll [⟨"K", none⟩, ⟨"E", none⟩] .empty)).1 =
      .failed none := by
  have h : (Catalog.ofModel spoiltModel).toOption.any fun c =>
    (Site.start c true spoiltInjector).toOption.any fun s =>
      decide (s.roots = [⟨"K", none⟩, ⟨"E", none⟩, ⟨"F", none⟩, ⟨"K", none⟩]) &&
      decide ((s.lookup.walk ⟨"K", none⟩ .empty).1 = .node 1) &&
      decide ((s.lookup.walk ⟨"F", none⟩ (s.lookup.walkAll [⟨"K", none⟩, ⟨"E", none⟩] .empty)).1 =
        .failed none) := by
    decide +kernel
  obtain ⟨c, hc, h⟩ := exists_of_any h
  obtain ⟨s, hs, h⟩ := exists_of_any h
  obtain ⟨⟨hroots, hk⟩, hf⟩ : (_ ∧ _) ∧ _ := by
    simpa only [Bool.and_eq_true, decide_eq_true_eq] using h
  obtain ⟨hstore, hwalks⟩ := Site.buildLocal_walks hs
  exact ⟨c, s, hc, hs, hroots, hstore, hwalks [] _, hk, hwalks [⟨"K", none⟩, ⟨"E", none⟩] _, hf⟩

end Wiring
