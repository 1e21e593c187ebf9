import Wiring.Proofs.Order
import Wiring.Proofs.Outcomes
import Wiring.Proofs.Wired

set_option autoImplicit false

namespace Wiring

open Relation

namespace Lookup

variable {l : Lookup} {s s' : Store}

theorem Local.walked (h : l.Local s) (hs : ReflTransGen l.Walked s s') :
    l.Local s' ∧ s.Steady s' := by
  have hstep : ∀ {t : Store} {k : Key}, t.Idle → l.Local t ∧ s.Steady t →
      l.Local (l.walk k t).2 ∧ s.Steady (l.walk k t).2 :=
    fun _ ⟨ht, hst⟩ => ⟨ht.walk, fun j i hj => ht.steady j i (hst j i hj)⟩
  exact (walked_keeps hs hstep h.threaded.idle ⟨h, fun _ _ hj => hj⟩).2

/-- What a builder method asks for is there: a way to complete instances, and all that it needs. -/
def Completes (l : Lookup) (k : Key) : Prop :=
  ∃ completion, l.completion k = .ok completion ∧ ∀ d ∈ completion.dependencies, l.Derivable d

end Lookup

namespace Site

variable {s : Site} {k : Key}

structure Faultless (s : Site) : Prop where
  clean : s.Clean
  right : s.Right
  silent : s.diagnostics = []

namespace Faultless

theorem start (i : Injector) (l : Lookup) : Faultless { injector := i, lookup := l } :=
  ⟨.fresh i l, .fresh i l, rfl⟩

theorem request_iff (h : s.Faultless) (requestedBy : Option Key) (location : Option Location) :
    (s.request requestedBy location k).2.diagnostics = [] ↔ s.lookup.Derivable k := by
  constructor
  · intro hd
    obtain ⟨⟨i, hi⟩, _⟩ := h.clean.request hd
    change (s.lookup.walk k s.store).1.node? = some i at hi
    cases ho : (s.lookup.walk k s.store).1 with
    | node i' => exact (Lookup.walk_derivable h.clean.idle h.right.makes).2 i' ho
    | failed e =>
      rw [ho] at hi
      cases hi
  · intro hk
    change s.diagnostics ++ ((s.lookup.walk k s.store).1.report?.toList.map _) = []
    cases ho : (s.lookup.walk k s.store).1 with
    | node i => simp [Outcome.report?, h.silent]
    | failed e =>
      exact absurd hk ((Lookup.walk_not_derivable h.clean.idle h.right.sane.fails).2 e ho)

theorem request (h : s.Faultless) {requestedBy : Option Key} {location : Option Location}
    (hd : (s.request requestedBy location k).2.diagnostics = []) :
    (s.request requestedBy location k).2.Faultless :=
  ⟨(h.clean.request hd).2, h.right.grows (Grows.request s requestedBy location k), hd⟩

theorem requestAll_iff (h : s.Faultless) (requestedBy : Option Key) (location : Option Location)
    (ks : List Key) : (s.requestAll requestedBy location ks).2.diagnostics = [] ↔
      ∀ k ∈ ks, s.lookup.Derivable k := by
  induction ks generalizing s with
  | nil => simpa [Site.requestAll] using h.silent
  | cons k ks ih =>
    have hgrows := Grows.request s requestedBy location k
    have hrest := Grows.requestAll (s.request requestedBy location k).2 requestedBy location ks
    rw [List.forall_mem_cons, ← h.request_iff requestedBy location, ← hgrows.lookup]
    constructor
    · intro hd
      have hfirst := hrest.diagnostics_nil hd
      exact ⟨hfirst, (ih (h.request hfirst)).1 hd⟩
    · rintro ⟨hfirst, hks⟩
      exact (ih (h.request hfirst)).2 hks

end Faultless

/-- A way to add methods which goes well exactly if what a method asks for is there. -/
structure Adds {α : Type} (add : Site → α → Site) (P : Lookup → α → Prop) : Prop where
  grows : ∀ (s : Site) a, s.Grows (add s a)
  silent : ∀ {s : Site}, s.Faultless → ∀ a, (add s a).diagnostics = [] ↔ P s.lookup a
  clean : ∀ {s : Site}, s.Faultless → ∀ a, (add s a).diagnostics = [] → (add s a).Clean

theorem adds_provider : Adds addProvider fun l m => l.Derivable m.key where
  grows := Grows.addProvider
  silent {s} h m := by
    have hd : (s.addProvider m).diagnostics = (s.request none m.location m.key).2.diagnostics := by
      unfold Site.addProvider
      dsimp only
      split <;> rfl
    rw [hd, h.request_iff]
  clean h _ hd := (h.clean.addProvider hd).1

theorem adds_builder : Adds addBuilder fun l m => l.Completes m.key where
  grows := Grows.addBuilder
  silent {s} h m := by
    unfold Site.addBuilder Lookup.Completes
    cases hc : s.lookup.completion m.key with
    | error e => simp [Site.report]
    | ok completion =>
      have hiff :=
        h.requestAll_iff (some m.key) (completion.location <|> m.location) completion.dependencies
      simp only [Except.ok.injEq, exists_eq_left', ← hiff]
      split <;> rfl
  clean h _ hd := (h.clean.addBuilder hd).1

theorem Adds.foldl {α : Type} {add : Site → α → Site} {P : Lookup → α → Prop} (ha : Adds add P)
    (h : s.Faultless) (as : List α) : ((as.foldl add s).diagnostics = [] ↔ ∀ a ∈ as, P s.lookup a) ∧
      ((as.foldl add s).diagnostics = [] → (as.foldl add s).Faultless) := by
  induction as generalizing s with
  | nil => exact ⟨by simpa using h.silent, fun _ => h⟩
  | cons a as ih =>
    have hrest := Grows.foldl ha.grows (add s a) as
    rw [List.foldl_cons, List.forall_mem_cons]
    by_cases hd : (add s a).diagnostics = []
    · obtain ⟨hall, hfaultless⟩ := ih ⟨ha.clean h a hd, h.right.grows (ha.grows s a), hd⟩
      rw [(ha.grows s a).lookup] at hall
      exact ⟨hall.trans ⟨fun hrest => ⟨(ha.silent h a).1 hd, hrest⟩, fun hboth => hboth.2⟩,
        hfaultless⟩
    · have hno : (as.foldl add (add s a)).diagnostics ≠ [] :=
        fun hnil => hd (hrest.diagnostics_nil hnil)
      exact ⟨⟨fun hnil => absurd hnil hno, fun hboth => absurd ((ha.silent h a).2 hboth.1) hd⟩,
        fun hnil => absurd hnil hno⟩

theorem addMethods_silent_iff (i : Injector) (l : Lookup) :
    (i.builders.foldl addBuilder
      (i.providers.foldl addProvider { injector := i, lookup := l })).diagnostics = [] ↔
      (∀ p ∈ i.providers, l.Derivable p.key) ∧ ∀ b ∈ i.builders, l.Completes b.key := by
  obtain ⟨hp, hfaultless⟩ := adds_provider.foldl (.start i l) i.providers
  have hlookup := (Grows.foldl Grows.addProvider { injector := i, lookup := l } i.providers).lookup
  generalize i.providers.foldl addProvider { injector := i, lookup := l } =
    t at hp hfaultless hlookup
  rw [← hp]
  constructor
  · intro hd
    have hproviders := (Grows.foldl Grows.addBuilder t i.builders).diagnostics_nil hd
    have hb := (adds_builder.foldl (hfaultless hproviders) i.builders).1.1 hd
    rw [hlookup] at hb
    exact ⟨hproviders, hb⟩
  · rintro ⟨hproviders, hbuilders⟩
    refine (adds_builder.foldl (hfaultless hproviders) i.builders).1.2 ?_
    rw [hlookup]
    exact hbuilders

theorem buildLocal_childless {i : Injector} {l : Lookup} (hi : i.children = []) :
    buildLocal { injector := i, lookup := l } =
      i.builders.foldl addBuilder
        (i.providers.foldl addProvider { injector := i, lookup := l }) := by
  have hnone : ∀ t : Site, t.addChildren [] [] = t := fun _ => rfl
  rw [buildLocal_eq, hi, hnone]

/-- Nothing is drawn yet, and every provider has the node of its key. -/
structure Fitted (s : Site) : Prop where
  store : s.lookup.Local s.store
  providers : ∀ e ∈ s.providers, s.store.status? e.2.1 = some (.done e.2.2)

theorem Fitted.grows {s' : Site} (h : s.Fitted) (hg : s.Grows s')
    (hp : s'.providers = s.providers) : s'.Fitted := by
  obtain ⟨hlocal, hsteady⟩ := h.store.walked hg.store
  refine ⟨hg.lookup ▸ hlocal, fun e he => hsteady _ _ (h.providers e ?_)⟩
  rwa [← hp]

theorem Fitted.addProvider (h : s.Fitted) (m : ProviderMethod) : (s.addProvider m).Fitted := by
  have hrequest := h.grows (Grows.request s none m.location m.key) rfl
  unfold Site.addProvider
  dsimp only
  split
  · rename_i i hi
    refine ⟨hrequest.store, fun e he => ?_⟩
    rcases List.mem_append.1 he with he | he
    · exact hrequest.providers e he
    · obtain rfl := List.mem_singleton.1 he
      refine (h.store.threaded.walk h.store.steady).2 i ?_
      change (s.lookup.walk m.key s.store).1.node? = some i at hi
      cases ho : (s.lookup.walk m.key s.store).1 with
      | node i' =>
        rw [ho] at hi
        cases hi
        rfl
      | failed e =>
        rw [ho] at hi
        cases hi
  · exact hrequest

theorem providers_addBuilder (m : BuilderMethod) : (s.addBuilder m).providers = s.providers := by
  unfold Site.addBuilder
  split
  · rfl
  · rename_i completion _
    obtain ⟨hp, _, _⟩ := requestAll_lists s (some m.key) (completion.location <|> m.location)
      completion.dependencies
    dsimp only
    split <;> exact hp

theorem fitted_addMethods (i : Injector) (l : Lookup) : Fitted
    (i.builders.foldl addBuilder
      (i.providers.foldl addProvider { injector := i, lookup := l })) := by
  have hproviders : ∀ (ms : List ProviderMethod) {s : Site},
      s.Fitted → (ms.foldl addProvider s).Fitted := by
    intro ms
    induction ms with
    | nil => exact fun h => h
    | cons m ms ih => exact fun h => ih (h.addProvider m)
  have hbuilders : ∀ (ms : List BuilderMethod) {s : Site},
      s.Fitted → (ms.foldl addBuilder s).Fitted := by
    intro ms
    induction ms with
    | nil => exact fun h => h
    | cons m ms ih =>
      exact fun {s} h => ih (h.grows (Grows.addBuilder s m) (providers_addBuilder m))
  exact hbuilders _ (hproviders _ ⟨.empty, by simp⟩)

end Site

namespace Catalog

variable {m : Model} {c : Catalog} {autoBinding : Bool} {id : InjectorId} {i : Injector} {s : Site}
  {res : Resolution} {l : Lookup}

theorem requests_childless (hc : c.Sound) (hi : c.injectors.get? id = some i)
    (hchildren : i.children = []) (hs : (c.built autoBinding).site? id = some s)
    (hsites : s.children = []) : c.requests autoBinding id = [] := by
  have hparent : ∀ child, ∀ p ∈ c.parentIds child, c.childrenOf p ≠ [] := fun child p hp =>
    List.ne_nil_of_mem (hc.mem_parents.1 hp)
  rw [List.eq_nil_iff_forall_not_mem]
  intro q hq
  obtain ⟨h', hsettles, _⟩ := settles hc autoBinding
  rcases hsettles.within (fun child _ => hparent child) (fun e _ => hparent e.1)
    (Move.mem_requestsTo.1 hq) with
    hholds | ⟨e, he, hid⟩
  · exact hholds (by simp [childrenOf, hi, hchildren])
  · have hpending := Hierarchy.requirements_filterMap hs
    have hmem : e.2 ∈ s.pending := by
      rw [← hpending]
      exact List.mem_filterMap.2 ⟨e, he, by rw [if_pos hid.symm]⟩
    simp [Site.pending, hsites] at hmem

theorem exists_site (hl : c.lookup? autoBinding id = some l) (hi : c.injectors.get? id = some i) :
    (c.built autoBinding).site? id = some (Site.buildLocal { injector := i, lookup := l }) := by
  rw [← lookup?_eq] at hl
  obtain ⟨s, hs, rfl⟩ := Option.map_eq_some_iff.1 hl
  obtain ⟨i', s₀, hi', hs₀, rfl⟩ := site?_built.1 hs
  rw [hi] at hi'
  cases hi'
  obtain ⟨registry, rfl⟩ := Site.start_ok hs₀
  rw [hs, (Site.Grows.buildLocal _).lookup]

theorem linked_childless (hc : c.Sound) (hl : c.lookup? autoBinding id = some l)
    (hi : c.injectors.get? id = some i) (hchildren : i.children = [])
    (hd : (Site.buildLocal { injector := i, lookup := l }).diagnostics = []) :
    (c.linked autoBinding).site? id = some (Site.buildLocal { injector := i, lookup := l }) := by
  have hs := exists_site hl hi
  have hnone : (Site.buildLocal { injector := i, lookup := l }).children = [] := by
    obtain ⟨_, _, hacc, _⟩ := Site.buildLocal_surface hd
    rw [hchildren] at hacc
    exact List.map_eq_nil_iff.1 hacc
  rw [site?_linked hc, hs, requests_childless hc hi hchildren hs hnone]
  rfl

theorem graph?_childless (hc : c.Sound) (hr : c.resolve autoBinding = some res)
    (hi : c.injectors.get? id = some i) (hchildren : i.children = []) {g : Graph} :
    res.graph? id = some g ↔ ∃ l, c.lookup? autoBinding id = some l ∧
      (Site.buildLocal { injector := i, lookup := l }).diagnostics = [] ∧
      (Site.buildLocal { injector := i, lookup := l }).draft.freeze id = some g := by
  have hid : ∀ l, (Site.buildLocal { injector := i, lookup := l }).id = id := fun l =>
    (congrArg Injector.id (Site.Grows.buildLocal _).injector).trans (hc.own_id hi)
  constructor
  · intro hg
    obtain ⟨s, hs, hd, hfreeze⟩ := graph?_linked hc hr hg
    obtain ⟨l, hl⟩ : ∃ l, c.lookup? autoBinding id = some l :=
      ⟨s.lookup, by rw [← lookup?_eq, hs]; rfl⟩
    have hbuilt := exists_site hl hi
    rw [hs] at hbuilt
    obtain rfl := Option.some.inj hbuilt
    have hsilent := hd
    rw [Site.diagnostics_serveAll, List.append_eq_nil_iff] at hsilent
    have hlinked := linked_childless hc hl hi hchildren hsilent.1
    rw [site?_linked hc, hs, Option.map_some] at hlinked
    rw [Option.some.inj hlinked, hid] at hfreeze
    exact ⟨l, hl, hsilent.1, hfreeze⟩
  · rintro ⟨l, hl, hd, hfreeze⟩
    exact graph?_of_site hr (linked_childless hc hl hi hchildren hd) hd (by rwa [hid])

/-- An injector without children has a graph exactly if its declarations are free of conflicts and
all that its methods ask for can be derived. The graph then draws nothing, exports nothing and
realises the methods in their order, a provider by the node of the key that its own key comes to. -/
theorem graph_childless_iff (hm : Catalog.ofModel m = .ok c) (hr : c.resolve autoBinding = some res)
    (hi : i ∈ m.injectors) (hchildren : i.children = []) :
    ((res.graph? i.id).isSome ↔ ∃ l, c.lookup? autoBinding i.id = some l ∧
      (∀ p ∈ i.providers, l.Derivable p.key) ∧ ∀ b ∈ i.builders, l.Completes b.key) ∧
    ∀ g, res.graph? i.id = some g → ∃ l, c.lookup? autoBinding i.id = some l ∧
      (∀ n ∈ g.nodes, n.binding ≠ .inherited) ∧ g.exports.entries = [] ∧
      g.builders.map (fun b => (b.method, b.key)) = i.builders.map (fun b => (b.name, b.key)) ∧
      g.providers.map (fun p => (p.method, p.key)) = i.providers.map (fun p => (p.name, p.key)) ∧
      ∀ p ∈ g.providers, ∃ r n, l.resolve p.key = .ok r ∧ g.node? p.node = some n ∧
        n.key = r.key := by
  have hc := sound_of_ofModel hm
  have hget : c.injectors.get? i.id = some i := (get?_injectors hm).2 ⟨hi, rfl⟩
  refine ⟨⟨fun hg => ?_, ?_⟩, fun g hg => ?_⟩
  · obtain ⟨g, hg⟩ := Option.isSome_iff_exists.1 hg
    obtain ⟨l, hl, hd, _⟩ := (graph?_childless hc hr hget hchildren).1 hg
    rw [Site.buildLocal_childless hchildren, Site.addMethods_silent_iff] at hd
    exact ⟨l, hl, hd⟩
  · rintro ⟨l, hl, hderivable⟩
    have hd : (Site.buildLocal { injector := i, lookup := l }).diagnostics = [] := by
      rw [Site.buildLocal_childless hchildren, Site.addMethods_silent_iff]
      exact hderivable
    have hsome : ((Site.buildLocal { injector := i, lookup := l }).draft.freeze i.id).isSome :=
      Draft.freeze_isSome (built_inOrder (exists_site hl hget)).draft
    obtain ⟨g, hg⟩ := Option.isSome_iff_exists.1 hsome
    rw [(graph?_childless hc hr hget hchildren).2 ⟨l, hl, hd, hg⟩]
    rfl
  · obtain ⟨l, hl, hd, hfreeze⟩ := (graph?_childless hc hr hget hchildren).1 hg
    obtain ⟨hnodes, _, hexports, hproviders, hbuilders, _⟩ := Draft.freeze_some hfreeze
    obtain ⟨hp, hb, _⟩ := Site.buildLocal_surface hd
    have hfitted : (Site.buildLocal { injector := i, lookup := l }).Fitted := by
      rw [Site.buildLocal_childless hchildren]
      exact Site.fitted_addMethods i l
    have hlookup := (Site.Grows.buildLocal { injector := i, lookup := l }).lookup
    refine ⟨l, hl, ?_, ?_, hbuilders.trans hb, hproviders.trans hp, fun p hp => ?_⟩
    · rw [hnodes]
      exact hfitted.store.own
    · rw [hexports]
      exact congrArg Table.entries (Site.Grows.buildLocal _).exports
    · have hmem : (p.method, p.key, p.node) ∈
        (Site.buildLocal { injector := i, lookup := l }).providers := by
        have hall := Draft.freeze_providers hfreeze
        change _ = (Site.buildLocal { injector := i, lookup := l }).providers at hall
        rw [← hall]
        exact List.mem_map_of_mem hp
      have hnode := hfitted.store.node (hfitted.providers _ hmem)
      rw [hlookup] at hnode
      rw [Graph.node?, hnodes]
      exact hnode

end Catalog

/-- Makes `K` from `D`, and completes instances of `T` with it. -/
def goodInjector : Injector where
  id := "Good"
  specifications := ["S"]
  providers := [{ name := "k", key := ⟨"K", none⟩ }]
  builders := [{ name := "t", key := ⟨"T", none⟩ }]

def badInjector : Injector where
  id := "Bad"
  specifications := ["S"]
  providers := [{ name := "e", key := ⟨"E", none⟩ }]

def childlessModel : Model where
  injectors := [goodInjector, badInjector]
  specifications := [
    { id := "S"
      factories :=
        [.ofKey "make_d" ⟨"D", none⟩, (Factory.ofKey "make_k" ⟨"K", none⟩).parameter ⟨"D", none⟩,
        (Factory.ofKey "make_e" ⟨"E", none⟩).parameter ⟨"E", none⟩]
      builders := [(Builder.ofKey "fill_t" ⟨"T", none⟩).parameter ⟨"K", none⟩] }]

theorem graph_childless_good :
    ∃ c res, Catalog.ofModel childlessModel = .ok c ∧ c.resolve true = some res ∧
    (∃ g l, res.graph? goodInjector.id = some g ∧ c.lookup? true goodInjector.id = some l ∧
      l.Derivable ⟨"K", none⟩ ∧ l.Completes ⟨"T", none⟩ ∧ g.exports.entries = []) ∧
    ¬ ∃ l, c.lookup? true badInjector.id = some l ∧ l.Derivable ⟨"E", none⟩ := by
  have h : (Catalog.ofModel childlessModel).toOption.any fun c => (c.resolve true).any fun res =>
      (res.graph? goodInjector.id).isSome && (res.graph? badInjector.id).isNone := by
    decide +kernel
  have hgood : goodInjector ∈ childlessModel.injectors := List.mem_cons_self
  have hbad : badInjector ∈ childlessModel.injectors := List.mem_cons_of_mem _ List.mem_cons_self
  obtain ⟨c, hc, h⟩ := exists_of_any h
  obtain ⟨res, hr, h⟩ := (Option.any_eq_true _ _).1 h
  obtain ⟨hsome, hnone⟩ := Bool.and_eq_true_iff.1 h
  obtain ⟨hiff, hgraph⟩ := Catalog.graph_childless_iff hc hr hgood rfl
  obtain ⟨l, hl, hproviders, hbuilders⟩ := hiff.1 hsome
  obtain ⟨g, hg⟩ := Option.isSome_iff_exists.1 hsome
  obtain ⟨_, _, _, hexports, _⟩ := hgraph g hg
  refine ⟨c, res, hc, hr, ⟨g, l, hg, hl, by simpa [goodInjector] using hproviders,
    by simpa [goodInjector] using hbuilders, hexports⟩, ?_⟩
  rintro ⟨l, hl, hderivable⟩
  have hsome := (Catalog.graph_childless_iff hc hr hbad rfl).1.2
    ⟨l, hl, by simpa [badInjector] using hderivable, by simp [badInjector]⟩
  rw [Option.isNone_iff_eq_none.1 hnone] at hsome
  cases hsome

end Wiring
