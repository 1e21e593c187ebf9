import Mathlib.Logic.Relation
import Wiring.Proofs.Moves
import Wiring.Proofs.Gathering

set_option autoImplicit false

namespace Wiring

open Relation

def Lookup.Walked (l : Lookup) (s s' : Store) : Prop := ∃ k, s' = (l.walk k s).2

theorem Lookup.walked_keeps {l : Lookup} {s s' : Store} {P : Store → Prop}
    (h : ReflTransGen l.Walked s s')
    (walk : ∀ {t : Store} {k : Key}, t.Idle → P t → P (l.walk k t).2) (hi : s.Idle) (hs : P s) :
    s'.Idle ∧ P s' := by
  induction h with
  | refl => exact ⟨hi, hs⟩
  | tail _ hstep ih =>
    obtain ⟨k, rfl⟩ := hstep
    exact ⟨(walk_gathers ih.1).idle ih.1, walk ih.1 ih.2⟩

namespace Site

variable {s s' s'' : Site} {k : Key} {ds : List Diagnostic}

structure Grows (s s' : Site) : Prop where
  injector : s'.injector = s.injector
  lookup : s'.lookup = s.lookup
  exports : s'.exports = s.exports
  store : ReflTransGen s.lookup.Walked s.store s'.store
  diagnostics : s.diagnostics <+: s'.diagnostics
  reports : ∀ d ∈ s'.diagnostics, d ∈ s.diagnostics ∨ d.injector = s.id

namespace Grows

theorem refl (s : Site) : s.Grows s := ⟨rfl, rfl, rfl, .refl, List.prefix_refl _, fun _ => .inl⟩

theorem trans (h : s.Grows s') (h' : s'.Grows s'') : s.Grows s'' where
  injector := h'.injector.trans h.injector
  lookup := h'.lookup.trans h.lookup
  exports := h'.exports.trans h.exports
  store := h.store.trans (h.lookup ▸ h'.store)
  diagnostics := h.diagnostics.trans h'.diagnostics
  reports d hd := by
    rcases h'.reports d hd with hd | hd
    · exact h.reports d hd
    · exact .inr (hd.trans (congrArg Injector.id h.injector))

theorem report (s : Site) (hds : ∀ d ∈ ds, d.injector = s.id) : s.Grows (s.report ds) :=
  ⟨rfl, rfl, rfl, .refl, List.prefix_append _ _,
    fun d hd => (List.mem_append.1 hd).imp_right (hds d)⟩

theorem walk (s : Site) (k : Key) : s.Grows (s.walk k).2 :=
  ⟨rfl, rfl, rfl, .single ⟨k, rfl⟩, List.prefix_refl _, fun _ => .inl⟩

theorem request (s : Site) (requestedBy : Option Key) (location : Option Location) (k : Key) :
    s.Grows (s.request requestedBy location k).2 := by
  refine (walk s k).trans (report _ fun d hd => ?_)
  obtain ⟨r, _, rfl⟩ := List.mem_map.1 hd
  rfl

theorem requestAll (s : Site) (requestedBy : Option Key) (location : Option Location)
    (ks : List Key) : s.Grows (s.requestAll requestedBy location ks).2 := by
  induction ks generalizing s with
  | nil => exact refl s
  | cons k ks ih => exact (request s requestedBy location k).trans (ih _)

theorem addProvider (s : Site) (m : ProviderMethod) : s.Grows (s.addProvider m) := by
  have h := request s none m.location m.key
  unfold Site.addProvider
  dsimp only
  split
  · exact ⟨h.injector, h.lookup, h.exports, h.store, h.diagnostics, h.reports⟩
  · exact h

theorem addBuilder (s : Site) (m : BuilderMethod) : s.Grows (s.addBuilder m) := by
  unfold Site.addBuilder
  split
  · exact report _ (by simp [Diagnostic.of])
  · rename_i completion _
    have h := requestAll s (some m.key) (completion.location <|> m.location) completion.dependencies
    dsimp only
    split
    · exact ⟨h.injector, h.lookup, h.exports, h.store, h.diagnostics, h.reports⟩
    · exact h

theorem addArgument (s : Site) (missing : List Key) (location : Option Location) (k : Key) :
    s.Grows (s.addArgument missing location k).2.2 := by
  have h := walk s k
  unfold Site.addArgument
  dsimp only
  split
  · exact h
  · split
    · exact h
    · refine h.trans (report _ fun d hd => ?_)
      obtain ⟨r, _, rfl⟩ := List.mem_map.1 hd
      rfl

theorem addArguments (s : Site) (missing : List Key) (location : Option Location) (ks : List Key) :
    s.Grows (s.addArguments missing location ks).2.2 := by
  induction ks generalizing s missing with
  | nil => exact refl s
  | cons k ks ih => exact (addArgument s missing location k).trans (ih _ _)

theorem addChildren (s : Site) (missing : List Key) (as : List ChildAccessor) :
    s.Grows (s.addChildren missing as) := by
  induction as generalizing s missing with
  | nil => exact refl s
  | cons a as ih =>
    have h := addArguments s missing a.location (requiredBy s.lookup.catalog a.injector)
    refine trans ?_ (ih _ _)
    exact ⟨h.injector, h.lookup, h.exports, h.store, h.diagnostics, h.reports⟩

theorem foldl {α : Type} {add : Site → α → Site} (hadd : ∀ (s : Site) a, s.Grows (add s a))
    (s : Site) (as : List α) : s.Grows (as.foldl add s) := by
  induction as generalizing s with
  | nil => exact refl s
  | cons a as ih => exact (hadd s a).trans (ih _)

theorem buildLocal (s : Site) : s.Grows s.buildLocal :=
  ((foldl addProvider s _).trans (foldl addBuilder _ _)).trans (addChildren _ _ _)

end Grows

theorem buildLocal_eq (s : Site) : s.buildLocal =
    (s.injector.builders.foldl Site.addBuilder
      (s.injector.providers.foldl Site.addProvider s)).addChildren
      [] s.injector.children := by
  have hp := Grows.foldl Grows.addProvider s s.injector.providers
  have hb := Grows.foldl Grows.addBuilder (s.injector.providers.foldl Site.addProvider s)
    (s.injector.providers.foldl Site.addProvider s).injector.builders
  unfold buildLocal
  dsimp only
  rw [hb.injector, hp.injector]

/-- A change to an injector that goes unnoticed while its methods are built, so that it can as well
be made afterwards. -/
structure Unnoticed (f : Site → Site) : Prop where
  id : ∀ s, (f s).id = s.id
  completion : ∀ s k, (f s).lookup.completion k = s.lookup.completion k
  walk : ∀ s k, (f s).walk k = ((s.walk k).1, f (s.walk k).2)
  report : ∀ s ds, (f s).report ds = f (s.report ds)
  providers : ∀ s e, { f s with providers := (f s).providers ++ [e] } =
    f { s with providers := s.providers ++ [e] }
  builders : ∀ s e, { f s with builders := (f s).builders ++ [e] } =
    f { s with builders := s.builders ++ [e] }

namespace Unnoticed

variable {f : Site → Site}

theorem request (h : Unnoticed f) (s : Site) (requestedBy : Option Key)
    (location : Option Location) (k : Key) :
    (f s).request requestedBy location k =
      ((s.request requestedBy location k).1, f (s.request requestedBy location k).2) := by
  simp only [Site.request, h.walk, h.id, h.report]

theorem addProvider (h : Unnoticed f) (s : Site) (m : ProviderMethod) :
    (f s).addProvider m = f (s.addProvider m) := by
  simp only [Site.addProvider, h.request]
  cases (s.request none m.location m.key).1 with
  | none => rfl
  | some i => exact h.providers _ _

theorem requestAll (h : Unnoticed f) (s : Site) (requestedBy : Option Key)
    (location : Option Location) (ks : List Key) : (f s).requestAll requestedBy location ks =
      ((s.requestAll requestedBy location ks).1, f (s.requestAll requestedBy location ks).2) := by
  induction ks generalizing s with
  | nil => rfl
  | cons k ks ih => simp only [Site.requestAll, h.request, ih]

theorem addBuilder (h : Unnoticed f) (s : Site) (m : BuilderMethod) :
    (f s).addBuilder m = f (s.addBuilder m) := by
  unfold Site.addBuilder
  rw [h.completion]
  cases s.lookup.completion m.key with
  | error e => simp only [h.id, h.report]
  | ok completion =>
    simp only [h.requestAll]
    split
    · exact h.builders _ _
    · rfl

theorem addMethods (h : Unnoticed f) (s : Site) (ps : List ProviderMethod)
    (bs : List BuilderMethod) :
    bs.foldl Site.addBuilder (ps.foldl Site.addProvider (f s)) =
      f (bs.foldl Site.addBuilder (ps.foldl Site.addProvider s)) := by
  rw [List.foldl_hom f h.addProvider, List.foldl_hom f h.addBuilder]

end Unnoticed

theorem exportKey_cases (s : Site) (k : Key) :
    (∃ i, (s.walk k).1 = .node i ∧ s.exportKey k =
        (some i, { (s.walk k).2 with exports := s.exports.insert k i })) ∨
      (∃ e, (s.walk k).1 = .failed e ∧
        s.exportKey k = (none, { s with store := (s.walk k).2.store.rollback s.store })) := by
  unfold exportKey
  dsimp only
  cases ho : (s.walk k).1 with
  | node i => exact .inl ⟨i, rfl, rfl⟩
  | failed e => exact .inr ⟨e, rfl, rfl⟩

/-- A request walks, or takes a walk back, or draws a value, or leaves the store as it is. -/
theorem serve_store (s : Site) (q : Request) :
    (∃ k, q = .offer k ∧ ((s.serve q).store = (s.lookup.walk k s.store).2 ∨
      (s.serve q).store = (s.lookup.walk k s.store).2.rollback s.store)) ∨
    (∃ k, q.drawn? = some k ∧ (s.serve q).store = (s.store.inherit k).2) ∨
    (s.serve q).store = s.store := by
  cases q with
  | offer k =>
    refine .inl ⟨k, rfl, ?_⟩
    simp only [serve]
    rcases s.exportKey_cases k with ⟨i, _, hs⟩ | ⟨e, _, hs⟩
    · exact .inl (by rw [hs]; rfl)
    · exact .inr (by rw [hs]; rfl)
  | pass k => exact .inr (.inl ⟨k, rfl, rfl⟩)
  | satisfy r => exact .inr (.inl ⟨r.key, rfl, rfl⟩)
  | refuse r =>
    refine .inr (.inr ?_)
    simp only [serve, refuse]
    split <;> rfl

theorem idle_serve {q : Request} (hi : s.store.Idle) : (s.serve q).store.Idle := by
  rcases s.serve_store q with ⟨k, _, hs | hs⟩ | ⟨k, _, hs⟩ | hs
  · rw [hs]
    exact (Lookup.walk_gathers hi).idle hi
  · have hg := Lookup.walk_gathers (l := s.lookup) (k := k) hi
    rw [hs]
    exact (hg.idle hi).rollback hg.extends
  · rw [hs]
    exact hi.inherit
  · rw [hs]
    exact hi

theorem start_ok {c : Catalog} {autoBinding : Bool} {i : Injector}
    (h : start c autoBinding i = .ok s) :
    ∃ registry, s = { injector := i, lookup := ⟨c, registry, autoBinding⟩ } := by
  unfold start at h
  split at h
  · cases h
    exact ⟨_, rfl⟩
  · cases h

end Site

theorem Catalog.site?_built {c : Catalog} {autoBinding : Bool} {id : InjectorId} {s : Site} :
    (c.built autoBinding).site? id = some s ↔ ∃ i s₀, c.injectors.get? id = some i ∧
      Site.start c autoBinding i = .ok s₀ ∧ s = s₀.buildLocal := by
  simp only [Hierarchy.site?, built, sites, Table.get?_filterMap]
  cases hi : c.injectors.get? id with
  | none => simp
  | some i =>
    cases hs : Site.start c autoBinding i with
    | ok s₀ =>
      simp only [Option.bind_some, SiteState.build, hs]
      constructor
      · rintro ⟨⟩
        exact ⟨i, s₀, rfl, hs, rfl⟩
      · rintro ⟨_, s₁, ⟨⟩, hs₁, rfl⟩
        rw [hs] at hs₁
        cases hs₁
        rfl
    | error ds =>
      simp only [Option.bind_some, SiteState.build, hs]
      constructor
      · rintro ⟨⟩
      · rintro ⟨_, s₁, ⟨⟩, hs₁, rfl⟩
        rw [hs] at hs₁
        cases hs₁

theorem Catalog.graph?_linked {c : Catalog} {autoBinding : Bool} {id : InjectorId}
    {res : Resolution} {g : Graph} (hc : c.Sound) (hr : c.resolve autoBinding = some res)
    (hg : res.graph? id = some g) :
    ∃ s, (c.built autoBinding).site? id = some s ∧
      (s.serveAll (c.requests autoBinding id)).diagnostics = [] ∧
      (s.serveAll (c.requests autoBinding id)).draft.freeze
        (s.serveAll (c.requests autoBinding id)).id = some g := by
  unfold Catalog.resolve Resolution.ofSites at hr
  split at hr
  · cases hr
    simp only [Resolution.graph?, Table.get?_filterMap, Option.bind_eq_some_iff] at hg
    obtain ⟨state, hstate, out, hout, hg⟩ := hg
    cases state with
    | failed ds =>
      cases hout
      cases hg
    | building t =>
      have ht : (c.linked autoBinding).site? id = some t := by
        have hsites : (c.linked autoBinding).sites.get? id = some (.building t) := hstate
        simp only [Hierarchy.site?, hsites]
      rw [site?_linked hc] at ht
      obtain ⟨s, hs, rfl⟩ := Option.map_eq_some_iff.1 ht
      refine ⟨s, hs, ?_⟩
      simp only [SiteState.finish, Site.finish] at hout
      split at hout
      · rename_i hd
        refine ⟨hd, ?_⟩
        obtain ⟨g', hg', rfl⟩ := Option.map_eq_some_iff.1 hout
        cases hg
        exact hg'
      · cases hout
        cases hg
  · cases hr

theorem exists_of_any {ε α : Type} {x : Except ε α} {p : α → Bool} (h : x.toOption.any p) :
    ∃ a, x = .ok a ∧ p a := by
  cases x with
  | error e => cases h
  | ok a => exact ⟨a, rfl, h⟩

theorem exists_of_any_any {ε α : Type} {x : Except ε (Option α)} {p : α → Bool}
    (h : x.toOption.any (·.any p)) : ∃ a, x = .ok (some a) ∧ p a := by
  obtain ⟨out, rfl, hout⟩ := exists_of_any h
  obtain ⟨a, rfl, ha⟩ := (Option.any_eq_true p out).1 hout
  exact ⟨a, rfl, ha⟩

/-- Four injectors in a row. The first two have a specification each; the last expects some keys. -/
def Model.lineage (root mid : Specification) (keys : List Key) : Model where
  injectors := [
    { id := "Root", specifications := [root.id],
      children := [{ name := "mid", injector := "Mid" }] },
    { id := "Mid", specifications := [mid.id], children := [{ name := "low", injector := "Low" }] },
    { id := "Low", children := [{ name := "leaf", injector := "Leaf" }] },
    { id := "Leaf", dependencies := ["I"] }]
  specifications := [root, mid]
  interfaces := [{ id := "I", keys }]

/-- What holds of an empty store and is kept by walks holds of an injector that has been built. -/
theorem Catalog.store_built {c : Catalog} {autoBinding : Bool} {id : InjectorId} {s : Site}
    {P : Store → Prop} (h : (c.built autoBinding).site? id = some s) (empty : P .empty)
    (walk : ∀ {t : Store} {k : Key}, t.Idle → P t → P (s.lookup.walk k t).2) :
    s.store.Idle ∧ P s.store := by
  obtain ⟨i, s₀, _, hs₀, rfl⟩ := site?_built.1 h
  obtain ⟨registry, rfl⟩ := Site.start_ok hs₀
  have hg := Site.Grows.buildLocal { injector := i, lookup := ⟨c, registry, autoBinding⟩ }
  rw [hg.lookup] at walk
  exact Lookup.walked_keeps hg.store walk Store.idle_empty empty

end Wiring
