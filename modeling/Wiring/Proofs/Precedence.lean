import Wiring.Proofs.Distinct
import Wiring.Proofs.Local

/-!
Implicit constructors come last. A lookup that may fall back on them finds whatever it finds without
them, and the same; so an injector for which the declared bindings are enough is built as if there
were no others.
-/

set_option autoImplicit false

namespace Wiring

def Provider.isDeclared : Provider → Bool
  | .auto _ _ => false
  | .factory _ | .external _ => true

namespace Lookup

variable {l l' : Lookup} {k : Key} {r : Resolved} {s s' : Store} {i : Nat}

def allowing (l : Lookup) (autoBinding : Bool) : Lookup := { l with autoBinding }

theorem not_isDeclared_implicit? {p : Provider} (h : l.implicit? k = .provider p) :
    p.isDeclared = false := by
  unfold implicit? at h
  split at h
  · cases h
  · split at h <;> cases h
    rfl

theorem implicit?_ne_link (d : Link) : l.implicit? k ≠ .link d := by
  unfold implicit?
  split
  · exact Finding.noConfusion
  · split <;> exact Finding.noConfusion

/-- Either there is something declared for a key, which is found with and without implicit
constructors, or it comes down to these. -/
theorem find_allowing (l : Lookup) (k : Key) :
    (∃ p, p.isDeclared ∧ ∀ b, (l.allowing b).find k = .provider p) ∨
      (∃ d, ∀ b, (l.allowing b).find k = .link d) ∨
      (l.allowing false).find k = .error (.missing k) ∧
      (l.allowing true).find k = l.implicit? k := by
  simp only [find, allowing]
  cases l.registry.factory? k with
  | some d => exact .inl ⟨.factory d, rfl, fun _ => rfl⟩
  | none =>
    cases l.registry.external? k with
    | some e => exact .inl ⟨.external e, rfl, fun _ => rfl⟩
    | none =>
      cases l.registry.link? k with
      | some d => exact .inr (.inl ⟨d.value, fun _ => rfl⟩)
      | none => exact .inr (.inr ⟨rfl, rfl⟩)

theorem resolveFrom_allowing {n : Nat} {ch : AliasChain} :
    (l.allowing false).resolveFrom n ch = .ok r ↔
    (l.allowing true).resolveFrom n ch = .ok r ∧ r.provider.isDeclared := by
  induction n generalizing ch with
  | zero => simp [resolveFrom]
  | succ n ih =>
    unfold resolveFrom
    rcases l.find_allowing ch.current with ⟨p, hp, hfind⟩ | ⟨d, hfind⟩ | ⟨hnone, himplicit⟩
    · simp only [hfind, Except.ok.injEq]
      exact ⟨fun h => ⟨h, h ▸ hp⟩, fun h => h.1⟩
    · have hcatalog : ∀ b, (l.allowing b).catalog = l.catalog := fun _ => rfl
      simp only [hfind, hcatalog]
      cases ch.follow l.catalog d with
      | ok ch' => exact ih
      | error e => simp
    · rw [hnone, himplicit]
      cases hi : l.implicit? ch.current with
      | provider p =>
        have hp := not_isDeclared_implicit? hi
        simp only [reduceCtorEq, Except.ok.injEq, false_iff, not_and]
        rintro rfl
        simp [hp]
      | link d => exact absurd hi (implicit?_ne_link d)
      | error e => simp

theorem resolve_allowing_iff : (l.allowing false).resolve k = .ok r ↔
    (l.allowing true).resolve k = .ok r ∧ r.provider.isDeclared := resolveFrom_allowing

theorem completion_allowing {d : Completion} (h : (l.allowing false).completion k = .ok d) :
    (l.allowing true).completion k = .ok d := by
  have hregistry : ∀ b, (l.allowing b).registry = l.registry := fun _ => rfl
  simp only [completion, hregistry] at h ⊢
  cases hb : l.registry.builder? k with
  | some b => rwa [hb] at h
  | none =>
    rw [hb] at h
    cases h

/-- A lookup that finds whatever another one finds, and the same, and goes down as far. -/
structure Extends (l' l : Lookup) : Prop where
  resolve : ∀ {k : Key} {r : Resolved}, l.resolve k = .ok r → l'.resolve k = .ok r
  completion : ∀ {k : Key} {d : Completion}, l.completion k = .ok d → l'.completion k = .ok d
  targetCount : l'.targetCount = l.targetCount

theorem extends_allowing (l : Lookup) : (l.allowing true).Extends (l.allowing false) :=
  ⟨fun h => (resolve_allowing_iff.1 h).1, completion_allowing, rfl⟩

theorem gather_of_visit {visit visit' : Key → Store → Outcome × Store}
    {cyclic cyclic' : Key → Report}
    (h : ∀ {k : Key} {s s' : Store} {i : Nat}, visit k s = (.node i, s') →
      visit' k s = (.node i, s'))
    {ks : List Key} {is : List Nat} (hg : gather visit cyclic ks s = (.ok is, s')) :
    gather visit' cyclic' ks s = (.ok is, s') := by
  have hdepend : ∀ {k : Key} {s s' : Store} {i : Nat}, depend visit cyclic k s = (.node i, s') →
      depend visit' cyclic' k s = (.node i, s') := by
    intro k s s' i hk
    unfold depend at hk ⊢
    split at hk
    · exact hk
    · cases hk
    · cases hk
    · exact h hk
  induction ks generalizing s is with
  | nil => exact hg
  | cons k ks ih =>
    unfold gather at hg ⊢
    split at hg
    · cases hg
    · rename_i i s₁ hk
      rw [hdepend hk]
      split at hg
      · rename_i is s₂ hks
        cases hg
        simp only [ih hks]
      · cases hg

/-- A visit that finds a node finds only what there is in the smaller lookup already. -/
theorem Extends.visit (h : l'.Extends l) {depth : Nat} {trail : List Key} {asker : Option Location}
    (hv : l.visit depth trail asker k s = (.node i, s')) :
    l'.visit depth trail asker k s = (.node i, s') := by
  induction depth generalizing trail asker k s i s' with
  | zero => cases hv
  | succ depth ih =>
    unfold Lookup.visit at hv ⊢
    cases hr : l.resolve k with
    | error e => simp [hr] at hv
    | ok r =>
      rw [h.resolve hr]
      simp only [hr] at hv ⊢
      split at hv
      · exact hv
      · cases hv
      · cases hv
      · split at hv
        · cases hv
        · rename_i args s₁ hg
          rw [gather_of_visit ih hg]
          exact hv

theorem Extends.walk (h : l'.Extends l) (hw : l.walk k s = (.node i, s')) :
    l'.walk k s = (.node i, s') := by
  unfold Lookup.walk at hw ⊢
  rw [h.targetCount]
  split at hw
  · exact hw
  · cases hw
  · exact h.visit hw

end Lookup

namespace Site

variable {s : Site} {l : Lookup} {k : Key} {requestedBy : Option Key} {location : Option Location}

def withLookup (s : Site) (l : Lookup) : Site := { s with lookup := l }

theorem request_withLookup {i : Nat} (h : l.Extends s.lookup)
    (hi : (s.request requestedBy location k).1 = some i) :
    (s.withLookup l).request requestedBy location k =
      (some i, (s.request requestedBy location k).2.withLookup l) := by
  have hw : l.walk k s.store = s.lookup.walk k s.store := by
    change (s.lookup.walk k s.store).1.node? = some i at hi
    cases ho : s.lookup.walk k s.store with
    | mk o t =>
      cases o with
      | node j => exact h.walk ho
      | failed e =>
        rw [ho] at hi
        cases hi
  rw [← hi]
  unfold request Site.walk Site.withLookup
  simp only [hw]
  rfl

theorem requestAll_withLookup (hs : s.Clean) (h : l.Extends s.lookup) {ks : List Key}
    (hd : (s.requestAll requestedBy location ks).2.diagnostics = []) :
    (s.withLookup l).requestAll requestedBy location ks =
      ((s.requestAll requestedBy location ks).1,
        (s.requestAll requestedBy location ks).2.withLookup l) := by
  induction ks generalizing s with
  | nil => rfl
  | cons k ks ih =>
    have hgrows := Grows.request s requestedBy location k
    have hrest := Grows.requestAll (s.request requestedBy location k).2 requestedBy location ks
    obtain ⟨⟨i, hi⟩, hclean⟩ := hs.request (hrest.diagnostics_nil hd)
    simp only [requestAll, request_withLookup h hi, ih hclean (hgrows.lookup ▸ h) hd, hi]

theorem addProvider_withLookup {m : ProviderMethod} (hs : s.Clean) (h : l.Extends s.lookup)
    (hd : (s.addProvider m).diagnostics = []) :
    (s.withLookup l).addProvider m = (s.addProvider m).withLookup l := by
  have hrequest : (s.request none m.location m.key).2.diagnostics = [] := by
    unfold addProvider at hd
    dsimp only at hd
    split at hd <;> exact hd
  obtain ⟨⟨i, hi⟩, _⟩ := hs.request hrequest
  simp only [addProvider, request_withLookup h hi, hi]
  rfl

theorem addBuilder_withLookup {m : BuilderMethod} (hs : s.Clean) (h : l.Extends s.lookup)
    (hd : (s.addBuilder m).diagnostics = []) :
    (s.withLookup l).addBuilder m = (s.addBuilder m).withLookup l := by
  unfold addBuilder at hd ⊢
  cases hc : s.lookup.completion m.key with
  | error e => simp [hc, report] at hd
  | ok completion =>
    simp only [hc] at hd
    have hrequests : (s.requestAll (some m.key) (completion.location <|> m.location)
        completion.dependencies).2.diagnostics = [] := by
      split at hd <;> exact hd
    have hc' : (s.withLookup l).lookup.completion m.key = .ok completion := h.completion hc
    simp only [hc', requestAll_withLookup hs h hrequests]
    split <;> rfl

theorem foldl_withLookup {α : Type} {add : Site → α → Site}
    (hgrows : ∀ (s : Site) a, s.Grows (add s a))
    (hclean : ∀ {s : Site} {a : α}, s.Clean → (add s a).diagnostics = [] → (add s a).Clean)
    (hadd : ∀ {s : Site} {a : α}, s.Clean → l.Extends s.lookup → (add s a).diagnostics = [] →
      add (s.withLookup l) a = (add s a).withLookup l)
    (hs : s.Clean) (h : l.Extends s.lookup) {as : List α} (hd : (as.foldl add s).diagnostics = []) :
    (as.foldl add s).Clean ∧ as.foldl add (s.withLookup l) = (as.foldl add s).withLookup l := by
  induction as generalizing s with
  | nil => exact ⟨hs, rfl⟩
  | cons a as ih =>
    have hfirst := (Grows.foldl hgrows (add s a) as).diagnostics_nil hd
    have hrest := ih (hclean hs hfirst) ((hgrows s a).lookup ▸ h) hd
    rwa [← hadd hs h hfirst] at hrest

theorem buildLocal_withLookup {i : Injector} {l' : Lookup} (hi : i.children = []) (h : l'.Extends l)
    (hd : (buildLocal { injector := i, lookup := l }).diagnostics = []) :
    buildLocal { injector := i, lookup := l' } =
      (buildLocal { injector := i, lookup := l }).withLookup l' := by
  rw [buildLocal_childless hi] at hd ⊢
  rw [buildLocal_childless hi]
  have hlookup : (i.providers.foldl addProvider { injector := i, lookup := l }).lookup = l :=
    (Grows.foldl Grows.addProvider _ _).lookup
  obtain ⟨hclean, hproviders⟩ :=
    foldl_withLookup Grows.addProvider (fun h hd => (h.addProvider hd).1)
    addProvider_withLookup (Clean.fresh i l) h
      ((Grows.foldl Grows.addBuilder _ _).diagnostics_nil hd)
  obtain ⟨_, hbuilders⟩ := foldl_withLookup Grows.addBuilder (fun h hd => (h.addBuilder hd).1)
    addBuilder_withLookup hclean (hlookup.symm ▸ h) hd
  rw [← hbuilders, ← hproviders]
  rfl

end Site

namespace Catalog

variable {c : Catalog} {id : InjectorId} {l : Lookup}

theorem lookup?_allowing (h : c.lookup? false id = some l) :
    l.allowing false = l ∧ c.lookup? true id = some (l.allowing true) := by
  simp only [lookup?, Option.bind_eq_some_iff, Option.map_eq_some_iff] at h ⊢
  obtain ⟨i, hi, registry, hregister, rfl⟩ := h
  exact ⟨rfl, i, hi, registry, hregister, rfl⟩

end Catalog

namespace Model

/-- An injector without children that has a graph without implicit constructors has the same one
with them. A provider that is declared is found in either case or in none. -/
theorem graph_autoBinding :
    (∀ {m : Model} {i : Injector} {s s' : Settings} {course course' : Course} {t t' : Token}
      {res res' : Resolution}
      {g : Graph}, i ∈ m.injectors → i.children = [] → s.autoBinding = false →
        s'.autoBinding = true →
      m.resolveDuring s course t = .ok (some res) →
        m.resolveDuring s' course' t' = .ok (some res') →
      res'.cancelled = [] → res.graph? i.id = some g → res'.graph? i.id = some g) ∧
    ∀ (c : Catalog) (registry : Registry) (k : Key) (r : Resolved),
      Lookup.resolve ⟨c, registry, false⟩ k = .ok r ↔
        Lookup.resolve ⟨c, registry, true⟩ k = .ok r ∧ r.provider.isDeclared := by
  refine ⟨fun {m i s s' course course' t t' res res' g} hi hchildren hs hs' h h' hlive hg => ?_,
    fun c registry k r => @Lookup.resolve_allowing_iff ⟨c, registry, false⟩ k r⟩
  obtain ⟨c, hm, hr⟩ := resolve_of_graph? h hg
  rw [hs] at hr
  have hc := Catalog.sound_of_ofModel hm
  have hget : c.injectors.get? i.id = some i := (Catalog.get?_injectors hm).2 ⟨hi, rfl⟩
  have hr' : c.resolve true = some res' := by
    obtain ⟨c', hm', hres'⟩ := resolveDuring_eq_some h'
    rw [hm] at hm'
    cases hm'
    split at hres'
    · -- all would be cancelled, this injector among them
      have hmem : i.id ∈ res'.cancelled := hres' ▸ Table.mem_keys_iff.2 (by simp [hget])
      rw [hlive] at hmem
      cases hmem
    · rwa [hs'] at hres'
  obtain ⟨l, hl, hd, hfreeze⟩ := (Catalog.graph?_childless hc hr hget hchildren).1 hg
  obtain ⟨hsame, hl'⟩ := Catalog.lookup?_allowing hl
  have hbuilt := Site.buildLocal_withLookup hchildren (hsame ▸ l.extends_allowing) hd
  refine (Catalog.graph?_childless hc hr' hget hchildren).2 ⟨_, hl', ?_, ?_⟩
  · rw [hbuilt]
    exact hd
  · rw [hbuilt]
    exact hfreeze

end Model

/-- `K` and `L` could be constructed, but a factory makes the one, and a link leads from the other
to it. The way to complete a `T` is declared, too. -/
def declaredInjector : Injector where
  id := "Declared"
  specifications := ["S"]
  providers := [{ name := "l", key := ⟨"L", none⟩ }]
  builders := [{ name := "t", key := ⟨"T", none⟩ }]

def implicitInjector : Injector where
  id := "Implicit"
  providers := [{ name := "a", key := ⟨"A", none⟩ }]

def constructibleModel : Model where
  injectors := [declaredInjector, implicitInjector]
  specifications := [
    { id := "S"
      factories := [.ofKey "make_k" ⟨"K", none⟩]
      builders := [(Builder.ofKey "fill_t" ⟨"T", none⟩).parameter ⟨"K", none⟩]
      links := [.between ⟨"L", none⟩ ⟨"K", none⟩] }]
  types := [(TypeInfo.named "A").withConstructor .automatic,
    ((TypeInfo.named "K").supertype "L").withConstructor .automatic,
    ((TypeInfo.named "L").withConstructor .automatic).withConstructor
    (Constructor.automatic.named "other"),
    (TypeInfo.named "T").property "a" ⟨"A", none⟩ true]

theorem graph_autoBinding_declared : ∃ res res' g,
    constructibleModel.resolveDuring { autoBinding := false }
      (.still {} 0 (Nat.zero_le _)) ⟨0, none⟩ =
      .ok (some res) ∧
    constructibleModel.resolveDuring { autoBinding := true }
      (.still {} 0 (Nat.zero_le _)) ⟨0, none⟩ =
      .ok (some res') ∧
    res.graph? declaredInjector.id = some g ∧ res'.graph? declaredInjector.id = some g ∧
    g.nodes.length = 1 ∧
    res.graph? implicitInjector.id = none ∧ (res'.graph? implicitInjector.id).isSome := by
  have run : ∀ {b : Bool},
    (constructibleModel.resolveDuring { autoBinding := b } (.still {} 0 (Nat.zero_le _))
      ⟨0, none⟩).toOption.any (·.any fun res =>
        (res.graph? declaredInjector.id).any (fun g => g.nodes.length == 1) &&
        res.cancelled.isEmpty &&
          (res.graph? implicitInjector.id).isSome == b) := by
    decide +kernel
  obtain ⟨res, hres, h⟩ := exists_of_any_any (run (b := false))
  obtain ⟨res', hres', h'⟩ := exists_of_any_any (run (b := true))
  simp only [Bool.and_eq_true, beq_iff_eq, List.isEmpty_iff] at h h'
  obtain ⟨g, hg, hnodes⟩ := (Option.any_eq_true _ _).1 h.1.1
  have hsame : res'.graph? declaredInjector.id = some g :=
    Model.graph_autoBinding.1 List.mem_cons_self rfl rfl rfl hres hres' h'.1.2 hg
  exact ⟨res, res', g, hres, hres', hg, hsame, beq_iff_eq.1 hnodes, by simpa using h.2, h'.2⟩

end Wiring
