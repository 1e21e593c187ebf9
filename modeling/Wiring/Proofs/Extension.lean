import Wiring.Proofs.Distinct
import Wiring.Proofs.Local
import Wiring.Proofs.Slots

set_option autoImplicit false

namespace Wiring

open Relation

/-- A graph that has another one at its beginning: nodes and slots come behind, keys and recipes are
added, and providers and builders are the same, with their expressions. -/
structure Graph.Extends (g g' : Graph) : Prop where
  injector : g'.injector = g.injector
  nodes : g.nodes <+: g'.nodes
  slots : g.slots <+: g'.slots
  providers : g'.providers = g.providers
  builders : g'.builders = g.builders
  keys : g.keys.entries ⊆ g'.keys.entries
  recipes : g.recipes.entries ⊆ g'.recipes.entries

namespace Draft

variable {d d' : Draft} {id : InjectorId} {g' : Graph}

/-- Where a draft in order goes on, so does its graph. -/
theorem exists_freeze_of_prefix (hg : d'.freeze id = some g') (hd : d.InOrder)
    (hnodes : d.nodes <+: d'.nodes)
    (hkeys : ∀ k i, d.keys.get? k = some i → d'.keys.get? k = some i)
    (hproviders : d'.providers = d.providers) (hbuilders : d'.builders = d.builders) :
    ∃ g, d.freeze id = some g ∧ g.Extends g' := by
  obtain ⟨g, hfreeze⟩ : ∃ g, d.freeze id = some g := Option.isSome_iff_exists.1 (freeze_isSome hd)
  refine ⟨g, hfreeze, ?_⟩
  simp only [freeze, Option.bind_eq_bind, Option.bind_eq_some_iff, Option.some.injEq] at hfreeze hg
  obtain ⟨es, hes, ps, hps, bs, hbs, cs, _, rfl⟩ := hfreeze
  obtain ⟨es', hes', ps', hps', bs', hbs', cs', _, rfl⟩ := hg
  obtain ⟨es₁, hes₁, hextends⟩ := Expressions.exists_ofNodes_of_prefix hnodes hes'
  obtain rfl : es₁ = es := Option.some.inj (hes₁.symm.trans hes)
  have hdescribes := Expressions.describes_ofNodes hes
  have hroot : ∀ i, i < d.nodes.length → es'.root? i = es₁.root? i := fun i hi =>
    hextends.root? (by rwa [hdescribes.length])
  have hsame : ps' = ps := by
    rw [hproviders, mapM_congr (g := freezeProvider es₁)] at hps'
    · exact Option.some.inj (hps'.symm.trans hps)
    · rintro ⟨m, k, i⟩ he
      simp only [freezeProvider, hroot i (hd.providers _ he)]
  have hsame' : bs' = bs := by
    rw [hbuilders, mapM_congr (g := freezeBuilder es₁)] at hbs'
    · exact Option.some.inj (hbs'.symm.trans hbs)
    · intro b hb
      simp only [freezeBuilder, mapM_congr fun i hi => hroot i (hd.builders b hb i hi)]
  refine ⟨rfl, hnodes, hextends.slots, hsame, hsame', ?_, ?_⟩
  · rintro ⟨k, i⟩ he
    rw [← Table.get?_eq_some_iff] at he ⊢
    exact hkeys k i he
  · rintro ⟨i, e⟩ he
    rw [← Table.get?_eq_some_iff] at he ⊢
    obtain ⟨⟨n, _, hn, _⟩, _⟩ := hdescribes.recipes i e he
    obtain ⟨hlt, _⟩ := List.getElem?_eq_some_iff.1 hn
    dsimp only
    rw [hextends.recipes i (by rwa [hdescribes.length]), he]

end Draft

namespace Lookup

/-- A store that goes on from another one: the nodes come behind, and every key that has a node
there shares it still with the key with its provider. -/
structure Continues (l : Lookup) (s s' : Store) : Prop where
  idle : s'.Idle
  nodes : s.nodes <+: s'.nodes
  keys : ∀ j i, s.status? j = some (.done i) → l.Backed s' j i

namespace Continues

variable {l : Lookup} {s s' : Store} {k : Key}

theorem refl (h : l.Local s) : l.Continues s s :=
  ⟨h.threaded.idle, List.prefix_refl _, fun _ _ => h.backed⟩

theorem walk (h : l.Continues s s') : l.Continues s (l.walk k s').2 := by
  have hg := walk_gathers (l := l) (k := k) h.idle
  exact ⟨hg.idle h.idle, h.nodes.trans hg.extends.nodes, fun j i hj => hg.backed (h.keys j i hj)⟩

theorem rollback (h : l.Continues s s') : l.Continues s ((l.walk k s').2.rollback s') := by
  have hg := walk_gathers (l := l) (k := k) h.idle
  refine ⟨(hg.idle h.idle).rollback hg.extends, ?_, fun j i hj => ?_⟩
  · rw [Store.nodes_rollback hg.extends]
    exact h.nodes
  · -- the two keys were known before the attempt, so that they keep what they have after it
    obtain ⟨hs, r, hr, hsr⟩ := h.keys j i hj
    obtain ⟨hs', r', hr', hsr'⟩ := hg.backed ⟨hs, r, hr, hsr⟩
    rw [hr] at hr'
    cases hr'
    refine ⟨?_, r, hr, ?_⟩
    · rw [Store.status?_rollback hg.extends, if_neg (by simp [hs]), hs']
    · rw [Store.status?_rollback hg.extends, if_neg (by simp [hsr]), hsr']

theorem inherit (h : l.Continues s s') : l.Continues s (s'.inherit k).2 := by
  refine ⟨h.idle.inherit, h.nodes.trans (s'.nodes_inherit k), fun j i hj => ?_⟩
  have hback := h.keys j i hj
  rcases Store.inherit_cases s' k with ⟨_, _, hs⟩ | ⟨hk, hs⟩
  · rwa [hs]
  · have keeps : ∀ {d : Key}, s'.status? d = some (.done i) →
        (s'.inherit k).2.status? d = some (.done i) := by
      intro d hd
      rw [hs, Store.status?_remember, if_neg]
      · exact hd
      · rintro rfl
        exact hk i hd
    obtain ⟨hj, r, hr, hsr⟩ := hback
    exact ⟨keeps hj, r, hr, keeps hsr⟩

theorem walked {s'' : Store} (h : l.Continues s s') (hs : ReflTransGen l.Walked s' s'') :
    l.Continues s s'' :=
  (walked_keeps hs (fun _ hc => hc.walk) h.idle h).2

end Continues

end Lookup

namespace Site

variable {s : Site} {store : Store} {q : Request} {qs : List Request} {k : Key}

theorem continues_serve (h : s.lookup.Continues store s.store) :
    s.lookup.Continues store (s.serve q).store := by
  rcases s.serve_store q with ⟨k, _, hs | hs⟩ | ⟨k, _, hs⟩ | hs
  · rw [hs]
    exact h.walk
  · rw [hs]
    exact h.rollback
  · rw [hs]
    exact h.inherit
  · rwa [hs]

theorem continues_serveAll (h : s.lookup.Continues store s.store) :
    s.lookup.Continues store (s.serveAll qs).store := by
  induction qs generalizing s with
  | nil => exact h
  | cons q qs ih =>
    have hkeeps : s.Keeps (s.serve q) := keeps_serve
    have hrest := ih (s := s.serve q) (hkeeps.lookup ▸ continues_serve h)
    rwa [hkeeps.lookup] at hrest

end Site

def Injector.childless (i : Injector) : Injector := { i with children := [] }

namespace Site

variable {s : Site} {i : Injector} {l : Lookup} {qs : List Request}

def childless (s : Site) : Site := { s with injector := s.injector.childless }

theorem unnoticed_childless : Unnoticed childless :=
  ⟨fun _ => rfl, fun _ _ => rfl, fun _ _ => rfl, fun _ _ => rfl, fun _ _ => rfl, fun _ _ => rfl⟩

theorem buildLocal_of_childless : buildLocal { injector := i.childless, lookup := l } =
    (i.builders.foldl addBuilder
      (i.providers.foldl addProvider { injector := i, lookup := l })).childless := by
  rw [buildLocal_childless rfl, ← unnoticed_childless.addMethods]
  rfl

theorem start_childless {c : Catalog} {autoBinding : Bool} {registry : Registry}
    (h : start c autoBinding i = .ok { injector := i, lookup := ⟨c, registry, autoBinding⟩ }) :
    start c autoBinding i.childless =
      .ok { injector := i.childless, lookup := ⟨c, registry, autoBinding⟩ } := by
  have hregister : Registry.register (c.specificationClosure i) (c.interfacesOf i) =
      .ok registry := by
    unfold start at h
    split at h
    · rename_i hr
      cases h
      exact hr
    · cases h
  unfold start
  rw [show Registry.register (c.specificationClosure i.childless) (c.interfacesOf i.childless) =
    .ok registry from hregister]

/-- Whatever is built for the children of an injector and asked of it goes on from what its methods
come to. -/
theorem continues_buildLocal :
    let t :=
      i.builders.foldl addBuilder (i.providers.foldl addProvider { injector := i, lookup := l })
    let s := (buildLocal { injector := i, lookup := l }).serveAll qs
    l.Continues t.store s.store ∧ s.providers = t.providers ∧ s.builders = t.builders ∧
      t.diagnostics <+: s.diagnostics := by
  intro t s
  have hbuilt : buildLocal { injector := i, lookup := l } = t.addChildren [] i.children :=
    buildLocal_eq _
  have hmethods : Site.Grows { injector := i, lookup := l } t :=
    (Grows.foldl Grows.addProvider _ _).trans (Grows.foldl Grows.addBuilder _ _)
  have hlookup : t.lookup = l := hmethods.lookup
  have hchildren := Grows.addChildren t [] i.children
  have hkeeps : (t.addChildren [] i.children).Keeps s := hbuilt ▸ keeps_serveAll
  obtain ⟨hp, hb⟩ := addChildren_lists i.children t []
  have hlocal : l.Local t.store := hlookup ▸ (fitted_addMethods i l).store
  refine ⟨?_, hkeeps.providers.trans hp, hkeeps.builders.trans hb, ?_⟩
  · have hcontinues := (Lookup.Continues.refl hlocal).walked (hlookup ▸ hchildren.store)
    have hall := @continues_serveAll (t.addChildren [] i.children) t.store qs
      (hchildren.lookup.trans hlookup ▸ hcontinues)
    rw [hchildren.lookup, hlookup, ← hbuilt] at hall
    exact hall
  · have hserved : (buildLocal { injector := i, lookup := l }).diagnostics <+: s.diagnostics := by
      rw [diagnostics_serveAll]
      exact List.prefix_append _ _
    rw [hbuilt] at hserved
    exact hchildren.diagnostics.trans hserved

theorem exists_finish_childless {g : Graph}
    (hd : ((buildLocal { injector := i, lookup := l }).serveAll qs).diagnostics = [])
    (hg : ((buildLocal { injector := i, lookup := l }).serveAll qs).draft.freeze i.id = some g) :
    ∃ g₀, (buildLocal { injector := i.childless, lookup := l }).finish = some (.ok g₀) ∧
      g₀.Extends g := by
  obtain ⟨hcontinues, hp, hb, hprefix⟩ := @continues_buildLocal i l qs
  have horder := (InOrder.start i.childless l).buildLocal
  have hid : (buildLocal { injector := i.childless, lookup := l }).id = i.id :=
    @id_serveAll i.childless l []
  rw [buildLocal_of_childless] at horder hid ⊢
  rw [hd, List.prefix_nil] at hprefix
  obtain ⟨g₀, hg₀, hextends⟩ := Draft.exists_freeze_of_prefix hg horder.draft hcontinues.nodes
    (fun k n hk => Store.get?_nodeKeys.2 (hcontinues.keys k n (Store.get?_nodeKeys.1 hk)).1) hp hb
  refine ⟨g₀, ?_, hextends⟩
  rw [finish, hid, hg₀]
  exact if_pos hprefix

end Site

namespace Model

variable {m : Model} {s : Settings} {course : Course} {t : Token} {res : Resolution}
  {id : InjectorId} {g : Graph}

/-- Descendants only extend an injector. Without its child accessors, and without the settling of
the hierarchy, it has a graph as well, at which the graph that it has in a batch begins. -/
theorem graph_extends_childless (h : m.resolveDuring s course t = .ok (some res))
    (hg : res.graph? id = some g) :
    ∃ c i g₀, Catalog.ofModel m = .ok c ∧ i ∈ m.injectors ∧ i.id = id ∧
      (SiteState.build c s.autoBinding i.childless).finish = some (.ok g₀) ∧ g₀.Extends g := by
  obtain ⟨c, hm, hr⟩ := resolve_of_graph? h hg
  obtain ⟨site, hs, hd, hfreeze⟩ := Catalog.graph?_linked (Catalog.sound_of_ofModel hm) hr hg
  obtain ⟨i, s₀, hi, hs₀, rfl⟩ := Catalog.site?_built.1 hs
  obtain ⟨registry, rfl⟩ := Site.start_ok hs₀
  obtain ⟨himem, hid⟩ := (Catalog.get?_injectors hm).1 hi
  rw [Site.id_serveAll] at hfreeze
  obtain ⟨g₀, hfinish, hextends⟩ := Site.exists_finish_childless hd hfreeze
  refine ⟨c, i, g₀, hm, himem, hid, ?_, hextends⟩
  rw [SiteState.build, Site.start_childless hs₀]
  exact hfinish

end Model

def providingModel : Model :=
  { sharedModel with
    injectors := sharedModel.injectors.map fun i =>
      { i with providers := if i.id = "Mid" then [{ name := "d", key := ⟨"D", none⟩ }] else [] } }

theorem graph_extends_childless_mid : ∃ res g c i g₀,
    providingModel.resolveDuring {} (.still {} 0 (Nat.zero_le _)) ⟨0, none⟩ = .ok (some res) ∧
    res.graph? "Mid" = some g ∧ g.nodes.length = 4 ∧ g.slots.length = 2 ∧
    Catalog.ofModel providingModel = .ok c ∧ i ∈ providingModel.injectors ∧ i.id = "Mid" ∧
    (SiteState.build c true i.childless).finish = some (.ok g₀) ∧ g₀.Extends g := by
  have h : (providingModel.resolveDuring {} (.still {} 0 (Nat.zero_le _)) ⟨0, none⟩).toOption.any
      fun out => out.any fun res =>
        (res.graph? "Mid").any fun g => decide (g.nodes.length = 4 ∧ g.slots.length = 2) := by
    decide +kernel
  obtain ⟨res, hout, h⟩ := exists_of_any_any h
  obtain ⟨g, hg, h⟩ := (Option.any_eq_true _ (res.graph? "Mid")).1 h
  obtain ⟨hnodes, hslots⟩ := of_decide_eq_true h
  obtain ⟨c, i, g₀, hc, hi, hid, hfinish, hextends⟩ := Model.graph_extends_childless hout hg
  exact ⟨res, g, c, i, g₀, hout, hg, hnodes, hslots, hc, hi, hid, hfinish, hextends⟩

end Wiring
