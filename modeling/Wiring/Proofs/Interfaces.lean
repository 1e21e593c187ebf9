import Wiring.Proofs.Distinct
import Wiring.Proofs.Registration
import Wiring.Proofs.Trees

set_option autoImplicit false

namespace Wiring

/-- The members of a list, each once, in the order of their first places. -/
structure Firsts {α : Type} [BEq α] (all firsts : List α) : Prop where
  mem : ∀ a, a ∈ firsts ↔ a ∈ all
  nodup : firsts.Nodup
  order : firsts.Pairwise fun a b => all.idxOf a < all.idxOf b

section Firsts

variable {α : Type} [BEq α] [LawfulBEq α] {all : List α} {p : α → Bool} {a b : α}

theorem idxOf_lt_of_filter (ha : p a) (hb : p b)
    (h : (all.filter p).idxOf a < (all.filter p).idxOf b) : all.idxOf a < all.idxOf b := by
  induction all with
  | nil => exact h
  | cons x xs ih =>
    by_cases hx : p x
    · rw [List.filter_cons_of_pos hx] at h
      simp only [List.idxOf_cons] at h ⊢
      cases hxa : x == a <;> cases hxb : x == b <;> simp_all
    · have hne : ∀ c, p c → (x == c) = false := by
        intro c hc
        rw [beq_eq_false_iff_ne]
        rintro rfl
        exact hx hc
      rw [List.filter_cons_of_neg hx] at h
      simp only [List.idxOf_cons, hne a ha, hne b hb, cond_false]
      exact Nat.succ_lt_succ (ih h)

theorem pairwise_eraseDups (all : List α) :
    all.eraseDups.Pairwise fun a b => all.idxOf a < all.idxOf b := by
  induction hn : all.length using Nat.strong_induction_on generalizing all with
  | _ n ih =>
    cases all with
    | nil => simp
    | cons x xs =>
      have hkept : ∀ c ∈ (xs.filter fun y => !y == x).eraseDups, (x == c) = false := by
        intro c hc
        have hne := (List.mem_filter.1 (List.mem_eraseDups.1 hc)).2
        rw [Bool.not_eq_true', beq_eq_false_iff_ne] at hne
        exact beq_eq_false_iff_ne.2 hne.symm
      have hlen : (xs.filter fun y => !y == x).length < n := by
        rw [← hn, List.length_cons]
        exact Nat.lt_succ_of_le (List.length_filter_le _ _)
      rw [List.eraseDups_cons, List.pairwise_cons]
      constructor
      · intro c hc
        simp [List.idxOf_cons, hkept c hc]
      · refine (ih _ hlen _ rfl).imp_of_mem fun {a b} ha hb hlt => ?_
        simp only [List.idxOf_cons, hkept a ha, hkept b hb, cond_false]
        refine Nat.succ_lt_succ (idxOf_lt_of_filter ?_ ?_ hlt)
        · exact (List.mem_filter.1 (List.mem_eraseDups.1 ha)).2
        · exact (List.mem_filter.1 (List.mem_eraseDups.1 hb)).2

theorem firsts_eraseDups (all : List α) : Firsts all all.eraseDups where
  mem _ := List.mem_eraseDups
  nodup := (pairwise_eraseDups all).imp fun hlt => by
    rintro rfl
    exact Nat.lt_irrefl _ hlt
  order := pairwise_eraseDups all

end Firsts

namespace Site

variable {s : Site} {q : Request} {qs : List Request} {r : Requirement} {a : Argument}

def asked (s : Site) : List (ChildAccessor × List Key) :=
  s.children.map fun ch => (ch.accessor, ch.args.map (·.1))

theorem asked_setArgument : (s.setArgument r a).asked = s.asked := by
  unfold asked setArgument
  refine List.ext_getElem? fun n => ?_
  simp only [List.getElem?_map, List.getElem?_modify]
  cases s.children[n]? with
  | none => rfl
  | some child =>
    have hargs : (child.args.modify r.argument fun e => (e.1, a)).map (·.1) =
        child.args.map (·.1) := by
      refine List.ext_getElem? fun i => ?_
      simp only [List.getElem?_map, List.getElem?_modify]
      cases child.args[i]? with
      | none => rfl
      | some e => by_cases hi : r.argument = i <;> simp [hi]
    by_cases hn : r.child = n <;> simp [hn, hargs]

theorem asked_serve : (s.serve q).asked = s.asked := by
  cases q with
  | offer k => simp only [serve, asked, Hierarchy.children_exportKey]
  | pass k => rfl
  | satisfy r => exact asked_setArgument
  | refuse r =>
    simp only [serve, refuse]
    split
    · rfl
    · exact asked_setArgument

theorem asked_serveAll : (s.serveAll qs).asked = s.asked := by
  induction qs generalizing s with
  | nil => rfl
  | cons q qs ih => exact ih.trans asked_serve

end Site

namespace Lookup

variable {l : Lookup} {s : Store} {k : Key}

/-- Whatever is not drawn from an ancestor comes from the provider of its key. -/
def Provides (l : Lookup) (s : Store) : Prop :=
  ∀ n ∈ s.nodes, n.binding ≠ .inherited → ∃ p, l.find n.key = .provider p ∧ n.binding = p.binding

namespace Provides

theorem empty : l.Provides .empty := fun _ h => by simp at h

theorem walk (h : l.Provides s) (hi : s.Idle) : l.Provides (l.walk k s).2 := by
  intro n hn hb
  have hg := walk_gathers (l := l) (k := k) hi
  obtain ⟨i, hn⟩ := List.mem_iff_getElem?.1 hn
  rcases getElem?_of_prefix hg.extends.nodes hn with hold | hnew
  · exact h n (List.mem_of_getElem? hold) hb
  · obtain ⟨p, hp, hbinding, _⟩ := (hg.sourced (a := s) fun _ _ hd => .inl hd).2.2 i n hnew hn
    exact ⟨p, hp, hbinding⟩

theorem inherit (h : l.Provides s) : l.Provides (s.inherit k).2 := by
  rcases Store.inherit_cases s k with ⟨i, _, hs⟩ | ⟨_, hs⟩
  · rwa [hs]
  · rw [hs]
    intro n hn hb
    rcases List.mem_append.1 hn with hn | hn
    · exact h n hn hb
    · obtain rfl := List.mem_singleton.1 hn
      exact absurd rfl hb

end Provides

theorem external_of_find {p : Provider} {f : InterfaceId} (hp : l.find k = .provider p)
    (hb : p.binding = .external f) : l.registry.external? k = some f := by
  cases p with
  | factory | auto => cases hb
  | external i =>
    cases hb
    unfold find implicit? at hp
    split at hp
    · cases hp
    · split at hp
      · rename_i hext
        cases hp
        exact hext
      · repeat' split at hp
        all_goals cases hp

end Lookup

namespace Site

variable {s : Site} {q : Request} {qs : List Request}

theorem provides_serve (h : s.lookup.Provides s.store) (hi : s.store.Idle) :
    s.lookup.Provides (s.serve q).store := by
  rcases s.serve_store q with ⟨k, _, hs | hs⟩ | ⟨k, _, hs⟩ | hs
  · rw [hs]
    exact h.walk hi
  · rw [hs]
    intro n hn
    rw [Store.nodes_rollback (Lookup.walk_gathers hi).extends] at hn
    exact h n hn
  · rw [hs]
    exact h.inherit
  · rwa [hs]

theorem provides_serveAll (h : s.lookup.Provides s.store) (hi : s.store.Idle) :
    s.lookup.Provides (s.serveAll qs).store := by
  induction qs generalizing s with
  | nil => exact h
  | cons q qs ih =>
    have hlookup : (s.serve q).lookup = s.lookup := keeps_serve.lookup
    have hserve : (s.serve q).lookup.Provides (s.serve q).store := hlookup ▸ provides_serve h hi
    have hall := ih hserve (idle_serve hi)
    rwa [hlookup] at hall

theorem start_registered {c : Catalog} {autoBinding : Bool} {i : Injector}
    (h : start c autoBinding i = .ok s) :
    ∃ r, Registry.register (c.specificationClosure i) (c.interfacesOf i) = .ok r ∧
      s.lookup.registry = r := by
  unfold start at h
  split at h
  · rename_i r hr
    cases h
    exact ⟨r, hr, rfl⟩
  · cases h

end Site

theorem Registry.mem_of_external {ss : List Specification} {is : List Interface} {r : Registry}
    {k : Key} {f : InterfaceId} (hr : Registry.register ss is = .ok r)
    (hk : r.external? k = some f) : k ∈ is.flatMap (·.keys) := by
  obtain ⟨_, _, rfl⟩ := Registry.register_ok_iff.1 hr
  obtain ⟨i, hfind, -⟩ := Option.map_eq_some_iff.1 ((Registry.get?_externals _ is k).symm.trans hk)
  exact List.mem_flatMap.2 ⟨i, List.mem_of_find?_eq_some hfind,
    by simpa using List.find?_some hfind⟩

theorem ChildSite.draft?_args {c : ChildSite} {d : DraftChild} (h : c.draft? = some d) :
    d.args.map (·.1) = c.args.map (·.1) := by
  obtain ⟨args, hargs, rfl⟩ := Option.map_eq_some_iff.1 h
  refine map_mapM hargs fun e e' he => ?_
  obtain ⟨i, _, rfl⟩ := Option.map_eq_some_iff.1 he
  rfl

theorem Draft.freezeChild_args {es : Expressions} {d : DraftChild} {c : ChildImpl}
    (h : freezeChild es d = some c) : c.child = d.child ∧ c.args.map (·.1) = d.args.map (·.1) := by
  obtain ⟨args, hargs, rfl⟩ := Option.map_eq_some_iff.1 h
  refine ⟨rfl, map_mapM hargs fun e e' he => ?_⟩
  obtain ⟨x, _, rfl⟩ := Option.map_eq_some_iff.1 he
  rfl

theorem Graph.external_of_used {g : Graph} {d : Draft} {id : InjectorId} {e : Expr} {k : Key}
    (hg : d.freeze id = some g) (he : e ∈ g.exprs) (hu : .external k ∈ e.used) :
    ∃ n ∈ g.nodes, (∃ f, n.binding = .external f) ∧ n.key = k := by
  obtain ⟨es, hf⟩ := exists_frozen hg
  obtain ⟨j, hj⟩ := hf.expressed.exists_used he hu
  have hlt : j < g.nodes.length := by
    rw [← hf.expressed.describes.length]
    exact (List.getElem?_eq_some_iff.1 hj).1
  obtain ⟨u, hju, huses⟩ := Expressions.uses_ofNodes hf.nodes (List.getElem?_eq_getElem hlt)
  cases hju.symm.trans hj
  exact ⟨_, List.getElem_mem hlt, huses.1, huses.2.symm⟩

namespace Catalog

variable {m : Model} {c : Catalog} {autoBinding : Bool} {id : InjectorId} {s : Site}
  {res : Resolution} {g : Graph} {ch : ChildImpl}

theorem graph_passes (hc : c.Sound) (hr : c.resolve autoBinding = some res)
    (hg : res.graph? id = some g) (hch : ch ∈ g.children) :
    ∃ i, c.injectors.get? ch.child = some i ∧
      ch.args.map (·.1) = ((c.interfacesOf i).flatMap (·.keys)).eraseDups := by
  obtain ⟨s, hs, hd, hfreeze⟩ := graph?_linked hc hr hg
  obtain ⟨es, hf⟩ := Graph.exists_frozen hfreeze
  obtain ⟨w, hw, hfrozen⟩ := exists_of_forall₂ hf.children hch
  obtain ⟨site, hsite, hdraft⟩ := List.mem_filterMap.1 hw
  obtain ⟨hchild, hargs⟩ := Draft.freezeChild_args hfrozen
  rw [hchild, hargs, (ChildSite.draft?_eq hdraft).2, ChildSite.draft?_args hdraft]
  -- the keys that an accessor passes are those it had before anything was asked of its injector
  have hasked : (site.accessor, site.args.map (·.1)) ∈ s.asked := by
    rw [← Site.asked_serveAll]
    exact List.mem_map_of_mem hsite
  obtain ⟨site', hsite', he⟩ := List.mem_map.1 hasked
  rw [Site.diagnostics_serveAll, List.append_eq_nil_iff] at hd
  obtain ⟨i₀, s₀, hi₀, hs₀, rfl⟩ := site?_built.1 hs
  obtain ⟨registry, rfl⟩ := Site.start_ok hs₀
  obtain ⟨_, _, haccessors, hjudged⟩ := Site.buildLocal_surface hd.1
  obtain ⟨haccessor, hkeys⟩ := Prod.mk.inj he
  have hmem : site.accessor ∈ i₀.children := by
    rw [← haccessors, ← haccessor]
    exact List.mem_map_of_mem hsite'
  obtain ⟨i, hi⟩ := Option.isSome_iff_exists.1 (hc.present hi₀ hmem)
  refine ⟨i, hi, ?_⟩
  rw [← hkeys, (hjudged site' hsite').keys, haccessor, Site.requiredBy, hi]

theorem graph_externals (hc : c.Sound) (hr : c.resolve autoBinding = some res)
    (hg : res.graph? id = some g) :
    ∃ i, c.injectors.get? id = some i ∧ ∀ n ∈ g.nodes, ∀ f, n.binding = .external f →
      n.key ∈ (c.interfacesOf i).flatMap (·.keys) := by
  obtain ⟨s, hs, hd, hfreeze⟩ := graph?_linked hc hr hg
  obtain ⟨hidle, hbuilt⟩ : s.store.Idle ∧ s.lookup.Provides s.store :=
    store_built hs .empty fun hi hp => hp.walk hi
  have hfinal : s.lookup.Provides (s.serveAll (c.requests autoBinding id)).store :=
    Site.provides_serveAll hbuilt hidle
  obtain ⟨i, s₀, hi, hs₀, rfl⟩ := site?_built.1 hs
  refine ⟨i, hi, fun n hn f hb => ?_⟩
  rw [(Draft.freeze_some hfreeze).1] at hn
  obtain ⟨p, hp, hbinding⟩ := hfinal n hn (by simp [hb])
  rw [(Site.Grows.buildLocal s₀).lookup] at hp
  obtain ⟨r, hr, hregistry⟩ := Site.start_registered hs₀
  have hext := Lookup.external_of_find hp (hbinding.symm.trans hb)
  rw [hregistry] at hext
  exact Registry.mem_of_external hr hext

end Catalog

namespace Model

variable {m : Model} {s : Settings} {course : Course} {t : Token} {res : Resolution} {c : Catalog}
  {id : InjectorId} {g gc : Graph} {ch : ChildImpl} {i : Injector}

def expected (m : Model) (i : Injector) : List Key :=
  (i.dependencies.filterMap fun d => m.interfaces.find? (·.id = d)).flatMap (·.keys)

theorem expected_eq (hc : Catalog.ofModel m = .ok c) :
    (c.interfacesOf i).flatMap (·.keys) = m.expected i := by
  have hindex := (Catalog.ofModel_ok_iff.1 hc).1.interfaces
  have hfind : ∀ d, c.interfaces.get? d = m.interfaces.find? (·.id = d) := by
    intro d
    cases hf : m.interfaces.find? (·.id = d) with
    | some f => exact (get?_index hindex).2 ⟨List.mem_of_find?_eq_some hf,
        by simpa using List.find?_some hf⟩
    | none =>
      refine Option.eq_none_iff_forall_ne_some.2 fun f hget => ?_
      obtain ⟨hm, hid⟩ := (get?_index hindex).1 hget
      exact List.find?_eq_none.1 hf f hm (by simpa using hid)
  have hget : c.interfaces.get? = fun d => m.interfaces.find? (·.id = d) := funext hfind
  rw [Catalog.interfacesOf, hget, expected]

/-- A parent and a child agree on what the child takes from outside: an accessor passes the keys
that the interfaces of its child declare, and the graph of the child has external nodes for these
keys only. -/
theorem graph_passes_interfaces (h : m.resolveDuring s course t = .ok (some res))
    (hg : res.graph? id = some g) (hch : ch ∈ g.children) :
    (∃ i ∈ m.injectors, i.id = ch.child ∧ Firsts (m.expected i) (ch.args.map (·.1))) ∧
      ∀ gc, res.graph? ch.child = some gc →
        (∀ n ∈ gc.nodes, ∀ f, n.binding = .external f → n.key ∈ ch.args.map (·.1)) ∧
        ∀ e ∈ gc.exprs, ∀ k, .external k ∈ e.used → k ∈ ch.args.map (·.1) := by
  obtain ⟨c, hc, hr⟩ := resolve_of_graph? h hg
  have hsound := Catalog.sound_of_ofModel hc
  obtain ⟨i, hi, hargs⟩ := Catalog.graph_passes hsound hr hg hch
  obtain ⟨hmem, hid⟩ := (Catalog.get?_injectors hc).1 hi
  rw [hargs]
  refine ⟨⟨i, hmem, hid, ?_⟩, fun gc hgc => ?_⟩
  · rw [expected_eq hc]
    exact firsts_eraseDups _
  · obtain ⟨i', hi', hexternals⟩ := Catalog.graph_externals hsound hr hgc
    obtain rfl : i' = i := Option.some.inj (hi'.symm.trans hi)
    have hnodes : ∀ n ∈ gc.nodes, ∀ f, n.binding = .external f →
        n.key ∈ ((c.interfacesOf i').flatMap (·.keys)).eraseDups := fun n hn f hb =>
      List.mem_eraseDups.2 (hexternals n hn f hb)
    refine ⟨hnodes, fun e he k hu => ?_⟩
    obtain ⟨site, _, hfreeze, _⟩ := Catalog.graph_distinct hsound hr hgc
    obtain ⟨n, hn, ⟨f, hb⟩, rfl⟩ := Graph.external_of_used hfreeze he hu
    exact hnodes n hn f hb

end Model

/-- `Leaf` expects `K` and `S`, and `K` a second time. `Mid` makes `S` and passes `K` on from
`Root`. -/
def sharedKeysModel : Model where
  injectors := [
    { id := "Root", specifications := ["R"], children := [{ name := "mid", injector := "Mid" }] },
    { id := "Mid", specifications := ["M"], children := [{ name := "leaf", injector := "Leaf" }] },
    { id := "Leaf", dependencies := ["I", "J"],
      providers := [{ name := "k", key := ⟨"K", none⟩ }] }]
  specifications := [
    { id := "R", factories := [.ofKey "make_k" ⟨"K", none⟩] },
    { id := "M", factories := [.ofKey "make_s" ⟨"S", none⟩] }]
  interfaces :=
    [{ id := "I", keys := [⟨"K", none⟩] }, { id := "J", keys := [⟨"S", none⟩, ⟨"K", none⟩] }]

theorem graph_passes_shared_keys : ∃ res g ch gc,
    sharedKeysModel.resolveDuring {} (.still {} 0 (Nat.zero_le _)) ⟨0, none⟩ = .ok (some res) ∧
    res.graph? "Mid" = some g ∧ ch ∈ g.children ∧ res.graph? ch.child = some gc ∧
    ch.args.map (·.1) = [⟨"K", none⟩, ⟨"S", none⟩] ∧
    (∃ i ∈ sharedKeysModel.injectors,
      i.id = ch.child ∧ Firsts (sharedKeysModel.expected i) (ch.args.map (·.1))) ∧
    ∀ n ∈ gc.nodes, ∀ f, n.binding = .external f → n.key ∈ ch.args.map (·.1) := by
  have h : (sharedKeysModel.resolveDuring {} (.still {} 0 (Nat.zero_le _)) ⟨0, none⟩).toOption.any
      fun out => out.any fun res =>
        (res.graph? "Mid").any fun g => g.children.any fun ch => (res.graph? ch.child).isSome &&
        decide (ch.args.map (·.1) = [⟨"K", none⟩, ⟨"S", none⟩]) := by
    decide +kernel
  obtain ⟨out, hout, h⟩ := exists_of_any h
  obtain ⟨res, rfl, h⟩ := (Option.any_eq_true _ out).1 h
  obtain ⟨g, hg, h⟩ := (Option.any_eq_true _ (res.graph? "Mid")).1 h
  obtain ⟨ch, hch, h⟩ := List.any_eq_true.1 h
  rw [Bool.and_eq_true, decide_eq_true_eq] at h
  obtain ⟨gc, hgc⟩ := Option.isSome_iff_exists.1 h.1
  obtain ⟨hpassed, hexternals⟩ := Model.graph_passes_interfaces hout hg hch
  exact ⟨res, g, ch, gc, hout, hg, hch, hgc, h.2, hpassed, (hexternals gc hgc).1⟩

end Wiring
