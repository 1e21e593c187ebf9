import Wiring.Proofs.Distinct
import Wiring.Proofs.Local
import Wiring.Proofs.Routes

set_option autoImplicit false

namespace Wiring

namespace Lookup

variable {l : Lookup} {j k e e' x y : Key} {d : Link} {via via' : List Key} {p p' : Provider}

theorem Binds.hop?_eq_none (h : l.Binds k p) : l.hop? k = none := by
  cases h with
  | factory hf => simp [hop?, hf]
  | external hf hx => simp [hop?, hf, hx]
  | auto hc _ =>
    simp [hop?, hc.unbound.factory, hc.unbound.external, hc.unbound.link, hc.unbound.inheriting]

theorem Route.next (h : l.Route x via e) (hhop : l.hop? x = some (d, y)) (hend : l.hop? e = none) :
    ∃ rest, via = x :: rest ∧ l.Route y rest e := by
  cases h with
  | stay =>
    rw [hend] at hhop
    cases hhop
  | hop hhop' _ hroute =>
    obtain ⟨-, rfl⟩ := Prod.mk.inj (Option.some.inj (hhop'.symm.trans hhop))
    exact ⟨_, rfl, hroute⟩

theorem Route.unique (h : l.Route k via e) (h' : l.Route k via' e') (hend : l.hop? e = none)
    (hend' : l.hop? e' = none) : via = via' ∧ e = e' := by
  induction h generalizing via' with
  | stay =>
    cases h' with
    | stay => exact ⟨rfl, rfl⟩
    | hop hhop _ _ =>
      rw [hend] at hhop
      cases hhop
  | hop hhop _ _ ih =>
    obtain ⟨rest, rfl, hrest⟩ := h'.next hhop hend'
    obtain ⟨rfl, rfl⟩ := ih hrest hend
    exact ⟨rfl, rfl⟩

theorem Route.from_passed (h : l.Route k via e) (hx : x ∈ via) :
    ∃ rest, rest <:+ via ∧ l.Route x rest e := by
  induction h with
  | stay => cases hx
  | hop hhop hadmits hroute ih =>
    rcases List.mem_cons.1 hx with rfl | hx
    · exact ⟨_, List.suffix_refl _, .hop hhop hadmits hroute⟩
    · obtain ⟨rest, hrest, hroute⟩ := ih hx
      exact ⟨rest, hrest.trans (List.suffix_cons _ _), hroute⟩

theorem Route.notMem_of_hop (h : l.Route y via e) (hend : l.hop? e = none)
    (hhop : l.hop? x = some (d, y)) (hadmits : l.Admits y x) : x ∉ via ++ [e] := by
  intro hx
  rcases List.mem_append.1 hx with hx | hx
  · obtain ⟨rest, hrest, hroute⟩ := h.from_passed hx
    obtain ⟨rfl, _⟩ := hroute.unique (.hop hhop hadmits h) hend hend
    have hle := hrest.length_le
    rw [List.length_cons] at hle
    omega
  · obtain rfl := List.mem_singleton.1 hx
    rw [hend] at hhop
    cases hhop

theorem Answers.route (h : l.Answers k (.ok ⟨e, via, p⟩)) :
    l.Route k via e ∧ (via ++ [e]).Nodup ∧ l.Binds e p := by
  cases h with
  | provided hroute hnodup hp => exact ⟨hroute, hnodup, hp⟩

theorem answers_hop (hhop : l.hop? x = some (d, y)) (hadmits : l.Admits y x) :
    l.Answers x (.ok ⟨e, via', p⟩) ↔ ∃ via, via' = x :: via ∧ l.Answers y (.ok ⟨e, via, p⟩) := by
  constructor
  · intro h
    obtain ⟨hroute, hnodup, hp⟩ := h.route
    obtain ⟨via, rfl, hrest⟩ := hroute.next hhop hp.hop?_eq_none
    exact ⟨via, rfl, .provided hrest (List.nodup_cons.1 hnodup).2 hp⟩
  · rintro ⟨via, rfl, h⟩
    obtain ⟨hroute, hnodup, hp⟩ := h.route
    have hx := hroute.notMem_of_hop hp.hop?_eq_none hhop hadmits
    exact .provided (.hop hhop hadmits hroute) (List.nodup_cons.2 ⟨hx, hnodup⟩) hp

theorem Local.same_node {s : Store} {a b : Nat} {r r' : Resolved} (h : l.Local s)
    (hx : s.status? x = some (.done a)) (hy : s.status? y = some (.done b))
    (hr : l.resolve x = .ok r) (hr' : l.resolve y = .ok r') (hkey : r.key = r'.key) : a = b := by
  obtain ⟨_, rx, hrx, ha⟩ := h.backed hx
  obtain ⟨_, ry, hry, hb⟩ := h.backed hy
  obtain rfl := Except.ok.inj (hr.symm.trans hrx)
  obtain rfl := Except.ok.inj (hr'.symm.trans hry)
  rw [hkey, hb] at ha
  exact (Status.done.inj (Option.some.inj ha)).symm

end Lookup

namespace Catalog

variable {c : Catalog} {autoBinding : Bool} {id : InjectorId} {i : Injector} {l : Lookup}
  {res : Resolution} {g : Graph}

theorem local_of_graph?_childless (hc : c.Sound) (hr : c.resolve autoBinding = some res)
    (hi : c.injectors.get? id = some i) (hchildren : i.children = [])
    (hl : c.lookup? autoBinding id = some l) (hg : res.graph? id = some g) :
    ∃ s, l.Local s ∧ ∀ k n, g.keys.get? k = some n ↔ s.status? k = some (.done n) := by
  obtain ⟨l', hl', _, hfreeze⟩ := (graph?_childless hc hr hi hchildren).1 hg
  obtain rfl : l' = l := Option.some.inj (hl'.symm.trans hl)
  obtain ⟨_, hkeys, _⟩ := Draft.freeze_some hfreeze
  have hfitted := Site.fitted_addMethods i l'
  rw [← Site.buildLocal_childless hchildren] at hfitted
  refine ⟨_, (Site.Grows.buildLocal { injector := i, lookup := l' }).lookup ▸ hfitted.store,
    fun k n => ?_⟩
  rw [hkeys]
  exact Store.get?_nodeKeys

end Catalog

/-- A request along a link comes to what the linked key comes to, past one key more. In the graph of
an injector without children the two keys have the same node. -/
theorem Lookup.resolve_hop_iff {ss : List Specification} {is : List Interface} {r : Registry}
    (h : Registry.register ss is = .ok r) (c : Catalog) (autoBinding : Bool) {x y : Key} {d : Link}
    (hhop : (⟨c, r, autoBinding⟩ : Lookup).hop? x = some (d, y))
    (hadmits : (⟨c, r, autoBinding⟩ : Lookup).Admits y x) :
    (∀ key via' p, (⟨c, r, autoBinding⟩ : Lookup).resolve x = .ok ⟨key, via', p⟩ ↔
      ∃ via, via' = x :: via ∧ (⟨c, r, autoBinding⟩ : Lookup).resolve y = .ok ⟨key, via, p⟩) ∧
    ∀ m s course t res i g a b, Catalog.ofModel m = .ok c →
      m.resolveDuring s course t = .ok (some res) →
      s.autoBinding = autoBinding → i ∈ m.injectors → i.children = [] →
      c.lookup? autoBinding i.id = some ⟨c, r, autoBinding⟩ → res.graph? i.id = some g →
      g.keys.get? x = some a → g.keys.get? y = some b → a = b := by
  have hiff : ∀ key via' p, (⟨c, r, autoBinding⟩ : Lookup).resolve x = .ok ⟨key, via', p⟩ ↔
      ∃ via, via' = x :: via ∧ (⟨c, r, autoBinding⟩ : Lookup).resolve y = .ok ⟨key, via, p⟩ := by
    intro key via' p
    have hanswers : ∀ k out, (⟨c, r, autoBinding⟩ : Lookup).resolve k = out ↔
        (⟨c, r, autoBinding⟩ : Lookup).Answers k out :=
          fun _ _ => resolve_eq_iff (Registry.sorted_of_register h)
    simp only [hanswers]
    exact answers_hop hhop hadmits
  refine ⟨hiff, ?_⟩
  rintro m s course t res i g a b hm hres rfl hi hchildren hl hg hx hy
  obtain ⟨c', hm', hres⟩ := Model.resolve_of_graph? hres hg
  obtain rfl : c' = c := Except.ok.inj (hm'.symm.trans hm)
  obtain ⟨s, hlocal, hkeys⟩ := Catalog.local_of_graph?_childless (Catalog.sound_of_ofModel hm) hres
    ((Catalog.get?_injectors hm).2 ⟨hi, rfl⟩) hchildren hl hg
  rw [hkeys] at hx hy
  obtain ⟨_, ⟨key, via', p⟩, hr, _⟩ := hlocal.backed hx
  obtain ⟨via, _, hr'⟩ := (hiff key via' p).1 hr
  exact hlocal.same_node hx hy hr hr' rfl

def linkedModel : Model where
  injectors := [
    { id := "One"
      specifications := ["S"]
      providers :=
        [{ name := "a", key := ⟨"A", none⟩ }, { name := "b", key := ⟨"B", some (.label "q")⟩ }] }]
  specifications := [routedSpecification]

theorem resolve_hop_linked : ∃ c r res g d, Catalog.ofModel linkedModel = .ok c ∧
    Registry.register [routedSpecification] [] = .ok r ∧
    (⟨c, r, true⟩ : Lookup).hop? ⟨"A", none⟩ = some (d, ⟨"B", some (.label "q")⟩) ∧
    (⟨c, r, true⟩ : Lookup).Admits ⟨"B", some (.label "q")⟩ ⟨"A", none⟩ ∧
    (∃ key via p, (⟨c, r, true⟩ : Lookup).resolve ⟨"A", none⟩ = .ok ⟨key, ⟨"A", none⟩ :: via, p⟩ ∧
      (⟨c, r, true⟩ : Lookup).resolve ⟨"B", some (.label "q")⟩ = .ok ⟨key, via, p⟩) ∧
    linkedModel.resolveDuring {} (.still {} 0 (Nat.zero_le _)) ⟨0, none⟩ = .ok (some res) ∧
    res.graph? "One" = some g ∧
    ∃ a b, g.keys.get? ⟨"A", none⟩ = some a ∧
      g.keys.get? ⟨"B", some (.label "q")⟩ = some b ∧ a = b := by
  have h : (Catalog.ofModel linkedModel).toOption.any fun c =>
      (Registry.register [routedSpecification] []).toOption.any fun r =>
        ((⟨c, r, true⟩ : Lookup).hop? ⟨"A", none⟩).any
          (fun e => decide (e.2 = ⟨"B", some (.label "q")⟩)) &&
        decide (c.isAssignable "B" "A" ≠ some false) &&
        decide (c.lookup? true "One" = some ⟨c, r, true⟩) &&
        ((⟨c, r, true⟩ : Lookup).resolve ⟨"A", none⟩).toOption.isSome := by
    decide +kernel
  have hbatch :
      (linkedModel.resolveDuring {} (.still {} 0 (Nat.zero_le _)) ⟨0, none⟩).toOption.any fun out =>
      out.any fun res => (res.graph? "One").any fun g =>
        (g.keys.get? ⟨"A", none⟩).isSome && (g.keys.get? ⟨"B", some (.label "q")⟩).isSome := by
    decide +kernel
  obtain ⟨c, hc, h⟩ := exists_of_any h
  obtain ⟨r, hr, h⟩ := exists_of_any h
  obtain ⟨⟨⟨hhop, hadmits⟩, hl⟩, hres⟩ : ((_ ∧ _) ∧ _) ∧ _ := by
    simpa only [Bool.and_eq_true] using h
  obtain ⟨⟨d, y⟩, hhop, hy⟩ := (Option.any_eq_true _ _).1 hhop
  obtain rfl : y = _ := of_decide_eq_true hy
  obtain ⟨out, hout, h⟩ := exists_of_any hbatch
  obtain ⟨res, rfl, h⟩ := (Option.any_eq_true _ out).1 h
  obtain ⟨g, hg, h⟩ := (Option.any_eq_true _ (res.graph? "One")).1 h
  obtain ⟨ha, hb⟩ := Bool.and_eq_true_iff.1 h
  obtain ⟨a, ha⟩ := Option.isSome_iff_exists.1 ha
  obtain ⟨b, hb⟩ := Option.isSome_iff_exists.1 hb
  have hadmits := of_decide_eq_true hadmits
  obtain ⟨hiff, hnodes⟩ := Lookup.resolve_hop_iff hr c true hhop hadmits
  obtain ⟨⟨key, via', p⟩, hresolve, _⟩ := exists_of_any (p := fun _ => true) (by simpa using hres)
  obtain ⟨via, rfl, hresolve'⟩ := (hiff key via' p).1 hresolve
  exact ⟨c, r, res, g, d, hc, hr, hhop, hadmits, ⟨key, via, p, hresolve, hresolve'⟩, hout, hg, a, b,
    ha, hb,
    hnodes _ _ _ _ res _ g a b hc hout rfl List.mem_cons_self rfl (of_decide_eq_true hl) hg ha hb⟩

end Wiring
