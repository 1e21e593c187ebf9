import Mathlib.Data.List.Nodup
import Mathlib.Data.List.Perm.Subperm
import Mathlib.Data.List.ProdSigma
import Wiring.Model.Compose
import Wiring.Proofs.Building
import Wiring.Proofs.Registration

/-!
Where links lead. From a key without a binding of its own at most one link goes on, and a request
follows these links until it comes to a binding, or to the first reason to fail. There are too few
links for it to stop before.
-/

set_option autoImplicit false

namespace Wiring

namespace Lookup

/-- The link that goes on from a key, and where it leads. None does if a factory makes the key or an
interface expects it; a link for this very key comes before the one for its type, which hands the
qualifier on. -/
def hop? (l : Lookup) (k : Key) : Option (Link × Key) :=
  match l.registry.factories.get? k, l.registry.externals.get? k, l.registry.links.get? k with
  | none, none, some d => some (d.value, d.value.source)
  | none, none, none =>
    (l.registry.inheriting.get? k.type).map fun d => (d.value, ⟨d.value.source.type, k.qualifier⟩)
  | _, _, _ => none

structure Unbound (l : Lookup) (k : Key) : Prop where
  factory : l.registry.factories.get? k = none
  external : l.registry.externals.get? k = none
  link : l.registry.links.get? k = none
  inheriting : l.registry.inheriting.get? k.type = none

/-- A type whose constructors are tried for a key, since nothing is declared for it. -/
structure Constructs (l : Lookup) (k : Key) (t : TypeInfo) : Prop where
  unbound : l.Unbound k
  allowed : l.autoBinding
  unqualified : k.qualifier = none
  type : l.catalog.types.get? k.type = some t

/-- The binding of a key: its factory, or else an interface, or else the only implicit constructor
of its type. -/
inductive Binds (l : Lookup) (k : Key) : Provider → Prop where
  | factory {d : Declared Factory} : l.registry.factories.get? k = some d → Binds l k (.factory d)
  | external {i : InterfaceId} : l.registry.factories.get? k = none →
      l.registry.externals.get? k = some i → Binds l k (.external i)
  | auto {t : TypeInfo} {c : Constructor} : l.Constructs k t → t.implicits = [c] →
      Binds l k (.auto t c)

/-- Why a key has no binding and no link: its type has several implicit constructors, or none that
may be used. -/
inductive Lacks (l : Lookup) (k : Key) : BindingError → Prop where
  | duplicate {t : TypeInfo} : l.Constructs k t → 1 < t.implicits.length →
      Lacks l k (.duplicate k (t.implicits.map (·.display t.name)) t.location)
  | missing : l.Unbound k → (∀ t, l.Constructs k t → t.implicits = []) → Lacks l k (.missing k)

/-- The type of a key may stand in for that of another, as far as is known. -/
def Admits (l : Lookup) (source target : Key) : Prop :=
  l.catalog.isAssignable source.type target.type ≠ some false

/-- Links that fit lead from one key to another, past the keys of a list. -/
inductive Route (l : Lookup) : Key → List Key → Key → Prop where
  | stay {k : Key} : Route l k [] k
  | hop {k j e : Key} {d : Link} {via : List Key} : l.hop? k = some (d, j) → l.Admits j k →
      Route l j via e →
      Route l k (k :: via) e

/-- What a request for a key comes to. It takes the longest route on which no key occurs twice. -/
inductive Answers (l : Lookup) (k : Key) : Except BindingError Resolved → Prop where
  | provided {via : List Key} {e : Key} {p : Provider} : l.Route k via e → (via ++ [e]).Nodup →
      l.Binds e p → Answers l k (.ok ⟨e, via, p⟩)
  | lacking {via : List Key} {e : Key} {err : BindingError} : l.Route k via e → (via ++ [e]).Nodup →
      l.Lacks e err → Answers l k (.error err)
  | mismatch {via : List Key} {e next : Key} {d : Link} : l.Route k via e → (via ++ [e]).Nodup →
      l.hop? e = some (d, next) → ¬ l.Admits next e →
      Answers l k (.error (.invalidLink e (.typeMismatch e.type next.type) d.location))
  | cycle {via : List Key} {e next : Key} {d : Link} : l.Route k via e → (via ++ [e]).Nodup →
      l.hop? e = some (d, next) → l.Admits next e → next ∈ via ++ [e] →
      Answers l k (.error (.invalidLink k (.cycle (via ++ [e, next])) d.location))

variable {l : Lookup} {j k e next : Key} {d : Link} {via via' : List Key} {p : Provider}
  {err : BindingError}

theorem hop?_eq_some_iff : l.hop? k = some (d, j) ↔
    (l.registry.factories.get? k = none ∧ l.registry.externals.get? k = none) ∧
      ((∃ x, l.registry.links.get? k = some x ∧ x.value = d ∧ x.value.source = j) ∨
        l.registry.links.get? k = none ∧
          ∃ x, l.registry.inheriting.get? k.type = some x ∧ x.value = d ∧
          ⟨x.value.source.type, k.qualifier⟩ = j) := by
  unfold hop?
  split <;> simp_all

theorem find_of_unbound (h : l.Unbound k) :
    l.find k = if l.autoBinding then l.implicit? k else .error (.missing k) := by
  simp [find, Registry.factory?, Registry.external?, Registry.link?, h.factory, h.external,
    h.link, h.inheriting]

theorem find_of_binds (h : l.Binds k p) : l.find k = .provider p := by
  cases h with
  | factory hf => simp only [find, Registry.factory?, hf]
  | external hf hx => simp only [find, Registry.factory?, Registry.external?, hf, hx]
  | auto hc ht =>
    simp [find_of_unbound hc.unbound, hc.allowed, implicit?, plainType?,
      hc.unqualified, hc.type, ht]

theorem find_of_lacks (h : l.Lacks k err) : l.find k = .error err := by
  cases h with
  | @duplicate t hc ht =>
    have hi : l.implicit? k = .error
        (.duplicate k (t.implicits.map (·.display t.name)) t.location) := by
      unfold implicit? plainType?
      rw [if_pos hc.unqualified, hc.type]
      dsimp only
      split <;> simp_all
    rw [find_of_unbound hc.unbound, if_pos hc.allowed, hi]
  | missing hu hnone =>
    rw [find_of_unbound hu]
    split
    · rename_i ha
      unfold implicit? plainType?
      split
      · rfl
      · rename_i t ht
        split at ht
        · rename_i hq
          rw [hnone t ⟨hu, ha, hq, ht⟩]
        · cases ht
    · rfl

theorem find_of_hop (hs : l.registry.Sorted) (h : l.hop? k = some (d, next)) :
    l.find k = .link d ∧ d.next k = next := by
  obtain ⟨⟨hf, hx⟩, ⟨x, hl, rfl, rfl⟩ | ⟨hl, x, hi, rfl, rfl⟩⟩ := hop?_eq_some_iff.1 h
  · refine ⟨by simp [find, Registry.factory?, Registry.external?, Registry.link?, hf, hx, hl], ?_⟩
    rw [Link.next, (hs.links hl).1]
  · refine ⟨by simp [find, Registry.factory?, Registry.external?, Registry.link?, hf, hx, hl, hi],
      ?_⟩
    rw [Link.next, (hs.inheriting hi).1]
    rfl

theorem unbound_of_hop?_eq_none (hf : l.registry.factories.get? k = none)
    (hx : l.registry.externals.get? k = none) (h : l.hop? k = none) : l.Unbound k := by
  unfold hop? at h
  rw [hf, hx] at h
  cases hl : l.registry.links.get? k with
  | some d => simp [hl] at h
  | none => exact ⟨hf, hx, hl, by simpa [hl] using h⟩

theorem Unbound.binds_or_lacks (h : l.Unbound k) : (∃ p, l.Binds k p) ∨ ∃ err, l.Lacks k err := by
  by_cases ht : ∃ t, l.Constructs k t
  · obtain ⟨t, ht⟩ := ht
    rcases hi : t.implicits with _ | ⟨c, _ | ⟨c', cs⟩⟩
    · refine .inr ⟨_, .missing h fun t' ht' => ?_⟩
      obtain rfl : t = t' := Option.some.inj (ht.type.symm.trans ht'.type)
      exact hi
    · exact .inl ⟨_, .auto ht hi⟩
    · exact .inr ⟨_, .duplicate ht (by simp [hi])⟩
  · exact .inr ⟨_, .missing h fun t ht' => absurd ⟨t, ht'⟩ ht⟩

theorem binds_or_hop_or_lacks (l : Lookup) (k : Key) :
    (∃ p, l.Binds k p) ∨ (∃ d next, l.hop? k = some (d, next)) ∨ ∃ err, l.Lacks k err := by
  cases hf : l.registry.factories.get? k with
  | some x => exact .inl ⟨_, .factory hf⟩
  | none =>
    cases hx : l.registry.externals.get? k with
    | some i => exact .inl ⟨_, .external hf hx⟩
    | none =>
      cases hl : l.hop? k with
      | some hop => exact .inr (.inl ⟨_, _, rfl⟩)
      | none =>
        rcases (unbound_of_hop?_eq_none hf hx hl).binds_or_lacks with hp | hlack
        · exact .inl hp
        · exact .inr (.inr hlack)

theorem resolveFrom_route {n : Nat} (hs : l.registry.Sorted) (h : l.Route j via e) :
    ∀ passed : List Key, (passed ++ via ++ [e]).Nodup →
      l.resolveFrom (n + via.length) ⟨passed, j, (passed ++ [j]).reverse⟩ =
        l.resolveFrom n ⟨passed ++ via, e, (passed ++ via ++ [e]).reverse⟩ := by
  induction h with
  | stay => simp
  | @hop k j e d via hhop hadmits hroute ih =>
    intro passed hnodup
    obtain ⟨hfind, rfl⟩ := find_of_hop hs hhop
    have hrest : passed ++ k :: via = passed ++ [k] ++ via := by simp
    rw [hrest] at hnodup ⊢
    -- the route goes on with the key that the link leads to
    have hnext : d.next k ∉ passed ++ [k] := by
      have hmem : d.next k ∈ via ++ [e] := by
        cases hroute <;> simp
      rw [List.append_assoc] at hnodup
      exact fun hm => (List.nodup_append.1 hnodup).2.2 _ hm _ hmem rfl
    have hopen : AliasChain.Open ⟨passed, k, (passed ++ [k]).reverse⟩ l.catalog d :=
      ⟨hadmits, by simpa only [List.mem_reverse] using hnext⟩
    have hstep : l.resolveFrom (n + via.length + 1) ⟨passed, k, (passed ++ [k]).reverse⟩ =
        l.resolveFrom (n + via.length) _ := resolveFrom_link hfind hopen
    rw [List.length_cons, ← Nat.add_assoc, hstep, ← ih _ hnodup]
    simp [AliasChain.after]

theorem Route.concat (h : l.Route k via e) (hhop : l.hop? e = some (d, next))
    (hadmits : l.Admits next e) : l.Route k (via ++ [e]) next := by
  induction h with
  | stay => exact .hop hhop hadmits .stay
  | hop h' ha _ ih =>
    rw [List.cons_append]
    exact .hop h' ha (ih hhop hadmits)

/-- The qualifiers that requests for a key can come to. -/
def qualifiers (r : Registry) (k : Key) : List (Option Qualifier) :=
  k.qualifier :: r.links.values.map (·.value.source.qualifier)

def places (r : Registry) (k : Key) : List Key :=
  r.links.keys ++ (r.inheriting.keys ×ˢ qualifiers r k).map fun (t, q) => ⟨t, q⟩

theorem length_places (r : Registry) (k : Key) : (places r k).length = linkBound r := by
  simp [places, qualifiers, linkBound, List.length_product, Table.keys, Table.values]

theorem mem_places_of_hop (hhop : l.hop? j = some (d, next))
    (hq : j.qualifier ∈ qualifiers l.registry k) :
    j ∈ places l.registry k ∧ next.qualifier ∈ qualifiers l.registry k := by
  rw [places, List.mem_append, List.mem_map, Table.mem_keys_iff]
  obtain ⟨_, ⟨x, hl, rfl, rfl⟩ | ⟨hl, x, hi, rfl, rfl⟩⟩ := hop?_eq_some_iff.1 hhop
  · exact ⟨.inl ⟨x, hl⟩, List.mem_cons_of_mem _
      (List.mem_map.2 ⟨x, Table.mem_values_iff.2 ⟨j, hl⟩, rfl⟩)⟩
  · exact ⟨.inr ⟨(j.type, j.qualifier), List.mem_product.2 ⟨Table.mem_keys_iff.2 ⟨x, hi⟩, hq⟩, rfl⟩,
      hq⟩

theorem Route.subset_places (h : l.Route j via e) (hq : j.qualifier ∈ qualifiers l.registry k) :
    via ⊆ places l.registry k := by
  induction h with
  | stay => exact List.nil_subset _
  | hop hhop _ _ ih =>
    obtain ⟨hplace, hq⟩ := mem_places_of_hop hhop hq
    exact List.cons_subset.2 ⟨hplace, ih hq⟩

theorem Route.length_le (h : l.Route k via e) (hnodup : via.Nodup) :
    via.length ≤ linkBound l.registry := by
  rw [← length_places l.registry k]
  exact (hnodup.subperm (h.subset_places List.mem_cons_self)).length_le

theorem resolve_route (hs : l.registry.Sorted) (h : l.Route k via e) (hnodup : (via ++ [e]).Nodup) :
    ∃ n, l.resolve k = l.resolveFrom (n + 1) ⟨via, e, (via ++ [e]).reverse⟩ := by
  obtain ⟨n, hn⟩ := Nat.exists_eq_add_of_le' (h.length_le (List.Nodup.of_append_left hnodup))
  refine ⟨n, ?_⟩
  rw [resolve, hn, Nat.add_right_comm]
  exact resolveFrom_route hs h [] hnodup

theorem resolve_of_answers {out : Except BindingError Resolved} (hs : l.registry.Sorted)
    (h : l.Answers k out) : l.resolve k = out := by
  cases h with
  | provided hroute hnodup hp =>
    obtain ⟨n, hn⟩ := resolve_route hs hroute hnodup
    rw [hn, resolveFrom, find_of_binds hp]
  | lacking hroute hnodup hlack =>
    obtain ⟨n, hn⟩ := resolve_route hs hroute hnodup
    rw [hn, resolveFrom, find_of_lacks hlack]
  | @mismatch via e next d hroute hnodup hhop hadmits =>
    obtain ⟨n, hn⟩ := resolve_route hs hroute hnodup
    obtain ⟨hfind, rfl⟩ := find_of_hop hs hhop
    rw [hn, resolveFrom, hfind]
    simp [AliasChain.follow, not_not.1 hadmits]
  | @cycle via e next d hroute hnodup hhop hadmits hmem =>
    obtain ⟨n, hn⟩ := resolve_route hs hroute hnodup
    obtain ⟨hfind, rfl⟩ := find_of_hop hs hhop
    have hhead : (via ++ [e, d.next e]).head?.getD (d.next e) = k := by cases hroute <;> rfl
    rw [hn, resolveFrom, hfind]
    simp only [AliasChain.follow, if_neg hadmits, List.contains_iff_mem, List.mem_reverse,
      if_pos hmem, hhead]

/-- Every request has an answer, since every route without repetition can be extended or ends. -/
theorem exists_answers_of_route (h : l.Route k via e) (hnodup : (via ++ [e]).Nodup) :
    ∃ out, l.Answers k out := by
  induction hn : linkBound l.registry - via.length using Nat.strongRecOn generalizing via e with
  | ind n ih =>
    rcases l.binds_or_hop_or_lacks e with ⟨p, hp⟩ | ⟨d, next, hhop⟩ | ⟨err, hlack⟩
    · exact ⟨_, .provided h hnodup hp⟩
    · by_cases hadmits : l.Admits next e
      · by_cases hmem : next ∈ via ++ [e]
        · exact ⟨_, .cycle h hnodup hhop hadmits hmem⟩
        · have hlonger := h.concat hhop hadmits
          have hle := hlonger.length_le hnodup
          rw [List.length_append, List.length_singleton] at hle
          have hnext : (via ++ [e] ++ [next]).Nodup :=
            hnodup.append (List.nodup_singleton _) (by simpa using hmem)
          exact ih _ (by rw [List.length_append, List.length_singleton]; omega) hlonger hnext rfl
      · exact ⟨_, .mismatch h hnodup hhop hadmits⟩
    · exact ⟨_, .lacking h hnodup hlack⟩

theorem resolve_eq_iff {out : Except BindingError Resolved} (hs : l.registry.Sorted) :
    l.resolve k = out ↔ l.Answers k out := by
  constructor
  · rintro rfl
    obtain ⟨out, hout⟩ := exists_answers_of_route (.stay (l := l) (k := k)) (List.nodup_singleton _)
    rwa [resolve_of_answers hs hout]
  · exact resolve_of_answers hs

/-- A request comes to what the bindings and links of a registry say, whatever they are and whether
or not types are constructed without being declared. -/
theorem resolve_eq_iff_answers {ss : List Specification} {is : List Interface} {r : Registry}
    (h : Registry.register ss is = .ok r) (c : Catalog) (autoBinding : Bool) (k : Key)
    (out : Except BindingError Resolved) :
    (⟨c, r, autoBinding⟩ : Lookup).resolve k = out ↔ (⟨c, r, autoBinding⟩ : Lookup).Answers k out :=
  resolve_eq_iff (Registry.sorted_of_register h)

end Lookup

/-- Two links lead from `A` to the factory for a qualified `C`; `X` and `Y` are only linked to each
other. -/
def routedSpecification : Specification where
  id := "S"
  factories := [.ofKey "make_c" ⟨"C", some (.label "q")⟩]
  links := [.between ⟨"A", none⟩ ⟨"B", some (.label "q")⟩,
    (Link.between ⟨"B", none⟩ ⟨"C", none⟩).inheritQualifier,
    .between ⟨"X", none⟩ ⟨"Y", none⟩, .between ⟨"Y", none⟩ ⟨"X", none⟩]

theorem answers_routed : ∃ r, Registry.register [routedSpecification] [] = .ok r ∧
    (∃ p, (⟨⟨.empty, .empty, .empty, .empty⟩, r, true⟩ : Lookup).Answers ⟨"A", none⟩
      (.ok ⟨⟨"C", some (.label "q")⟩, [⟨"A", none⟩, ⟨"B", some (.label "q")⟩], p⟩)) ∧
    (⟨⟨.empty, .empty, .empty, .empty⟩, r, true⟩ : Lookup).Answers ⟨"X", none⟩
      (.error (.invalidLink ⟨"X", none⟩
        (.cycle [⟨"X", none⟩, ⟨"Y", none⟩, ⟨"X", none⟩]) none)) := by
  have h : (Registry.register [routedSpecification] []).toOption.any fun r =>
      let l : Lookup := ⟨⟨.empty, .empty, .empty, .empty⟩, r, true⟩
      (l.resolve ⟨"A", none⟩).toOption.any (fun res => decide (res.key = ⟨"C", some (.label "q")⟩ ∧
        res.via = [⟨"A", none⟩, ⟨"B", some (.label "q")⟩])) &&
      decide (l.resolve ⟨"X", none⟩ =
        .error (.invalidLink ⟨"X", none⟩
          (.cycle [⟨"X", none⟩, ⟨"Y", none⟩, ⟨"X", none⟩]) none)) := by
    decide +kernel
  obtain ⟨r, hr, h⟩ := exists_of_any h
  obtain ⟨hfound, hcycle⟩ := Bool.and_eq_true_iff.1 h
  obtain ⟨⟨key, via, p⟩, hres, hkey⟩ := exists_of_any hfound
  obtain ⟨rfl, rfl⟩ : key = _ ∧ via = _ := of_decide_eq_true hkey
  exact ⟨r, hr, ⟨p, (Lookup.resolve_eq_iff_answers hr _ true _ _).1 hres⟩,
    (Lookup.resolve_eq_iff_answers hr _ true _ _).1 (of_decide_eq_true hcycle)⟩

end Wiring
