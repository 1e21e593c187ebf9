import Mathlib.Logic.Relation
import Wiring.Proofs.Cycles

set_option autoImplicit false

namespace Wiring

open Relation

def Key.Named (k : Key) : Prop := k.type ≠ "" ∧ ∀ q, k.qualifier = some q → q.text ≠ ""

inductive Rule where
  | unique (kind : RecordKind)
  | names
  | references
  | hierarchy

def Rule.place : Rule → Nat
  | .unique .injector => 0
  | .unique .specification => 1
  | .unique .interface => 2
  | .unique .type => 3
  | .names => 4
  | .references => 5
  | .hierarchy => 6

theorem Rule.eq_of_place {r r' : Rule} (h : r.place = r'.place) : r = r' := by
  rcases r with (_ | _ | _ | _) | _ | _ | _ <;> rcases r' with (_ | _ | _ | _) | _ | _ | _ <;>
    first | rfl | cases h

def Defect.rule : Defect → Rule
  | .duplicateId kind _ => .unique kind
  | .emptyTypeName _ _ | .emptyQualifier _ _ => .names
  | .unknownSpecification _ _ | .unknownInterface _ _ | .unknownInjector _ _ _ => .references
  | .hierarchyCycle _ => .hierarchy

namespace Model

def ids (m : Model) : RecordKind → List String
  | .injector => m.injectors.map (·.id)
  | .specification => m.specifications.map (·.id)
  | .interface => m.interfaces.map (·.id)
  | .type => m.types.map (·.name)

inductive Mentions (m : Model) : Key → Prop where
  | provides {s : Specification} {f : Factory} : s ∈ m.specifications → f ∈ s.factories →
      m.Mentions f.provides
  | factory {s : Specification} {f : Factory} {k : Key} : s ∈ m.specifications → f ∈ s.factories →
      k ∈ f.parameters → m.Mentions k
  | target {s : Specification} {b : Builder} : s ∈ m.specifications → b ∈ s.builders →
      m.Mentions b.target
  | builder {s : Specification} {b : Builder} {k : Key} : s ∈ m.specifications → b ∈ s.builders →
      k ∈ b.parameters → m.Mentions k
  | linkTarget {s : Specification} {l : Link} : s ∈ m.specifications → l ∈ s.links →
      m.Mentions l.target
  | linkSource {s : Specification} {l : Link} : s ∈ m.specifications → l ∈ s.links →
      m.Mentions l.source
  | interface {i : Interface} {k : Key} : i ∈ m.interfaces → k ∈ i.keys → m.Mentions k
  | constructor {t : TypeInfo} {c : Constructor} {k : Key} : t ∈ m.types → c ∈ t.constructors →
      k ∈ c.parameters → m.Mentions k
  | property {t : TypeInfo} {p : Property} : t ∈ m.types → p ∈ t.properties → m.Mentions p.key
  | providerMethod {i : Injector} {p : ProviderMethod} : i ∈ m.injectors → p ∈ i.providers →
      m.Mentions p.key
  | builderMethod {i : Injector} {b : BuilderMethod} : i ∈ m.injectors → b ∈ i.builders →
      m.Mentions b.key

def Holds (m : Model) (id child : InjectorId) : Prop :=
  ∃ i ∈ m.injectors, i.id = id ∧ ∃ a ∈ i.children, a.injector = child

def Obeys (m : Model) : Rule → Prop
  | .unique kind => (m.ids kind).Nodup
  | .names =>
    (∀ k, m.Mentions k → k.Named) ∧ ∀ t ∈ m.types, t.name ≠ "" ∧ ∀ n ∈ t.supertypes, n ≠ ""
  | .references =>
    (∀ s ∈ m.specifications, ∀ id ∈ s.includes, id ∈ m.ids .specification) ∧
    ∀ i ∈ m.injectors, (∀ id ∈ i.specifications, id ∈ m.ids .specification) ∧
      (∀ id ∈ i.dependencies, id ∈ m.ids .interface) ∧
      ∀ a ∈ i.children, a.injector ∈ m.ids .injector
  | .hierarchy => ∀ id, ¬ TransGen m.Holds id id

end Model

section Index

variable {α : Type} {kind : RecordKind} {idOf : α → String} {items : List α} {t t₀ : Table String α}
  {d : Defect}

theorem indexFrom_error (h : indexFrom kind idOf t₀ items = .error d) :
    ∃ id, d = .duplicateId kind id := by
  induction items generalizing t₀ with
  | nil => cases h
  | cons a as ih =>
    unfold indexFrom at h
    rw [List.foldlM_cons] at h
    split at h
    · cases h
      exact ⟨_, rfl⟩
    · exact ih h

theorem index_error (h : index kind idOf items = .error d) :
    (∃ id, d = .duplicateId kind id) ∧ ¬ (items.map idOf).Nodup := by
  have hfrom : indexFrom kind idOf .empty items = .error d := h
  refine ⟨indexFrom_error hfrom, fun hn => ?_⟩
  obtain ⟨t, ht⟩ : ∃ t, index kind idOf items = .ok t := exists_index hn
  rw [ht] at h
  cases h

theorem contains_index (h : index kind idOf items = .ok t) {k : String} :
    t.contains k ↔ k ∈ items.map idOf := by
  rw [Table.contains, Option.isSome_iff_exists, List.mem_map]
  simp only [get?_index h]

end Index

theorem failWith_error {o : Option Defect} {d : Defect} : failWith o = .error d ↔ o = some d := by
  cases o <;> simp [failWith]

theorem KeyUse.defect?_eq_none_iff {u : KeyUse} : u.defect? = none ↔ u.key.Named := by
  unfold defect? Key.Named
  split
  · rename_i h
    simp [h]
  · rename_i h
    cases hq : u.key.qualifier with
    | none => simp [h]
    | some q => by_cases ht : q.text = "" <;> simp [h, ht]

theorem KeyUse.rule_of_defect? {u : KeyUse} {d : Defect} (h : u.defect? = some d) :
    d.rule = .names := by
  unfold defect? at h
  split at h
  · cases h
    rfl
  · split at h <;> cases h
    rfl

namespace Model

variable {m : Model} {k : Key}

theorem mem_keyUses : k ∈ m.keyUses.map (·.key) ↔
    m.Mentions k ∨ ∃ t ∈ m.types, ∃ n ∈ t.name :: t.supertypes, ⟨n, none⟩ = k := by
  simp only [keyUses, Specification.keyUses, Interface.keyUses, TypeInfo.keyUses, Injector.keyUses,
    List.map_append, List.map_flatMap, List.map_map, Function.comp_def, List.map_id',
    List.mem_append, List.mem_flatMap, List.mem_map, List.mem_cons, List.not_mem_nil, or_false]
  constructor
  · rintro (((⟨s, hs, (⟨f, hf, rfl | hk⟩ | ⟨b, hb, rfl | hk⟩) | ⟨l, hl, rfl | rfl⟩⟩ | ⟨i, hi, hk⟩) |
      ⟨t, ht, (hn | ⟨c, hc, hk⟩) | ⟨p, hp, rfl⟩⟩) | ⟨i, hi, ⟨p, hp, rfl⟩ | ⟨b, hb, rfl⟩⟩)
    · exact .inl (.provides hs hf)
    · exact .inl (.factory hs hf hk)
    · exact .inl (.target hs hb)
    · exact .inl (.builder hs hb hk)
    · exact .inl (.linkTarget hs hl)
    · exact .inl (.linkSource hs hl)
    · exact .inl (.interface hi hk)
    · exact .inr ⟨t, ht, hn⟩
    · exact .inl (.constructor ht hc hk)
    · exact .inl (.property ht hp)
    · exact .inl (.providerMethod hi hp)
    · exact .inl (.builderMethod hi hb)
  · rintro (hk | ⟨t, ht, hn⟩)
    · cases hk with
      | provides hs hf => exact .inl (.inl (.inl ⟨_, hs, .inl (.inl ⟨_, hf, .inl rfl⟩)⟩))
      | factory hs hf hk => exact .inl (.inl (.inl ⟨_, hs, .inl (.inl ⟨_, hf, .inr hk⟩)⟩))
      | target hs hb => exact .inl (.inl (.inl ⟨_, hs, .inl (.inr ⟨_, hb, .inl rfl⟩)⟩))
      | builder hs hb hk => exact .inl (.inl (.inl ⟨_, hs, .inl (.inr ⟨_, hb, .inr hk⟩)⟩))
      | linkTarget hs hl => exact .inl (.inl (.inl ⟨_, hs, .inr ⟨_, hl, .inl rfl⟩⟩))
      | linkSource hs hl => exact .inl (.inl (.inl ⟨_, hs, .inr ⟨_, hl, .inr rfl⟩⟩))
      | interface hi hk => exact .inl (.inl (.inr ⟨_, hi, hk⟩))
      | constructor ht hc hk => exact .inl (.inr ⟨_, ht, .inl (.inr ⟨_, hc, hk⟩)⟩)
      | property ht hp => exact .inl (.inr ⟨_, ht, .inr ⟨_, hp, rfl⟩⟩)
      | providerMethod hi hp => exact .inr ⟨_, hi, .inl ⟨_, hp, rfl⟩⟩
      | builderMethod hi hb => exact .inr ⟨_, hi, .inr ⟨_, hb, rfl⟩⟩
    · exact .inl (.inr ⟨t, ht, .inl (.inl hn)⟩)

theorem obeys_names_iff : m.Obeys .names ↔ ∀ u ∈ m.keyUses, u.defect? = none := by
  have hkeys : (∀ u ∈ m.keyUses, u.defect? = none) ↔ ∀ k ∈ m.keyUses.map (·.key), k.Named := by
    simp only [KeyUse.defect?_eq_none_iff, List.forall_mem_map]
  rw [hkeys, Obeys]
  constructor
  · rintro ⟨hnamed, htypes⟩ k hk
    rcases mem_keyUses.1 hk with hk | ⟨t, ht, n, hn, rfl⟩
    · exact hnamed k hk
    · obtain ⟨hname, hsupers⟩ := htypes t ht
      refine ⟨?_, fun q hq => nomatch hq⟩
      rcases List.mem_cons.1 hn with rfl | hn
      · exact hname
      · exact hsupers n hn
  · intro h
    have htype : ∀ t ∈ m.types, ∀ n ∈ t.name :: t.supertypes, n ≠ "" := fun t ht n hn =>
      (h _ (mem_keyUses.2 (.inr ⟨t, ht, n, hn, rfl⟩))).1
    exact ⟨fun k hk => h k (mem_keyUses.2 (.inl hk)),
      fun t ht => List.forall_mem_cons.1 (htype t ht)⟩

end Model

namespace Catalog

variable {m : Model} {c : Catalog} {chain : List InjectorId} {id : InjectorId}

theorem Indexes.contains (hi : c.Indexes m) {k : String} :
    (c.injectors.contains k ↔ k ∈ m.ids .injector) ∧
    (c.specifications.contains k ↔ k ∈ m.ids .specification) ∧
      (c.interfaces.contains k ↔ k ∈ m.ids .interface) :=
  ⟨contains_index hi.injectors, contains_index hi.specifications, contains_index hi.interfaces⟩

theorem Indexes.values (hi : c.Indexes m) :
    (∀ i, i ∈ c.injectors.values ↔ i ∈ m.injectors) ∧
      ∀ s, s ∈ c.specifications.values ↔ s ∈ m.specifications := by
  simp only [Table.mem_values_iff, get?_index hi.injectors, get?_index hi.specifications,
    exists_and_left, exists_eq', and_true, implies_true]

theorem Indexes.obeys_references_iff (hi : c.Indexes m) :
    m.Obeys .references ↔ ∀ r ∈ c.references, c.danglingDefect? r = none := by
  obtain ⟨hinjectors, hspecifications⟩ := hi.values
  simp only [references, Specification.references, Injector.references, List.forall_mem_append,
    List.forall_mem_flatMap, List.forall_mem_map, hinjectors, hspecifications, danglingDefect?,
    ite_eq_left_iff, reduceCtorEq, imp_false, not_not, hi.contains, Model.Obeys, and_assoc]

theorem rule_of_danglingDefect? {r : Reference} {d : Defect} (h : c.danglingDefect? r = some d) :
    d.rule = .references := by
  cases r <;>
  · simp only [danglingDefect?, ite_eq_iff, reduceCtorEq, and_false, false_or,
      Option.some.injEq] at h
    obtain ⟨_, rfl⟩ := h
    rfl

theorem mem_childrenOf_iff (hi : c.Indexes m) {child : InjectorId} :
    child ∈ c.childrenOf id ↔ m.Holds id child := by
  simp only [mem_childrenOf, get?_index hi.injectors, Model.Holds, and_assoc]

theorem Indexes.closes (hi : c.Indexes m) (h : c.hierarchyCycle? = some chain) :
    Closes m.Holds chain :=
  closes_of_hierarchyCycle? (fun _ _ hchild => (mem_childrenOf_iff hi).1 hchild) h

theorem Indexes.obeys_hierarchy_iff (hi : c.Indexes m) (hk : m.Obeys .names)
    (hr : m.Obeys .references) : m.Obeys .hierarchy ↔ c.hierarchyCycle? = none := by
  constructor
  · intro h
    cases hcycle : c.hierarchyCycle? with
    | none => rfl
    | some chain =>
      obtain ⟨x, hx⟩ := (hi.closes hcycle).transGen
      exact absurd hx (h x)
  · intro h id hid
    have hm : Catalog.ofModel m = .ok c :=
      ofModel_ok_iff.2 ⟨hi, Model.obeys_names_iff.1 hk, hi.obeys_references_iff.1 hr, h⟩
    have hc := sound_of_ofModel hm
    obtain ⟨rank, hrank, _⟩ := hc.exists_rank
    -- the rank grows on the way down, so that no way comes back
    have hgrows : ∀ {x y}, TransGen m.Holds x y → rank x < rank y := by
      intro x y hxy
      induction hxy with
      | single h => exact hrank _ _ (hc.mem_parents.2 ((mem_childrenOf_iff hi).2 h))
      | tail _ h ih =>
        exact Nat.lt_trans ih (hrank _ _ (hc.mem_parents.2 ((mem_childrenOf_iff hi).2 h)))
    exact Nat.lt_irrefl _ (hgrows hid)

end Catalog

/-- A cycle of the hierarchy: each injector on it holds the next, and only the first comes again, as
the last. -/
structure Model.SimpleCycle (m : Model) (chain : List InjectorId) : Prop
    extends Closes m.Holds chain where
  listed : ∀ id ∈ chain, id ∈ m.ids .injector

/-- A check that passes if a model obeys a rule and otherwise names a defect of it. -/
structure Model.Decides {α : Type} (m : Model) (r : Rule) (x : Except Defect α) : Prop where
  obeyed : ∀ a, x = .ok a → m.Obeys r
  broken : ∀ d, x = .error d → d.rule = r ∧ ¬ m.Obeys r

/-- An outcome for a model that obeys the rules before a place: accepted if it obeys the others too,
and otherwise rejected for the first that it breaks. -/
def Model.Judged {α : Type} (m : Model) (place : Nat) (x : Except Defect α) : Prop :=
  (∀ r : Rule, r.place < place → m.Obeys r) →
    (∀ a, x = .ok a → ∀ r, m.Obeys r) ∧
    ∀ d, x = .error d → ¬ m.Obeys d.rule ∧ ∀ r, r.place < d.rule.place → m.Obeys r

namespace Model

variable {α β : Type} {m : Model} {r : Rule}

theorem Decides.judged {x : Except Defect α} {f : α → Except Defect β} (hx : m.Decides r x)
    (hf : ∀ a, x = .ok a → m.Obeys r → m.Judged (r.place + 1) (f a)) :
    m.Judged r.place (x >>= f) := by
  intro hbefore
  cases h : x with
  | error d =>
    obtain ⟨hrule, hbroken⟩ := hx.broken d h
    refine ⟨fun a ha => (nomatch ha), fun d' hd => ?_⟩
    cases hd
    rw [hrule]
    exact ⟨hbroken, hbefore⟩
  | ok a =>
    have hobeyed := hx.obeyed a h
    refine hf a h hobeyed fun r' hr' => ?_
    rcases Nat.lt_succ_iff_lt_or_eq.1 hr' with hlt | heq
    · exact hbefore r' hlt
    · rwa [Rule.eq_of_place heq]

theorem decides_index (m : Model) (kind : RecordKind) {idOf : α → String} {items : List α}
    (h : m.ids kind = items.map idOf) : m.Decides (.unique kind) (index kind idOf items) where
  obeyed t ht := by
    rw [Obeys, h]
    exact nodup_index ht
  broken d hd := by
    obtain ⟨⟨id, rfl⟩, hn⟩ := index_error hd
    rw [Obeys, h]
    exact ⟨rfl, hn⟩

theorem decides_failWith {o : Option Defect} (hr : ∀ d, o = some d → d.rule = r)
    (h : m.Obeys r ↔ o = none) : m.Decides r (failWith o) where
  obeyed _ ha := h.2 (failWith_ok.1 ha)
  broken d hd := by
    have ho := failWith_error.1 hd
    exact ⟨hr d ho, fun hobeys => by simp [h.1 hobeys] at ho⟩

theorem judged_ok {a : α} : m.Judged 7 (.ok a : Except Defect α) := by
  refine fun h => ⟨fun _ _ r => h r ?_, fun d hd => nomatch hd⟩
  rcases r with (_ | _ | _ | _) | _ | _ | _ <;> decide

theorem judged_ofModel (m : Model) : m.Judged 0 (Catalog.ofModel m) := by
  refine (m.decides_index .injector rfl).judged fun injectors hinjectors _ => ?_
  refine (m.decides_index .specification rfl).judged fun specifications hspecifications _ => ?_
  refine (m.decides_index .interface rfl).judged fun interfaces hinterfaces _ => ?_
  refine (m.decides_index .type rfl).judged fun types htypes _ => ?_
  have hi : Catalog.Indexes ⟨injectors, specifications, interfaces, types⟩ m :=
    ⟨hinjectors, hspecifications, hinterfaces, htypes⟩
  refine (decides_failWith (r := .names) ?_ ?_).judged fun _ _ hk => ?_
  · intro d hd
    obtain ⟨u, _, hu⟩ := List.exists_of_findSome?_eq_some hd
    exact KeyUse.rule_of_defect? hu
  · rw [List.findSome?_eq_none_iff]
    exact obeys_names_iff
  refine (decides_failWith (r := .references) ?_ ?_).judged fun _ _ hr => ?_
  · intro d hd
    obtain ⟨r, _, hr⟩ := List.exists_of_findSome?_eq_some hd
    exact Catalog.rule_of_danglingDefect? hr
  · rw [List.findSome?_eq_none_iff]
    exact hi.obeys_references_iff
  refine (decides_failWith (r := .hierarchy) ?_ ?_).judged fun _ _ _ => judged_ok
  · intro d hd
    obtain ⟨chain, _, rfl⟩ := Option.map_eq_some_iff.1 hd
    rfl
  · rw [Option.map_eq_none_iff]
    exact hi.obeys_hierarchy_iff hk hr

end Model

/-- The models that are accepted are those that obey every rule, and a model that is not accepted is
rejected for the first rule that it breaks. -/
theorem Catalog.ofModel_judges (m : Model) : ((∃ c, Catalog.ofModel m = .ok c) ↔ ∀ r, m.Obeys r) ∧
    ∀ d, Catalog.ofModel m = .error d → ¬ m.Obeys d.rule ∧
      ∀ r, r.place < d.rule.place → m.Obeys r := by
  obtain ⟨haccepted, hrejected⟩ := m.judged_ofModel fun r hr => absurd hr (Nat.not_lt_zero _)
  refine ⟨⟨fun ⟨c, hc⟩ => haccepted c hc, fun h => ?_⟩, hrejected⟩
  cases hm : Catalog.ofModel m with
  | ok c => exact ⟨c, rfl⟩
  | error d => exact absurd (h d.rule) (hrejected d hm).1

def Model.circular : Model where
  injectors := [
    { id := "A", children := [{ name := "b", injector := "B" }] },
    { id := "B", children := [{ name := "a", injector := "A" }] }]

theorem Catalog.ofModel_circular :
    Catalog.ofModel .circular = .error (.hierarchyCycle ["A", "B", "A"]) ∧
    ¬ Model.circular.Obeys .hierarchy ∧ Model.circular.Obeys .references := by
  have hrejected : Catalog.ofModel .circular = .error (.hierarchyCycle ["A", "B", "A"]) := by
    decide +kernel
  obtain ⟨_, hjudged⟩ := Catalog.ofModel_judges .circular
  obtain ⟨hbroken, hobeyed⟩ := hjudged _ hrejected
  exact ⟨hrejected, hbroken, hobeyed .references (by decide)⟩

theorem Catalog.indexes_of_hierarchyCycle {m : Model} {chain : List InjectorId}
    (h : Catalog.ofModel m = .error (.hierarchyCycle chain)) :
    ∃ c : Catalog, c.Indexes m ∧ c.hierarchyCycle? = some chain := by
  have hindex : ∀ {α : Type} {kind : RecordKind} {idOf : α → String} {items : List α},
      index kind idOf items ≠ .error (.hierarchyCycle chain) := by
    intro α kind idOf items he
    obtain ⟨⟨id, hd⟩, _⟩ := index_error he
    cases hd
  simp only [Catalog.ofModel, bind_error, hindex, failWith_error, false_or] at h
  obtain ⟨_, hi, _, hs, _, hf, _, ht, hnames |
    ⟨_, _, hreferences | ⟨_, _, hcycle | ⟨_, _, hok⟩⟩⟩⟩ := h
  · obtain ⟨u, _, hu⟩ := List.exists_of_findSome?_eq_some hnames
    cases KeyUse.rule_of_defect? hu
  · obtain ⟨r, _, hr⟩ := List.exists_of_findSome?_eq_some hreferences
    cases rule_of_danglingDefect? hr
  · obtain ⟨chain', hchain, heq⟩ := Option.map_eq_some_iff.1 hcycle
    cases heq
    exact ⟨_, ⟨hi, hs, hf, ht⟩, hchain⟩
  · cases hok

/-- What a model is rejected for as a cycle of its hierarchy is a simple cycle of its injectors. -/
theorem Catalog.hierarchyCycle_simple {m : Model} {chain : List InjectorId}
    (h : Catalog.ofModel m = .error (.hierarchyCycle chain)) : m.SimpleCycle chain := by
  obtain ⟨c, hi, hcycle⟩ := indexes_of_hierarchyCycle h
  have hcloses := hi.closes hcycle
  refine ⟨hcloses, fun id hid => ?_⟩
  obtain ⟨_, i, him, rfl, _⟩ := hcloses.exists_next hid
  exact List.mem_map_of_mem him

/-- The way down from `A` passes `D`, and from `B` on it comes back to `B`. -/
def Model.winding : Model where
  injectors := [
    { id := "A", children := [{ name := "d", injector := "D" }, { name := "b", injector := "B" }] },
    { id := "B", children := [{ name := "c", injector := "C" }] },
    { id := "C", children := [{ name := "d", injector := "D" }, { name := "b", injector := "B" }] },
    { id := "D" }]

theorem Catalog.hierarchyCycle_winding :
    Catalog.ofModel .winding = .error (.hierarchyCycle ["B", "C", "B"]) ∧
    Model.winding.SimpleCycle ["B", "C", "B"] := by
  have hrejected : Catalog.ofModel .winding = .error (.hierarchyCycle ["B", "C", "B"]) := by
    decide +kernel
  exact ⟨hrejected, Catalog.hierarchyCycle_simple hrejected⟩

end Wiring
