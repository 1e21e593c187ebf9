import Wiring.Proofs.Ancestry

set_option autoImplicit false

namespace Wiring

theorem filter_flatMap_eq {α β : Type} {p : α → Bool} {q : β → Bool} {f : α → List β} {as : List α}
    (h : ∀ a ∈ as, ∀ b ∈ f a, q b = p a) : (as.flatMap f).filter q = (as.filter p).flatMap f := by
  induction as with
  | nil => rfl
  | cons a as ih =>
    obtain ⟨ha, has⟩ := List.forall_mem_cons.1 h
    rw [List.flatMap_cons, List.filter_append, ih has, List.filter_cons]
    cases hp : p a with
    | true =>
      rw [List.filter_eq_self.2 fun b hb => (ha b hb).trans hp]
      rfl
    | false =>
      have hnil : (f a).filter q = [] :=
        List.filter_eq_nil_iff.2 fun b hb => Bool.eq_false_iff.1 ((ha b hb).trans hp)
      rw [hnil]
      rfl

theorem exists_foldlM {ε α β : Type} {f : β → α → Except ε β} {as : List α} {b : β}
    (h : ∀ a ∈ as, ∀ b, ∃ b', f b a = .ok b') : ∃ b', as.foldlM f b = .ok b' := by
  induction as generalizing b with
  | nil => exact ⟨b, rfl⟩
  | cons a as ih =>
    obtain ⟨ha, has⟩ := List.forall_mem_cons.1 h
    obtain ⟨b₁, hb₁⟩ := ha b
    obtain ⟨b', hb'⟩ := ih (b := b₁) has
    exact ⟨b', by rw [List.foldlM_cons, bind_ok]; exact ⟨b₁, hb₁, hb'⟩⟩

namespace Table

variable {κ α : Type} [Ord κ] {t : Table κ α} {k : κ} {S : κ → Bool}

def restrict (t : Table κ α) (S : κ → Bool) : Table κ α :=
  ⟨t.entries.filter fun e => S e.1, t.sorted.filter _⟩

theorem keys_restrict : (t.restrict S).keys = t.keys.filter S := List.filter_map.symm

theorem get?_restrict [Std.LawfulEqOrd κ] :
    (t.restrict S).get? k = if S k then t.get? k else none := by
  apply Option.ext
  intro a
  rw [get?_eq_some_iff, restrict, List.mem_filter]
  split <;> simp [get?_eq_some_iff, *]

end Table

theorem index_restrict {α : Type} {kind : RecordKind} {idOf : α → String} {items : List α}
    {t : Table String α} {S : String → Bool} (h : index kind idOf items = .ok t) :
    index kind idOf (items.filter fun a => S (idOf a)) = .ok (t.restrict S) := by
  have hnodup : ((items.filter fun a => S (idOf a)).map idOf).Nodup :=
    (nodup_index h).sublist (List.filter_sublist.map _)
  obtain ⟨t', ht'⟩ : ∃ t', index kind idOf (items.filter fun a => S (idOf a)) = .ok t' :=
    exists_index hnodup
  rw [ht', Except.ok.injEq]
  refine Table.ext_get? fun k => Option.ext fun a => ?_
  rw [get?_index ht', Table.get?_restrict, List.mem_filter]
  by_cases hk : S k
  · rw [if_pos hk, get?_index h]
    constructor
    · rintro ⟨⟨ha, _⟩, hid⟩
      exact ⟨ha, hid⟩
    · rintro ⟨ha, rfl⟩
      exact ⟨⟨ha, hk⟩, rfl⟩
  · rw [if_neg hk]
    constructor
    · rintro ⟨⟨_, hS⟩, rfl⟩
      exact absurd hS hk
    · intro hnone
      cases hnone

namespace Model

variable {m : Model} {S : InjectorId → Bool} {i : Injector} {a : ChildAccessor}

def restrict (m : Model) (S : InjectorId → Bool) : Model :=
  { m with injectors := m.injectors.filter fun i => S i.id }

/-- The children and the parents of members are members. -/
structure Closed (m : Model) (S : InjectorId → Bool) : Prop where
  children : ∀ i ∈ m.injectors, ∀ a ∈ i.children, S i.id → S a.injector
  parents : ∀ i ∈ m.injectors, ∀ a ∈ i.children, S a.injector → S i.id

theorem keyUses_restrict : (m.restrict S).keyUses ⊆ m.keyUses := by
  intro u hu
  refine (List.mem_append.1 hu).elim (List.mem_append_left _) fun hu => ?_
  obtain ⟨i, hi, hu⟩ := List.mem_flatMap.1 hu
  exact List.mem_append_right _ (List.mem_flatMap.2 ⟨i, (List.mem_filter.1 hi).1, hu⟩)

end Model

namespace Catalog

variable {c : Catalog} {m : Model} {S : InjectorId → Bool} {id child : InjectorId}
  {rank : InjectorId → Nat}

def restrict (c : Catalog) (S : InjectorId → Bool) : Catalog :=
  { c with injectors := c.injectors.restrict S }

def Closed (c : Catalog) (S : InjectorId → Bool) : Prop :=
  ∀ id, ∀ child ∈ c.childrenOf id, S child = S id

theorem get?_injectors_restrict :
    (c.restrict S).injectors.get? id = if S id then c.injectors.get? id else none :=
  Table.get?_restrict

theorem closed_of_ofModel (hm : Catalog.ofModel m = .ok c) (hS : m.Closed S) : c.Closed S := by
  intro id child hchild
  obtain ⟨i, hi, a, ha, rfl⟩ := mem_childrenOf.1 hchild
  obtain ⟨hmem, rfl⟩ := (get?_injectors hm).1 hi
  exact Bool.eq_iff_iff.2 ⟨hS.parents i hmem a ha, hS.children i hmem a ha⟩

theorem childrenOf_restrict : (c.restrict S).childrenOf id ⊆ c.childrenOf id := by
  intro child hchild
  obtain ⟨i, hi, ha⟩ := mem_childrenOf.1 hchild
  rw [get?_injectors_restrict] at hi
  split at hi
  · exact mem_childrenOf.2 ⟨i, hi, ha⟩
  · cases hi

theorem parents_restrict (hc : c.Sound) (hS : c.Closed S) (hid : S id) :
    (c.restrict S).parents id = c.parents id := by
  have hmembers : ∀ p ∈ c.parents id, S p.1 := fun p hp => by
    have hchild := hc.mem_parents.1 (List.mem_map_of_mem hp)
    rw [← hS _ _ hchild, hid]
  rw [← List.filter_eq_self.2 hmembers]
  unfold parents Table.values
  rw [List.flatMap_map, List.flatMap_map]
  refine (filter_flatMap_eq fun e he p hp => ?_).symm
  obtain ⟨a, _, rfl⟩ := List.mem_map.1 hp
  rw [hc.own_id (Table.get?_eq_some_iff.2 he)]

/-- Going down from injector to child never comes back if it always leads to a higher rank. -/
theorem exists_visitDown (hrank : ∀ id, ∀ child ∈ c.childrenOf id, rank id < rank child)
    (depth : Nat) {way done : List InjectorId} (hway : ∀ w ∈ way, rank w < rank id) :
    ∃ done', c.visitDown depth way done id = .ok done' := by
  induction depth generalizing way done id with
  | zero => exact ⟨done, rfl⟩
  | succ depth ih =>
    unfold visitDown
    split
    · exact ⟨done, rfl⟩
    · have hnew : way.contains id = false := by
        rw [← Bool.not_eq_true, List.contains_iff_mem]
        exact fun hid => Nat.lt_irrefl _ (hway id hid)
      obtain ⟨below, hbelow⟩ : ∃ below,
          (c.childrenOf id).foldlM (c.visitDown depth (way ++ [id])) done = .ok below := by
        refine exists_foldlM fun child hchild done => ih fun w hw => ?_
        rcases List.mem_append.1 hw with hw | hw
        · exact Nat.lt_trans (hway w hw) (hrank id child hchild)
        · obtain rfl := List.mem_singleton.1 hw
          exact hrank _ child hchild
      rw [hnew, hbelow]
      exact ⟨_, rfl⟩

theorem hierarchyCycle?_of_rank (hrank : ∀ id, ∀ child ∈ c.childrenOf id, rank id < rank child) :
    c.hierarchyCycle? = none := by
  obtain ⟨done, hdone⟩ : ∃ done,
      c.injectors.keys.foldlM (c.visitDown (c.injectors.entries.length + 1) []) [] = .ok done :=
    exists_foldlM fun id _ done => exists_visitDown hrank _ (by simp)
  unfold hierarchyCycle?
  rw [hdone]

theorem Sound.restrict (hc : c.Sound) (hS : c.Closed S) : (c.restrict S).Sound where
  own_id hk := by
    rw [get?_injectors_restrict] at hk
    split at hk
    · exact hc.own_id hk
    · cases hk
  present {k i a} hk ha := by
    rw [get?_injectors_restrict] at hk
    split at hk
    · rename_i hmember
      have hchild : S a.injector := by rw [hS k _ (mem_childrenOf.2 ⟨i, hk, a, ha, rfl⟩), hmember]
      unfold Table.contains
      rw [get?_injectors_restrict, if_pos hchild]
      exact hc.present hk ha
    · cases hk
  acyclic := by
    obtain ⟨rank, hrank, _⟩ := hc.exists_rank
    exact hierarchyCycle?_of_rank fun id child hchild =>
      hrank child id (hc.mem_parents.2 (childrenOf_restrict hchild))

theorem danglingDefect?_restrict (hc : (c.restrict S).Sound)
    (h : ∀ r ∈ c.references, c.danglingDefect? r = none) :
    ∀ r ∈ (c.restrict S).references, (c.restrict S).danglingDefect? r = none := by
  intro r hr
  have hwhole : r ∈ c.references := by
    refine (List.mem_append.1 hr).elim (List.mem_append_left _) fun hr => ?_
    obtain ⟨i, hi, hr⟩ := List.mem_flatMap.1 hr
    obtain ⟨k, hk⟩ := Table.mem_values_iff.1 hi
    rw [get?_injectors_restrict] at hk
    split at hk
    · exact List.mem_append_right _ (List.mem_flatMap.2 ⟨i, Table.mem_values_iff.2 ⟨k, hk⟩, hr⟩)
    · cases hk
  cases r with
  | specification | interface => exact h _ hwhole
  | child x a =>
    simp only [references, Specification.references, Injector.references, List.mem_append,
      List.mem_flatMap, List.mem_map, reduceCtorEq, and_false, exists_false, false_or,
      Reference.child.injEq] at hr
    obtain ⟨i, hi, a', ha, _, rfl⟩ := hr
    obtain ⟨k, hk⟩ := Table.mem_values_iff.1 hi
    exact if_pos (hc.present hk ha)

/-- A part of a model that no accessor leads into or out of is accepted if the whole is. -/
theorem ofModel_restrict (hm : Catalog.ofModel m = .ok c) (hS : m.Closed S) :
    Catalog.ofModel (m.restrict S) = .ok (c.restrict S) := by
  have hsound := (sound_of_ofModel hm).restrict (closed_of_ofModel hm hS)
  obtain ⟨hindex, hnames, hdangling, _⟩ := ofModel_ok_iff.1 hm
  exact ofModel_ok_iff.2 ⟨{ hindex with injectors := index_restrict hindex.injectors },
    fun u hu => hnames u (Model.keyUses_restrict hu),
    danglingDefect?_restrict hsound hdangling, hsound.acyclic⟩

end Catalog

end Wiring
