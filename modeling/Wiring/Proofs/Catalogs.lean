import Wiring.Catalog.Check
import Wiring.Proofs.Tables

set_option autoImplicit false

namespace Wiring

theorem bind_ok {ε α β : Type} {x : Except ε α} {f : α → Except ε β} {b : β} :
    (x >>= f) = .ok b ↔ ∃ a, x = .ok a ∧ f a = .ok b := by
  constructor
  · intro h
    cases x with
    | error e => cases h
    | ok a => exact ⟨a, rfl, h⟩
  · rintro ⟨a, rfl, h⟩
    exact h

theorem bind_error {ε α β : Type} {x : Except ε α} {f : α → Except ε β} {e : ε} :
    (x >>= f) = .error e ↔ x = .error e ∨ ∃ a, x = .ok a ∧ f a = .error e := by
  cases x with
  | error e' => simp [bind, Except.bind]
  | ok a => simp [bind, Except.bind]

theorem failWith_ok {d : Option Defect} : failWith d = .ok () ↔ d = none := by
  cases d <;> simp [failWith]

section Index

variable {α : Type} {kind : RecordKind} {idOf : α → String} {items : List α} {t t₀ : Table String α}

def indexFrom (kind : RecordKind) (idOf : α → String) (t₀ : Table String α) (items : List α) :
    Except Defect (Table String α) :=
  items.foldlM (fun t a =>
    if t.contains (idOf a) then .error (.duplicateId kind (idOf a))
    else .ok (t.insert (idOf a) a)) t₀

theorem indexFrom_cons {a : α} : indexFrom kind idOf t₀ (a :: items) = .ok t ↔
    t₀.get? (idOf a) = none ∧ indexFrom kind idOf (t₀.insert (idOf a) a) items = .ok t := by
  unfold indexFrom
  rw [List.foldlM_cons, bind_ok]
  constructor
  · rintro ⟨t₁, h₁, h⟩
    split at h₁
    · cases h₁
    · rename_i hc
      cases h₁
      exact ⟨by simpa [Table.contains] using hc, h⟩
  · rintro ⟨hnone, h⟩
    exact ⟨_, by rw [if_neg (by simp [Table.contains, hnone])], h⟩

theorem indexFrom_ok (h : indexFrom kind idOf t₀ items = .ok t) :
    (items.map idOf).Nodup ∧ (∀ a ∈ items, t₀.get? (idOf a) = none) ∧
      ∀ k a, t.get? k = some a ↔ t₀.get? k = some a ∨ a ∈ items ∧ idOf a = k := by
  induction items generalizing t₀ with
  | nil =>
    cases h
    simp
  | cons b bs ih =>
    obtain ⟨hnone, h⟩ := indexFrom_cons.1 h
    obtain ⟨hn, hbs, hget⟩ := ih h
    have hne : ∀ a ∈ bs, idOf a ≠ idOf b := by
      intro a ha he
      have := hbs a ha
      rw [Table.get?_insert, if_pos he] at this
      cases this
    refine ⟨?_, ?_, fun k a => ?_⟩
    · rw [List.map_cons, List.nodup_cons]
      refine ⟨fun hm => ?_, hn⟩
      obtain ⟨a, ha, he⟩ := List.mem_map.1 hm
      exact hne a ha he
    · rw [List.forall_mem_cons]
      refine ⟨hnone, fun a ha => ?_⟩
      have := hbs a ha
      rwa [Table.get?_insert, if_neg (hne a ha)] at this
    · rw [hget, Table.get?_insert, List.mem_cons]
      by_cases hk : k = idOf b
      · subst hk
        simp only [if_pos, hnone, Option.some.injEq]
        constructor
        · rintro (rfl | ⟨ha, he⟩)
          · exact .inr ⟨.inl rfl, rfl⟩
          · exact absurd he (hne a ha)
        · rintro (hc | ⟨rfl | ha, he⟩)
          · cases hc
          · exact .inl rfl
          · exact absurd he (hne a ha)
      · rw [if_neg hk]
        constructor
        · rintro (hc | ⟨ha, he⟩)
          · exact .inl hc
          · exact .inr ⟨.inr ha, he⟩
        · rintro (hc | ⟨rfl | ha, he⟩)
          · exact .inl hc
          · exact absurd he.symm hk
          · exact .inr ⟨ha, he⟩

theorem exists_indexFrom (hn : (items.map idOf).Nodup)
    (hnone : ∀ a ∈ items, t₀.get? (idOf a) = none) : ∃ t, indexFrom kind idOf t₀ items = .ok t := by
  induction items generalizing t₀ with
  | nil => exact ⟨t₀, rfl⟩
  | cons b bs ih =>
    obtain ⟨hb, hn⟩ := List.nodup_cons.1 hn
    obtain ⟨hnb, hnone⟩ := List.forall_mem_cons.1 hnone
    obtain ⟨t, ht⟩ := @ih (t₀.insert (idOf b) b) hn fun a ha => by
      rw [Table.get?_insert, if_neg, hnone a ha]
      intro he
      exact hb (he ▸ List.mem_map_of_mem ha)
    exact ⟨t, indexFrom_cons.2 ⟨hnb, ht⟩⟩

theorem get?_index (h : index kind idOf items = .ok t) {k : String} {a : α} :
    t.get? k = some a ↔ a ∈ items ∧ idOf a = k := by
  have hfrom : indexFrom kind idOf .empty items = .ok t := h
  rw [(indexFrom_ok hfrom).2.2]
  simp

theorem nodup_index (h : index kind idOf items = .ok t) : (items.map idOf).Nodup := by
  have hfrom : indexFrom kind idOf .empty items = .ok t := h
  exact (indexFrom_ok hfrom).1

theorem exists_index (h : (items.map idOf).Nodup) : ∃ t, index kind idOf items = .ok t := by
  have hfrom : ∃ t, indexFrom kind idOf .empty items = .ok t := exists_indexFrom h (by simp)
  exact hfrom

end Index

namespace Catalog

variable {m : Model} {c : Catalog} {id : InjectorId} {i : Injector}

/-- The tables of a catalog list the records of a model, each under its id. -/
structure Indexes (c : Catalog) (m : Model) : Prop where
  injectors : index .injector (·.id) m.injectors = .ok c.injectors
  specifications : index .specification (·.id) m.specifications = .ok c.specifications
  interfaces : index .interface (·.id) m.interfaces = .ok c.interfaces
  types : index .type (·.name) m.types = .ok c.types

/-- Once its records are listed and its keys have names, what is wrong with a model can be told from
its catalog. -/
theorem ofModel_of_indexes (hi : c.Indexes m) (hk : ∀ u ∈ m.keyUses, u.defect? = none) :
    Catalog.ofModel m = (do
      failWith (c.references.findSome? c.danglingDefect?)
      failWith (c.hierarchyCycle?.map .hierarchyCycle)
      .ok c) := by
  unfold Catalog.ofModel
  rw [hi.injectors, hi.specifications, hi.interfaces, hi.types, List.findSome?_eq_none_iff.2 hk]
  rfl

theorem ofModel_ok_iff :
    Catalog.ofModel m = .ok c ↔ c.Indexes m ∧ (∀ u ∈ m.keyUses, u.defect? = none) ∧
    (∀ r ∈ c.references, c.danglingDefect? r = none) ∧ c.hierarchyCycle? = none := by
  constructor
  · intro h
    simp only [Catalog.ofModel, bind_ok] at h
    obtain ⟨_, hi, _, hs, _, hf, _, ht, _, hk, _, hd, _, hcycle, h⟩ := h
    cases h
    exact ⟨⟨hi, hs, hf, ht⟩, List.findSome?_eq_none_iff.1 (failWith_ok.1 hk),
      List.findSome?_eq_none_iff.1 (failWith_ok.1 hd),
      Option.map_eq_none_iff.1 (failWith_ok.1 hcycle)⟩
  · rintro ⟨hi, hk, hd, hcycle⟩
    rw [ofModel_of_indexes hi hk, List.findSome?_eq_none_iff.2 hd, hcycle]
    rfl

theorem get?_injectors (hm : Catalog.ofModel m = .ok c) :
    c.injectors.get? id = some i ↔ i ∈ m.injectors ∧ i.id = id :=
  get?_index (ofModel_ok_iff.1 hm).1.injectors

theorem mem_injectors_keys (hm : Catalog.ofModel m = .ok c) :
    id ∈ c.injectors.keys ↔ id ∈ m.injectors.map (·.id) := by
  simp only [Table.mem_keys_iff, get?_injectors hm, List.mem_map]

end Catalog

end Wiring
