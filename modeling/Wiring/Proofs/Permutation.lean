import Wiring.Proofs.Distinct

set_option autoImplicit false

namespace Wiring

theorem index_perm {α : Type} {kind : RecordKind} {idOf : α → String} {items items' : List α}
    {t : Table String α} (hp : items.Perm items') (h : index kind idOf items = .ok t) :
    index kind idOf items' = .ok t := by
  have hnodup : (items'.map idOf).Nodup := (hp.map idOf).nodup_iff.1 (nodup_index h)
  obtain ⟨t', ht'⟩ : ∃ t', index kind idOf items' = .ok t' := exists_index hnodup
  rw [ht', Except.ok.injEq]
  refine Table.ext_get? fun k => Option.ext fun a => ?_
  rw [get?_index ht', get?_index h, hp.mem_iff]

namespace Model

variable {m m' : Model}

/-- The same records in another order. The lists inside a record stay as they are. -/
structure Reordered (m m' : Model) : Prop where
  injectors : m.injectors.Perm m'.injectors
  specifications : m.specifications.Perm m'.specifications
  interfaces : m.interfaces.Perm m'.interfaces
  types : m.types.Perm m'.types

theorem Reordered.symm (h : m.Reordered m') : m'.Reordered m :=
  ⟨h.injectors.symm, h.specifications.symm, h.interfaces.symm, h.types.symm⟩

theorem Reordered.keyUses (h : m.Reordered m') : m.keyUses.Perm m'.keyUses :=
  (((h.specifications.flatMap_right _).append (h.interfaces.flatMap_right _)).append
    (h.types.flatMap_right _)).append (h.injectors.flatMap_right _)

def reversed (m : Model) : Model where
  injectors := m.injectors.reverse
  specifications := m.specifications.reverse
  interfaces := m.interfaces.reverse
  types := m.types.reverse

theorem reordered_reversed (m : Model) : m.Reordered m.reversed :=
  ⟨(List.reverse_perm _).symm, (List.reverse_perm _).symm, (List.reverse_perm _).symm,
    (List.reverse_perm _).symm⟩

end Model

namespace Catalog

variable {m m' : Model} {c : Catalog}

theorem Indexes.reordered (hi : c.Indexes m) (h : m.Reordered m') : c.Indexes m' where
  injectors := index_perm h.injectors hi.injectors
  specifications := index_perm h.specifications hi.specifications
  interfaces := index_perm h.interfaces hi.interfaces
  types := index_perm h.types hi.types

/-- If no id comes twice and no name is empty, a model is accepted in any order of its records, or
it is rejected in any order over the same reference or the same cycle. -/
theorem ofModel_reordered (h : m.Reordered m') (hi : c.Indexes m)
    (hk : ∀ u ∈ m.keyUses, u.defect? = none) : Catalog.ofModel m' = Catalog.ofModel m := by
  have hk' : ∀ u ∈ m'.keyUses, u.defect? = none := fun u hu => hk u (h.keyUses.mem_iff.2 hu)
  rw [ofModel_of_indexes hi hk, ofModel_of_indexes (hi.reordered h) hk']

/-- Of two empty names the first is reported. -/
example : ∃ m : Model, Catalog.ofModel m ≠ Catalog.ofModel m.reversed :=
  ⟨{ interfaces := [{ id := "I", keys := [⟨"", none⟩] }, { id := "J", keys := [⟨"", none⟩] }] },
    by decide⟩

theorem accepts_reordered (h : m.Reordered m') (hm : Catalog.ofModel m = .ok c) :
    Catalog.ofModel m' = .ok c := by
  obtain ⟨hi, hk, _⟩ := ofModel_ok_iff.1 hm
  rw [ofModel_reordered h hi hk, hm]

end Catalog

/-- The order of a model's records decides neither whether it is accepted nor what comes of it:
nodes, slots, expressions and diagnostics are the same and in the same places. The tokens may
differ, as long as both are found cancelled or neither is. -/
theorem Model.resolveDuring_reordered {m m' : Model} (h : m.Reordered m') :
    (∀ c, Catalog.ofModel m = .ok c ↔ Catalog.ofModel m' = .ok c) ∧
    ∀ (s : Settings) (course course' : Course) (t t' : Token),
      course'.abandons (s.batchToken course'.start t') =
        course.abandons (s.batchToken course.start t) →
      ∀ out, m.resolveDuring s course t = .ok out ↔ m'.resolveDuring s course' t' = .ok out := by
  have haccepts : ∀ c, Catalog.ofModel m = .ok c ↔ Catalog.ofModel m' = .ok c := fun c =>
    ⟨Catalog.accepts_reordered h, Catalog.accepts_reordered h.symm⟩
  refine ⟨haccepts, fun s course course' t t' hsame out => ?_⟩
  unfold resolveDuring
  simp only [bind_ok, haccepts, Catalog.resolveDuring_eq, hsame]

theorem shared_reversed : sharedModel.reversed ≠ sharedModel ∧
    ∃ res g, sharedModel.resolveDuring {} (.still {} 0 (Nat.zero_le _)) ⟨0, none⟩ = .ok (some res) ∧
      sharedModel.reversed.resolveDuring {} (.still {} 1 (by decide)) ⟨0, none⟩ = .ok (some res) ∧
      res.graph? "Mid" = some g ∧ g.nodes.length = 4 := by
  have h :
      (sharedModel.resolveDuring {} (.still {} 0 (Nat.zero_le _)) ⟨0, none⟩).toOption.any fun out =>
      out.any fun res => (res.graph? "Mid").any fun g => decide (g.nodes.length = 4) := by
    decide +kernel
  obtain ⟨res, hout, hres⟩ := exists_of_any_any h
  obtain ⟨g, hg, hnodes⟩ := (Option.any_eq_true _ _).1 hres
  have hreversed := Model.resolveDuring_reordered sharedModel.reordered_reversed
  exact ⟨by decide, res, g, hout, (hreversed.2 {} _ _ _ _ (by decide) _).1 hout, hg,
    of_decide_eq_true hnodes⟩

end Wiring
