import Mathlib.Data.List.Flatten
import Mathlib.Data.List.Perm.Subperm
import Mathlib.Logic.Relation
import Wiring.Proofs.Acceptance
import Wiring.Proofs.Building

set_option autoImplicit false

namespace Wiring

open Relation

/-- A specification of the model includes another one, or what would be one. -/
def Model.Includes (m : Model) (id included : SpecificationId) : Prop :=
  ∃ s ∈ m.specifications, s.id = id ∧ included ∈ s.includes

namespace Catalog

variable {m : Model} {c : Catalog} {s : Specification} {id : SpecificationId}
  {pending ids looked looked' : List SpecificationId} {listed out out' : List Specification}

def unlisted (c : Catalog) (listed : List Specification) : List Specification :=
  c.specifications.values.filter fun s => s.id ∉ listed.map (·.id)

theorem length_unlisted_le (h : listed <+: out) :
    (c.unlisted out).length ≤ (c.unlisted listed).length := by
  refine (List.monotone_filter_right _ fun t ht => ?_).length_le
  simp only [decide_eq_true_eq] at ht ⊢
  exact fun hm => ht ((h.map _).subset hm)

theorem length_unlisted_concat (hs : c.specifications.get? id = some s)
    (hnew : s.id ∉ listed.map (·.id)) :
    (c.unlisted (listed ++ [s])).length < (c.unlisted listed).length := by
  have hmem : s ∈ c.unlisted listed :=
    List.mem_filter.2 ⟨Table.mem_values_iff.2 ⟨id, hs⟩, by simpa using hnew⟩
  have hrest : c.unlisted (listed ++ [s]) = (c.unlisted listed).filter fun t => t.id ≠ s.id := by
    rw [unlisted, unlisted, List.filter_filter]
    refine List.filter_congr fun t _ => ?_
    by_cases ht : t.id = s.id <;> simp [ht]
  rw [hrest, List.length_filter_lt_length_iff_exists]
  exact ⟨s, hmem, by simp⟩

/-- Visits specifications in their order. One that has been listed is skipped; any other is listed,
and all that it includes is visited before the next one. -/
def visitAll (c : Catalog) (listed : List Specification) (ids : List SpecificationId) :
    { out : List Specification // listed <+: out } :=
  match ids with
  | [] => ⟨listed, List.prefix_refl _⟩
  | id :: ids =>
    match _hs : c.specifications.get? id with
    | none => c.visitAll listed ids
    | some s =>
      if _hlisted : s.id ∈ listed.map (·.id) then c.visitAll listed ids
      else
        let below := c.visitAll (listed ++ [s]) s.includes
        let rest := c.visitAll below.1 ids
        ⟨rest.1, ((List.prefix_append listed [s]).trans below.2).trans rest.2⟩
termination_by ((c.unlisted listed).length, ids.length)
decreasing_by
  · exact Prod.Lex.right _ (Nat.lt_succ_self _)
  · exact Prod.Lex.right _ (Nat.lt_succ_self _)
  · exact Prod.Lex.left _ _ (length_unlisted_concat _hs _hlisted)
  · exact Prod.Lex.left _ _ (Nat.lt_of_le_of_lt (length_unlisted_le below.2)
      (length_unlisted_concat _hs _hlisted))

/-- The search with its pending ids, and nothing that bounds it: the ids that it looks at, one in
each round, and what is listed when no id is left. -/
inductive Collects (c : Catalog) : List SpecificationId → List Specification →
    List SpecificationId → List Specification → Prop where
  | done {listed : List Specification} : Collects c [] listed [] listed
  | unknown {id : SpecificationId} {pending looked : List SpecificationId}
      {listed out : List Specification} :
      c.specifications.get? id = none → Collects c pending listed looked out →
      Collects c (id :: pending) listed (id :: looked) out
  | again {id : SpecificationId} {s : Specification} {pending looked : List SpecificationId}
      {listed out : List Specification} :
      c.specifications.get? id = some s → s.id ∈ listed.map (·.id) →
      Collects c pending listed looked out → Collects c (id :: pending) listed (id :: looked) out
  | fresh {id : SpecificationId} {s : Specification} {pending looked : List SpecificationId}
      {listed out : List Specification} :
      c.specifications.get? id = some s → s.id ∉ listed.map (·.id) →
      Collects c (s.includes ++ pending) (listed ++ [s]) looked out →
      Collects c (id :: pending) listed (id :: looked) out

theorem Collects.unique (h : c.Collects pending listed looked out)
    (h' : c.Collects pending listed looked' out') : looked = looked' ∧ out = out' := by
  induction h generalizing looked' with
  | done =>
    cases h'
    exact ⟨rfl, rfl⟩
  | unknown hnone _ ih =>
    cases h' with
    | unknown _ h' => exact (ih h').imp_left (congrArg _)
    | again hs _ _ | fresh hs _ _ => simp [hnone] at hs
  | again hs hlisted _ ih =>
    cases h' with
    | unknown hnone _ => simp [hs] at hnone
    | again _ _ h' => exact (ih h').imp_left (congrArg _)
    | fresh hs' hnew _ =>
      obtain rfl := Option.some.inj (hs.symm.trans hs')
      exact absurd hlisted hnew
  | fresh hs hnew _ ih =>
    cases h' with
    | unknown hnone _ => simp [hs] at hnone
    | again hs' hlisted _ =>
      obtain rfl := Option.some.inj (hs.symm.trans hs')
      exact absurd hlisted hnew
    | fresh hs' _ h' =>
      obtain rfl := Option.some.inj (hs.symm.trans hs')
      exact (ih h').imp_left (congrArg _)

theorem visitAll_nil : (c.visitAll listed []).1 = listed := by
  rw [visitAll]

theorem visitAll_unknown (h : c.specifications.get? id = none) :
    (c.visitAll listed (id :: ids)).1 = (c.visitAll listed ids).1 := by
  rw [visitAll]
  split
  · rfl
  · simp_all

theorem visitAll_listed (hs : c.specifications.get? id = some s)
    (hlisted : s.id ∈ listed.map (·.id)) :
    (c.visitAll listed (id :: ids)).1 = (c.visitAll listed ids).1 := by
  rw [visitAll]
  split
  · simp_all
  · rename_i s' hs'
    obtain rfl := Option.some.inj (hs.symm.trans hs')
    rw [dif_pos hlisted]

theorem visitAll_new (hs : c.specifications.get? id = some s) (hnew : s.id ∉ listed.map (·.id)) :
    (c.visitAll listed (id :: ids)).1 =
      (c.visitAll (c.visitAll (listed ++ [s]) s.includes).1 ids).1 := by
  rw [visitAll]
  split
  · simp_all
  · rename_i s' hs'
    obtain rfl := Option.some.inj (hs.symm.trans hs')
    rw [dif_neg hnew]

/-- The ids in front of the pending ones are done with once the traversal of them has ended. -/
theorem Collects.visit (ids : List SpecificationId)
    (h : c.Collects pending (c.visitAll listed ids).1 looked out) :
    ∃ before, c.Collects (ids ++ pending) listed (before ++ looked) out := by
  -- along the traversal, where all that a new specification leads to comes before the ids next to
  -- it
  induction listed, ids using visitAll.induct c generalizing pending looked with
  | case1 listed =>
    rw [visitAll_nil] at h
    exact ⟨[], h⟩
  | case2 listed id ids hnone ih =>
    rw [visitAll_unknown hnone] at h
    obtain ⟨before, h⟩ := ih h
    exact ⟨id :: before, .unknown hnone h⟩
  | case3 listed id ids s hs hlisted ih =>
    rw [visitAll_listed hs hlisted] at h
    obtain ⟨before, h⟩ := ih h
    exact ⟨id :: before, .again hs hlisted h⟩
  | case4 listed id ids s hs hnew _ ihbelow ihrest =>
    rw [visitAll_new hs hnew] at h
    obtain ⟨rest, h⟩ := ihrest h
    obtain ⟨below, h⟩ := ihbelow h
    exact ⟨id :: (below ++ rest), .fresh hs hnew (by simpa using h)⟩

theorem exists_collects (c : Catalog) (ids : List SpecificationId) :
    ∃ looked, c.Collects ids [] looked (c.visitAll [] ids).1 := by
  obtain ⟨looked, h⟩ := Collects.visit ids (.done (c := c))
  exact ⟨looked ++ [], by simpa using h⟩

theorem Collects.looked_perm (h : c.Collects pending listed looked out) :
    ∃ new, out = listed ++ new ∧ looked.Perm (pending ++ new.flatMap (·.includes)) := by
  induction h with
  | done => exact ⟨[], by simp⟩
  | unknown _ _ ih | again _ _ _ ih =>
    obtain ⟨new, hout, hperm⟩ := ih
    exact ⟨new, hout, hperm.cons _⟩
  | @fresh id s pending looked listed out _ _ _ ih =>
    obtain ⟨new, hout, hperm⟩ := ih
    refine ⟨s :: new, by simp [hout], hperm.cons id |>.trans ?_⟩
    rw [List.flatMap_cons, List.cons_append, ← List.append_assoc]
    exact (List.perm_append_comm.append_right _).cons id

theorem Collects.closureFrom_eq (h : c.Collects pending listed looked out) {n : Nat}
    (hn : looked.length ≤ n) : c.closureFrom n pending listed = out := by
  have hsucc : ∀ {rest : List SpecificationId} {n : Nat}, rest.length + 1 ≤ n →
      ∃ k, n = k + 1 ∧ rest.length ≤ k :=
    fun {_ n} hn => ⟨n - 1, by omega, by omega⟩
  have hany : ∀ (s : Specification) (listed : List Specification),
      listed.any (·.id == s.id) ↔ s.id ∈ listed.map (·.id) := by simp
  induction h generalizing n with
  | done => cases n <;> rfl
  | unknown hnone _ ih =>
    obtain ⟨k, rfl, hk⟩ := hsucc hn
    simp only [closureFrom, hnone]
    exact ih hk
  | again hs hlisted _ ih =>
    obtain ⟨k, rfl, hk⟩ := hsucc hn
    simp only [closureFrom, hs, (hany _ _).2 hlisted, if_true]
    exact ih hk
  | fresh hs hnew _ ih =>
    obtain ⟨k, rfl, hk⟩ := hsucc hn
    simp only [closureFrom, hs, mt (hany _ _).1 hnew]
    exact ih hk

theorem Collects.nodup (h : c.Collects pending listed looked out) (hn : (listed.map (·.id)).Nodup) :
    (out.map (·.id)).Nodup := by
  induction h with
  | done => exact hn
  | unknown _ _ ih | again _ _ _ ih => exact ih hn
  | fresh _ hnew _ ih =>
    refine ih ?_
    rw [List.map_append]
    exact hn.append (List.nodup_singleton _) (List.disjoint_singleton.2 hnew)

theorem Collects.exists_looked (h : c.Collects pending listed looked out) (hs : s ∈ out) :
    s ∈ listed ∨ ∃ id ∈ looked, c.specifications.get? id = some s := by
  induction h with
  | done => exact .inl hs
  | unknown _ _ ih | again _ _ _ ih =>
    exact (ih hs).imp_right fun ⟨id, hid, hget⟩ => ⟨id, List.mem_cons_of_mem _ hid, hget⟩
  | fresh hget _ _ ih =>
    rcases ih hs with hs | ⟨id, hid, hget⟩
    · rcases List.mem_append.1 hs with hs | hs
      · exact .inl hs
      · obtain rfl := List.mem_singleton.1 hs
        exact .inr ⟨_, List.mem_cons_self, hget⟩
    · exact .inr ⟨id, List.mem_cons_of_mem _ hid, hget⟩

theorem Collects.length_le (h : c.Collects ids [] looked out) :
    looked.length ≤ ids.length + c.includeCount := by
  obtain ⟨new, hnew, hperm⟩ := h.looked_perm
  obtain rfl : out = new := hnew
  have hnodup : out.Nodup := List.Nodup.of_map _ (h.nodup List.nodup_nil)
  have hsub : out ⊆ c.specifications.values := by
    intro s hs
    obtain hs | ⟨id, _, hget⟩ := h.exists_looked hs
    · cases hs
    · exact Table.mem_values_iff.2 ⟨id, hget⟩
  -- each of them is listed once, so what they include is counted already
  obtain ⟨part, hpart, hpartsub⟩ := hnodup.subperm hsub
  rw [hperm.length_eq, List.length_append, ← (hpart.flatMap_right _).length_eq]
  exact Nat.add_le_add_left (hpartsub.flatMap _).length_le _

theorem collects_specificationClosure (c : Catalog) (i : Injector) :
    (∃ looked, c.Collects i.specifications [] looked (c.specificationClosure i)) ∧
      c.specificationClosure i = (c.visitAll [] i.specifications).1 := by
  obtain ⟨looked, h⟩ := c.exists_collects i.specifications
  have heq : c.specificationClosure i = _ := h.closureFrom_eq h.length_le
  exact ⟨⟨looked, heq ▸ h⟩, heq⟩

theorem eraseDups_eq_self {as : List String} (h : as.Nodup) : as.eraseDups = as := by
  induction as with
  | nil => rfl
  | cons a as ih =>
    obtain ⟨ha, h⟩ := List.nodup_cons.1 h
    rw [List.eraseDups_cons, List.filter_eq_self.2, ih h]
    intro b hb
    simpa using fun hab : b = a => ha (hab ▸ hb)

theorem eraseDups_append_cons {as bs : List String} {a : String} (ha : a ∈ as) :
    (as ++ a :: bs).eraseDups = (as ++ bs).eraseDups := by
  simp [List.eraseDups_append, List.removeAll, ha]

theorem Collects.ids_eq (hc : ∀ {id s}, c.specifications.get? id = some s → s.id = id)
    (h : c.Collects pending listed looked out) (hn : (listed.map (·.id)).Nodup) :
    out.map (·.id) = (listed.map (·.id) ++ looked.filter c.specifications.contains).eraseDups := by
  induction h with
  | done => simp [eraseDups_eq_self hn]
  | unknown hnone _ ih =>
    rw [List.filter_cons_of_neg (by simp [Table.contains, hnone])]
    exact ih hn
  | again hs hlisted _ ih =>
    rw [List.filter_cons_of_pos (by simp [Table.contains, hs]), ← hc hs,
      eraseDups_append_cons hlisted]
    exact ih hn
  | @fresh id s pending looked listed out hs hnew _ ih =>
    have hn' : (listed.map (·.id) ++ [s.id]).Nodup :=
      hn.append (List.nodup_singleton _) (List.disjoint_singleton.2 hnew)
    rw [ih (by simpa using hn'), List.filter_cons_of_pos (by simp [Table.contains, hs])]
    simp [hc hs]

section Reaching

variable (hi : c.Indexes m)

include hi

theorem Indexes.get?_specifications :
    c.specifications.get? id = some s ↔ s ∈ m.specifications ∧ s.id = id :=
  get?_index hi.specifications

theorem Collects.reachable (h : c.Collects pending listed looked out) :
    ∀ id ∈ looked, ∃ root ∈ pending, ReflTransGen m.Includes root id := by
  induction h with
  | done => simp
  | @unknown id pending looked listed out _ _ ih | @again id s pending looked listed out _ _ _ ih =>
    refine List.forall_mem_cons.2 ⟨⟨id, List.mem_cons_self, .refl⟩, fun j hj => ?_⟩
    obtain ⟨root, hroot, hway⟩ := ih j hj
    exact ⟨root, List.mem_cons_of_mem _ hroot, hway⟩
  | @fresh id s pending looked listed out hs _ _ ih =>
    refine List.forall_mem_cons.2 ⟨⟨id, List.mem_cons_self, .refl⟩, fun j hj => ?_⟩
    obtain ⟨root, hroot, hway⟩ := ih j hj
    rcases List.mem_append.1 hroot with hroot | hroot
    · obtain ⟨hmem, hid⟩ := hi.get?_specifications.1 hs
      exact ⟨id, List.mem_cons_self, .head ⟨s, hmem, hid, hroot⟩ hway⟩
    · exact ⟨root, List.mem_cons_of_mem _ hroot, hway⟩

theorem Collects.mem_iff (h : c.Collects ids [] looked out) :
    s ∈ out ↔ s ∈ m.specifications ∧ s.id ∈ looked := by
  have hget : ∀ {id s}, c.specifications.get? id = some s → s ∈ m.specifications ∧ s.id = id :=
    hi.get?_specifications.1
  have hlooked : ∀ {t}, t ∈ out → t ∈ m.specifications ∧ t.id ∈ looked := by
    intro t ht
    obtain ht | ⟨id, hid, ht⟩ := h.exists_looked ht
    · cases ht
    · obtain ⟨hmem, rfl⟩ := hget ht
      exact ⟨hmem, hid⟩
  refine ⟨hlooked, fun ⟨hs, hid⟩ => ?_⟩
  have hself : ∀ {t}, t ∈ m.specifications → c.specifications.get? t.id = some t :=
    fun ht => hi.get?_specifications.2 ⟨ht, rfl⟩
  have hlisted : s.id ∈ out.map (·.id) := by
    rw [h.ids_eq (fun hs => (hget hs).2) List.nodup_nil]
    exact List.mem_eraseDups.2 (List.mem_filter.2 ⟨hid, by simp [Table.contains, hself hs]⟩)
  obtain ⟨t, ht, htid⟩ := List.mem_map.1 hlisted
  have hts : some t = some s := by rw [← hself (hlooked ht).1, htid, hself hs]
  exact Option.some.inj hts ▸ ht

theorem Collects.looked_iff (h : c.Collects ids [] looked out) :
    id ∈ looked ↔ ∃ root ∈ ids, ReflTransGen m.Includes root id := by
  constructor
  · exact h.reachable hi id
  · rintro ⟨root, hroot, hway⟩
    obtain ⟨new, hnew, hperm⟩ := h.looked_perm
    obtain rfl : out = new := hnew
    induction hway with
    | refl => exact hperm.mem_iff.2 (List.mem_append_left _ hroot)
    | tail _ hstep ih =>
      obtain ⟨s, hs, rfl, hincluded⟩ := hstep
      have hlisted := (h.mem_iff hi).2 ⟨hs, ih⟩
      exact hperm.mem_iff.2 (List.mem_append_right _ (List.mem_flatMap.2 ⟨s, hlisted, hincluded⟩))

end Reaching

/-- The specifications that an injector draws on are those that a recursive traversal lists, however
they include each other: each that can be reached, once, in the order in which they are looked at
first. The search for them comes to an end, and there is one way only in which it does. -/
theorem specificationClosure_preorder (h : Catalog.ofModel m = .ok c) (i : Injector) :
    c.specificationClosure i = (c.visitAll [] i.specifications).1 ∧
    (∃ looked, (∀ looked' out, c.Collects i.specifications [] looked' out ↔
        looked' = looked ∧ out = c.specificationClosure i) ∧
      (c.specificationClosure i).map (·.id) = (looked.filter c.specifications.contains).eraseDups) ∧
    ((c.specificationClosure i).map (·.id)).Nodup ∧
    ∀ s, s ∈ c.specificationClosure i ↔
      s ∈ m.specifications ∧ ∃ root ∈ i.specifications, ReflTransGen m.Includes root s.id := by
  have hi := (ofModel_ok_iff.1 h).1
  obtain ⟨⟨looked, hrun⟩, hvisit⟩ := c.collects_specificationClosure i
  refine ⟨hvisit, ⟨looked, fun looked' out => ?_, ?_⟩, hrun.nodup List.nodup_nil, fun s => ?_⟩
  · constructor
    · exact fun h' => h'.unique hrun
    · rintro ⟨rfl, rfl⟩
      exact hrun
  · exact hrun.ids_eq (fun hs => (hi.get?_specifications.1 hs).2) List.nodup_nil
  · rw [hrun.mem_iff hi, hrun.looked_iff hi]

end Catalog

/-- Each of the specifications leads to the others, and `A` to itself at once. -/
def encircledModel : Model where
  injectors := [{ id := "One", specifications := ["B", "A", "B"] }]
  specifications := [{ id := "A", includes := ["B", "A"] }, { id := "B", includes := ["C", "A"] },
    { id := "C", includes := ["B"] }, { id := "D", includes := ["A"] }]

theorem specificationClosure_encircled : ∃ c i, Catalog.ofModel encircledModel = .ok c ∧
    i ∈ encircledModel.injectors ∧ (c.specificationClosure i).map (·.id) = ["B", "C", "A"] ∧
    (c.visitAll [] i.specifications).1.map (·.id) = ["B", "C", "A"] ∧
    (∃ looked, c.Collects i.specifications [] looked (c.specificationClosure i)) ∧
    ¬ ∃ root ∈ i.specifications, ReflTransGen encircledModel.Includes root "D" := by
  have h : (Catalog.ofModel encircledModel).toOption.any fun c =>
    encircledModel.injectors.any fun i =>
      (c.specificationClosure i).map (·.id) = ["B", "C", "A"] := by
    decide +kernel
  obtain ⟨c, hc, h⟩ := exists_of_any h
  obtain ⟨i, hi, hids⟩ := List.any_eq_true.1 h
  have hids := of_decide_eq_true hids
  obtain ⟨hvisit, ⟨looked, hrun, -⟩, -, hmem⟩ := Catalog.specificationClosure_preorder hc i
  refine ⟨c, i, hc, hi, hids, hvisit ▸ hids, ⟨looked, (hrun _ _).2 ⟨rfl, rfl⟩⟩, fun hreach => ?_⟩
  have hd := (hmem { id := "D", includes := ["A"] }).2 ⟨by simp [encircledModel], hreach⟩
  have hd' := List.mem_map_of_mem (f := (·.id)) hd
  simp [hids] at hd'

end Wiring
