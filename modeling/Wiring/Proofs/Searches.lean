import Wiring.Proofs.Acceptance
import Wiring.Proofs.Supertypes

set_option autoImplicit false

namespace Wiring

open Relation

def Model.Under (m : Model) (t u : TypeName) : Prop :=
  ∃ info ∈ m.types, info.name = t ∧ u ∈ info.supertypes

/-- What a search for a supertype has still to look at, and what it has been through. -/
structure Ascent where
  pending : List TypeName
  seen : List TypeName
  deriving DecidableEq

namespace Ascent

variable {c : Catalog} {s target : TypeName} {a b : Ascent} {found : Bool}

def start (s : TypeName) : Ascent := ⟨[s], []⟩

/-- A round of the search, for any of the pending types but the target. A type that has been seen is
left out, any other one is replaced by its supertypes. -/
inductive Step (c : Catalog) (target : TypeName) : Ascent → Ascent → Prop where
  | pass {t : TypeName} {pending rest seen : List TypeName} :
      pending.Perm (t :: rest) → t ≠ target → t ∈ seen → Step c target ⟨pending, seen⟩ ⟨rest, seen⟩
  | climb {t : TypeName} {pending rest seen : List TypeName} :
      pending.Perm (t :: rest) → t ≠ target → t ∉ seen →
      Step c target ⟨pending, seen⟩ ⟨c.supertypesOf t ++ rest, t :: seen⟩

/-- A search is over when its target is looked at, and when nothing is left to look at. -/
inductive Answers (target : TypeName) : Ascent → Bool → Prop where
  | found {pending seen : List TypeName} : target ∈ pending → Answers target ⟨pending, seen⟩ true
  | missed {seen : List TypeName} : Answers target ⟨[], seen⟩ false

/-- The types that a search may still have to look at, repetitions included. -/
def size (c : Catalog) (a : Ascent) : Nat :=
  a.pending.length + (Catalog.unseen a.seen c.types.entries).length

/-- There is a way up to the target that a search has not been through. -/
def Leads (c : Catalog) (target : TypeName) (a : Ascent) : Prop :=
  ∃ t ∈ a.pending, ReflTransGen (c.UnderUnseen a.seen) t target

theorem Step.size_lt (h : Step c target a b) : b.size c < a.size c := by
  cases h with
  | pass hperm _ _ =>
    simp only [size, hperm.length_eq, List.length_cons]
    omega
  | climb hperm _ hnew =>
    have hcount := Catalog.length_supertypesOf (c := c) hnew
    simp only [size, hperm.length_eq, List.length_cons, List.length_append]
    omega

theorem leads_perm {pending pending' seen : List TypeName} (h : pending.Perm pending') :
    Leads c target ⟨pending, seen⟩ ↔ Leads c target ⟨pending', seen⟩ := by
  simp only [Leads, h.mem_iff]

theorem Step.leads_iff (h : Step c target a b) : a.Leads c target ↔ b.Leads c target := by
  cases h with
  | @pass t pending rest seen hperm hne hseen =>
    have hstuck : ¬ ReflTransGen (c.UnderUnseen seen) t target :=
      fun hway => hne (Catalog.eq_of_seen hway hseen)
    rw [leads_perm hperm]
    simp [Leads, hstuck]
  | climb hperm hne hnew =>
    rw [leads_perm hperm]
    exact Catalog.exists_underUnseen_cons hnew hne

theorem leads_iff_of_steps (h : ReflTransGen (Step c target) a b) :
    a.Leads c target ↔ b.Leads c target := by
  induction h with
  | refl => rfl
  | tail _ hstep ih => exact ih.trans hstep.leads_iff

theorem Answers.eq_true_iff (h : a.Answers target found) : found = true ↔ a.Leads c target := by
  cases h with
  | found hmem => exact iff_of_true rfl ⟨target, hmem, .refl⟩
  | missed => simp [Leads]

theorem exists_step_or_answers (c : Catalog) (target : TypeName) (a : Ascent) :
    (∃ b, a.Step c target b) ∨ ∃ found, a.Answers target found := by
  obtain ⟨_ | ⟨t, rest⟩, seen⟩ := a
  · exact .inr ⟨false, .missed⟩
  · by_cases ht : t = target
    · exact .inr ⟨true, .found (by simp [ht])⟩
    · by_cases hseen : t ∈ seen
      · exact .inl ⟨_, .pass (.refl _) ht hseen⟩
      · exact .inl ⟨_, .climb (.refl _) ht hseen⟩

theorem length_le_size {as : List Ascent} (h : (a :: as).IsChain (Step c target)) :
    as.length ≤ a.size c := by
  induction as generalizing a with
  | nil => exact Nat.zero_le _
  | cons b as ih =>
    obtain ⟨hstep, h⟩ := List.isChain_cons_cons.1 h
    exact Nat.lt_of_le_of_lt (ih h) hstep.size_lt

theorem exists_answers (c : Catalog) (target : TypeName) (a : Ascent) :
    ∃ b found, ReflTransGen (Step c target) a b ∧ b.Answers target found := by
  induction hn : a.size c using Nat.strongRecOn generalizing a with
  | ind n ih =>
    obtain ⟨b, hstep⟩ | ⟨found, h⟩ := exists_step_or_answers c target a
    · obtain ⟨b', found, hsteps, h⟩ := ih _ (hn ▸ hstep.size_lt) b rfl
      exact ⟨b', found, .head hstep hsteps, h⟩
    · exact ⟨a, found, .refl, h⟩

theorem leads_start : (start s).Leads c target ↔ ReflTransGen c.Under s target := by
  have hall : c.UnderUnseen [] = c.Under := by
    funext t u
    simp [Catalog.UnderUnseen]
  simp [Leads, start, hall]

theorem size_start : (start s).size c = c.supertypeCount + 1 := by
  simp [size, start, Catalog.unseen, Catalog.supertypeCount, Table.values,
    List.flatMap_map, Nat.add_comm]

end Ascent

namespace Catalog

variable {m : Model} {c : Catalog} {s t : TypeName} {found : Bool}

theorem Indexes.under_eq (hi : c.Indexes m) : c.Under = m.Under := by
  funext t u
  simp only [Under, Model.Under, get?_index hi.types, and_assoc]

theorem Indexes.contains_types (hi : c.Indexes m) : c.types.contains s ↔ s ∈ m.ids .type :=
  contains_index hi.types

theorem isAssignable_eq_none_iff : c.isAssignable s t = none ↔ s ≠ t ∧ ¬ c.types.contains s := by
  unfold isAssignable
  split
  · simp [*]
  · split <;> simp [*]

theorem isAssignable_of_answers {a : Ascent} (hsteps : ReflTransGen (Ascent.Step c t) (.start s) a)
    (ha : a.Answers t found) (hs : c.types.contains s ∨ s = t) :
    c.isAssignable s t = some found := by
  have hfound : found = true ↔ ReflTransGen c.Under s t :=
    ha.eq_true_iff.trans ((Ascent.leads_iff_of_steps hsteps).symm.trans Ascent.leads_start)
  cases found with
  | true => exact isAssignable_eq_true_iff.2 (hfound.1 rfl)
  | false =>
    have hno : ¬ ReflTransGen c.Under s t := fun hway => Bool.false_ne_true (hfound.2 hway)
    exact isAssignable_eq_false_iff.2 ⟨hs.resolve_right fun heq => hno (heq ▸ .refl), hno⟩

/-- A type stands in for those that are declared to be above it, over any number of declarations,
and for itself. The search for this comes to an end whatever its order, and its order does not
matter. -/
theorem isAssignable_declared (h : Catalog.ofModel m = .ok c) :
    (∀ s t,
      (c.isAssignable s t = none ↔ s ≠ t ∧ s ∉ m.ids .type) ∧
      (c.isAssignable s t = some true ↔ ReflTransGen m.Under s t ∧ (s ∈ m.ids .type ∨ s = t)) ∧
      (c.isAssignable s t = some false ↔ s ∈ m.ids .type ∧ ¬ ReflTransGen m.Under s t) ∧
      (∀ as, (Ascent.start s :: as).IsChain (Ascent.Step c t) → as.length ≤ c.supertypeCount + 1) ∧
      (∃ a found, ReflTransGen (Ascent.Step c t) (.start s) a ∧ a.Answers t found) ∧
      ∀ a, ReflTransGen (Ascent.Step c t) (.start s) a →
        ((∃ b, a.Step c t b) ∨ ∃ found, a.Answers t found) ∧
          ∀ found, a.Answers t found → s ∈ m.ids .type ∨ s = t → c.isAssignable s t = some found) ∧
    ∀ s t u, c.isAssignable s t = some true → c.isAssignable t u = some true →
      c.isAssignable s u = some true := by
  have hi := (ofModel_ok_iff.1 h).1
  have hknown : ∀ {s t}, ReflTransGen c.Under s t → s ∈ m.ids .type ∨ s = t :=
    fun hway => (eq_or_known_of_under hway).symm.imp_left hi.contains_types.1
  refine ⟨fun s t =>
    ⟨?_, ?_, ?_, fun as has => ?_, Ascent.exists_answers c t _, fun a hsteps => ?_⟩, ?_⟩
  · rw [isAssignable_eq_none_iff, hi.contains_types]
  · rw [isAssignable_eq_true_iff, ← hi.under_eq]
    exact ⟨fun hway => ⟨hway, hknown hway⟩, And.left⟩
  · rw [isAssignable_eq_false_iff, ← hi.under_eq, hi.contains_types]
  · exact Ascent.size_start (c := c) ▸ Ascent.length_le_size has
  · refine ⟨a.exists_step_or_answers c t, fun found ha hs => ?_⟩
    exact isAssignable_of_answers hsteps ha (hs.imp_left hi.contains_types.2)
  · intro s t u hst htu
    rw [isAssignable_eq_true_iff] at hst htu ⊢
    exact hst.trans htu

end Catalog

theorem isAssignable_declared_tiered : ∃ c, Catalog.ofModel tieredModel = .ok c ∧
    c.isAssignable "C" "A" = some true ∧ ReflTransGen tieredModel.Under "C" "A" ∧
    c.isAssignable "A" "B" = none ∧
    c.isAssignable "C" "D" = some false ∧ ¬ ReflTransGen tieredModel.Under "C" "D" ∧
    ∃ a, ReflTransGen (Ascent.Step c "D") (.start "C") a ∧ a.Answers "D" false := by
  have h : (Catalog.ofModel tieredModel).toOption.any fun c => decide
      (c.isAssignable "C" "B" = some true ∧ c.isAssignable "B" "A" = some true ∧
        c.isAssignable "C" "D" = some false) := by
    decide +kernel
  obtain ⟨c, hc, h⟩ := exists_of_any h
  obtain ⟨hcb, hba, hcd⟩ := of_decide_eq_true h
  obtain ⟨hall, htrans⟩ := Catalog.isAssignable_declared hc
  obtain ⟨-, -, hfalse, -, ⟨a, found, hsteps, ha⟩, hsearch⟩ := hall "C" "D"
  have hca := htrans _ _ _ hcb hba
  obtain ⟨hknown, hno⟩ := hfalse.1 hcd
  have hfound : some found = some false :=
    ((hsearch a hsteps).2 found ha (.inl hknown)).symm.trans hcd
  refine ⟨c, hc, hca, ((hall _ _).2.1.1 hca).1, (hall _ _).1.2 (by decide), hcd, hno, a, hsteps, ?_⟩
  exact Option.some.inj hfound ▸ ha

end Wiring
