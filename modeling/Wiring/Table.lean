/-!
Finite maps with ordered keys. The entries are strictly sorted, so listing a table is listing it in
key order, and a table is determined by its answers (`Table.ext_get?`).
-/

set_option autoImplicit false

namespace Wiring

variable {κ α β : Type} [Ord κ]

/-- A table keeps at most one value for each key. -/
structure Table (κ α : Type) [Ord κ] where
  entries : List (κ × α)
  sorted : entries.Pairwise fun a b => compare a.1 b.1 = .lt
  deriving DecidableEq

namespace Table

def empty : Table κ α := ⟨[], .nil⟩

instance : Inhabited (Table κ α) := ⟨empty⟩

def get? (t : Table κ α) (k : κ) : Option α :=
  (t.entries.find? fun e => compare k e.1 == .eq).map (·.2)

def contains (t : Table κ α) (k : κ) : Bool := (t.get? k).isSome

def keys (t : Table κ α) : List κ := t.entries.map (·.1)

def values (t : Table κ α) : List α := t.entries.map (·.2)

def place (k : κ) (a : α) : List (κ × α) → List (κ × α)
  | [] => [(k, a)]
  | e :: es =>
    match compare k e.1 with
    | .lt => (k, a) :: e :: es
    | .eq => (k, a) :: es
    | .gt => e :: place k a es

theorem mem_place {k : κ} {a : α} {e : κ × α} {es : List (κ × α)} (h : e ∈ place k a es) :
    e = (k, a) ∨ e ∈ es := by
  induction es with
  | nil => simpa [place] using h
  | cons d ds ih =>
    unfold place at h
    split at h <;> simp only [List.mem_cons] at h ⊢ <;> grind

variable [Std.TransOrd κ]

theorem place_sorted (k : κ) (a : α) {es : List (κ × α)}
    (h : es.Pairwise fun a b => compare a.1 b.1 = .lt) :
    (place k a es).Pairwise fun a b => compare a.1 b.1 = .lt := by
  induction es with
  | nil => simp [place]
  | cons e es ih =>
    have ⟨he, hs⟩ := List.pairwise_cons.1 h
    unfold place
    split
    · rename_i hk
      refine List.pairwise_cons.2 ⟨fun d hd => ?_, h⟩
      rcases List.mem_cons.1 hd with rfl | hd
      · exact hk
      · exact Std.TransCmp.lt_trans hk (he d hd)
    · rename_i hk
      exact List.pairwise_cons.2 ⟨fun d hd => Std.TransCmp.lt_of_eq_of_lt hk (he d hd), hs⟩
    · rename_i hk
      refine List.pairwise_cons.2 ⟨fun d hd => ?_, ih hs⟩
      rcases mem_place hd with rfl | hd
      · exact Std.OrientedCmp.lt_of_gt hk
      · exact he d hd

def insert (t : Table κ α) (k : κ) (a : α) : Table κ α :=
  ⟨place k a t.entries, place_sorted k a t.sorted⟩

def insertNew (t : Table κ α) (k : κ) (a : α) : Table κ α :=
  if t.contains k then t else t.insert k a

def erase (t : Table κ α) (k : κ) : Table κ α :=
  ⟨t.entries.filter fun e => compare k e.1 != .eq, t.sorted.filter _⟩

def ofList (es : List (κ × α)) : Table κ α := es.foldl (fun t e => t.insert e.1 e.2) empty

def group (es : List (κ × α)) : Table κ (List α) :=
  es.foldl (fun t e => t.insert e.1 ((t.get? e.1).getD [] ++ [e.2])) empty

omit [Std.TransOrd κ] in
theorem filterMap_sorted (f : κ → α → Option β) {es : List (κ × α)}
    (h : es.Pairwise fun a b => compare a.1 b.1 = .lt) :
    (es.filterMap fun e => (f e.1 e.2).map (e.1, ·)).Pairwise
      fun a b => compare a.1 b.1 = .lt := by
  refine h.filterMap _ fun a b hab c hc d hd => ?_
  simp only [Option.map_eq_some_iff] at hc hd
  obtain ⟨_, _, rfl⟩ := hc
  obtain ⟨_, _, rfl⟩ := hd
  exact hab

def filterMap (t : Table κ α) (f : κ → α → Option β) : Table κ β :=
  ⟨t.entries.filterMap fun e => (f e.1 e.2).map (e.1, ·), filterMap_sorted f t.sorted⟩

section Laws

variable [Std.LawfulEqOrd κ] [DecidableEq κ] {t : Table κ α} {k j : κ} {a : α}

omit [Std.TransOrd κ] in
theorem find?_place (k j : κ) (a : α) (es : List (κ × α)) :
    ((place k a es).find? fun e => compare j e.1 == .eq).map (·.2) =
      if j = k then some a else (es.find? fun e => compare j e.1 == .eq).map (·.2) := by
  induction es with
  | nil => by_cases h : j = k <;> simp [place, h]
  | cons e es ih =>
    unfold place
    split <;> rename_i hk
    · by_cases h : j = k <;> simp [List.find?_cons, h]
    · obtain rfl := Std.LawfulEqOrd.eq_of_compare hk
      by_cases h : j = e.1 <;> simp [h]
    · have hne : k ≠ e.1 := by rintro rfl; simp at hk
      by_cases h : j = e.1
      · subst h; simp [Ne.symm hne]
      · simp [h, ih]

omit [Std.TransOrd κ] [Std.LawfulEqOrd κ] [DecidableEq κ] in
@[simp] theorem get?_empty : (empty : Table κ α).get? k = none := rfl

theorem get?_insert : (t.insert k a).get? j = if j = k then some a else t.get? j :=
  find?_place k j a t.entries

theorem get?_insertNew :
    (t.insertNew k a).get? j = if j = k ∧ t.get? k = none then some a else t.get? j := by
  unfold insertNew contains
  cases h : t.get? k <;> by_cases hj : j = k <;> simp [h, hj, get?_insert]

omit [Std.TransOrd κ] in
theorem get?_erase : (t.erase k).get? j = if j = k then none else t.get? j := by
  simp only [get?, erase, List.find?_filter]
  by_cases hj : j = k
  · subst hj
    simp only [ite_true, Option.map_eq_none_iff, List.find?_eq_none]
    intro e _
    cases h : compare j e.1 <;> simp
  · simp only [hj, ite_false]
    congr 2
    funext e
    by_cases he : j = e.1
    · subst he; simp [Ne.symm hj]
    · simp [he]

omit [Std.TransOrd κ] [Std.LawfulEqOrd κ] [DecidableEq κ] in
theorem find?_of_lt (k : κ) (es : List (κ × α)) (h : ∀ e ∈ es, compare k e.1 = .lt) :
    (es.find? fun e => compare k e.1 == .eq) = none := by
  simp only [List.find?_eq_none]
  intro e he
  simp [h e he]

theorem eq_of_find? {es ds : List (κ × α)} (he : es.Pairwise fun a b => compare a.1 b.1 = .lt)
    (hd : ds.Pairwise fun a b => compare a.1 b.1 = .lt)
    (h : ∀ k, (es.find? fun e => compare k e.1 == .eq).map (·.2) =
      (ds.find? fun e => compare k e.1 == .eq).map (·.2)) : es = ds := by
  induction es generalizing ds with
  | nil =>
    cases ds with
    | nil => rfl
    | cons d ds => simpa using h d.1
  | cons e es ih =>
    cases ds with
    | nil => simpa using h e.1
    | cons d ds =>
      have ⟨he1, he2⟩ := List.pairwise_cons.1 he
      have ⟨hd1, hd2⟩ := List.pairwise_cons.1 hd
      have key : e.1 = d.1 := by
        cases hc : compare e.1 d.1 with
        | eq => exact Std.LawfulEqOrd.eq_of_compare hc
        | lt =>
          have hk := h e.1
          rw [find?_of_lt _ (d :: ds)] at hk
          · simp at hk
          · intro c hm
            rcases List.mem_cons.1 hm with rfl | hm
            · exact hc
            · exact Std.TransCmp.lt_trans hc (hd1 c hm)
        | gt =>
          have hk := h d.1
          have hc' := Std.OrientedCmp.lt_of_gt hc
          rw [find?_of_lt _ (e :: es)] at hk
          · simp at hk
          · intro c hm
            rcases List.mem_cons.1 hm with rfl | hm
            · exact hc'
            · exact Std.TransCmp.lt_trans hc' (he1 c hm)
      have value : e.2 = d.2 := by simpa [key] using h e.1
      have same : e = d := Prod.ext key value
      subst same
      congr 1
      refine ih he2 hd2 fun k => ?_
      by_cases hk : k = e.1
      · subst hk
        rw [find?_of_lt _ _ he1, find?_of_lt _ _ hd1]
      · simpa [hk] using h k

theorem ext_get? {s t : Table κ α} (h : ∀ k, s.get? k = t.get? k) : s = t := by
  obtain ⟨es, hs⟩ := s
  obtain ⟨ds, ht⟩ := t
  obtain rfl : es = ds := eq_of_find? hs ht h
  rfl

end Laws

end Table

end Wiring
