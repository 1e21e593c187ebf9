import Mathlib.Data.List.Forall2
import Mathlib.Data.List.Nodup
import Wiring.Document.Record

set_option autoImplicit false

namespace Wiring

theorem mem_of_lookup {α : Type} {fs : List (String × α)} {n : String} {a : α}
    (h : fs.lookup n = some a) : (n, a) ∈ fs := by
  obtain ⟨before, after, rfl, _⟩ := List.lookup_eq_some_iff.1 h
  simp

theorem lookup_of_mem {α : Type} {fs : List (String × α)} {n : String} {a : α}
    (hnodup : (fs.map (·.1)).Nodup) (h : (n, a) ∈ fs) : fs.lookup n = some a := by
  obtain ⟨before, after, rfl⟩ := List.append_of_mem h
  refine List.lookup_eq_some_iff.2 ⟨before, after, rfl, fun p hp => bne_iff_ne.2 ?_⟩
  rintro rfl
  rw [List.map_append, List.nodup_append] at hnodup
  exact hnodup.2.2 _ (List.mem_map_of_mem hp) _ List.mem_cons_self rfl

theorem lookup_of_notMem {α : Type} {fs : List (String × α)} {n : String} (h : n ∉ fs.map (·.1)) :
    fs.lookup n = none :=
  List.lookup_eq_none_iff.2 fun _ hp => bne_iff_ne.2 fun he => h (he ▸ List.mem_map_of_mem hp)

/-- The same document but for the order of the fields in its objects. -/
inductive Document.Alike : Document → Document → Prop where
  | same (d : Document) : Alike d d
  | array {ds es : List Document} : List.Forall₂ Alike ds es → Alike (.array ds) (.array es)
  | object {fs gs es : List (String × Document)} : fs.Perm gs → gs.map (·.1) = es.map (·.1) →
      List.Forall₂ Alike (gs.map (·.2)) (es.map (·.2)) → Alike (.object fs) (.object es)

namespace Document.Alike

variable {d : Document} {gs es : List (String × Document)}

theorem array_cases {es : List Document} (h : d.Alike (.array es)) :
    ∃ ds, d = .array ds ∧ List.Forall₂ Alike ds es := by
  cases h with
  | same => exact ⟨es, rfl, List.forall₂_same.2 fun e _ => .same e⟩
  | array hitems => exact ⟨_, rfl, hitems⟩

theorem exists_field (hnames : gs.map (·.1) = es.map (·.1))
    (hvalues : List.Forall₂ Alike (gs.map (·.2)) (es.map (·.2))) :
    ∀ e ∈ es, ∃ d, (e.1, d) ∈ gs ∧ d.Alike e.2 := by
  induction es generalizing gs with
  | nil => simp
  | cons e es ih =>
    obtain ⟨g, gs, rfl, hname, hnames⟩ := List.map_eq_cons_iff.1 hnames
    obtain ⟨hvalue, hvalues⟩ := List.forall₂_cons.1 hvalues
    intro e' he'
    rcases List.mem_cons.1 he' with rfl | he'
    · exact ⟨g.2, List.mem_cons.2 (.inl (Prod.ext hname.symm rfl)), hvalue⟩
    · obtain ⟨d, hd, halike⟩ := ih hnames hvalues e' he'
      exact ⟨d, List.mem_cons_of_mem _ hd, halike⟩

theorem object_cases (h : d.Alike (.object es)) : ∃ fs, d = .object fs ∧
    (fs.map (·.1)).Perm (es.map (·.1)) ∧ ∀ e ∈ es, ∃ d, (e.1, d) ∈ fs ∧ d.Alike e.2 := by
  cases h with
  | same => exact ⟨es, rfl, .refl _, fun e he => ⟨e.2, he, .same _⟩⟩
  | object hperm hnames hvalues =>
    refine ⟨_, rfl, hnames ▸ hperm.map _, fun e he => ?_⟩
    obtain ⟨d, hd, halike⟩ := exists_field hnames hvalues e he
    exact ⟨d, hperm.mem_iff.2 hd, halike⟩

theorem single_cases {n : String} {e : Document} (h : d.Alike (.object [(n, e)])) :
    ∃ d', d = .object [(n, d')] ∧ d'.Alike e := by
  obtain ⟨fs, rfl, hperm, hfields⟩ := h.object_cases
  obtain ⟨f, rfl⟩ : ∃ f, fs = [f] := List.length_eq_one_iff.1 (by simpa using hperm.length_eq)
  obtain ⟨d', hd, halike⟩ := hfields _ List.mem_cons_self
  obtain rfl := List.mem_singleton.1 hd
  exact ⟨d', rfl, halike⟩

end Document.Alike

/-- What is written for a value is read as that value, in whichever order the fields come. -/
def Reader.Inverts {α : Type} (read : Reader α) (write : α → Document) : Prop :=
  ∀ ⦃a : α⦄ ⦃d : Document⦄, d.Alike (write a) → read d = .ok a

namespace Reader

variable {α : Type} {read : Reader α} {write : α → Document}

theorem inverts_string : Inverts string .string := by
  rintro s d ⟨⟩
  rfl

theorem inverts_bool : Inverts bool .bool := by
  rintro b d ⟨⟩
  rfl

theorem Inverts.optional (h : Inverts read write) (hnull : ∀ a, read .null ≠ .ok a) :
    Inverts (optional read) (Document.optional write) := by
  rintro (_ | a) d hd
  · cases hd
    rfl
  · have hread : read d = .ok a := h hd
    unfold Reader.optional
    split
    · exact absurd hread (hnull a)
    · rw [hread]
      rfl

theorem Inverts.list (h : Inverts read write) : Inverts (list read) (Document.list write) := by
  intro as d hd
  obtain ⟨ds, rfl, hitems⟩ := hd.array_cases
  change ds.mapM read = .ok as
  clear hd
  induction as generalizing ds with
  | nil =>
    cases hitems
    rfl
  | cons a as ih =>
    cases hitems with
    | cons hitem hitems =>
      rw [List.mapM_cons, h hitem, ih _ hitems]
      rfl

end Reader

namespace Fields

variable {α β : Type} {known : List (String × Check)} {record : String} {closed : Bool}
  {fs : Fields} {es : List (String × Document)} {d : Document} {f : Field α}
  {write : α → Document} {a : α} {b : β}

theorem checkAll_ok {seen : List String} {given : List (String × Document)}
    (hnodup : (given.map (·.1)).Nodup) (hnew : ∀ n ∈ seen, n ∉ given.map (·.1))
    (hgiven : ∀ f ∈ given, ∃ check, known.lookup f.1 = some check ∧ check f.2 = .ok ()) :
    checkAll known closed seen given = .ok () := by
  induction given generalizing seen with
  | nil => rfl
  | cons f given ih =>
    obtain ⟨n, d⟩ := f
    obtain ⟨hn, hnodup⟩ := List.nodup_cons.1 hnodup
    obtain ⟨⟨check, hcheck, hd⟩, hgiven⟩ := List.forall_mem_cons.1 hgiven
    have hseen : seen.contains n = false :=
      Bool.eq_false_iff.2 fun hm => hnew n (List.contains_iff_mem.1 hm) List.mem_cons_self
    have hrest : checkAll known closed (n :: seen) given = .ok () := by
      refine ih hnodup (fun m hm => ?_) hgiven
      rcases List.mem_cons.1 hm with rfl | hm
      · exact hn
      · exact fun hmem => hnew m hm (List.mem_cons_of_mem _ hmem)
    simp only [checkAll, hcheck, hseen, hd]
    exact hrest

theorem of_checkAll_ok {seen : List String} {given : List (String × Document)}
    (h : checkAll known true seen given = .ok ()) :
    (given.map (·.1)).Nodup ∧ (∀ n ∈ seen, n ∉ given.map (·.1)) ∧
      ∀ f ∈ given, ∃ check, known.lookup f.1 = some check ∧ check f.2 = .ok () := by
  induction given generalizing seen with
  | nil => simp
  | cons f given ih =>
    obtain ⟨n, d⟩ := f
    simp only [checkAll] at h
    split at h
    · rename_i check hcheck
      split at h
      · cases h
      · rename_i hseen
        cases hd : check d with
        | error e =>
          rw [hd] at h
          cases h
        | ok u =>
          rw [hd] at h
          obtain ⟨hnodup, hnew, hgiven⟩ := ih h
          obtain ⟨hn, hnew⟩ := List.forall_mem_cons.1 hnew
          refine ⟨List.nodup_cons.2 ⟨hn, hnodup⟩, fun m hm hmem => ?_,
            List.forall_mem_cons.2 ⟨⟨check, hcheck, hd⟩, hgiven⟩⟩
          rcases List.mem_cons.1 hmem with rfl | hmem
          · exact hseen (List.contains_iff_mem.2 hm)
          · exact hnew m hm hmem
    · cases h

/-- The fields of a record as they were written, in some order. -/
structure Holds (fs : Fields) (es : List (String × Document)) : Prop where
  given : ∀ e ∈ es, ∃ d, fs.given.lookup e.1 = some d ∧ d.Alike e.2
  absent : ∀ n, n ∉ es.map (·.1) → fs.given.lookup n = none

/-- Each of the written fields is known and can be read, and none is written twice. -/
structure Suits (known : List (String × Check)) (es : List (String × Document)) : Prop where
  nodup : (es.map (·.1)).Nodup
  checks : ∀ e ∈ es, ∃ check, known.lookup e.1 = some check ∧ ∀ d, d.Alike e.2 → check d = .ok ()

theorem read_of_suits (hd : d.Alike (.object es)) (hes : Suits known es) :
    ∃ fs : Fields, read record closed known d = .ok fs ∧ fs.Holds es := by
  obtain ⟨given, rfl, hperm, hfields⟩ := hd.object_cases
  have hgiven : (given.map (·.1)).Nodup := hperm.nodup_iff.2 hes.nodup
  have hchecks : checkAll known closed [] given = .ok () := by
    refine checkAll_ok hgiven (by simp) fun f hf => ?_
    obtain ⟨e, he, hname⟩ := List.mem_map.1 (hperm.mem_iff.1 (List.mem_map_of_mem hf))
    obtain ⟨check, hcheck, hreads⟩ := hes.checks e he
    obtain ⟨d, hd, halike⟩ := hfields e he
    have hsame : d = f.2 := by
      have hlookup := lookup_of_mem hgiven hf
      rw [← hname, lookup_of_mem hgiven hd] at hlookup
      exact Option.some.inj hlookup
    exact ⟨check, hname ▸ hcheck, hreads _ (hsame ▸ halike)⟩
  refine ⟨⟨record, known.map (·.1), false, given⟩, by simp only [read, hchecks]; rfl,
    fun e he => ?_, fun n hn => lookup_of_notMem fun hmem => hn (hperm.mem_iff.1 hmem)⟩
  obtain ⟨d, hd, halike⟩ := hfields e he
  exact ⟨d, lookup_of_mem hgiven hd, halike⟩

structure Fits (c : String × Check) (e : String × Document) : Prop where
  name : c.1 = e.1
  check : ∀ d, d.Alike e.2 → c.2 d = .ok ()

theorem fits (hf : Reader.Inverts f.read write) : Fits f.check (f.name, write a) :=
  ⟨rfl, fun d hd => by simp only [Field.check, hf hd]; rfl⟩

theorem suits_of_fits (h : List.Forall₂ Fits known es) (hnodup : (es.map (·.1)).Nodup) :
    Suits known es := by
  refine ⟨hnodup, ?_⟩
  induction h with
  | nil => simp
  | @cons c e cs es hce _ ih =>
    obtain ⟨hnew, hnodup⟩ := List.nodup_cons.1 hnodup
    obtain ⟨n, check⟩ := c
    obtain rfl : n = e.1 := hce.name
    refine List.forall_mem_cons.2 ⟨⟨check, List.lookup_cons_self, hce.check⟩, fun e' he' => ?_⟩
    have hne : (e'.1 == e.1) = false :=
      beq_eq_false_iff_ne.2 fun h => hnew (List.mem_map.2 ⟨e', he', h⟩)
    obtain ⟨check', hcheck', hreads⟩ := ih hnodup e' he'
    exact ⟨check', by rw [List.lookup_cons, hne, hcheck'], hreads⟩

theorem read_bind {k : Fields → Except ReadError β} (hd : d.Alike (.object es))
    (hes : Suits known es) (hk : ∀ fs : Fields, fs.Holds es → k fs = .ok b) :
    (read record closed known d >>= k) = .ok b := by
  obtain ⟨fs, hread, hfs⟩ := @read_of_suits known record closed es d hd hes
  rw [hread]
  exact hk fs hfs

namespace Holds

variable {k : α → Except ReadError β}

theorem required_bind (h : fs.Holds es) (hf : Reader.Inverts f.read write)
    (hmem : (f.name, write a) ∈ es) (hk : k a = .ok b) : (fs.required f >>= k) = .ok b := by
  obtain ⟨d, hd, halike⟩ := h.given _ hmem
  simp only [required, hd, hf halike]
  exact hk

theorem withDefault_bind {default : α} (h : fs.Holds es) (hf : Reader.Inverts f.read write)
    (hmem : (f.name, write a) ∈ es) (hk : k a = .ok b) :
    (fs.withDefault f default >>= k) = .ok b := by
  obtain ⟨d, hd, halike⟩ := h.given _ hmem
  simp only [withDefault, hd, hf halike]
  exact hk

theorem absent_bind {default : α} (h : fs.Holds es) (hn : f.name ∉ es.map (·.1))
    (hk : k default = .ok b) : (fs.withDefault f default >>= k) = .ok b := by
  simp only [withDefault, h.absent _ hn]
  exact hk

end Holds

end Fields

end Wiring
