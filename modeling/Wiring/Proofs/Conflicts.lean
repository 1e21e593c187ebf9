import Mathlib.Data.List.Nodup
import Mathlib.Data.List.Perm.Basic
import Wiring.Model.Compose
import Wiring.Proofs.Registration

set_option autoImplicit false

namespace Wiring

/-- The factory that is taken for a key: the only one, or the only one that replaces the others. -/
def Declared.Chosen (ds : List (Declared Factory)) (d : Declared Factory) : Prop :=
  ds = [d] ∨ ds.filter (·.value.policy = .replace) = [d]

/-- Several factories, not just one of which replaces the others. -/
def Declared.Contested (ds : List (Declared Factory)) : Prop :=
  1 < ds.length ∧ ∀ d, ds.filter (·.value.policy = .replace) ≠ [d]

section Picked

variable {α : Type} {as bs : List α} {ds ds' : List (Declared Factory)} {d : Declared Factory}

theorem only?_eq_none_iff : as ≠ [] ∧ only? as = none ↔ 1 < as.length := by
  rcases as with _ | ⟨a, _ | ⟨b, as⟩⟩ <;> simp [only?]

theorem only?_eq_head? (h : as.length ≤ 1) : only? as = as.head? := by
  rcases as with _ | ⟨a, _ | ⟨b, as⟩⟩
  · rfl
  · rfl
  · simp at h

theorem only?_perm (h : as.Perm bs) : only? as = only? bs := by
  refine Option.ext fun a => ?_
  simp only [only?_eq_some_iff]
  constructor
  · rintro rfl
    exact List.perm_singleton.1 h.symm
  · rintro rfl
    exact List.perm_singleton.1 h

theorem pickFactory?_perm (h : ds.Perm ds') : pickFactory? ds = pickFactory? ds' := by
  rw [pickFactory?, pickFactory?, only?_perm h, only?_perm (h.filter _)]

theorem pickFactory?_eq_some_iff : pickFactory? ds = some d ↔ Declared.Chosen ds d := by
  unfold pickFactory? Declared.Chosen
  cases ho : only? ds with
  | none =>
    have hnot : ds ≠ [d] := by
      rintro rfl
      cases ho
    simp [only?_eq_some_iff, hnot]
  | some d' =>
    obtain rfl := only?_eq_some_iff.1 ho
    change some d' = some d ↔ _
    rw [Option.some.injEq, List.singleton_inj]
    refine ⟨.inl, fun h => h.elim id fun hfilter => ?_⟩
    have hm : d ∈ [d'] := List.mem_of_mem_filter (hfilter ▸ List.mem_singleton_self d)
    exact (List.mem_singleton.1 hm).symm

theorem pickFactory?_eq_none_iff : ds ≠ [] ∧ pickFactory? ds = none ↔ Declared.Contested ds := by
  simp only [Option.eq_none_iff_forall_ne_some, ne_eq, pickFactory?_eq_some_iff, Declared.Chosen,
    not_or, Declared.Contested, forall_and]
  rw [← and_assoc]
  refine and_congr_left fun _ => ?_
  rcases ds with _ | ⟨a, _ | ⟨b, ds⟩⟩ <;> simp

end Picked

namespace Table

variable {κ α : Type} [Ord κ] [Std.TransOrd κ] [Std.LawfulEqOrd κ] [DecidableEq κ]

theorem get?_groupBy (f : α → κ) (as : List α) (k : κ) : (group (as.map fun a => (f a, a))).get? k =
    if as.filter (f · = k) = [] then none else some (as.filter (f · = k)) := by
  simp [get?_group, List.filter_map, Function.comp_def]

theorem get?_pick {pick : List α → Option α} (hpick : pick [] = none) (f : α → κ)
    (as : List α) (k : κ) :
    ((group (as.map fun a => (f a, a))).filterMap fun _ => pick).get? k =
      pick (as.filter (f · = k)) := by
  rw [get?_filterMap, get?_groupBy]
  split
  · rename_i h
    rw [h, hpick]
    rfl
  · rfl

theorem exists_keys_group (f : α → κ) (as : List α) (p : List α → Bool) : ∃ ks : List κ, ks.Nodup ∧
    (∀ k, k ∈ ks ↔ as.filter (f · = k) ≠ [] ∧ p (as.filter (f · = k))) ∧
    (group (as.map fun a => (f a, a))).entries.filter (fun e => p e.2) =
      ks.map fun k => (k, as.filter (f · = k)) := by
  have hentries : ∀ e ∈ (group (as.map fun a => (f a, a))).entries, as.filter (f · = e.1) ≠ [] ∧
      e.2 = as.filter (f · = e.1) := by
    intro e he
    have hget := get?_eq_some_iff.2 he
    rw [get?_groupBy] at hget
    split at hget
    · cases hget
    · rename_i hne
      exact ⟨hne, (Option.some.inj hget).symm⟩
  refine ⟨((group (as.map fun a => (f a, a))).entries.filter fun e => p e.2).map (·.1), ?_,
    fun k => ?_, ?_⟩
  · exact (keys_nodup _).sublist (List.filter_sublist.map _)
  · simp only [List.mem_map, List.mem_filter]
    constructor
    · rintro ⟨e, ⟨he, hp⟩, rfl⟩
      obtain ⟨hne, heq⟩ := hentries e he
      exact ⟨hne, heq ▸ hp⟩
    · rintro ⟨hne, hp⟩
      refine ⟨(k, as.filter (f · = k)), ⟨get?_eq_some_iff.1 ?_, hp⟩, rfl⟩
      rw [get?_groupBy, if_neg hne]
  · rw [List.map_map]
    refine (List.map_id' _).symm.trans (List.map_congr_left fun e he => ?_)
    exact Prod.ext rfl (hentries e (List.mem_filter.1 he).1).2

end Table

namespace Registry

def factoriesFor (ss : List Specification) (k : Key) : List (Declared Factory) :=
  (Declared.all (·.factories) ss).filter (·.value.provides = k)

def buildersFor (ss : List Specification) (k : Key) : List (Declared Builder) :=
  (Declared.all (·.builders) ss).filter (·.value.target = k)

def linksFor (ss : List Specification) (k : Key) : List (Declared Link) :=
  ((Declared.all (·.links) ss).filter (·.value.mapping = .declared)).filter (·.value.target = k)

def inheritingFor (ss : List Specification) (t : TypeName) : List (Declared Link) :=
  ((Declared.all (·.links) ss).filter (·.value.mapping = .inherit)).filter (·.value.target.type = t)

/-- Declarations of which at most one can be meant for each key. -/
structure ConflictFree (ss : List Specification) (is : List Interface) : Prop where
  factories : ∀ k, factoriesFor ss k ≠ [] → ∃ d, Declared.Chosen (factoriesFor ss k) d
  builders : ∀ k, (buildersFor ss k).length ≤ 1
  links : ∀ k, (linksFor ss k).length ≤ 1
  inheriting : ∀ t, (inheritingFor ss t).length ≤ 1
  interfaces : ∀ i ∈ is, ∀ k ∈ i.keys, factoriesFor ss k = []

/-- A registry that says of each key what is declared for it. -/
structure AnswersFrom (r : Registry) (ss : List Specification) (is : List Interface) : Prop where
  factory : ∀ k d, r.factory? k = some d ↔ Declared.Chosen (factoriesFor ss k) d
  no_factory : ∀ k, r.factory? k = none ↔ factoriesFor ss k = []
  builder : ∀ k, r.builder? k = (buildersFor ss k).head?
  link : ∀ k, r.link? k = ((linksFor ss k).head? <|> (inheritingFor ss k.type).head?)
  external : ∀ k, r.external? k = (is.find? (k ∈ ·.keys)).map (·.id)

def errors (ss : List Specification) (is : List Interface) : List BindingError :=
  match register ss is with
  | .ok _ => []
  | .error es => es

def Reports {κ α : Type} (contested : κ → Prop) (key : κ → Key) (declared : κ → List α)
    (describe : α → String × Option Location) (es : List BindingError) : Prop :=
  ∃ ks : List κ, ks.Nodup ∧ (∀ k, k ∈ ks ↔ contested k) ∧
    es = ks.map fun k => conflict (key k) ((declared k).map describe)

theorem Reports.eq_nil_iff {κ α : Type} {contested : κ → Prop} {key : κ → Key}
    {declared : κ → List α} {describe : α → String × Option Location} {es : List BindingError}
    (h : Reports contested key declared describe es) : es = [] ↔ ∀ k, ¬ contested k := by
  obtain ⟨ks, -, hks, rfl⟩ := h
  rw [List.map_eq_nil_iff, List.eq_nil_iff_forall_not_mem]
  simp only [hks]

theorem conflictsIn_eq {κ α : Type} [Ord κ] (groups : Table κ (List α)) (pick : List α → Option α)
    (key : κ → List α → Key) (describe : α → String × Option Location) :
    Candidates.conflictsIn groups pick key describe =
      (groups.entries.filter fun e => (pick e.2).isNone).map fun e =>
      conflict (key e.1 e.2) (e.2.map describe) := by
  unfold Candidates.conflictsIn
  induction groups.entries with
  | nil => rfl
  | cons e es ih => cases hpick : pick e.2 <;> simp [hpick, ih]

theorem reports_conflictsIn {κ α : Type} [Ord κ] [Std.TransOrd κ] [Std.LawfulEqOrd κ]
    [DecidableEq κ] {contested : κ → Prop} {pick : List α → Option α} (f : α → κ) (as : List α)
    (key : κ → List α → Key) (describe : α → String × Option Location)
    (h : ∀ k, as.filter (f · = k) ≠ [] ∧ pick (as.filter (f · = k)) = none ↔ contested k) :
    Reports contested (fun k => key k (as.filter (f · = k))) (fun k => as.filter (f · = k)) describe
      (Candidates.conflictsIn (.group (as.map fun a => (f a, a))) pick key describe) := by
  obtain ⟨ks, hnodup, hks, hentries⟩ := Table.exists_keys_group f as fun ds => (pick ds).isNone
  refine ⟨ks, hnodup, fun k => (hks k).trans ?_, ?_⟩
  · rw [Option.isNone_iff_eq_none]
    exact h k
  · rw [conflictsIn_eq, hentries, List.map_map]
    rfl

section Specifications

variable (ss : List Specification) (is : List Interface)

theorem reports_conflicts : ∃ fs bs ls ts : List BindingError,
    (Candidates.ofSpecifications ss).conflicts = fs ++ bs ++ ls ++ ts ∧
    Reports (fun k => Declared.Contested (factoriesFor ss k)) id
      (factoriesFor ss) Declared.describeFactory fs ∧
    Reports (fun k => 1 < (buildersFor ss k).length) id
      (buildersFor ss) Declared.describeBuilder bs ∧
    Reports (fun k => 1 < (linksFor ss k).length) id (linksFor ss) Declared.describeLink ls ∧
    Reports (fun t => 1 < (inheritingFor ss t).length)
      (fun t => Candidates.linkKey t (inheritingFor ss t))
        (inheritingFor ss) Declared.describeLink ts :=
  ⟨_, _, _, _, rfl,
    reports_conflictsIn _ _ (fun k _ => k) _ fun _ => pickFactory?_eq_none_iff,
    reports_conflictsIn _ _ (fun k _ => k) _ fun _ => only?_eq_none_iff,
    reports_conflictsIn _ _ (fun k _ => k) _ fun _ => only?_eq_none_iff,
    reports_conflictsIn _ _ Candidates.linkKey _ fun _ => only?_eq_none_iff⟩

theorem errors_eq : errors ss is = (Candidates.ofSpecifications ss).conflicts ++
    ((Candidates.ofSpecifications ss).registry is).clashes is := by
  unfold errors register
  dsimp only
  split
  · rename_i hok
    split at hok
    · rename_i hnone
      exact hnone.symm
    · cases hok
  · rename_i herror
    split at herror
    · cases herror
    · cases herror
      rfl

theorem get?_factories (k : Key) :
    ((Candidates.ofSpecifications ss).registry is).factories.get? k =
      pickFactory? (factoriesFor ss k) :=
  Table.get?_pick rfl _ _ k

theorem get?_builders (k : Key) :
    ((Candidates.ofSpecifications ss).registry is).builders.get? k = only? (buildersFor ss k) :=
  Table.get?_pick rfl _ _ k

theorem get?_links (k : Key) :
    ((Candidates.ofSpecifications ss).registry is).links.get? k = only? (linksFor ss k) :=
  Table.get?_pick rfl _ _ k

theorem get?_inheriting (t : TypeName) :
    ((Candidates.ofSpecifications ss).registry is).inheriting.get? t = only? (inheritingFor ss t) :=
  Table.get?_pick rfl _ _ t

theorem exists_clashes : ∃ ps : List (Interface × Key × Declared Factory),
    ((Candidates.ofSpecifications ss).registry is).clashes is =
      ps.map (fun p => conflict p.2.1 [p.2.2.describeFactory, p.1.describe]) ∧
    ∀ i k d, (i, k, d) ∈ ps ↔ i ∈ is ∧ k ∈ i.keys ∧ Declared.Chosen (factoriesFor ss k) d := by
  refine ⟨is.flatMap fun i =>
    i.keys.filterMap fun k => (pickFactory? (factoriesFor ss k)).map fun d => (i, k, d),
    ?_, fun i k d => ?_⟩
  · simp only [clashes, get?_factories, List.map_flatMap, List.map_filterMap, Option.map_map,
      Function.comp_def]
  · simp only [List.mem_flatMap, List.mem_filterMap, Option.map_eq_some_iff,
      pickFactory?_eq_some_iff, Prod.mk.injEq]
    constructor
    · rintro ⟨i', hi, k', hk, d', hd, rfl, rfl, rfl⟩
      exact ⟨hi, hk, hd⟩
    · rintro ⟨hi, hk, hd⟩
      exact ⟨i, hi, k, hk, d, hd, rfl, rfl, rfl⟩

end Specifications

variable {ss ss' : List Specification} {is : List Interface} {r : Registry}

theorem not_contested_iff {ds : List (Declared Factory)} :
    ¬ Declared.Contested ds ↔ (ds ≠ [] → ∃ d, Declared.Chosen ds d) := by
  rw [← pickFactory?_eq_none_iff, not_and]
  simp only [← pickFactory?_eq_some_iff, ← Option.ne_none_iff_exists', ne_eq]

theorem conflictFree_iff : ConflictFree ss is ↔ errors ss is = [] := by
  obtain ⟨fs, bs, ls, ts, hconflicts, hfs, hbs, hls, hts⟩ := reports_conflicts ss
  obtain ⟨ps, hclashes, hps⟩ := exists_clashes ss is
  rw [errors_eq, hconflicts, hclashes]
  simp only [List.append_eq_nil_iff, List.map_eq_nil_iff, hfs.eq_nil_iff, hbs.eq_nil_iff,
    hls.eq_nil_iff, hts.eq_nil_iff, not_contested_iff, Nat.not_lt]
  constructor
  · intro h
    refine ⟨⟨⟨⟨h.factories, h.builders⟩, h.links⟩, h.inheriting⟩,
      List.eq_nil_iff_forall_not_mem.2 ?_⟩
    rintro ⟨i, k, d⟩ hm
    obtain ⟨hi, hk, hd⟩ := (hps i k d).1 hm
    rw [h.interfaces i hi k hk] at hd
    rcases hd with hd | hd <;> cases hd
  · rintro ⟨⟨⟨⟨hf, hb⟩, hl⟩, ht⟩, hnone⟩
    refine ⟨hf, hb, hl, ht, fun i hi k hk => by_contra fun hne => ?_⟩
    obtain ⟨d, hd⟩ := hf k hne
    have hm := (hps i k d).2 ⟨hi, hk, hd⟩
    rw [hnone] at hm
    cases hm

theorem register_ok_iff_conflictFree :
    register ss is = .ok r ↔ ConflictFree ss is ∧
      r = (Candidates.ofSpecifications ss).registry is := by
  rw [register_ok_iff, conflictFree_iff, errors_eq, List.append_eq_nil_iff, and_assoc]
  refine and_congr_right fun _ => and_congr_left ?_
  rintro rfl
  rfl

theorem ConflictFree.answers (h : ConflictFree ss is) :
    ((Candidates.ofSpecifications ss).registry is).AnswersFrom ss is where
  factory k d := by rw [factory?, get?_factories, pickFactory?_eq_some_iff]
  no_factory k := by
    rw [factory?, get?_factories]
    constructor
    · intro hnone
      by_contra hne
      obtain ⟨d, hd⟩ := h.factories k hne
      rw [pickFactory?_eq_some_iff.2 hd] at hnone
      cases hnone
    · intro hnil
      rw [hnil]
      rfl
  builder k := by rw [builder?, get?_builders, only?_eq_head? (h.builders k)]
  link k := by
    rw [link?, get?_links, get?_inheriting, only?_eq_head? (h.links k),
      only?_eq_head? (h.inheriting k.type)]
  external k := get?_externals _ is k

section Permuted

variable (h : ss.Perm ss')
include h

theorem all_perm {α : Type} (declarations : Specification → List α) :
    (Declared.all declarations ss).Perm (Declared.all declarations ss') :=
  h.flatMap_right _

theorem factoriesFor_perm (k : Key) : (factoriesFor ss k).Perm (factoriesFor ss' k) :=
  (all_perm h _).filter _

theorem buildersFor_perm (k : Key) : (buildersFor ss k).Perm (buildersFor ss' k) :=
  (all_perm h _).filter _

theorem linksFor_perm (k : Key) : (linksFor ss k).Perm (linksFor ss' k) :=
  ((all_perm h _).filter _).filter _

theorem inheritingFor_perm (t : TypeName) : (inheritingFor ss t).Perm (inheritingFor ss' t) :=
  ((all_perm h _).filter _).filter _

theorem registry_perm (is : List Interface) :
    (Candidates.ofSpecifications ss).registry is =
      (Candidates.ofSpecifications ss').registry is := by
  refine (Registry.mk.injEq ..).mpr ⟨Table.ext_get? fun k => ?_, Table.ext_get? fun k => ?_,
    Table.ext_get? fun k => ?_, Table.ext_get? fun t => ?_, rfl⟩
  · refine (get?_factories ss is k).trans (.trans ?_ (get?_factories ss' is k).symm)
    exact pickFactory?_perm (factoriesFor_perm h k)
  · refine (get?_builders ss is k).trans (.trans ?_ (get?_builders ss' is k).symm)
    exact only?_perm (buildersFor_perm h k)
  · refine (get?_links ss is k).trans (.trans ?_ (get?_links ss' is k).symm)
    exact only?_perm (linksFor_perm h k)
  · refine (get?_inheriting ss is t).trans (.trans ?_ (get?_inheriting ss' is t).symm)
    exact only?_perm (inheritingFor_perm h t)

theorem ConflictFree.perm (hfree : ConflictFree ss is) : ConflictFree ss' is where
  factories k hne := by
    have hsome : factoriesFor ss k ≠ [] :=
      fun hnil => hne ((hnil ▸ factoriesFor_perm h k).nil_eq).symm
    obtain ⟨d, hd⟩ := hfree.factories k hsome
    refine ⟨d, pickFactory?_eq_some_iff.1 ?_⟩
    rw [← pickFactory?_perm (factoriesFor_perm h k)]
    exact pickFactory?_eq_some_iff.2 hd
  builders k := (buildersFor_perm h k).length_eq ▸ hfree.builders k
  links k := (linksFor_perm h k).length_eq ▸ hfree.links k
  inheriting t := (inheritingFor_perm h t).length_eq ▸ hfree.inheriting t
  interfaces i hi k hk := ((hfree.interfaces i hi k hk ▸ factoriesFor_perm h k).nil_eq).symm

end Permuted

/-- A registry is made from just the declarations without conflicts, in whatever order they come,
and it answers from them. -/
theorem register_conflictFree (ss : List Specification) (is : List Interface) :
    ((∃ r, register ss is = .ok r) ↔ ConflictFree ss is) ∧
    (∀ r, register ss is = .ok r → r.AnswersFrom ss is) ∧
    ∀ ss', ss.Perm ss' → ∀ r, register ss is = .ok r ↔ register ss' is = .ok r := by
  simp only [register_ok_iff_conflictFree]
  refine ⟨⟨fun h => h.elim fun _ h => h.1, fun h => ⟨_, h, rfl⟩⟩, ?_, fun ss' h r => ?_⟩
  · rintro r ⟨h, rfl⟩
    exact h.answers
  · rw [registry_perm h is]
    exact and_congr_left fun _ => ⟨.perm h, .perm h.symm⟩

def replacedSpecifications : List Specification := [
  { id := "Live"
    factories := [.ofKey "connect" ⟨"Db", none⟩]
    builders := [.ofKey "finish" ⟨"Page", none⟩]
    links := [(Link.between ⟨"Store", none⟩ ⟨"Db", none⟩).inheritQualifier] },
  { id := "Trial"
    factories := [(Factory.ofKey "pretend" ⟨"Db", none⟩).replacing]
    links := [.between ⟨"Store", none⟩ ⟨"Memory", none⟩] }]

theorem register_replaced :
    ∃ r, register replacedSpecifications [⟨"Host", [⟨"Clock", none⟩], none⟩] = .ok r ∧
    (∃ d, r.factory? ⟨"Db", none⟩ = some d ∧ d.value.name = "pretend") ∧
    r.external? ⟨"Clock", none⟩ = some "Host" ∧
    register replacedSpecifications.reverse [⟨"Host", [⟨"Clock", none⟩], none⟩] = .ok r := by
  obtain ⟨haccepts, hanswers, hperm⟩ :=
    register_conflictFree replacedSpecifications [⟨"Host", [⟨"Clock", none⟩], none⟩]
  have hnone : errors replacedSpecifications [⟨"Host", [⟨"Clock", none⟩], none⟩] = [] := by
    decide +kernel
  obtain ⟨r, hr⟩ := haccepts.2 (conflictFree_iff.2 hnone)
  have h := hanswers r hr
  refine ⟨r, hr, ⟨⟨"Trial", (Factory.ofKey "pretend" ⟨"Db", none⟩).replacing⟩,
    (h.factory _ _).2 (.inr ?_), rfl⟩, ?_, (hperm _ (List.reverse_perm _).symm r).1 hr⟩
  · decide +kernel
  · rw [h.external]
    decide +kernel

/-- Every contested key is reported once with all its candidates, and every interface with each
factory that it clashes with; but a factory that stands beside others is not found to clash. -/
theorem errors_reported (ss : List Specification) (is : List Interface) :
    ∃ (fs bs ls ts : List BindingError) (ps : List (Interface × Key × Declared Factory)),
      errors ss is = fs ++ bs ++ ls ++ ts ++
        ps.map (fun p => conflict p.2.1 [p.2.2.describeFactory, p.1.describe]) ∧
      Reports (fun k => Declared.Contested (factoriesFor ss k)) id
        (factoriesFor ss) Declared.describeFactory fs ∧
      Reports (fun k => 1 < (buildersFor ss k).length) id
        (buildersFor ss) Declared.describeBuilder bs ∧
      Reports (fun k => 1 < (linksFor ss k).length) id (linksFor ss) Declared.describeLink ls ∧
      Reports (fun t => 1 < (inheritingFor ss t).length)
        (fun t => Candidates.linkKey t (inheritingFor ss t))
          (inheritingFor ss) Declared.describeLink ts ∧
      (∀ i k d, (i, k, d) ∈ ps ↔ i ∈ is ∧ k ∈ i.keys ∧ Declared.Chosen (factoriesFor ss k) d) ∧
      ((∀ i ∈ is, ∀ k ∈ i.keys, factoriesFor ss k ≠ [] → ∃ d, (i, k, d) ∈ ps) ↔
        ∀ i ∈ is, ∀ k ∈ i.keys, ¬ Declared.Contested (factoriesFor ss k)) := by
  obtain ⟨fs, bs, ls, ts, hconflicts, hfs, hbs, hls, hts⟩ := reports_conflicts ss
  obtain ⟨ps, hclashes, hps⟩ := exists_clashes ss is
  refine ⟨fs, bs, ls, ts, ps, ?_, hfs, hbs, hls, hts, hps, ?_⟩
  · rw [errors_eq, hconflicts, hclashes]
  · refine forall₂_congr fun i hi => forall₂_congr fun k hk => ?_
    simp only [hps, hi, hk, true_and, not_contested_iff]

def rivalSpecifications : List Specification := [
  { id := "S", factories := [.ofKey "a" ⟨"Db", none⟩, .ofKey "b" ⟨"Db", none⟩] }]

/-- Only the two factories are reported, and `Host` is not. -/
theorem clash_of_rivals_hidden : factoriesFor rivalSpecifications ⟨"Db", none⟩ ≠ [] ∧
    errors rivalSpecifications [⟨"Host", [⟨"Db", none⟩], none⟩] =
      [.duplicate ⟨"Db", none⟩ ["S::a", "S::b"] none] := by
  decide +kernel

end Registry

end Wiring
