import Mathlib.Data.List.TakeWhile
import Mathlib.Data.Nat.Digits.Defs
import Wiring.Proofs.Layering

set_option autoImplicit false

namespace Wiring

structure Trimmed (s t : String) : Prop where
  within : ∃ before after : List Char, s.toList = before ++ t.toList ++ after ∧
    (∀ c ∈ before, isSpace c) ∧ ∀ c ∈ after, isSpace c
  head : ∀ c ∈ t.toList.head?, ¬ isSpace c
  last : ∀ c ∈ t.toList.getLast?, ¬ isSpace c

theorem trimLeft_append {before cs : List Char} (hbefore : ∀ c ∈ before, isSpace c)
    (hhead : ∀ c ∈ cs.head?, ¬ isSpace c) : trimLeft (before ++ cs) = cs := by
  rw [trimLeft, List.dropWhile_append_of_pos hbefore]
  cases cs with
  | nil => rfl
  | cons c cs => exact List.dropWhile_cons_of_neg (hhead c rfl)

theorem not_isSpace_head (cs : List Char) : ∀ c ∈ (trimLeft cs).head?, ¬ isSpace c := by
  intro c hc
  have h := List.head?_dropWhile_not isSpace cs
  rw [show (cs.dropWhile isSpace).head? = some c from hc] at h
  simpa using h

theorem exists_trimLeft (cs : List Char) :
    ∃ before, cs = before ++ trimLeft cs ∧ ∀ c ∈ before, isSpace c :=
  ⟨cs.takeWhile isSpace, List.takeWhile_append_dropWhile.symm,
    fun _ hc => List.mem_takeWhile_imp hc⟩

theorem trimmed_trim (s : String) : Trimmed s (trim s) := by
  obtain ⟨before, hbefore, hspace⟩ := exists_trimLeft s.toList
  obtain ⟨after, hafter, hspace'⟩ := exists_trimLeft (trimLeft s.toList).reverse
  have htext : (trim s).toList = (trimLeft (trimLeft s.toList).reverse).reverse :=
    String.toList_ofList
  have hrest : trimLeft s.toList = (trim s).toList ++ after.reverse := by
    rw [htext, ← List.reverse_append, ← hafter, List.reverse_reverse]
  refine ⟨⟨before, after.reverse, ?_, hspace, by simpa using hspace'⟩,
    fun c hc => ?_, fun c hc => ?_⟩
  · rw [List.append_assoc, ← hrest, ← hbefore]
  · refine not_isSpace_head s.toList c ?_
    rw [hrest, List.head?_append, show (trim s).toList.head? = some c from hc]
    rfl
  · rw [htext, List.getLast?_reverse] at hc
    exact not_isSpace_head _ c hc

theorem trimmed_iff {s t : String} : Trimmed s t ↔ trim s = t := by
  constructor
  · rintro ⟨⟨before, after, hs, hbefore, hafter⟩, hhead, hlast⟩
    by_cases ht : t.toList = []
    · -- nothing but white space, all of which goes on the left
      have hall : trimLeft s.toList = [] := by
        rw [hs, ht, List.append_nil, ← List.append_nil (before ++ after)]
        exact trimLeft_append (fun c hc => (List.mem_append.1 hc).elim (hbefore c) (hafter c))
          (by simp)
      rw [trim, hall, ← String.ofList_toList (s := t), ht]
      rfl
    · have hleft : trimLeft s.toList = t.toList ++ after := by
        rw [hs, List.append_assoc]
        refine trimLeft_append hbefore fun c hc => hhead c ?_
        rwa [List.head?_append_of_ne_nil _ ht] at hc
      have hright : trimLeft (t.toList ++ after).reverse = t.toList.reverse := by
        rw [List.reverse_append]
        refine trimLeft_append (by simpa using hafter) fun c hc => hlast c ?_
        rwa [List.head?_reverse] at hc
      rw [trim, hleft, hright, List.reverse_reverse, String.ofList_toList]
  · rintro rfl
    exact trimmed_trim s

theorem lowerAscii_eq (c : Char) : lowerAscii c = c.toLower := by
  have hcond : ('A' ≤ c ∧ c ≤ 'Z') ↔ c.val ≥ 'A'.val ∧ c.val ≤ 'Z'.val := Iff.rfl
  unfold lowerAscii Char.toLower
  by_cases h : 'A' ≤ c ∧ c ≤ 'Z'
  · rw [if_pos h, dif_pos (hcond.1 h)]
    have hle : c.toNat ≤ 90 := h.2
    have hvalid : (c.toNat + 32).isValidChar := .inl (by omega)
    have hsmall : c.toNat + 32 < 2 ^ 32 := by omega
    refine Char.ext (UInt32.toNat_inj.1 ?_)
    change (Char.ofNat (c.toNat + 32)).toNat = (c.val + 32).toNat
    rw [Char.ofNat, dif_pos hvalid, UInt32.toNat_add]
    exact (Nat.mod_eq_of_lt hsmall).symm
  · rw [if_neg h, dif_neg (mt hcond.2 h)]

def words : Bool → List String
  | true => ["1", "true", "yes", "on"]
  | false => ["0", "false", "no", "off"]

theorem readSwitch?_eq (text : String) : readSwitch? text =
    if text.toLower ∈ words true then some true
      else if text.toLower ∈ words false then some false else none := by
  have hlower : String.ofList (text.toList.map lowerAscii) = text.toLower := by
    rw [funext lowerAscii_eq, ← String.toList_map, String.ofList_toList]
    rfl
  simp only [readSwitch?, hlower, List.contains_iff_mem]
  rfl

theorem readSwitch?_eq_some_iff {text : String} {b : Bool} :
    readSwitch? text = some b ↔ text.toLower ∈ words b := by
  have hdisjoint : ∀ word ∈ words false, word ∉ words true := by decide
  rw [readSwitch?_eq]
  cases b with
  | true => split_ifs <;> simp [*]
  | false =>
    by_cases h : text.toLower ∈ words false
    · simp [h, hdisjoint _ h]
    · split_ifs <;> simp [*]

def numberOf (ds : List Char) : Nat := Nat.ofDigits 10 (ds.reverse.map fun d => d.toNat - '0'.toNat)

/-- Decimal digits, with a plus sign in front of them or none, that stand for a number of 64 bits.
-/
def Numeral (text : String) (n : Nat) : Prop :=
  ∃ ds, (text.toList = ds ∨ text.toList = '+' :: ds) ∧ ds ≠ [] ∧ (∀ d ∈ ds, d.isDigit) ∧
    numberOf ds = n ∧ n < 2 ^ 64

theorem foldl_eq_numberOf (ds : List Char) :
    ds.foldl (fun n d => n * 10 + (d.toNat - '0'.toNat)) 0 = numberOf ds := by
  rw [numberOf, Nat.ofDigits_eq_foldr, List.foldr_map, List.foldr_reverse]
  congr 1
  funext n d
  simp [Nat.mul_comm, Nat.add_comm]

theorem readNatural?_eq_some_iff {text : String} {n : Nat} :
    readNatural? text = some n ↔ Numeral text n := by
  have hread : ∀ ds : List Char, (if ds = [] then none else if ds.all Char.isDigit then
      let n := ds.foldl (fun n d => n * 10 + (d.toNat - '0'.toNat)) 0
      if n < Nat.pow 2 64 then some n else none else none) = some n ↔
      ds ≠ [] ∧ (∀ d ∈ ds, d.isDigit) ∧ numberOf ds = n ∧ n < 2 ^ 64 := by
    intro ds
    simp only [foldl_eq_numberOf, Option.ite_none_left_eq_some, Option.ite_none_right_eq_some,
      List.all_eq_true, Option.some.injEq, ne_eq]
    refine and_congr_right fun _ => and_congr_right fun _ => ?_
    constructor
    · rintro ⟨hlt, rfl⟩
      exact ⟨rfl, hlt⟩
    · rintro ⟨rfl, hlt⟩
      exact ⟨hlt, rfl⟩
  unfold readNatural? Numeral
  rw [hread]
  have hplus : ¬ '+'.isDigit := by decide
  split
  · rename_i ds htext
    constructor
    · exact fun h => ⟨ds, .inr htext, h⟩
    · rintro ⟨ds', htext' | htext', h⟩
      · obtain rfl : '+' :: ds = ds' := htext.symm.trans htext'
        exact absurd (h.2.1 _ List.mem_cons_self) hplus
      · obtain ⟨-, rfl⟩ := List.cons.inj (htext.symm.trans htext')
        exact h
  · rename_i hsign
    constructor
    · exact fun h => ⟨_, .inl rfl, h⟩
    · rintro ⟨ds, rfl | htext, h⟩
      · exact h
      · exact absurd htext (hsign ds)

namespace Variable

variable {v : Variable} {e : String × String}

def name : Variable → String
  | .autoBinding => "GRAFT_AUTO_BINDING"
  | .parallel => "GRAFT_PARALLEL"
  | .workerThreads => "GRAFT_WORKER_THREADS"
  | .timeoutMs => "GRAFT_TIMEOUT_MS"

theorem ofName?_eq_some_iff {n : String} : ofName? n = some v ↔ n = v.name := by
  constructor
  · intro h
    unfold ofName? at h
    split at h <;> cases h <;> rfl
  · rintro rfl
    cases v <;> rfl

/-- A text that stands for a value of a variable. -/
def Means : (v : Variable) → String → v.Value → Prop
  | .autoBinding, text, b | .parallel, text, b => text.toLower ∈ words b
  | .workerThreads, text, n | .timeoutMs, text, n => Numeral text n

theorem ofText?_eq_some_iff {text : String} {x : v.Value} :
    v.ofText? text = some x ↔ v.Means text x := by
  cases v with
  | autoBinding | parallel => exact readSwitch?_eq_some_iff
  | workerThreads | timeoutMs => exact readNatural?_eq_some_iff

def Gives (v : Variable) (e : String × String) (x : v.Value) : Prop :=
  e.1 = v.name ∧ ∃ text, Trimmed e.2 text ∧ v.Means text x

/-- An entry that is for none of the variables, or has a value for the one that it is for. -/
def Valid (e : String × String) : Prop := ∀ v : Variable, e.1 = v.name → ∃ x, v.Gives e x

theorem gives_iff {x : v.Value} : v.Gives e x ↔ v.saidBy? e = some x := by
  simp only [Gives, trimmed_iff, exists_eq_left', saidBy?, Option.ite_none_right_eq_some,
    ofName?_eq_some_iff, ofText?_eq_some_iff]

theorem valid_iff : Valid e ↔ Readable e := by
  refine forall_congr' fun v => ?_
  rw [ofName?_eq_some_iff]
  refine forall_congr' fun hname => ?_
  simp only [Gives, hname, trimmed_iff, exists_eq_left', true_and, Option.isSome_iff_exists,
    ofText?_eq_some_iff]

theorem saidBy?_eq_none (h : e.1 ≠ v.name) : v.saidBy? e = none := by
  rw [saidBy?, if_neg (mt ofName?_eq_some_iff.1 h)]

theorem saidBy?_eq_none_iff (h : Valid e) : v.saidBy? e = none ↔ e.1 ≠ v.name := by
  refine ⟨fun hnone hname => ?_, saidBy?_eq_none⟩
  obtain ⟨x, hx⟩ := h v hname
  simp [gives_iff.1 hx] at hnone

end Variable

namespace Layer

open Variable (Valid valid_iff gives_iff saidBy?_eq_none saidBy?_eq_none_iff ofName?_eq_some_iff)

variable {l : Layer} {d : InvalidValue} {e : String × String}
  {entries entries' others : List (String × String)}

theorem withVariable_other (h : ∀ v : Variable, e.1 ≠ v.name) : l.withVariable e = .ok l := by
  have hname : Variable.ofName? e.1 = none :=
    Option.eq_none_iff_forall_ne_some.2 fun v hv => h v (ofName?_eq_some_iff.1 hv)
  simp only [withVariable, hname]

theorem withVariable_error : l.withVariable e = .error d ↔ ¬ Valid e ∧ d = ⟨e.1, trim e.2⟩ := by
  rw [valid_iff]
  unfold withVariable Variable.Readable
  cases hname : Variable.ofName? e.1 with
  | none => simp
  | some w =>
    simp only [set?_eq]
    cases hx : w.ofText? (trim e.2) <;> simp [hx, @eq_comm _ d]

theorem foldlM_withVariable_error : entries.foldlM withVariable l = .error d ↔ ∃ before e after,
    entries = before ++ e :: after ∧ (∀ e' ∈ before, Valid e') ∧ ¬ Valid e ∧
    d = ⟨e.1, trim e.2⟩ := by
  induction entries generalizing l with
  | nil => simp [pure, Except.pure]
  | cons e entries ih =>
    rw [List.foldlM_cons, bind_error, withVariable_error]
    constructor
    · rintro (⟨he, hd⟩ | ⟨l', hl', h⟩)
      · exact ⟨[], e, entries, rfl, by simp, he, hd⟩
      · obtain ⟨before, e', after, rfl, hbefore, he', hd⟩ := ih.1 h
        have he : Valid e := valid_iff.2 (withVariable_ok.1 hl').1
        exact ⟨e :: before, e', after, rfl, List.forall_mem_cons.2 ⟨he, hbefore⟩, he', hd⟩
    · rintro ⟨_ | ⟨e', before⟩, e', after, hentries, hbefore, he', hd⟩
      · obtain ⟨rfl, rfl⟩ := List.cons.inj hentries
        exact .inl ⟨he', hd⟩
      · obtain ⟨rfl, rfl⟩ := List.cons.inj hentries
        obtain ⟨he, hbefore⟩ := List.forall_mem_cons.1 hbefore
        have hl := withVariable_ok (l := l).2 ⟨valid_iff.1 he, fun v => value_ofValues _⟩
        exact .inr ⟨_, hl, ih.2 ⟨before, _, after, rfl, hbefore, he', hd⟩⟩

theorem foldlM_withVariable_others (h : ∀ e ∈ others, ∀ v : Variable, e.1 ≠ v.name) :
    others.foldlM withVariable l = .ok l := by
  induction others with
  | nil => rfl
  | cons e others ih =>
    obtain ⟨he, h⟩ := List.forall_mem_cons.1 h
    rw [List.foldlM_cons, withVariable_other he]
    exact ih h

theorem ofVariables_insert (before after : List (String × String))
    (h : ∀ e ∈ others, ∀ v : Variable, e.1 ≠ v.name) :
    ofVariables (before ++ others ++ after) = ofVariables (before ++ after) := by
  simp only [ofVariables, List.foldlM_append]
  cases before.foldlM withVariable {} with
  | error d => rfl
  | ok l =>
    change (others.foldlM withVariable l >>= fun l => after.foldlM withVariable l) = _
    rw [foldlM_withVariable_others h]

theorem ofVariables_ok : ofVariables entries = .ok l ↔
    (∀ e ∈ entries, Valid e) ∧ ∀ v : Variable, l.value v = entries.reverse.findSome? v.saidBy? := by
  simp only [ofVariables, foldlM_withVariable, value_empty, Option.or_none, valid_iff]

theorem findSome?_saidBy? (v : Variable) (entries : List (String × String)) :
    entries.reverse.findSome? v.saidBy? =
    (entries.filter (·.1 = v.name)).reverse.findSome? v.saidBy? := by
  have hsaid : v.saidBy? = fun e => if decide (e.1 = v.name) then v.saidBy? e else none := by
    funext e
    by_cases h : e.1 = v.name <;> simp [h, saidBy?_eq_none]
  rw [← List.filter_reverse, ← List.head?_filterMap, ← List.head?_filterMap,
    List.filterMap_filter, ← hsaid]

theorem forall_valid_iff (entries : List (String × String)) :
    (∀ e ∈ entries, Valid e) ↔ ∀ v : Variable, ∀ e ∈ entries.filter (·.1 = v.name), Valid e := by
  refine ⟨fun h v e he => h e (List.mem_filter.1 he).1, fun h e he v hname => ?_⟩
  exact h v e (List.mem_filter.2 ⟨he, by simpa using hname⟩) v hname

theorem ofVariables_ok_congr
    (h : ∀ v : Variable, entries.filter (·.1 = v.name) = entries'.filter (·.1 = v.name)) :
    ofVariables entries = .ok l ↔ ofVariables entries' = .ok l := by
  simp only [ofVariables_ok, forall_valid_iff entries, forall_valid_iff entries',
    findSome?_saidBy? _ entries, findSome?_saidBy? _ entries', h]

theorem value_eq_some_iff (hvalid : ∀ e ∈ entries, Valid e) {v : Variable} {x : v.Value} :
    entries.reverse.findSome? v.saidBy? = some x ↔
      ∃ before e after, entries = before ++ e :: after ∧ v.Gives e x ∧
        ∀ e' ∈ after, e'.1 ≠ v.name := by
  rw [List.findSome?_eq_some_iff]
  constructor
  · rintro ⟨after, e, before, hentries, he, hafter⟩
    have hentries : entries = before.reverse ++ e :: after.reverse := by
      rw [← entries.reverse_reverse, hentries]
      simp
    refine ⟨before.reverse, e, after.reverse, hentries, gives_iff.2 he, fun e' he' => ?_⟩
    have hmem : e' ∈ entries := by simp [hentries, List.mem_reverse.1 he']
    exact (saidBy?_eq_none_iff (hvalid e' hmem)).1 (hafter e' (List.mem_reverse.1 he'))
  · rintro ⟨before, e, after, rfl, he, hafter⟩
    refine ⟨after.reverse, e, before.reverse, by simp, gives_iff.1 he, fun e' he' => ?_⟩
    exact saidBy?_eq_none (hafter e' (List.mem_reverse.1 he'))

theorem value_eq_none_iff (hvalid : ∀ e ∈ entries, Valid e) {v : Variable} :
    entries.reverse.findSome? v.saidBy? = none ↔ ∀ e ∈ entries, e.1 ≠ v.name := by
  rw [List.findSome?_eq_none_iff]
  simp only [List.mem_reverse]
  exact forall₂_congr fun e he => saidBy?_eq_none_iff (hvalid e he)

end Layer

namespace Layers

open Variable (Valid)

variable {ls ls' : Layers} {entries entries' : List (String × String)} {d : SourceError}

theorem add_variables_ok : ls.add (.variables entries) = (.ok (), ls') ↔
    ∃ l, Layer.ofVariables entries = .ok l ∧ ls' = ⟨ls.layers ++ [("environment", l)]⟩ := by
  cases h : Layer.ofVariables entries with
  | ok l =>
    rw [add_ok (r := some ("environment", l)) (by simp [Source.layer?, h])]
    simp [@eq_comm _ ls']
  | error e =>
    rw [add_error (e := .invalidValue e) (by simp [Source.layer?, h])]
    simp

theorem add_variables_error : ls.add (.variables entries) = (.error d, ls') ↔
    (∃ e, Layer.ofVariables entries = .error e ∧ d = .invalidValue e) ∧ ls' = ls := by
  cases h : Layer.ofVariables entries with
  | ok l =>
    rw [add_ok (r := some ("environment", l)) (by simp [Source.layer?, h])]
    simp
  | error e =>
    rw [add_error (e := .invalidValue e) (by simp [Source.layer?, h])]
    simp [@eq_comm _ d, @eq_comm _ ls']

/-- The environment makes a layer unless an entry for one of the variables has no value for it; the
first such entry is then reported, and there is no layer. A layer that is made sets the variables
that occur, each as its last entry says. So entries for anything else do not matter, nor does the
order of the entries for different variables. -/
theorem add_variables (ls : Layers) (entries : List (String × String)) :
    ((∃ ls', ls.add (.variables entries) = (.ok (), ls')) ↔ ∀ e ∈ entries, Valid e) ∧
    (∀ ls', ls.add (.variables entries) = (.ok (), ls') →
      ∃ l, ls' = ⟨ls.layers ++ [("environment", l)]⟩ ∧
      ∀ v : Variable, (l.value v = none ↔ ∀ e ∈ entries, e.1 ≠ v.name) ∧
        ∀ x, l.value v = some x ↔
          ∃ before e after, entries = before ++ e :: after ∧ v.Gives e x ∧
            ∀ e' ∈ after, e'.1 ≠ v.name) ∧
    (∀ d ls', ls.add (.variables entries) = (.error d, ls') ↔
      (∃ before e after text, entries = before ++ e :: after ∧
        (∀ e' ∈ before, Valid e') ∧ ¬ Valid e ∧
        Trimmed e.2 text ∧ d = .invalidValue ⟨e.1, text⟩) ∧ ls' = ls) ∧
    (∀ before others after, entries = before ++ after →
      (∀ e ∈ others, ∀ v : Variable, e.1 ≠ v.name) →
      ls.add (.variables (before ++ others ++ after)) = ls.add (.variables entries)) ∧
    ∀ entries' ls',
      (∀ v : Variable, entries.filter (·.1 = v.name) = entries'.filter (·.1 = v.name)) →
      (ls.add (.variables entries) = (.ok (), ls') ↔
        ls.add (.variables entries') = (.ok (), ls')) := by
  refine ⟨?_, ?_, ?_, ?_, ?_⟩
  · simp only [add_variables_ok, Layer.ofVariables_ok]
    constructor
    · rintro ⟨_, l, ⟨hvalid, -⟩, -⟩
      exact hvalid
    · exact fun hvalid => ⟨_, .ofValues _, ⟨hvalid, fun v => Layer.value_ofValues _⟩, rfl⟩
  · intro ls' h
    obtain ⟨l, hl, hls'⟩ := add_variables_ok.1 h
    obtain ⟨hvalid, hvalue⟩ := Layer.ofVariables_ok.1 hl
    refine ⟨l, hls', fun v => ?_⟩
    rw [hvalue v]
    exact ⟨Layer.value_eq_none_iff hvalid, fun x => Layer.value_eq_some_iff hvalid⟩
  · intro d ls'
    rw [add_variables_error]
    refine and_congr_left fun _ => ?_
    simp only [Layer.ofVariables, Layer.foldlM_withVariable_error, trimmed_iff]
    constructor
    · rintro ⟨_, ⟨before, e, after, hentries, hbefore, he, rfl⟩, rfl⟩
      exact ⟨before, e, after, _, hentries, hbefore, he, rfl, rfl⟩
    · rintro ⟨before, e, after, _, hentries, hbefore, he, rfl, rfl⟩
      exact ⟨_, ⟨before, e, after, hentries, hbefore, he, rfl⟩, rfl⟩
  · rintro before others after rfl hothers
    have hlayer : (Source.variables (before ++ others ++ after)).layer? =
        (Source.variables (before ++ after)).layer? := by
      simp only [Source.layer?, Layer.ofVariables_insert before after hothers]
    simp only [add, addSource, hlayer]
  · intro entries' ls' h
    simp only [add_variables_ok, Layer.ofVariables_ok_congr h]

/-- A switch that is set twice, with other names in between and in another order; and a number that
is wrong before a switch that is. -/
theorem add_variables_repeated :
    let on := ("GRAFT_PARALLEL", " YES ")
    let threads := ("GRAFT_WORKER_THREADS", "+08")
    let off := ("GRAFT_PARALLEL", "off")
    let others := [("PATH", "/usr/bin"), ("GRAFT_PROXY", "yes")]
    let wrong := [on, ("GRAFT_TIMEOUT_MS", "\tsoon "), ("GRAFT_AUTO_BINDING", "maybe")]
    let out : Layers := ⟨[("environment", { parallel := some false, workerThreads := some 8 })]⟩
    ({} : Layers).add (.variables [on, threads, off]) = (.ok (), out) ∧
      (∃ before e after, [on, threads, off] = before ++ e :: after ∧
        Variable.parallel.Gives e false ∧
        ∀ e' ∈ after, e'.1 ≠ Variable.parallel.name) ∧
      ({} : Layers).add (.variables ([on] ++ others ++ [threads, off])) = (.ok (), out) ∧
      ({} : Layers).add (.variables [threads, on, off]) = (.ok (), out) ∧
      ({} : Layers).add (.variables wrong) =
        (.error (.invalidValue ⟨"GRAFT_TIMEOUT_MS", "soon"⟩), {}) ∧
      (∃ before e after, wrong = before ++ e :: after ∧ (∀ e' ∈ before, Valid e') ∧ ¬ Valid e ∧
        Trimmed e.2 "soon") := by
  intro on threads off others wrong out
  have hadd : ({} : Layers).add (.variables [on, threads, off]) = (.ok (), out) := by decide +kernel
  have hwrong : ({} : Layers).add (.variables wrong) =
      (.error (.invalidValue ⟨"GRAFT_TIMEOUT_MS", "soon"⟩), {}) := by
    decide +kernel
  have hforeign : ∀ v : Variable, ∀ e ∈ others, e.1 ≠ v.name := by
    intro v
    cases v <;> decide
  have horder : ∀ v : Variable,
      [on, threads, off].filter (·.1 = v.name) = [threads, on, off].filter (·.1 = v.name) := by
    intro v
    cases v <;> decide
  obtain ⟨-, hvalues, -, hothers, hreorder⟩ := add_variables {} [on, threads, off]
  obtain ⟨-, -, herror, -, -⟩ := add_variables {} wrong
  obtain ⟨l, hl, hvalue⟩ := hvalues out hadd
  obtain rfl : { parallel := some false, workerThreads := some 8 } = l := by simpa [out] using hl
  obtain ⟨⟨before, e, after, text, hentries, hbefore, he, htext, hd⟩, -⟩ := (herror _ _).1 hwrong
  obtain ⟨-, rfl⟩ : "GRAFT_TIMEOUT_MS" = e.1 ∧ "soon" = text := by simpa using hd
  exact ⟨hadd, ((hvalue .parallel).2 false).1 rfl,
    (hothers [on] others [threads, off] rfl fun e he v => hforeign v e he).trans hadd,
    (hreorder _ _ horder).1 hadd, hwrong, ⟨before, e, after, hentries, hbefore, he, htext⟩⟩

end Layers

end Wiring
