import Wiring.Proofs.Catalogs
import Wiring.Proofs.Records
import Wiring.Settings.Layers

set_option autoImplicit false

namespace Wiring

namespace Variable

abbrev Value : Variable → Type
  | .autoBinding | .parallel => Bool
  | .workerThreads | .timeoutMs => Nat

def field : Variable → String
  | .autoBinding => "auto_binding"
  | .parallel => "parallel"
  | .workerThreads => "worker_threads"
  | .timeoutMs => "timeout_ms"

theorem eq_of_field {v w : Variable} (h : v.field = w.field) : v = w := by
  cases v <;> cases w <;> first | rfl | exact absurd h (by decide)

def all : List Variable := [.autoBinding, .parallel, .workerThreads, .timeoutMs]

/-- What a switch is set to by a document that may stand for it; null leaves it alone. -/
def switch? : Document → Option (Option Bool)
  | .null => some none
  | .bool b => some (some b)
  | _ => none

def count? : Document → Option (Option Nat)
  | .null => some none
  | .number (.integer n) => if n < 0 then none else some (some n.toNat)
  | _ => none

def ofDocument? : (v : Variable) → Document → Option (Option v.Value)
  | .autoBinding | .parallel => switch?
  | .workerThreads | .timeoutMs => count?

def ofText? : (v : Variable) → String → Option v.Value
  | .autoBinding | .parallel => readSwitch?
  | .workerThreads | .timeoutMs => readNatural?

def saidBy? (v : Variable) (entry : String × String) : Option v.Value :=
  if ofName? entry.1 = some v then v.ofText? (trim entry.2) else none

/-- The entry is for no setting, or with a text that may stand there. -/
def Readable (entry : String × String) : Prop :=
  ∀ v, ofName? entry.1 = some v → (v.ofText? (trim entry.2)).isSome

def setting : (v : Variable) → Field (Option v.Value)
  | .autoBinding => ⟨"auto_binding", Reader.optional Reader.bool⟩
  | .parallel => ⟨"parallel", Reader.optional Reader.bool⟩
  | .workerThreads => Settings.workerThreadsField
  | .timeoutMs => Settings.timeoutField

theorem setting_name (v : Variable) : v.setting.name = v.field := by cases v <;> rfl

theorem read_switch {d : Document} {x : Option Bool} :
    Reader.optional Reader.bool d = .ok x ↔ switch? d = some x := by
  cases d <;> simp [Reader.optional, Reader.bool, switch?, Except.map]

theorem read_count {expected : String} {d : Document} {x : Option Nat} :
    Reader.optional (Reader.natural expected) d = .ok x ↔ count? d = some x := by
  cases d with
  | number n =>
    cases n with
    | integer n =>
      by_cases hn : n < 0 <;> simp [Reader.optional, Reader.natural, count?, hn, Except.map]
    | floating b => simp [Reader.optional, Reader.natural, count?, Except.map]
  | _ => simp [Reader.optional, Reader.natural, count?, Except.map]

theorem setting_read {v : Variable} {d : Document} {x : Option v.Value} :
    v.setting.read d = .ok x ↔ v.ofDocument? d = some x := by
  cases v with
  | autoBinding => exact read_switch
  | parallel => exact read_switch
  | workerThreads => exact read_count
  | timeoutMs => exact read_count

theorem setting_check {v : Variable} {d : Document} :
    v.setting.check.2 d = .ok () ↔ (v.ofDocument? d).isSome := by
  rw [Option.isSome_iff_exists]
  simp only [← setting_read, Field.check]
  cases v.setting.read d <;> simp [Except.map]

theorem lookup_checks {n : String} {check : Check} :
    (all.map (·.setting.check)).lookup n = some check ↔
    ∃ v : Variable, v.field = n ∧ v.setting.check.2 = check := by
  constructor
  · intro h
    obtain ⟨v, _, hv⟩ := List.mem_map.1 (mem_of_lookup h)
    exact ⟨v, v.setting_name.symm.trans (congrArg Prod.fst hv), congrArg Prod.snd hv⟩
  · rintro ⟨v, rfl, rfl⟩
    cases v <;> rfl

end Variable

/-- The fields of a layer: those of an object, or the items of an array with all settings in order.
-/
def Document.layerFields? : Document → Option (List (String × Document))
  | .object fs => some fs
  | .array ds =>
    if ds.length = Variable.all.length then some ((Variable.all.map (·.field)).zip ds) else none
  | _ => none

def Variable.saidIn? (v : Variable) (fs : List (String × Document)) : Option v.Value :=
  (fs.lookup v.field).bind fun d => (v.ofDocument? d).join

namespace Layer

variable {d : Document} {l : Layer} {v w : Variable} {fs : List (String × Document)}

def value (l : Layer) : (v : Variable) → Option v.Value
  | .autoBinding => l.autoBinding
  | .parallel => l.parallel
  | .workerThreads => l.workerThreads
  | .timeoutMs => l.timeoutMs

def ofValues (x : (v : Variable) → Option v.Value) : Layer :=
  ⟨x .autoBinding, x .parallel, x .workerThreads, x .timeoutMs⟩

theorem value_empty (v : Variable) : ({} : Layer).value v = none := by
  cases v <;> rfl

@[simp] theorem value_ofValues (x : (v : Variable) → Option v.Value) :
    (ofValues x).value v = x v := by
  cases v <;> rfl

def set (l : Layer) : (v : Variable) → v.Value → Layer
  | .autoBinding, b => { l with autoBinding := some b }
  | .parallel, b => { l with parallel := some b }
  | .workerThreads, n => { l with workerThreads := some n }
  | .timeoutMs, n => { l with timeoutMs := some n }

@[simp] theorem value_set_same (x : v.Value) : (l.set v x).value v = some x := by
  cases v <;> rfl

theorem value_set_ne (x : w.Value) (h : w ≠ v) : (l.set w x).value v = l.value v := by
  cases v <;> cases w <;> first | rfl | exact absurd rfl h

theorem set?_eq (v : Variable) (text : String) (l : Layer) :
    v.set? text l = (v.ofText? text).map (l.set v) := by
  cases v <;> rfl

/-- Each of the fields is one of the settings, none comes twice, and their documents may stand
there. -/
structure Sound (fs : List (String × Document)) : Prop where
  nodup : (fs.map (·.1)).Nodup
  known : ∀ f ∈ fs, ∃ v : Variable, v.field = f.1 ∧ (v.ofDocument? f.2).isSome

theorem sound_iff :
    Sound fs ↔ Fields.checkAll (Variable.all.map (·.setting.check)) true [] fs = .ok () := by
  constructor
  · intro h
    refine Fields.checkAll_ok h.nodup (by simp) fun f hf => ?_
    obtain ⟨v, hv, hd⟩ := h.known f hf
    exact ⟨_, Variable.lookup_checks.2 ⟨v, hv, rfl⟩, Variable.setting_check.2 hd⟩
  · intro h
    obtain ⟨hnodup, -, hgiven⟩ := Fields.of_checkAll_ok h
    refine ⟨hnodup, fun f hf => ?_⟩
    obtain ⟨check, hcheck, hd⟩ := hgiven f hf
    obtain ⟨v, hv, rfl⟩ := Variable.lookup_checks.1 hcheck
    exact ⟨v, hv, Variable.setting_check.1 hd⟩

theorem Sound.ofDocument?_isSome (h : Sound fs) (hd : fs.lookup v.field = some d) :
    (v.ofDocument? d).isSome := by
  obtain ⟨w, hw, hsome⟩ := h.known _ (mem_of_lookup hd)
  rwa [Variable.eq_of_field hw] at hsome

theorem nullable_setting {fields : Fields} {x : Option v.Value} (h : Sound fields.given) :
    fields.nullable v.setting = .ok x ↔
      (fields.byPosition → (fields.given.lookup v.field).isSome) ∧ x = v.saidIn? fields.given := by
  rw [Fields.nullable, Variable.setting_name, Variable.saidIn?]
  cases hd : fields.given.lookup v.field with
  | none =>
    cases fields.byPosition with
    | true => simp
    | false => simpa using eq_comm
  | some d =>
    obtain ⟨y, hy⟩ := Option.isSome_iff_exists.1 (h.ofDocument?_isSome hd)
    simpa [Variable.setting_read, hy] using eq_comm

theorem lookup_zip_isSome {ds : List Document} (h : ds.length = Variable.all.length)
    (v : Variable) : (((Variable.all.map (·.field)).zip ds).lookup v.field).isSome := by
  match ds, h with
  | [a, b, c, d], _ => cases v <;> rfl

theorem length_of_lookup_zip {ds : List Document} (hle : ds.length ≤ Variable.all.length)
    (h : (((Variable.all.map (·.field)).zip ds).lookup Variable.timeoutMs.field).isSome) :
    ds.length = Variable.all.length := by
  match ds, hle with
  | [], _ | [_], _ | [_, _], _ | [_, _, _], _ => cases h
  | [_, _, _, _], _ => rfl

def ofFields (fields : Fields) : Except ReadError Layer := do
  .ok {
    autoBinding := ← fields.nullable (Variable.setting .autoBinding)
    parallel := ← fields.nullable (Variable.setting .parallel)
    workerThreads := ← fields.nullable (Variable.setting .workerThreads)
    timeoutMs := ← fields.nullable (Variable.setting .timeoutMs) }

theorem ofFields_ok {fields : Fields} (h : Sound fields.given) : ofFields fields = .ok l ↔
    (fields.byPosition → ∀ v : Variable, (fields.given.lookup v.field).isSome) ∧
      l = ofValues (·.saidIn? fields.given) := by
  simp only [ofFields, bind_ok, nullable_setting h]
  constructor
  · rintro ⟨a, ⟨ha, rfl⟩, p, ⟨hp, rfl⟩, w, ⟨hw, rfl⟩, t, ⟨ht, rfl⟩, hl⟩
    refine ⟨fun hpos v => ?_, (Except.ok.inj hl).symm⟩
    cases v with
    | autoBinding => exact ha hpos
    | parallel => exact hp hpos
    | workerThreads => exact hw hpos
    | timeoutMs => exact ht hpos
  · rintro ⟨hpos, rfl⟩
    exact ⟨_, ⟨fun h => hpos h _, rfl⟩, _, ⟨fun h => hpos h _, rfl⟩, _, ⟨fun h => hpos h _, rfl⟩, _,
      ⟨fun h => hpos h _, rfl⟩, rfl⟩

theorem read_ok_iff : Layer.read d = .ok l ↔
    ∃ fs, d.layerFields? = some fs ∧ Sound fs ∧ l = ofValues (·.saidIn? fs) := by
  have hread : Layer.read d =
      Fields.read "PartialResolverConfig" true (Variable.all.map (·.setting.check)) d >>=
      ofFields := rfl
  rw [hread, bind_ok]
  cases d with
  | object fs =>
    simp only [Fields.read, bind_ok, Document.layerFields?, Option.some.injEq, exists_eq_left']
    constructor
    · rintro ⟨_, ⟨_, hchecks, ⟨⟩⟩, hfields⟩
      exact ⟨sound_iff.2 hchecks, ((ofFields_ok (sound_iff.2 hchecks)).1 hfields).2⟩
    · rintro ⟨hsound, rfl⟩
      exact ⟨_, ⟨_, sound_iff.1 hsound, rfl⟩, (ofFields_ok hsound).2 ⟨by simp, rfl⟩⟩
  | array ds =>
    simp only [Fields.read, bind_ok, Document.layerFields?]
    constructor
    · rintro ⟨_, ⟨_, hchecks, hgiven⟩, hfields⟩
      split at hgiven
      · cases hgiven
      · rename_i hle
        cases hgiven
        obtain ⟨hpos, rfl⟩ := (ofFields_ok (sound_iff.2 hchecks)).1 hfields
        have hlength := length_of_lookup_zip (Nat.le_of_not_lt hle) (hpos rfl .timeoutMs)
        exact ⟨_, if_pos hlength, sound_iff.2 hchecks, rfl⟩
    · rintro ⟨fs, hfs, hsound, rfl⟩
      split at hfs
      · rename_i hlength
        cases hfs
        refine ⟨_, ⟨_, sound_iff.1 hsound, if_neg ?_⟩,
          (ofFields_ok hsound).2 ⟨fun _ => lookup_zip_isSome hlength, rfl⟩⟩
        simp [hlength]
      · cases hfs
  | _ => simp [Fields.read, Document.layerFields?]

theorem eq_iff_value {l l' : Layer} : l = l' ↔ ∀ v, l'.value v = l.value v := by
  constructor
  · rintro rfl v
    rfl
  · intro h
    have hvalues : l'.value = l.value := funext h
    change ofValues l.value = ofValues l'.value
    rw [hvalues]

theorem withVariable_ok {entry : String × String} {l l' : Layer} : l.withVariable entry = .ok l' ↔
    Variable.Readable entry ∧ ∀ v : Variable, l'.value v = (v.saidBy? entry).or (l.value v) := by
  unfold withVariable Variable.Readable
  cases hname : Variable.ofName? entry.1 with
  | none => simp [Variable.saidBy?, hname, eq_iff_value]
  | some w =>
    simp only [set?_eq]
    cases hx : w.ofText? (trim entry.2) with
    | none => simp [hx]
    | some x =>
      have hvalue : ∀ v, (l.set w x).value v = (v.saidBy? entry).or (l.value v) := by
        intro v
        by_cases h : w = v
        · subst h
          simp [Variable.saidBy?, hname, hx]
        · simp [Variable.saidBy?, hname, h, value_set_ne x h]
      simp [hx, eq_iff_value, hvalue]

theorem foldlM_withVariable {entries : List (String × String)} {l l' : Layer} :
    entries.foldlM withVariable l = .ok l' ↔
      (∀ e ∈ entries, Variable.Readable e) ∧
        ∀ v : Variable, l'.value v = (entries.reverse.findSome? v.saidBy?).or (l.value v) := by
  induction entries generalizing l with
  | nil => simpa [pure, Except.pure] using eq_iff_value
  | cons e entries ih =>
    rw [List.foldlM_cons, bind_ok]
    simp only [ih, withVariable_ok, List.forall_mem_cons, List.reverse_cons, List.findSome?_append]
    constructor
    · rintro ⟨l₁, ⟨he, h₁⟩, hentries, h⟩
      exact ⟨⟨he, hentries⟩, fun v => by simp [h v, h₁ v, Option.or_assoc]⟩
    · rintro ⟨⟨he, hentries⟩, h⟩
      refine ⟨ofValues fun v => (v.saidBy? e).or (l.value v), ⟨he, fun v => value_ofValues _⟩,
        hentries, fun v => ?_⟩
      simp [h v, Option.or_assoc]

end Layer

def textFields? (document : String) : Option (List (String × Document)) :=
  (Document.ofText? document).bind Document.layerFields?

namespace Source

variable {s : Source} {v : Variable} {layer document : String} {fs : List (String × Document)}

/-- What a source says about a setting. In the environment the last entry counts. -/
def says? (v : Variable) : Source → Option v.Value
  | .text _ document | .optionalText _ (some document) => (textFields? document).bind v.saidIn?
  | .optionalText _ none => none
  | .variables entries => entries.reverse.findSome? v.saidBy?

def sets? (s : Source) (v : Variable) : Option v.Value :=
  match s.layer? with
  | .ok _ => s.says? v
  | .error _ => none

/-- The ways in which a source can be wrong, wherever in it the fault is. -/
inductive Faulty : Source → Prop where
  | unspelled {layer document : String} : textFields? document = none →
      Faulty (.text layer document)
  | unknown {layer document n : String} {fs : List (String × Document)} {d : Document} :
      textFields? document = some fs → (n, d) ∈ fs → (∀ v : Variable, v.field ≠ n) →
      Faulty (.text layer document)
  | repeated {layer document : String} {fs : List (String × Document)} :
      textFields? document = some fs → ¬ (fs.map (·.1)).Nodup → Faulty (.text layer document)
  | shape {layer document : String} {fs : List (String × Document)} {v : Variable} {d : Document} :
      textFields? document = some fs → (v.field, d) ∈ fs → v.ofDocument? d = none →
      Faulty (.text layer document)
  | optional {layer document : String} : Faulty (.text layer document) →
      Faulty (.optionalText layer (some document))
  | entry {entries : List (String × String)} {e : String × String} {v : Variable} : e ∈ entries →
      Variable.ofName? e.1 = some v → v.ofText? (trim e.2) = none → Faulty (.variables entries)

/-- A setting is left out, or null, wherever it could be. -/
def LeavesOut (v : Variable) : Source → Prop
  | .text _ document | .optionalText _ (some document) =>
    ∀ fs, textFields? document = some fs → ∀ d, (v.field, d) ∈ fs → d = .null
  | .optionalText _ none => True
  | .variables entries => ∀ e ∈ entries, Variable.ofName? e.1 ≠ some v

theorem LeavesOut.says? (h : s.LeavesOut v) : s.says? v = none := by
  have htext : ∀ document,
    (∀ fs, textFields? document = some fs → ∀ d, (v.field, d) ∈ fs → d = .null) →
      (textFields? document).bind v.saidIn? = none := by
    intro document h
    cases hfs : textFields? document with
    | none => rfl
    | some fs =>
      cases hd : fs.lookup v.field with
      | none => simp [Variable.saidIn?, hd]
      | some d =>
        obtain rfl := h fs hfs d (mem_of_lookup hd)
        cases v <;> simp [Variable.saidIn?, hd, Variable.ofDocument?, Variable.switch?,
          Variable.count?]
  match s, h with
  | .text _ document, h => exact htext document h
  | .optionalText _ (some document), h => exact htext document h
  | .optionalText _ none, _ => rfl
  | .variables entries, h =>
    refine List.findSome?_eq_none_iff.2 fun e he => ?_
    simp [Variable.saidBy?, h e (List.mem_reverse.1 he)]

theorem LeavesOut.sets? (h : s.LeavesOut v) : s.sets? v = none := by
  unfold Source.sets?
  split
  · exact h.says?
  · rfl

theorem ofText_ok {l : Layer} : Layer.read.ofText document = .ok l ↔
    ∃ fs, textFields? document = some fs ∧ Layer.Sound fs ∧ l = .ofValues (·.saidIn? fs) := by
  have hread : Layer.read.ofText document = .ok l ↔
      ∃ d, Document.ofText? document = some d ∧ Layer.read d = .ok l := by
    unfold Reader.ofText
    cases Document.ofText? document with
    | none => simp
    | some d => cases hd : Layer.read d <;> simp [hd]
  rw [hread]
  simp only [Layer.read_ok_iff, textFields?, Option.bind_eq_some_iff]
  constructor
  · rintro ⟨d, hd, fs, hfs, h⟩
    exact ⟨fs, ⟨d, hd, hfs⟩, h⟩
  · rintro ⟨fs, ⟨d, hd, hfs⟩, h⟩
    exact ⟨d, hd, fs, hfs, h⟩

theorem faulty_text :
    (Source.text layer document).Faulty ↔ ∀ l, Layer.read.ofText document ≠ .ok l := by
  constructor
  · intro h l hl
    obtain ⟨fs, hfs, hsound, -⟩ := ofText_ok.1 hl
    cases h with
    | unspelled hnone => simp [hfs] at hnone
    | unknown hsome hmem hunknown =>
      obtain rfl := Option.some.inj (hfs.symm.trans hsome)
      obtain ⟨v, hv, -⟩ := hsound.known _ hmem
      exact hunknown v hv
    | repeated hsome hrepeated =>
      obtain rfl := Option.some.inj (hfs.symm.trans hsome)
      exact hrepeated hsound.nodup
    | shape hsome hmem hshape =>
      obtain rfl := Option.some.inj (hfs.symm.trans hsome)
      have hd := hsound.ofDocument?_isSome (lookup_of_mem hsound.nodup hmem)
      simp [hshape] at hd
  · intro h
    cases hfs : textFields? document with
    | none => exact .unspelled hfs
    | some fs =>
      by_contra hsound
      refine h _ (ofText_ok.2 ⟨fs, hfs, ⟨?_, fun f hf => ?_⟩, rfl⟩)
      · by_contra hrepeated
        exact hsound (.repeated hfs hrepeated)
      · by_contra hknown
        by_cases hv : ∃ v : Variable, v.field = f.1
        · obtain ⟨v, hv⟩ := hv
          refine hsound (.shape (v := v) (d := f.2) hfs (hv ▸ hf) ?_)
          by_contra hd
          exact hknown ⟨v, hv, Option.isSome_iff_ne_none.2 hd⟩
        · exact hsound (.unknown hfs hf (not_exists.1 hv))

theorem faulty_optionalText :
    (Source.optionalText layer (some document)).Faulty ↔ (Source.text layer document).Faulty := by
  constructor
  · intro h
    cases h with
    | optional h => exact h
  · exact .optional

theorem faulty_variables {entries : List (String × String)} :
    (Source.variables entries).Faulty ↔ ¬ ∀ e ∈ entries, Variable.Readable e := by
  constructor
  · intro h hall
    cases h with
    | entry he hv hnone => simpa [hnone] using hall _ he _ hv
  · intro h
    simp only [Variable.Readable, not_forall] at h
    obtain ⟨e, he, v, hv, hnone⟩ := h
    exact .entry he hv (Option.not_isSome_iff_eq_none.1 hnone)

theorem layer?_error_iff : (∃ e, s.layer? = .error e) ↔ s.Faulty := by
  match s with
  | .text _ document =>
    rw [faulty_text]
    cases h : Layer.read.ofText document <;> simp [layer?, h]
  | .optionalText _ (some document) =>
    rw [faulty_optionalText, faulty_text]
    cases h : Layer.read.ofText document <;> simp [layer?, h]
  | .optionalText _ none =>
    simpa [layer?] using fun h : (Source.optionalText _ none).Faulty => by cases h
  | .variables entries =>
    rw [faulty_variables]
    cases h : Layer.ofVariables entries with
    | ok l =>
      refine iff_of_false ?_ (not_not.2 (Layer.foldlM_withVariable.1 h).1)
      simp [layer?, h]
    | error e =>
      refine iff_of_true ⟨.invalidValue e, by simp only [layer?, h]⟩ fun hread => ?_
      have hok := Layer.foldlM_withVariable (l := {}).2 ⟨hread, fun v => Layer.value_ofValues _⟩
      rw [show entries.foldlM Layer.withVariable {} = .error e from h] at hok
      cases hok

theorem layer?_ok {r : Option (String × Layer)} (h : s.layer? = .ok r) (v : Variable) :
    r.bind (·.2.value v) = s.says? v := by
  have htext : ∀ document l, Layer.read.ofText document = .ok l →
      l.value v = (textFields? document).bind v.saidIn? := by
    intro document l hl
    obtain ⟨fs, hfs, -, rfl⟩ := ofText_ok.1 hl
    simp [hfs]
  match s with
  | .text name document =>
    cases hl : Layer.read.ofText document with
    | error e => simp [layer?, hl] at h
    | ok l =>
      obtain rfl : some (name, l) = r := by simpa [layer?, hl] using h
      exact htext document l hl
  | .optionalText name (some document) =>
    cases hl : Layer.read.ofText document with
    | error e => simp [layer?, hl] at h
    | ok l =>
      obtain rfl : some (name, l) = r := by simpa [layer?, hl] using h
      exact htext document l hl
  | .optionalText _ none =>
    cases h
    rfl
  | .variables entries =>
    cases hl : Layer.ofVariables entries with
    | error e => simp [layer?, hl] at h
    | ok l =>
      obtain rfl : some ("environment", l) = r := by simpa [layer?, hl] using h
      have hvalue := (Layer.foldlM_withVariable.1 hl).2 v
      rwa [Layer.value_empty, Option.or_none] at hvalue

end Source

namespace Settings

/-- What a setting is in the end; a switch is always set. -/
def value (s : Settings) : (v : Variable) → Option v.Value
  | .autoBinding => some s.autoBinding
  | .parallel => some s.parallel
  | .workerThreads => s.workerThreads
  | .timeoutMs => s.timeoutMs

theorem value_override (s : Settings) (l : Layer) (v : Variable) :
    (s.override l).value v = (l.value v).or (s.value v) := by
  cases v with
  | autoBinding => cases h : l.autoBinding <;> simp [value, Layer.value, override, h]
  | parallel => cases h : l.parallel <;> simp [value, Layer.value, override, h]
  | workerThreads => cases h : l.workerThreads <;> simp [value, Layer.value, override, h]
  | timeoutMs => cases h : l.timeoutMs <;> simp [value, Layer.value, override, h]

end Settings

namespace Layers

variable {ls : Layers} {s : Source} {ss : List Source} {v : Variable}

/-- The layers after sources have been added one after the other, as far as they could be. -/
def ofSources (ss : List Source) : Layers := ss.foldl (fun ls s => (ls.add s).2) {}

theorem add_error_iff : (∃ e, (ls.add s).1 = .error e) ↔ s.Faulty := by
  rw [← Source.layer?_error_iff]
  cases h : s.layer? with
  | error e => simp [add_error h]
  | ok r => simp [add_ok h]

theorem value_add : (ls.add s).2.settings.value v = (s.sets? v).or (ls.settings.value v) := by
  cases h : s.layer? with
  | error e => simp [add_error h, Source.sets?, h]
  | ok r =>
    have hsays := Source.layer?_ok h v
    cases r with
    | none => simp [add_ok h, Source.sets?, h, ← hsays]
    | some l => simp [add_ok h, Source.sets?, h, settings_push, Settings.value_override, ← hsays]

theorem value_foldl : (ss.foldl (fun ls s => (ls.add s).2) ls).settings.value v =
    (ss.reverse.findSome? (·.sets? v)).or (ls.settings.value v) := by
  induction ss generalizing ls with
  | nil => simp
  | cons s ss ih => simp [ih, value_add, List.findSome?_append, Option.or_assoc]

/-- Each setting is what the last source says that could be added and sets it, and the default if
there is none. A source cannot be added just if it is faulty, and is then as good as not there; nor
does one count for a setting that it leaves out. -/
theorem settings_layered :
    (∀ (ss : List Source) (v : Variable), (ofSources ss).settings.value v =
      (ss.reverse.findSome? (·.sets? v)).or (({} : Settings).value v)) ∧
      (∀ (ls : Layers) (s : Source), (∃ e, (ls.add s).1 = .error e) ↔ s.Faulty) ∧
      (∀ (ss ss' : List Source) (s : Source),
        s.Faulty → ofSources (ss ++ s :: ss') = ofSources (ss ++ ss')) ∧
      ∀ (ss ss' : List Source) (s : Source) (v : Variable), s.LeavesOut v →
        (ofSources (ss ++ s :: ss')).settings.value v =
          (ofSources (ss ++ ss')).settings.value v := by
  have hvalue : ∀ (ss : List Source) (v : Variable), (ofSources ss).settings.value v =
      (ss.reverse.findSome? (·.sets? v)).or (({} : Settings).value v) := fun ss v => value_foldl
  refine ⟨hvalue, fun ls s => add_error_iff, fun ss ss' s hs => ?_, fun ss ss' s v hs => ?_⟩
  · obtain ⟨e, he⟩ := Source.layer?_error_iff.2 hs
    simp [ofSources, add_error he]
  · simp [hvalue, List.findSome?_append, hs.sets?]

/-- Variables of which the second is wrong, and a text with a null, between a document and other
variables. -/
theorem settings_layered_spoiled :
    let file := Source.text "file" "\x7b \"parallel\": true, \"worker_threads\": 2 \x7d"
    let wrong := Source.variables [("GRAFT_AUTO_BINDING", "off"), ("GRAFT_WORKER_THREADS", "many")]
    let null := Source.text "null" "\x7b \"parallel\": null \x7d"
    let last := Source.variables [("GRAFT_WORKER_THREADS", " 8 "), ("PATH", "/usr/bin")]
    ofSources ([file] ++ wrong :: [last]) = ofSources ([file] ++ [last]) ∧
      (ofSources ([file] ++ [last])).settings = ⟨true, true, some 8, none⟩ ∧
      (ofSources ([file] ++ null :: [last])).settings.value .parallel = some true := by
  intro file wrong null last
  have hwrong : wrong.Faulty :=
    .entry (e := ("GRAFT_WORKER_THREADS", "many")) (v := .workerThreads) (by simp) rfl
      (by decide +kernel)
  have hnull : null.LeavesOut .parallel := by
    have hall : (textFields? "\x7b \"parallel\": null \x7d").all
        (·.all (Variable.switch? ·.2 = some none)) := by
      decide +kernel
    intro fs hfs d hd
    rw [hfs] at hall
    have hread : Variable.switch? d = some none := by simpa using List.all_eq_true.1 hall _ hd
    cases d <;> first | rfl | cases hread
  have hsettings : (ofSources ([file] ++ [last])).settings = ⟨true, true, some 8, none⟩ := by
    decide +kernel
  refine ⟨settings_layered.2.2.1 [file] [last] wrong hwrong, hsettings, ?_⟩
  rw [settings_layered.2.2.2 [file] [last] null .parallel hnull, hsettings]
  rfl

end Layers

end Wiring
