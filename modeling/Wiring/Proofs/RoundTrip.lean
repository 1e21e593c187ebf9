import Wiring.Model.Reading
import Wiring.Model.Writing
import Wiring.Proofs.Records

set_option autoImplicit false

namespace Wiring

open Fields Reader

@[simp] theorem Field.name_named (n : String) : (Field.named n).name = n := rfl

@[simp] theorem Field.name_names (n : String) : (Field.names n).name = n := rfl

@[simp] theorem Field.name_key (n : String) : (Field.key n).name = n := rfl

@[simp] theorem Field.name_keys (n : String) : (Field.keys n).name = n := rfl

@[simp] theorem Field.name_mode : Field.mode.name = "mode" := rfl

@[simp] theorem Field.name_location : Field.location.name = "location" := rfl

theorem Mode.inverts : Inverts Mode.read Mode.write := by
  rintro (_ | _) d ⟨⟩ <;> rfl

theorem FactoryKind.inverts : Inverts FactoryKind.read FactoryKind.write := by
  rintro (_ | _ | _) d ⟨⟩ <;> rfl

theorem Override.inverts : Inverts Override.read Override.write := by
  rintro (_ | _) d ⟨⟩ <;> rfl

theorem Mapping.inverts : Inverts Mapping.read Mapping.write := by
  rintro (_ | _) d ⟨⟩ <;> rfl

theorem Qualifier.inverts : Inverts Qualifier.read Qualifier.write := by
  rintro (t | t) d hd
  · obtain ⟨d', rfl, ⟨⟩⟩ := hd.single_cases
    rfl
  · obtain ⟨d', rfl, ⟨⟩⟩ := hd.single_cases
    rfl

theorem Key.inverts : Inverts Key.read Key.write := by
  rintro ⟨type, qualifier⟩ d hd
  have htype : Fits (Field.check ⟨"type", Reader.string⟩) ("type", .string type) :=
    fits inverts_string
  cases qualifier with
  | none =>
    -- nothing is written for a qualifier that is absent, and its default is read
    refine read_bind hd ⟨by simp, by simpa using ⟨_, List.lookup_cons_self, htype.check⟩⟩
      fun fs h => ?_
    exact h.required_bind inverts_string (by simp) <| h.absent_bind (by simp) rfl
  | some q =>
    have hqualifier : Inverts (Reader.optional Qualifier.read)
        (Document.optional Qualifier.write) :=
      Qualifier.inverts.optional fun _ h => by cases h
    have hq : Fits (Field.check ⟨"qualifier", Reader.optional Qualifier.read⟩)
        ("qualifier", Document.optional Qualifier.write (some q)) := fits hqualifier
    refine read_bind hd (suits_of_fits (.cons htype <| .cons hq .nil) (by simp)) fun fs h => ?_
    exact h.required_bind inverts_string (by simp) <|
      h.withDefault_bind (a := some q) hqualifier (by simp [Document.optional]) rfl

theorem inverts_text : Inverts Field.location.read (Document.optional .string) :=
  inverts_string.optional fun _ h => by cases h

theorem Factory.inverts : Inverts Factory.read Factory.write := by
  intro f d hd
  refine read_bind hd
    (suits_of_fits (.cons (fits inverts_string) <| .cons (fits FactoryKind.inverts) <|
    .cons (fits Key.inverts) <| .cons (fits Mode.inverts) <| .cons (fits Key.inverts.list) <|
    .cons (fits Override.inverts) <| .cons (fits inverts_text) .nil) (by simp)) fun fs h => ?_
  refine h.required_bind inverts_string ?_ <| h.withDefault_bind FactoryKind.inverts ?_ <|
    h.required_bind Key.inverts ?_ <| h.withDefault_bind Mode.inverts ?_ <|
    h.withDefault_bind Key.inverts.list ?_ <| h.withDefault_bind Override.inverts ?_ <|
    h.withDefault_bind inverts_text ?_ rfl <;> simp

theorem Builder.inverts : Inverts Builder.read Builder.write := by
  intro b d hd
  refine read_bind hd (suits_of_fits (.cons (fits inverts_string) <| .cons (fits Key.inverts) <|
    .cons (fits Key.inverts.list) <| .cons (fits inverts_text) .nil) (by simp)) fun fs h => ?_
  refine h.required_bind inverts_string ?_ <| h.required_bind Key.inverts ?_ <|
    h.withDefault_bind Key.inverts.list ?_ <| h.withDefault_bind inverts_text ?_ rfl <;> simp

theorem Link.inverts : Inverts Link.read Link.write := by
  intro l d hd
  refine read_bind hd (suits_of_fits (.cons (fits Key.inverts) <| .cons (fits Key.inverts) <|
    .cons (fits Mapping.inverts) <| .cons (fits inverts_text) .nil) (by simp)) fun fs h => ?_
  refine h.required_bind Key.inverts ?_ <| h.required_bind Key.inverts ?_ <|
    h.withDefault_bind Mapping.inverts ?_ <|
    h.withDefault_bind inverts_text ?_ rfl <;> simp

theorem Specification.inverts : Inverts Specification.read Specification.write := by
  intro s d hd
  refine read_bind hd
    (suits_of_fits (.cons (fits inverts_string) <| .cons (fits inverts_string.list) <|
    .cons (fits Factory.inverts.list) <| .cons (fits Builder.inverts.list) <|
    .cons (fits Link.inverts.list) <|
    .cons (fits inverts_text) .nil) (by simp)) fun fs h => ?_
  refine h.required_bind inverts_string ?_ <| h.withDefault_bind inverts_string.list ?_ <|
    h.withDefault_bind Factory.inverts.list ?_ <| h.withDefault_bind Builder.inverts.list ?_ <|
    h.withDefault_bind Link.inverts.list ?_ <| h.withDefault_bind inverts_text ?_ rfl <;> simp

theorem Interface.inverts : Inverts Interface.read Interface.write := by
  intro i d hd
  refine read_bind hd
    (suits_of_fits (.cons (fits inverts_string) <| .cons (fits Key.inverts.list) <|
    .cons (fits inverts_text) .nil) (by simp)) fun fs h => ?_
  refine h.required_bind inverts_string ?_ <| h.withDefault_bind Key.inverts.list ?_ <|
    h.withDefault_bind inverts_text ?_ rfl <;> simp

theorem Constructor.inverts : Inverts Constructor.read Constructor.write := by
  intro c d hd
  refine read_bind hd (suits_of_fits (.cons (fits inverts_text) <| .cons (fits Key.inverts.list) <|
    .cons (fits inverts_bool) <| .cons (fits Mode.inverts) .nil) (by simp)) fun fs h => ?_
  refine h.withDefault_bind inverts_text ?_ <| h.withDefault_bind Key.inverts.list ?_ <|
    h.withDefault_bind inverts_bool ?_ <| h.withDefault_bind Mode.inverts ?_ rfl <;> simp

theorem Property.inverts : Inverts Property.read Property.write := by
  intro p d hd
  refine read_bind hd (suits_of_fits (.cons (fits inverts_string) <| .cons (fits Key.inverts) <|
    .cons (fits inverts_bool) .nil) (by simp)) fun fs h => ?_
  refine h.required_bind inverts_string ?_ <| h.required_bind Key.inverts ?_ <|
    h.withDefault_bind inverts_bool ?_ rfl <;> simp

theorem TypeInfo.inverts : Inverts TypeInfo.read TypeInfo.write := by
  intro t d hd
  refine read_bind hd
    (suits_of_fits (.cons (fits inverts_string) <| .cons (fits inverts_string.list) <|
    .cons (fits Constructor.inverts.list) <| .cons (fits Property.inverts.list) <|
    .cons (fits inverts_text) .nil) (by simp)) fun fs h => ?_
  refine h.required_bind inverts_string ?_ <| h.withDefault_bind inverts_string.list ?_ <|
    h.withDefault_bind Constructor.inverts.list ?_ <| h.withDefault_bind Property.inverts.list ?_ <|
    h.withDefault_bind inverts_text ?_ rfl <;> simp

theorem ProviderMethod.inverts : Inverts ProviderMethod.read ProviderMethod.write := by
  intro p d hd
  refine read_bind hd (suits_of_fits (.cons (fits inverts_string) <| .cons (fits Key.inverts) <|
    .cons (fits inverts_text) .nil) (by simp)) fun fs h => ?_
  refine h.required_bind inverts_string ?_ <| h.required_bind Key.inverts ?_ <|
    h.withDefault_bind inverts_text ?_ rfl <;> simp

theorem BuilderMethod.inverts : Inverts BuilderMethod.read BuilderMethod.write := by
  intro b d hd
  refine read_bind hd (suits_of_fits (.cons (fits inverts_string) <| .cons (fits Key.inverts) <|
    .cons (fits inverts_text) .nil) (by simp)) fun fs h => ?_
  refine h.required_bind inverts_string ?_ <| h.required_bind Key.inverts ?_ <|
    h.withDefault_bind inverts_text ?_ rfl <;> simp

theorem ChildAccessor.inverts : Inverts ChildAccessor.read ChildAccessor.write := by
  intro c d hd
  refine read_bind hd (suits_of_fits (.cons (fits inverts_string) <| .cons (fits inverts_string) <|
    .cons (fits inverts_text) .nil) (by simp)) fun fs h => ?_
  refine h.required_bind inverts_string ?_ <| h.required_bind inverts_string ?_ <|
    h.withDefault_bind inverts_text ?_ rfl <;> simp

theorem Injector.inverts : Inverts Injector.read Injector.write := by
  intro i d hd
  refine read_bind hd
    (suits_of_fits (.cons (fits inverts_string) <| .cons (fits inverts_string.list) <|
    .cons (fits inverts_string.list) <| .cons (fits ProviderMethod.inverts.list) <|
    .cons (fits BuilderMethod.inverts.list) <| .cons (fits ChildAccessor.inverts.list) <|
    .cons (fits inverts_text) .nil) (by simp)) fun fs h => ?_
  refine h.required_bind inverts_string ?_ <| h.withDefault_bind inverts_string.list ?_ <|
    h.withDefault_bind inverts_string.list ?_ <|
    h.withDefault_bind ProviderMethod.inverts.list ?_ <|
    h.withDefault_bind BuilderMethod.inverts.list ?_ <|
    h.withDefault_bind ChildAccessor.inverts.list ?_ <|
    h.withDefault_bind inverts_text ?_ rfl <;> simp

theorem Model.inverts : Inverts Model.read Model.write := by
  intro m d hd
  refine read_bind hd (suits_of_fits (.cons (fits Injector.inverts.list) <|
    .cons (fits Specification.inverts.list) <|
    .cons (fits Interface.inverts.list) <|
    .cons (fits TypeInfo.inverts.list) .nil) (by simp)) fun fs h => ?_
  refine h.withDefault_bind Injector.inverts.list ?_ <|
    h.withDefault_bind Specification.inverts.list ?_ <|
    h.withDefault_bind Interface.inverts.list ?_ <|
    h.withDefault_bind TypeInfo.inverts.list ?_ rfl <;> simp

/-- A model is what is read from anything that is written for it, so no two models are written
alike; and what was left to its default in a document is written out without changing what is read.
-/
theorem Model.reads_back :
    (∀ m : Model, Model.read m.write = .ok m ∧ ∀ d, d.Alike m.write → Model.read d = .ok m) ∧
      (∀ m m' : Model, m.write.Alike m'.write → m = m') ∧
      ∀ d (m : Model), Model.read d = .ok m →
        ∀ e, e.Alike m.write → Model.read e = Model.read d := by
  refine ⟨fun m => ⟨Model.inverts (.same _), fun d hd => Model.inverts hd⟩, fun m m' hwritten => ?_,
    fun d m hd e he => ?_⟩
  · have hsame : Model.read m.write = .ok m' := Model.inverts hwritten
    exact Except.ok.inj ((Model.inverts (.same _)).symm.trans hsame)
  · rw [Model.inverts he, hd]

/-- With nothing given but what has to be, and the other fields written out in alphabetical order.
-/
theorem Model.reads_back_alphabetical :
    let d : Document := .object [("injectors", .array [.object [("providers", .array [.object
      [("key", .object [("qualifier", .object [("label", .string "")]), ("type", .string "Clock")]),
        ("name", .string "clock")]]), ("id", .string "app")]])]
    let i : Injector :=
      ⟨"app", [], [], [⟨"clock", ⟨"Clock", some (.label "")⟩, none⟩], [], [], none⟩
    let e : Document := .object [("injectors", .array [i.write]), ("interfaces", .array []),
      ("specifications", .array []), ("types", .array [])]
    Model.read d = .ok ⟨[i], [], [], []⟩ ∧ Model.read e = Model.read d := by
  intro d i e
  have hd : Model.read d = .ok ⟨[i], [], [], []⟩ := rfl
  have he : e.Alike (Model.write ⟨[i], [], [], []⟩) :=
    .object (.cons _ (.swap _ _ _)) rfl (List.forall₂_same.2 fun d _ => .same d)
  exact ⟨hd, Model.reads_back.2.2 d _ hd e he⟩

end Wiring
