import MetadataProjection.Proofs.FactorySearch

/-!
# MetadataProjection.Proofs.FieldStorage

What the fields of a struct are laid out as.

* `View.StoredAs`: the storage of a meaning, one case for each way in which a field may be stored.
* `Resolver.Lays`: the shape of a field has its name and the storage of what its signature means.
* `Resolver.returns_fieldMeaning`, `Resolver.returns_project_fields`: so it is with all fields of a
  projection.
* `Session.Lived.project_fields`: a field of an enum is stored as a number. A field of an optional enum
  is not: it is stored as the enum.
-/

namespace MetadataProjection

namespace View

/-- The meaning is a reference to values that mean `a`, each of which may be absent. -/
def IsOptional (v : View) (m a : Semantics) : Prop :=
  ∃ (g : TypeDef) (row : TypeRow), m = .inst g [a] ∧ v.row g = .ok row ∧
    row.isNamed Platform.foundationNamespace "IReference`1" = true

/-- A field with the first meaning is stored as the second one says. -/
inductive StoredAs (v : View) : Semantics → Semantics → Prop where
  | enum {d : TypeDef} {b : Bool} : v.category d = .ok .enum → v.isFlagsEnum d = .ok b →
      v.StoredAs (.definition d) (.fundamental (if b then .uint32 else .int32))
  | struct {d : TypeDef} : v.category d = .ok .struct →
      v.StoredAs (.definition d) (.definition d)
  | optional {m a : Semantics} : v.IsOptional m a → v.StoredAs m a
  | inst {g : TypeDef} {row : TypeRow} {args : List Semantics} : v.row g = .ok row →
      row.isNamed Platform.foundationNamespace "IReference`1" = false →
      v.StoredAs (.inst g args) (.inst g args)
  | other {m : Semantics} : m.definition? = none → v.StoredAs m m

variable {v : View} {m a : Semantics} {e : TypeDef}

theorem StoredAs.eq_definition_iff (h : v.StoredAs m a) (he : v.category e = .ok .enum) :
    a = .definition e ↔ v.IsOptional m (.definition e) := by
  constructor
  · rintro rfl
    cases h with
    | struct hstruct =>
      rw [he] at hstruct
      cases hstruct
    | optional ho => exact ho
    | other hnone => cases hnone
  · rintro ⟨g, row, rfl, hrow, hnamed⟩
    cases h with
    | optional ho =>
      obtain ⟨g', row', hm, -⟩ := ho
      cases hm
      rfl
    | inst hrow' hnot =>
      rw [hrow] at hrow'
      cases hrow'
      rw [hnamed] at hnot
      cases hnot
    | other hnone => cases hnone

theorem StoredAs.of_enum (h : v.StoredAs (.definition e) a) (he : v.category e = .ok .enum) :
    ∃ b, v.isFlagsEnum e = .ok b ∧ a = .fundamental (if b then .uint32 else .int32) := by
  cases h with
  | enum _ hb => exact ⟨_, hb, rfl⟩
  | struct hstruct =>
    rw [he] at hstruct
    cases hstruct
  | optional ho =>
    obtain ⟨g, row, hm, -⟩ := ho
    cases hm
  | other hnone => cases hnone

end View

namespace Resolver

variable {r : Resolver}

def Lays (r : Resolver) (f : FieldRow) (s : FieldShape) : Prop :=
  s.name = f.name ∧ ∃ m, r.meaningOf f.signature = .ok m ∧ r.view.StoredAs m s.meaning

theorem returns_resolve (r : Resolver) (s : Signature) :
    Query.Returns (r.meaningOf s = .ok ·) (r.uncached.resolve s) := by
  intro c m hm
  rw [(r.uncached.answers_resolve .none s c (r.keeps_uncached c)).1, r.resolveFrom_uncached,
    ← (r.answers_resolve .none s ∅ r.keeps_empty).1] at hm
  exact hm

theorem returns_fieldMeaning (r : Resolver) (f : FieldRow) :
    Query.Returns (fun a => ∃ m, r.meaningOf f.signature = .ok m ∧ r.view.StoredAs m a)
      (r.uncached.fieldMeaning f true) := by
  refine (r.returns_resolve f.signature).bind fun m hm => ?_
  cases m with
  | definition d =>
    refine (Query.Returns.lift _).bind fun category hcategory => ?_
    cases category with
    | enum =>
      rw [if_pos rfl]
      intro c a ha
      rw [Query.ask_lift] at ha
      obtain ⟨b, hb, e⟩ := Except.bind_eq_ok_iff.mp ha
      cases e
      exact ⟨_, hm, .enum hcategory hb⟩
    | struct => exact .pure ⟨_, hm, .struct hcategory⟩
    | interface | runtimeClass | delegate =>
      exact (Query.Returns.any _).bind fun row _ => .throw _
  | inst g args =>
    refine (Query.Returns.lift _).bind fun row hrow => ?_
    cases hnamed : TypeRow.isNamed row Platform.foundationNamespace "IReference`1" with
    | false => exact .pure ⟨_, hm, .inst hrow hnamed⟩
    | true =>
      rw [if_pos rfl]
      match args with
      | [a] => exact .pure ⟨_, hm, .optional ⟨g, row, rfl, hrow, hnamed⟩⟩
      | [] | _ :: _ :: _ => exact .throw _
  | fundamental k => exact .pure ⟨_, hm, .other rfl⟩
  | object => exact .pure ⟨_, hm, .other rfl⟩
  | guid => exact .pure ⟨_, hm, .other rfl⟩
  | index i => exact .pure ⟨_, hm, .other rfl⟩

theorem returns_fieldShapes (r : Resolver) (fs : List FieldRow) :
    Query.Returns (List.Forall₂ r.Lays fs) (r.uncached.fieldShapes fs) :=
  Query.Returns.mapM (fun f => (r.returns_fieldMeaning f).bind fun _ ha => .pure ⟨rfl, ha⟩) fs

structure LaysOut (r : Resolver) (d : TypeDef) (p : Projection) : Prop where
  category : r.view.category d = .ok p.category
  members : r.view.members d = .ok p.members
  fields : p.category = .struct → List.Forall₂ r.Lays p.members.fields p.fields
  others : p.category ≠ .struct → p.fields = []

theorem returns_project_fields (r : Resolver) (d : TypeDef) :
    Query.Returns (r.LaysOut d) (r.uncached.project d) := by
  refine (Query.Returns.lift _).bind fun row hrow =>
    (Query.Returns.lift _).bind fun category hcategory => ?_
  refine (Query.Returns.lift _).bind fun members hmembers => ?_
  refine (Query.Returns.any _).bind fun interfaces _ => ?_
  refine (Query.Returns.any _).bind fun overloads _ => ?_
  refine (Query.Returns.any _).bind fun shapes _ => ?_
  have hread : r.view.category d = .ok category :=
    Except.bind_eq_ok_iff.mpr ⟨row, hrow, hcategory⟩
  by_cases hstruct : category = .struct
  · rw [if_pos hstruct]
    exact (r.returns_fieldShapes _).bind fun fields hfields =>
      .pure ⟨hread, hmembers, fun _ => hfields, fun h => absurd hstruct h⟩
  · rw [if_neg hstruct]
    exact .pure ⟨hread, hmembers, fun h => absurd h hstruct, fun _ => rfl⟩

end Resolver

namespace Session

variable {cfg : Config} {σ : Session}

/-- However a projector has been used, the fields that it lays out are those of a struct, in order,
each by the meaning of its signature. Where this is an enum, the field is a number: with a sign, unless
the enum is a set of flags. What is laid out as an enum is just what may be an enum or absent. -/
theorem Lived.project_fields (h : σ.Lived cfg) {d : TypeDef} {p : Projection}
    (hp : (((σ.resolver cfg).project d).ask σ.memory).1 = .ok p) :
    let r := σ.resolver cfg
    r.LaysOut d p ∧
    (p.category = .struct → List.Forall₂ (fun f s => ∀ m, r.meaningOf f.signature = .ok m →
      (∀ e, m = .definition e → r.view.category e = .ok .enum →
        ∃ b, r.view.isFlagsEnum e = .ok b ∧
          s.meaning = .fundamental (if b then .uint32 else .int32)) ∧
      ∀ e, r.view.category e = .ok .enum →
        (s.meaning = .definition e ↔ r.view.IsOptional m (.definition e)))
      p.members.fields p.fields) := by
  intro r
  have halone : r.uncached.alone d = .ok p :=
    (r.answers_project d σ.memory h.sound.keeps).1.symm.trans hp
  have hlaid : r.LaysOut d p := r.returns_project_fields d ∅ p halone
  refine ⟨hlaid, fun hstruct => (hlaid.fields hstruct).imp ?_⟩
  rintro f s ⟨-, m, hm, hstored⟩ m' hm'
  obtain rfl : m = m' := Except.ok.inj (hm.symm.trans hm')
  refine ⟨?_, fun e he => hstored.eq_definition_iff he⟩
  rintro e rfl he
  exact hstored.of_enum he

/-- The type of optional values, an enum, and a struct with a field. -/
def holder (type : Signature) : Session where
  store := (run {} [
    .define (.ofClauses "Windows.Foundation" "IReference`1" [.category .interface, .genericParam "T"]),
    .define (.ofClauses "Demo" "Mode" [.category .enum]),
    .define (.ofClauses "Demo" "Holder" [.category .struct, .field "mode" type])]).store

theorem Lived.project_fields_mode :
    let σ := holder (.valueType (⟨2⟩ : TypeDef).token)
    let r := σ.resolver {}
    ∃ p, ((r.project ⟨3⟩).ask σ.memory).1 = .ok p ∧ r.LaysOut ⟨3⟩ p ∧ p.category = .struct ∧
      p.fields = [⟨"mode", .fundamental .int32⟩] := by
  intro σ r
  have hlived : σ.Lived {} := .start _
  have hfields : ((r.project ⟨3⟩).ask σ.memory).1.map (fun p => (p.category, p.fields)) =
      .ok (.struct, [⟨"mode", .fundamental .int32⟩]) := rfl
  rcases hp : ((r.project ⟨3⟩).ask σ.memory).1 with e | p
  · rw [hp] at hfields
    cases hfields
  · rw [hp] at hfields
    obtain ⟨hcategory, hfields⟩ := Prod.mk.inj (Except.ok.inj hfields)
    exact ⟨p, rfl, (hlived.project_fields hp).1, hcategory, hfields⟩

/-- A field that is an enum or absent is laid out as the enum. -/
theorem project_optional :
    let σ := holder (.genericInst (.classType (⟨1⟩ : TypeDef).token)
      [.valueType (⟨2⟩ : TypeDef).token])
    let r := σ.resolver {}
    r.view.category (⟨2⟩ : TypeDef) = .ok .enum ∧
      ((r.project ⟨3⟩).ask σ.memory).1.map (fun p => (p.category, p.fields)) =
        .ok (.struct, [⟨"mode", .definition ⟨2⟩⟩]) :=
  ⟨rfl, rfl⟩

end Session
end MetadataProjection
