import MetadataProjection.Proofs.Ownership

/-!
# MetadataProjection.Proofs.Written

What a declaration writes.

* `AttributeDecl.row`, `MethodDecl.paramRows`, `AccessorDecl.propertyRow`, `AccessorDecl.eventRow`,
  `FieldDecl.row`: the rows that the parts of a declaration ask for.
* `MethodDecl.Stands`, `TypeDecl.Stands`: a row is the declared one, and so are the rows of its
  parts. Once this is so it stays so (`Stands.mono`).
* `builds_write`: a declaration that succeeds stands from then on, and what it lists is listed by no
  other row.
* `Store.Attempt`: how a declaration comes to its end (`attempt_define`).
* `Store.define_cases`: a declaration adds one type and its name, or it fails and adds neither.
-/

namespace MetadataProjection

/-! ## Parts without parts -/

def AttributeDecl.row (parent : Token) (d : AttributeDecl) (h : CustomAttribute) : AttributeRow :=
  { token := h.token, parent, typeSpace := d.space, typeName := d.name, value := d.value }

theorem AttributeDecl.builds_write (parent : Token) (d : AttributeDecl) :
    (d.write parent).Builds fun h s s' => s.Fresh s' [h] ∧ s'.row? h = some (d.row parent h) :=
  Edit.builds_write (fun _ u => by cases u <;> rfl) Edit.writes_put

theorem ParamRow.builds_write (row : ParamRow) :
    (ParamRow.write row.name row.flags row.sequence).Builds fun h s s' =>
      s.Fresh s' [h] ∧ s'.row? h = some { row with token := h.token } :=
  Edit.builds_write (fun _ u => by cases u <;> rfl) Edit.writes_put

theorem mem_of_lookup {α : Type} {ps : List (String × α)} {name : String} {x : α}
    (h : ps.lookup name = some x) : (name, x) ∈ ps := by
  obtain ⟨before, after, e, -⟩ := List.lookup_eq_some_iff.mp h
  rw [e]
  exact List.mem_append_right before List.mem_cons_self

namespace AccessorDecl

def propertyRow (d : AccessorDecl) (links : List Link) (h : Property) : PropertyRow :=
  { token := h.token, name := d.name, links }

def eventRow (d : AccessorDecl) (links : List Link) (h : Event) : EventRow :=
  { token := h.token, name := d.name, handlerType := d.handlerType, links }

variable (owner : String) (methods : List (String × MethodDef)) (d : AccessorDecl)

theorem builds_writeProperty : (d.writeProperty owner methods).Builds fun h s s' =>
    s.Fresh s' [h] ∧ ∃ links, d.resolveLinks owner methods = .ok links ∧
      s'.row? h = some (d.propertyRow links h) := by
  have hl (links : List Link) (h : Property) (u : Table) :
      listed (t := .property) (d.propertyRow links h) u = [] := by
    cases u <;> rfl
  exact ((Edit.Builds.lift _).bind fun links => Edit.builds_write (hl links) Edit.writes_record).imp
    fun _ _ _ ⟨links, hlinks, hfresh, hrow⟩ => ⟨hfresh, links, hlinks, hrow⟩

theorem builds_writeEvent : (d.writeEvent owner methods).Builds fun h s s' =>
    s.Fresh s' [h] ∧ ∃ links, d.resolveLinks owner methods = .ok links ∧
      s'.row? h = some (d.eventRow links h) := by
  have hl (links : List Link) (h : Event) (u : Table) :
      listed (t := .event) (d.eventRow links h) u = [] := by
    cases u <;> rfl
  exact ((Edit.Builds.lift _).bind fun links => Edit.builds_write (hl links) Edit.writes_record).imp
    fun _ _ _ ⟨links, hlinks, hfresh, hrow⟩ => ⟨hfresh, links, hlinks, hrow⟩

theorem mem_of_resolveLinks {links : List Link} (h : d.resolveLinks owner methods = .ok links)
    {l : Link} (hl : l ∈ links) : ∃ name, (name, l.method) ∈ methods := by
  obtain ⟨link, -, hlink⟩ := (Except.exists_of_mem_of_mapM h).2 l hl
  split at hlink
  · next x hx =>
    cases hlink
    exact ⟨link.method, mem_of_lookup hx⟩
  · cases hlink

end AccessorDecl

def FieldDecl.row (parent : TypeDef) (d : FieldDecl) (h : Field) : FieldRow :=
  { token := h.token, parent := some parent, name := d.name, flags := d.flags, signature := d.type }

theorem FieldDecl.builds_write (parent : TypeDef) (d : FieldDecl) :
    (d.write parent).Builds fun h s s' => s.Fresh s' [h] ∧ s'.row? h = some (d.row parent h) :=
  Edit.builds_write (fun _ u => by cases u <;> rfl) Edit.writes_record

/-! ## Methods -/

/-- The row as it was asked for, before it was given a number. -/
def ParamRow.content (r : ParamRow) : ParamRow := { r with token := .null }

namespace MethodDecl

/-- Rows of parameters that are numbered from `sequence` on. -/
def rowsFrom (sequence : UInt32) : List ParamDecl → List ParamRow
  | [] => []
  | d :: ds => { name := d.name, flags := d.flags, sequence } :: rowsFrom (sequence + 1) ds

def returnRow (name : String) : ParamRow := { name }

/-- The row of the return value, where it is named, and those of the parameters. -/
def paramRows (d : MethodDecl) : List ParamRow :=
  d.returnName.toList.map returnRow ++ rowsFrom 1 d.params

def writeParam (row : ParamRow) : Edit Param := ParamRow.write row.name row.flags row.sequence

theorem writeReturn_eq (name : Option String) :
    writeReturn name = (name.toList.map returnRow).mapM writeParam := by
  cases name with
  | none => rfl
  | some name => simp [writeReturn, writeParam, returnRow]

theorem writeParams_eq (ds : List ParamDecl) : ∀ sequence,
    writeParams sequence ds = (rowsFrom sequence ds).mapM writeParam := by
  induction ds with
  | nil => intro sequence; rfl
  | cons d ds ih =>
    intro sequence
    simp only [writeParams, rowsFrom, List.mapM_cons, ih]
    rfl

/-- The row is the declared one, and so are the rows of its parameters and attributes. -/
structure Stands (s : Store) (parent : TypeDef) (d : MethodDecl) (h : MethodDef) (row : MethodRow) :
    Prop where
  token : row.token = h.token
  parent : row.parent = some parent
  name : row.name = d.name
  flags : row.flags = d.flags
  signature : row.signature = d.signature
  params : List.Forall₂ (fun r x => s.row? x = some { r with token := x.token }) d.paramRows
    row.params
  attributes : List.Forall₂ (fun a x => s.row? x = some (a.row h.token x)) d.attributes
    row.attributes

theorem Stands.mono {s s' : Store} {parent : TypeDef} {d : MethodDecl} {h : MethodDef}
    {row : MethodRow} (hd : d.Stands s parent h row) (hs : s.PartOf s') :
    d.Stands s' parent h row :=
  ⟨hd.token, hd.parent, hd.name, hd.flags, hd.signature, hd.params.imp fun _ x => hs.rows x _,
    hd.attributes.imp fun _ x => hs.rows x _⟩

/-- All of a method but writing its row. -/
def gather (parent : TypeDef) (d : MethodDecl) (h : MethodDef) : Edit MethodRow := do
  let params ← d.paramRows.mapM writeParam
  let attributes ← d.attributes.mapM (·.write h.token)
  return {
    token := h.token, parent := some parent, name := d.name, flags := d.flags,
    signature := d.signature, params, attributes }

theorem write_eq (parent : TypeDef) (d : MethodDecl) : d.write parent =
    Edit.reserve .methodDef >>= fun h => d.gather parent h >>= Edit.record (t := .methodDef) h := by
  simp only [write, gather, paramRows, List.mapM_append, writeReturn_eq, writeParams_eq, bind_assoc,
    pure_bind]

theorem builds_gather (parent : TypeDef) (d : MethodDecl) (h : MethodDef) :
    (d.gather parent h).Builds fun row s s' =>
      (∀ u, s.Fresh s' (listed (t := .methodDef) row u)) ∧ d.Stands s' parent h row := by
  unfold gather
  refine Edit.Builds.imp (.bind (.mapM ParamRow.builds_write _) fun params =>
    .bind (.mapM (AttributeDecl.builds_write h.token) _) fun attributes => .pure _) ?_
  rintro row s s' ⟨params, ⟨hfresh, hparams⟩, attributes, ⟨hfresh', hattributes⟩, rfl⟩
  refine ⟨fun u => ?_, ⟨rfl, rfl, rfl, rfl, rfl, hparams, hattributes⟩⟩
  cases u
  case param => exact hfresh
  case customAttribute => exact hfresh'
  all_goals exact Store.fresh_nil

theorem builds_write (parent : TypeDef) (d : MethodDecl) :
    (d.write parent).Builds fun h s s' =>
      s.Fresh s' [h] ∧ ∃ row : MethodRow, s'.row? h = some row ∧ d.Stands s' parent h row := by
  rw [write_eq]
  exact Edit.builds_reserve_bind (t := .methodDef) (fun _ _ _ _ hs hd => hd.mono hs)
    (d.builds_gather parent) Edit.writes_record

end MethodDecl

/-! ## Types -/

theorem TypeDecl.builds_writeBase (d : TypeDecl) : d.writeBase.Builds fun _ _ _ => True := by
  unfold writeBase
  split
  · exact (Edit.Builds.pure _).imp fun _ _ _ _ => trivial
  · next name _ _ =>
    refine ⟨fun s => s.grows_addTypeRef Platform.systemNamespace name, fun s s' x h hs hr => ?_⟩
    change (Except.ok _, (s.addTypeRef Platform.systemNamespace name).2) = (x, s') at h
    cases h
    obtain ⟨hs', hc⟩ := hs.addTypeRef hr
    exact ⟨hs', hc, fun _ _ _ _ _ _ _ => trivial⟩
  · exact (Edit.Builds.pure _).imp fun _ _ _ _ => trivial

namespace TypeDecl

/-- The name of the type as the message about an unknown accessor has it. -/
def ownerName (d : TypeDecl) : String := d.space ++ "." ++ d.name

def named (d : TypeDecl) (methods : List MethodDef) : List (String × MethodDef) :=
  (d.methods.map (·.name)).zip methods

/-- The row is the declared one, and so are the rows of all that it lists. -/
structure Stands (s : Store) (d : TypeDecl) (h : TypeDef) (row : TypeRow) : Prop where
  token : row.token = h.token
  space : row.space = d.space
  name : row.name = d.name
  flags : row.flags = d.flags
  genericParams : row.genericParams = d.genericParams
  interfaces : row.interfaces = d.interfaces
  attributes : List.Forall₂ (fun a x => s.row? x = some (a.row h.token x)) d.attributes
    row.attributes
  methods : List.Forall₂ (fun m x => ∃ r, s.row? x = some r ∧ MethodDecl.Stands s h m x r)
    d.methods row.methods
  properties : List.Forall₂ (fun p x => ∃ links, p.resolveLinks d.ownerName (d.named row.methods) =
    .ok links ∧ s.row? x = some (p.propertyRow links x)) d.properties row.properties
  events : List.Forall₂ (fun e x => ∃ links, e.resolveLinks d.ownerName (d.named row.methods) =
    .ok links ∧ s.row? x = some (e.eventRow links x)) d.events row.events
  fields : List.Forall₂ (fun f x => s.row? x = some (f.row h x)) d.fields row.fields

variable {s s' : Store} {d : TypeDecl} {h : TypeDef} {row : TypeRow}

theorem Stands.fullName (hd : d.Stands s h row) : row.fullName = qualifiedName d.space d.name := by
  rw [TypeRow.fullName, hd.space, hd.name]

theorem Stands.mono (hd : d.Stands s h row) (hs : s.PartOf s') : d.Stands s' h row := by
  refine { hd with attributes := ?_, methods := ?_, properties := ?_, events := ?_, fields := ?_ }
  · exact hd.attributes.imp fun _ x => hs.rows x _
  · exact hd.methods.imp fun _ x ⟨r, hr, hm⟩ => ⟨r, hs.rows x r hr, hm.mono hs⟩
  · exact hd.properties.imp fun _ x ⟨links, hlinks, hr⟩ => ⟨links, hlinks, hs.rows x _ hr⟩
  · exact hd.events.imp fun _ x ⟨links, hlinks, hr⟩ => ⟨links, hlinks, hs.rows x _ hr⟩
  · exact hd.fields.imp fun _ x => hs.rows x _

/-- All of a type but making it known. -/
def gather (d : TypeDecl) (h : TypeDef) : Edit TypeRow := do
  let h ← Handle.ofToken .typeDef h.token
  let base ← d.writeBase
  let attributes ← d.attributes.mapM (·.write h.token)
  let methods ← d.methods.mapM (·.write h)
  let properties ← d.properties.mapM (·.writeProperty d.ownerName (d.named methods))
  let events ← d.events.mapM (·.writeEvent d.ownerName (d.named methods))
  let fields ← d.fields.mapM (·.write h)
  return {
    token := h.token, space := d.space, name := d.name, flags := d.flags, base,
    genericParams := d.genericParams, interfaces := d.interfaces, methods, fields, properties,
    events, attributes }

theorem perform_write (d : TypeDecl) (s : Store) : d.write.perform s =
    (d.gather (s.reserve .typeDef).1 >>= publish (s.reserve .typeDef).1).perform
      (s.reserve .typeDef).2 := by
  unfold write gather
  rw [Edit.perform_bind, Edit.perform_reserve]
  simp only [bind_assoc, pure_bind]
  rw [Edit.perform_bind, Edit.perform_bind, Edit.perform_lift]
  cases he : Handle.ofToken .typeDef (s.reserve .typeDef).1.token with
  | error x => rfl
  | ok h => rw [Handle.eq_of_ofToken he]; rfl

theorem builds_gather (d : TypeDecl) (h : TypeDef) :
    (d.gather h).Builds fun row s s' =>
      (∀ u, s.Fresh s' (listed (t := .typeDef) row u)) ∧ d.Stands s' h row := by
  unfold gather
  refine Edit.Builds.imp (.bind (.lift _) fun k => .bind d.builds_writeBase fun base =>
    .bind (.mapM (AttributeDecl.builds_write k.token) _) fun attributes =>
    .bind (.mapM (MethodDecl.builds_write k) _) fun methods =>
    .bind (.mapM (AccessorDecl.builds_writeProperty _ _) _) fun properties =>
    .bind (.mapM (AccessorDecl.builds_writeEvent _ _) _) fun events =>
    .bind (.mapM (FieldDecl.builds_write k) _) fun fields => .pure _) ?_
  rintro row s s' ⟨k, hk, base, -, attributes, ⟨hfa, ha⟩, methods, ⟨hfm, hm⟩, properties, ⟨hfp, hp⟩,
    events, ⟨hfe, he⟩, fields, ⟨hff, hf⟩, rfl⟩
  rw [Handle.eq_of_ofToken hk] at ha hm hf
  refine ⟨fun u => ?_, ⟨?_, rfl, rfl, rfl, rfl, rfl, ha, hm, hp, he, hf⟩⟩
  · cases u
    case customAttribute => exact hfa
    case methodDef => exact hfm
    case property => exact hfp
    case event => exact hfe
    case field => exact hff
    all_goals exact Store.fresh_nil
  · rw [Handle.eq_of_ofToken hk]

/-- The parts of a type and its row, once the base is written. -/
def gatherParts (d : TypeDecl) (h : TypeDef) (base : Option TypeDefOrRef) : Edit TypeRow := do
  let attributes ← d.attributes.mapM (·.write h.token)
  let methods ← d.methods.mapM (·.write h)
  let properties ← d.properties.mapM (·.writeProperty d.ownerName (d.named methods))
  let events ← d.events.mapM (·.writeEvent d.ownerName (d.named methods))
  let fields ← d.fields.mapM (·.write h)
  return {
    token := h.token, space := d.space, name := d.name, flags := d.flags, base,
    genericParams := d.genericParams, interfaces := d.interfaces, methods, fields, properties,
    events, attributes }

theorem gather_eq (d : TypeDecl) (h : TypeDef) : d.gather h =
    liftM (Handle.ofToken .typeDef h.token) >>= fun h => d.writeBase >>= d.gatherParts h := rfl

theorem moves_gatherParts (d : TypeDecl) (h : TypeDef) (base : Option TypeDefOrRef) :
    (d.gatherParts h base).Moves
      [.customAttribute, .methodDef, .param, .property, .event, .field] := by
  unfold gatherParts
  refine .bind (.mapM (fun a => (a.moves_write _).mono (by decide)) _) fun attributes =>
    .bind (.mapM (fun m => (m.moves_write h).mono (by decide)) _) fun methods =>
    .bind (.mapM (fun p => (p.moves_writeProperty _ _).mono (by decide)) _) fun properties =>
    .bind (.mapM (fun e => (e.moves_writeEvent _ _).mono (by decide)) _) fun events =>
    .bind (.mapM (fun f => (f.moves_write h).mono (by decide)) _) fun fields => .pure _

theorem moves_gather (d : TypeDecl) (h : TypeDef) :
    (d.gather h).Moves
      [.typeRef, .customAttribute, .methodDef, .param, .property, .event, .field] := by
  rw [gather_eq]
  exact .bind (.lift _) fun k => .bind (d.moves_writeBase.mono (by decide)) fun base =>
    (d.moves_gatherParts k base).mono (by decide)

/-- A declaration comes to the end that its parts come to. What is known of the attributes once they
are written goes on to hold where the methods and the other parts keep it. -/
theorem ends_gather {P : Store → Prop} {Q : List CustomAttribute → Store → Prop} {d : TypeDecl}
    (h : TypeDef) (hfails : ∀ xs s, Q xs s → P s)
    (hbase : Edit.Ends P d.writeBase (fun _ => P) P)
    (hattributes : ∀ k : Token, Edit.Ends P (d.attributes.mapM (AttributeDecl.write k)) Q P)
    (hmethods : ∀ (k : TypeDef) (xs : List CustomAttribute),
      Edit.Ends (Q xs) (d.methods.mapM (MethodDecl.write k)) (fun _ => Q xs) P)
    (hrest : ∀ xs s s', Q xs s → s.Moves [.property, .event, .field] s' → Q xs s') :
    Edit.Ends P (d.gather h) (fun row => Q row.attributes) P := by
  have along {α : Type} {e : Edit α} {xs : List CustomAttribute}
      (he : e.Moves [.property, .event, .field]) : Edit.Ends (Q xs) e (fun _ => Q xs) P :=
    .of_along he (hrest xs) (hfails xs)
  refine Edit.Ends.lift_bind (fun _ => id) fun k _ => ?_
  refine hbase.bind fun base => (hattributes k.token).bind fun attributes => ?_
  refine (hmethods k attributes).bind fun methods => ?_
  refine (along (.mapM (fun p => (p.moves_writeProperty _ _).mono (by decide)) _)).bind fun _ => ?_
  refine (along (.mapM (fun e => (e.moves_writeEvent _ _).mono (by decide)) _)).bind fun _ => ?_
  refine (along (.mapM (fun f => (f.moves_write k).mono (by decide)) _)).bind fun _ => ?_
  exact fun s hs => hs

end TypeDecl

/-! ## What became of a declaration -/

namespace Store

theorem Moves.typeNames_eq {ts : List Table} {s s' : Store} (h : s.Moves ts s') :
    s'.typeNames = s.typeNames := by
  induction h with
  | refl => rfl
  | reserve _ _ ih => rw [← ih]; exact typeNames_setRows _ _ _
  | put _ _ _ ih => rw [← ih]; exact typeNames_setRows _ _ _
  | nameRef _ _ ih => exact ih

/-- A declaration adds one type under a new number and a free name, or it fails and adds none. -/
inductive Defines (d : TypeDecl) (s : Store) : Except Error TypeDef → Store → Prop where
  | added {s' : Store} {h : TypeDef} {row : TypeRow} (free : s.typeNames[row.fullName]? = none)
      (issued : s.Issued s' h) (stands : d.Stands s' h row)
      (rows : ∀ x : TypeDef, s'.row? x = if x = h then some row else s.row? x)
      (names : ∀ key : String,
        s'.typeNames[key]? = if key = row.fullName then some h else s.typeNames[key]?) :
      Defines d s (.ok h) s'
  | failed {s' : Store} {e : Error} (rows : ∀ x : TypeDef, s'.row? x = s.row? x)
      (names : s'.typeNames = s.typeNames) : Defines d s (.error e) s'

variable {s s₁ s' : Store} {row : TypeRow}

theorem row?_published (s : Store) (h : TypeDef) (row : TypeRow) (x : TypeDef) :
    (s.published h row).row? x = if x = h then some row else s.row? x := by
  by_cases e : x = h
  · rw [if_pos e, e]
    exact row?_put_self s (t := .typeDef) h row
  · rw [if_neg e]
    exact row?_put_of_ne s row (Ne.symm e)

theorem row?_published_of_ne (s : Store) (h : TypeDef) (row : TypeRow) {t : Table} (ht : .typeDef ≠ t)
    (x : Handle t) : (s.published h row).row? x = s.row? x :=
  row?_put_of_table_ne s (t := .typeDef) h row x ht

theorem typeNames_published (s : Store) (h : TypeDef) (row : TypeRow) (key : String) :
    (s.published h row).typeNames[key]? =
      if key = row.fullName then some h else s.typeNames[key]? := by
  have hput : (s.put h (t := .typeDef) row).typeNames = s.typeNames := typeNames_setRows _ _ _
  rw [published, hput]
  simp only [Std.TreeMap.getElem?_insert, Std.compare_eq_iff_eq, eq_comm (a := row.fullName)]

/-- How a declaration comes to its end: some part of it cannot be written, or its name is taken, or
it is made known under the number that was handed out first. -/
inductive Attempt (d : TypeDecl) (s : Store) : Except Error TypeDef → Store → Prop where
  | unwritten {e : Error} {s₁ : Store}
      (gather : (d.gather (s.reserve .typeDef).1).perform (s.reserve .typeDef).2 =
        (.error e, s₁)) : Attempt d s (.error e) s₁
  | taken {row : TypeRow} {s₁ : Store}
      (gather : (d.gather (s.reserve .typeDef).1).perform (s.reserve .typeDef).2 = (.ok row, s₁))
      (taken : s₁.typeNames.contains row.fullName = true) :
      Attempt d s (.error (.invalidMetadata (.definedTwice row.fullName))) s₁
  | published {row : TypeRow} {s₁ s₂ : Store}
      (gather : (d.gather (s.reserve .typeDef).1).perform (s.reserve .typeDef).2 = (.ok row, s₁))
      (free : s₁.typeNames.contains row.fullName = false)
      (store : s₂ = s₁.published (s.reserve .typeDef).1 row) :
      Attempt d s (.ok (s.reserve .typeDef).1) s₂

variable {d : TypeDecl}

theorem attempt_define (s : Store) (d : TypeDecl) : s.Attempt d (s.define d).1 (s.define d).2 := by
  change s.Attempt d (d.write.perform s).1 (d.write.perform s).2
  rw [d.perform_write, Edit.perform_bind]
  rcases hg : (d.gather (s.reserve .typeDef).1).perform (s.reserve .typeDef).2 with ⟨y, s₁⟩
  cases y with
  | error e => exact .unwritten hg
  | ok row =>
    change s.Attempt d ((TypeDecl.publish _ row).perform s₁).1
      ((TypeDecl.publish _ row).perform s₁).2
    rw [TypeDecl.perform_publish]
    cases hfree : s₁.typeNames.contains row.fullName with
    | true => exact .taken hg hfree
    | false => exact .published hg hfree rfl

/-- What holds after a declaration, for it holds where it fails, and where the row that it gathered
is made known or its name is taken. -/
theorem define_of_ends {P G : Store → Prop} {Q : TypeRow → Store → Prop}
    (hreserved : P (s.reserve .typeDef).2)
    (hgather : Edit.Ends P (d.gather (s.reserve .typeDef).1) Q G)
    (htaken : ∀ row s₁, Q row s₁ → G s₁)
    (hpublished : ∀ row s₁, Q row s₁ → G (s₁.published (s.reserve .typeDef).1 row)) :
    G (s.define d).2 := by
  have hends := hgather _ hreserved
  have hattempt := s.attempt_define d
  generalize (s.define d).1 = x, (s.define d).2 = s' at hattempt
  cases hattempt with
  | unwritten hg =>
    rw [hg] at hends
    exact hends
  | taken hg _ =>
    rw [hg] at hends
    exact htaken _ _ hends
  | published hg _ hs' =>
    rw [hg] at hends
    rw [hs']
    exact hpublished _ _ hends

section Gathered

variable {y : Except Error TypeRow}

/-- Until it is made known, a type shows in no table of types and under no name. -/
theorem unknown_of_gather
    (hg : (d.gather (s.reserve .typeDef).1).perform (s.reserve .typeDef).2 = (y, s₁)) :
    (∀ x : TypeDef, s₁.row? x = s.row? x) ∧ s₁.typeNames = s.typeNames := by
  have hmoves := d.moves_gather (s.reserve .typeDef).1 (s.reserve .typeDef).2
  rw [hg] at hmoves
  refine ⟨fun x => ?_, hmoves.typeNames_eq.trans (typeNames_setRows _ _ _)⟩
  rw [hmoves.row?_eq (by decide), row?_reserve]

theorem Tidy.gather (hs : s.Tidy)
    (hg : (d.gather (s.reserve .typeDef).1).perform (s.reserve .typeDef).2 = (y, s₁))
    (hr : s₁.InRange) : s₁.Tidy ∧ (s.reserve .typeDef).2.Continues s₁ ∧ s.Continues s₁ := by
  obtain ⟨hsr, hcr⟩ := hs.reserve .typeDef
  obtain ⟨hs₁, hc, -⟩ := (d.builds_gather _).leads _ _ _ hg hsr hr
  exact ⟨hs₁, hc, hcr.trans hc⟩

theorem Tidy.published (hs : s.Tidy)
    (hg : (d.gather (s.reserve .typeDef).1).perform (s.reserve .typeDef).2 = (.ok row, s₁))
    (hfree : s₁.typeNames.contains row.fullName = false) (hr : s₁.InRange) :
    (s₁.published (s.reserve .typeDef).1 row).Tidy ∧
      s.Continues (s₁.published (s.reserve .typeDef).1 row) ∧
      s.Issued (s₁.published (s.reserve .typeDef).1 row) (s.reserve .typeDef).1 ∧
      s₁.PartOf (s₁.published (s.reserve .typeDef).1 row) ∧
      d.Stands (s₁.published (s.reserve .typeDef).1 row) (s.reserve .typeDef).1 row := by
  obtain ⟨hs₁, hc₁, hrow⟩ := (d.builds_gather _).leads _ _ _ hg (hs.reserve .typeDef).1 hr
  obtain ⟨hfresh, hstands⟩ := hrow row rfl _ s₁ (.refl _) (.refl s₁) hr
  obtain ⟨hs', hc', hself, hpart⟩ := hs.put_reserved hs₁ hc₁ hr hfresh
  have hput : (s₁.put (s.reserve .typeDef).1 (t := .typeDef) row).typeNames = s₁.typeNames :=
    typeNames_setRows _ _ _
  rw [← hput] at hfree
  have hpublished : s₁.PartOf (s₁.published (s.reserve .typeDef).1 row) := hpart.name hfree
  exact ⟨⟨hs'.numbered, hs'.present, hs'.nodup, hs'.unique⟩,
    ⟨hc'.grows.name hfree, hc'.partOf.name hfree, hc'.owns⟩,
    hself.issued _ List.mem_cons_self, hpublished, hstands.mono hpublished⟩

end Gathered

theorem define_cases {x : Except Error TypeDef} (hd : s.define d = (x, s')) (hs : s.Tidy)
    (hr : s'.InRange) : s'.Tidy ∧ s.Continues s' ∧ s.Defines d x s' := by
  have hattempt := s.attempt_define d
  rw [hd] at hattempt
  cases hattempt with
  | unwritten hg =>
    obtain ⟨hs', -, hc⟩ := hs.gather hg hr
    obtain ⟨hrows, hnames⟩ := unknown_of_gather hg
    exact ⟨hs', hc, .failed hrows hnames⟩
  | taken hg _ =>
    obtain ⟨hs', -, hc⟩ := hs.gather hg hr
    obtain ⟨hrows, hnames⟩ := unknown_of_gather hg
    exact ⟨hs', hc, .failed hrows hnames⟩
  | published hg hfree hs₂ =>
    subst hs₂
    obtain ⟨hs', hc, hissued, -, hstands⟩ := hs.published hg hfree (inRange_put.mp hr)
    obtain ⟨hrows, hnames⟩ := unknown_of_gather hg
    refine ⟨hs', hc, .added ?_ hissued hstands (fun x => ?_) fun key => ?_⟩
    · rw [hnames] at hfree
      exact Std.TreeMap.getElem?_eq_none_of_contains_eq_false hfree
    · rw [row?_published, hrows]
    · rw [typeNames_published, hnames]

end Store
end MetadataProjection
