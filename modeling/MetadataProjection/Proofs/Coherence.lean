import MetadataProjection.Closure.Traversal
import MetadataProjection.Members
import MetadataProjection.Proofs.Session

/-!
# MetadataProjection.Proofs.Coherence

Stores that come about by declarations hang together, even where the row numbers have run out and
rows are written over.

* `Store.Moves`: all that the steps of a declaration do to a store, short of making the type known.
  A step is confined to some tables; `Moves.persists`, `Moves.labelled` and `Moves.rows_eq` say what
  it leaves alone. `Session.moves_step`: of the steps of a session only a declaration does more.
* `MethodDecl.write_eq_ok`: what a method that was written looks like.
* `Store.Coherent`: a row carries the token it is found under; the methods a type lists have rows,
  and their row numbers rise. `Session.coherent_run`: so it is at any moment of a session.
* `View.ascending_definitions`, `View.mem_definitions_iff`: the list of definitions goes by token,
  and holds all that have rows. `View.Labelled`: what coherence means to a reader.
-/

namespace MetadataProjection

theorem Handle.ofToken_token_eq_ok_iff {t : Table} {h h' : Handle t} :
    Handle.ofToken t h.token = .ok h' ↔ h' = h ∧ h.row ≠ 0 := by
  unfold Handle.ofToken
  by_cases hrow : h.row = 0
  · simp [Handle.ofToken?, Handle.token, hrow]
  · have h : (⟨h.row⟩ : Handle t) = h := rfl
    simp [Handle.ofToken?, Handle.token, hrow, h, eq_comm]

/-- The token a row was recorded under. -/
def rowToken : {t : Table} → Row t → Token
  | .typeDef, (r : TypeRow) => r.token
  | .typeRef, (r : TypeRefRow) => r.token
  | .typeSpec, (r : TypeSpecRow) => r.token
  | .methodDef, (r : MethodRow) => r.token
  | .field, (r : FieldRow) => r.token
  | .property, (r : PropertyRow) => r.token
  | .event, (r : EventRow) => r.token
  | .param, (r : ParamRow) => r.token
  | .customAttribute, (r : AttributeRow) => r.token

namespace Store

/-! ## Moves -/

/-- In the tables `ts`, numbers are handed out and rows written under their own tokens. Names are
given to references only, and only if their table is one of `ts`. -/
inductive Moves (ts : List Table) (s : Store) : Store → Prop where
  | refl : Moves ts s s
  | reserve {s' : Store} {t : Table} : Moves ts s s' → t ∈ ts → Moves ts s (s'.reserve t).2
  | put {s' : Store} {t : Table} {h : Handle t} {row : Row t} : Moves ts s s' → t ∈ ts →
      rowToken row = h.token → Moves ts s (s'.put h row)
  | nameRef {s' : Store} {names : Std.TreeMap String TypeRef} : Moves ts s s' → .typeRef ∈ ts →
      Moves ts s { s' with refNames := names }

namespace Moves

variable {ts us : List Table} {s s' s'' : Store}

theorem trans (h : Moves ts s s') (h' : Moves ts s' s'') : Moves ts s s'' := by
  induction h' with
  | refl => exact h
  | reserve _ ht ih => exact .reserve ih ht
  | put _ ht hrow ih => exact .put ih ht hrow
  | nameRef _ ht ih => exact .nameRef ih ht

theorem mono (h : Moves ts s s') (hsub : ts ⊆ us) : Moves us s s' := by
  induction h with
  | refl => exact .refl
  | reserve _ ht ih => exact .reserve ih (hsub ht)
  | put _ ht hrow ih => exact .put ih (hsub ht) hrow
  | nameRef _ ht ih => exact .nameRef ih (hsub ht)

/-- A row may be written over, but it is never taken away. -/
theorem persists (h : Moves ts s s') {t : Table} {x : Handle t} (hx : (s.row? x).isSome) :
    (s'.row? x).isSome := by
  induction h with
  | refl => exact hx
  | reserve _ _ ih => rw [row?_reserve]; exact ih
  | @put s' u y row _ _ _ ih =>
    by_cases e : u = t
    · subst e
      by_cases e : y = x
      · subst e; rw [row?_put_self]; rfl
      · rw [row?_put_of_ne s' row e]; exact ih
    · rw [row?_put_of_table_ne s' y row x e]; exact ih
  | nameRef _ _ ih => exact ih

theorem labelled (h : Moves ts s s') {t : Table} {x : Handle t} {r : Row t}
    (hr : s'.row? x = some r) : s.row? x = some r ∨ rowToken r = x.token := by
  induction h with
  | refl => exact .inl hr
  | reserve _ _ ih => rw [row?_reserve] at hr; exact ih hr
  | @put s' u y row _ _ hrow ih =>
    rcases row?_put_cases hr with e | hr
    · cases e
      exact .inr hrow
    · exact ih hr
  | nameRef _ _ ih => exact ih hr

/-- A table that is not one of `ts` is left as it is, rows and counter. -/
theorem rows_eq (h : Moves ts s s') {t : Table} (ht : t ∉ ts) : s'.rows t = s.rows t := by
  induction h with
  | refl => rfl
  | @reserve _ u _ hu ih =>
    have hne : u ≠ t := fun e => ht (e ▸ hu)
    exact (rows_setRows_of_ne _ _ hne).trans ih
  | @put _ u _ _ _ hu _ ih =>
    have hne : u ≠ t := fun e => ht (e ▸ hu)
    exact (rows_setRows_of_ne _ _ hne).trans ih
  | nameRef _ _ ih => rw [← ih]; cases t <;> rfl

theorem row?_eq (h : Moves ts s s') {t : Table} (ht : t ∉ ts) (x : Handle t) :
    s'.row? x = s.row? x := by
  rw [row?, h.rows_eq ht, row?]

theorem issued_eq (h : Moves ts s s') {t : Table} (ht : t ∉ ts) :
    (s'.rows t).issued = (s.rows t).issued := by
  rw [h.rows_eq ht]

/-- Names of references are given only where references are written. -/
theorem refNames_eq (h : Moves ts s s') (ht : .typeRef ∉ ts) : s'.refNames = s.refNames := by
  induction h with
  | refl => rfl
  | reserve _ _ ih => rw [← ih]; exact refNames_setRows _ _ _
  | put _ _ _ ih => rw [← ih]; exact refNames_setRows _ _ _
  | nameRef _ ht' _ => exact absurd ht' ht

end Moves
end Store

/-! ## Steps that move -/

namespace Edit

variable {α β : Type} {ts us : List Table}

theorem perform_bind_eq_ok_iff {e : Edit α} {f : α → Edit β} {s s' : Store} {b : β} :
    (e >>= f).perform s = (.ok b, s') ↔
      ∃ a s₁, e.perform s = (.ok a, s₁) ∧ (f a).perform s₁ = (.ok b, s') := by
  rw [perform_bind]
  rcases e.perform s with ⟨x, s₁⟩
  cases x with
  | error x =>
    constructor
    · intro h; cases h
    · rintro ⟨_, _, h, _⟩; cases h
  | ok a =>
    constructor
    · intro h; exact ⟨a, s₁, rfl, h⟩
    · rintro ⟨_, _, h, hf⟩; cases h; exact hf

/-- A list of steps has an answer for each. -/
theorem length_of_mapM {f : α → Edit β} {as : List α} {bs : List β} {s s' : Store}
    (h : (as.mapM f).perform s = (.ok bs, s')) : bs.length = as.length := by
  induction as generalizing s bs with
  | nil =>
    cases h
    rfl
  | cons a as ih =>
    rw [List.mapM_cons] at h
    obtain ⟨b, s₁, -, hrest⟩ := perform_bind_eq_ok_iff.mp h
    obtain ⟨bs', s₂, hbs, hpure⟩ := perform_bind_eq_ok_iff.mp hrest
    cases hpure
    rw [List.length_cons, List.length_cons, ih hbs]

/-- The step is confined to the tables `ts`. -/
def Moves (ts : List Table) (e : Edit α) : Prop := Along (Store.Moves ts) e

namespace Moves

theorem pure (a : α) : Moves ts (Pure.pure a) := Along.pure (fun _ => .refl) a

theorem lift (x : Except Error α) : Moves ts (liftM x) := Along.lift (fun _ => .refl) x

theorem bind {e : Edit α} {f : α → Edit β} (he : e.Moves ts) (hf : ∀ a, (f a).Moves ts) :
    (e >>= f).Moves ts :=
  Along.bind (fun _ _ _ => .trans) he hf

theorem mapM {f : α → Edit β} (hf : ∀ a, (f a).Moves ts) (as : List α) : (as.mapM f).Moves ts :=
  Along.mapM (fun _ => .refl) (fun _ _ _ => .trans) hf as

theorem mono {e : Edit α} (he : e.Moves ts) (hsub : ts ⊆ us) : e.Moves us :=
  fun s => (he s).mono hsub

theorem reserve {t : Table} (ht : t ∈ ts) : (Edit.reserve t).Moves ts := fun _ => .reserve .refl ht

theorem put {t : Table} {h : Handle t} {row : Row t} (ht : t ∈ ts) (hrow : rowToken row = h.token) :
    (Edit.put h row).Moves ts :=
  fun _ => .put .refl ht hrow

theorem record {t : Table} {h : Handle t} {row : Row t} (ht : t ∈ ts)
    (hrow : rowToken row = h.token) : (Edit.record h row).Moves ts := by
  intro s
  unfold Edit.record
  cases he : Handle.ofToken t h.token with
  | error x => exact .refl
  | ok h' =>
    rw [Handle.eq_of_ofToken he]
    exact (bind (put ht hrow) fun _ => pure h) s

end Moves

theorem perform_reserve (t : Table) (s : Store) :
    (reserve t).perform s = (.ok (s.reserve t).1, (s.reserve t).2) := rfl

theorem record_eq_ok {t : Table} {h h' : Handle t} {row : Row t} {s s' : Store}
    (he : (record h row).perform s = (.ok h', s')) :
    h' = h ∧ h.row ≠ 0 ∧ s' = s.put h row := by
  obtain ⟨x, s₁, hx, hrest⟩ := perform_bind_eq_ok_iff.mp he
  obtain ⟨_, s₂, hput, hpure⟩ := perform_bind_eq_ok_iff.mp hrest
  rw [perform_lift, Prod.mk.injEq] at hx
  obtain ⟨hx, rfl⟩ := hx
  obtain ⟨rfl, hrow⟩ := Handle.ofToken_token_eq_ok_iff.mp hx
  cases hput
  cases hpure
  exact ⟨rfl, hrow, rfl⟩

end Edit

/-! ## Members -/

theorem AttributeDecl.moves_write (d : AttributeDecl) (parent : Token) :
    (d.write parent).Moves [.customAttribute] :=
  (Edit.Moves.reserve (by decide)).bind fun _ =>
    (Edit.Moves.put (by decide) rfl).bind fun _ => .pure _

theorem ParamRow.moves_write (name : String) (flags sequence : UInt32) :
    (ParamRow.write name flags sequence).Moves [.param] :=
  (Edit.Moves.reserve (by decide)).bind fun _ =>
    (Edit.Moves.put (by decide) rfl).bind fun _ => .pure _

namespace MethodDecl

theorem moves_writeReturn (name : Option String) : (writeReturn name).Moves [.param] := by
  cases name with
  | none => exact .pure []
  | some name => exact (ParamRow.moves_write name 0 0).bind fun h => .pure [h]

theorem moves_writeParams (ds : List ParamDecl) :
    ∀ sequence : UInt32, (writeParams sequence ds).Moves [.param] := by
  induction ds with
  | nil => intro sequence; exact .pure []
  | cons d ds ih =>
    intro sequence
    exact (ParamRow.moves_write d.name d.flags sequence).bind fun h =>
      (ih (sequence + 1)).bind fun hs => .pure (h :: hs)

/-- The tables that a method is spread over, beside its own. -/
def parts : List Table := [.param, .customAttribute]

theorem moves_write (parent : TypeDef) (d : MethodDecl) :
    (d.write parent).Moves (.methodDef :: parts) := by
  refine (Edit.Moves.reserve (by decide)).bind fun h => ?_
  refine ((moves_writeReturn d.returnName).mono (by decide)).bind fun returnRow => ?_
  refine ((moves_writeParams d.params 1).mono (by decide)).bind fun paramRows => ?_
  refine (Edit.Moves.mapM (fun a => ?_) _).bind fun attributes => ?_
  · exact (a.moves_write h.token).mono (by decide)
  · exact .record (by decide) rfl

/-- A method that was written has the next number, which is not 0, and the row it declares. -/
theorem write_eq_ok {parent : TypeDef} {d : MethodDecl} {m : MethodDef} {s s' : Store}
    (h : (d.write parent).perform s = (.ok m, s')) :
    m.row = .ofNat ((s.rows .methodDef).issued + 1) ∧ m.row ≠ 0 ∧
      (s'.rows .methodDef).issued = (s.rows .methodDef).issued + 1 ∧
      ∃ params attributes, s'.row? m = some
        { token := m.token, parent := some parent, name := d.name, flags := d.flags,
          signature := d.signature, params, attributes } := by
  obtain ⟨m', s₁, h₁, h⟩ := Edit.perform_bind_eq_ok_iff.mp h
  obtain ⟨returnRow, s₂, h₂, h⟩ := Edit.perform_bind_eq_ok_iff.mp h
  obtain ⟨paramRows, s₃, h₃, h⟩ := Edit.perform_bind_eq_ok_iff.mp h
  obtain ⟨attributes, s₄, h₄, h⟩ := Edit.perform_bind_eq_ok_iff.mp h
  obtain ⟨rfl, hrow, rfl⟩ := Edit.record_eq_ok h
  rw [Edit.perform_reserve, Prod.mk.injEq, Except.ok.injEq] at h₁
  have moves : s₁.Moves parts s₄ := by
    have m₂ : s₁.Moves parts _ := (moves_writeReturn d.returnName).mono (by decide) s₁
    have m₃ : s₂.Moves parts _ := (moves_writeParams d.params 1).mono (by decide) s₂
    have m₄ : s₃.Moves parts _ := Edit.Moves.mapM (fun a : AttributeDecl =>
      (a.moves_write m.token).mono (by decide)) d.attributes s₃
    rw [h₂] at m₂
    rw [h₃] at m₃
    rw [h₄] at m₄
    exact (m₂.trans m₃).trans m₄
  obtain ⟨rfl, rfl⟩ := h₁
  refine ⟨rfl, hrow, ?_, returnRow ++ paramRows, attributes, Store.row?_put_self _ _ _⟩
  rw [Store.issued_put, moves.issued_eq (by decide), Store.issued_reserve, if_pos rfl]

end MethodDecl

theorem AccessorDecl.moves_writeProperty (owner : String) (methods : List (String × MethodDef))
    (d : AccessorDecl) : (d.writeProperty owner methods).Moves [.property] :=
  (Edit.Moves.lift _).bind fun _ =>
    (Edit.Moves.reserve (by decide)).bind fun _ => .record (by decide) rfl

theorem AccessorDecl.moves_writeEvent (owner : String) (methods : List (String × MethodDef))
    (d : AccessorDecl) : (d.writeEvent owner methods).Moves [.event] :=
  (Edit.Moves.lift _).bind fun _ =>
    (Edit.Moves.reserve (by decide)).bind fun _ => .record (by decide) rfl

theorem FieldDecl.moves_write (parent : TypeDef) (d : FieldDecl) :
    (d.write parent).Moves [.field] :=
  (Edit.Moves.reserve (by decide)).bind fun _ => .record (by decide) rfl

namespace Store

theorem moves_addTypeRef (s : Store) (space name : String) :
    s.Moves [.typeRef] (s.addTypeRef space name).2 := by
  cases h : s.refNames[qualifiedName space name]? with
  | some x =>
    have e : s.addTypeRef space name = (x, s) := by simp only [addTypeRef, h]
    rw [e]
    exact .refl
  | none =>
    simp only [addTypeRef, h]
    exact .nameRef (.put (.reserve .refl List.mem_cons_self) List.mem_cons_self rfl)
      List.mem_cons_self

theorem moves_addTypeSpec (s : Store) (signature : Signature) :
    s.Moves [.typeSpec] (s.addTypeSpec signature).2 :=
  .put (.reserve .refl List.mem_cons_self) List.mem_cons_self rfl

end Store

theorem TypeDecl.moves_writeBase (d : TypeDecl) : d.writeBase.Moves [.typeRef] := by
  unfold writeBase
  split
  · exact .pure _
  · next name _ _ =>
    intro s
    exact s.moves_addTypeRef Platform.systemNamespace name
  · exact .pure _

/-! ## Coherent stores -/

namespace Store

/-- Methods that have rows, by rising row number. -/
def Lists (s : Store) (ms : List MethodDef) : Prop :=
  (∀ m ∈ ms, (s.row? m).isSome) ∧ ms.Pairwise (·.row < ·.row)

structure Coherent (s : Store) : Prop where
  labelled : ∀ {t : Table} (h : Handle t) (row : Row t), s.row? h = some row →
    rowToken row = h.token
  lists : ∀ (d : TypeDef) (row : TypeRow), s.row? d = some row → s.Lists row.methods

theorem coherent_empty : Coherent .empty := by
  have h : ∀ {t : Table} (h : Handle t), Store.empty.row? h = none := by
    intro t h
    cases t <;> simp [row?, rows, empty, Rows.get?]
  refine ⟨fun x row hrow => ?_, fun d row hrow => ?_⟩
  · rw [h] at hrow; cases hrow
  · rw [h] at hrow; cases hrow

variable {ts : List Table} {s s' : Store} {ms : List MethodDef}

theorem Lists.moves (h : s.Lists ms) (hm : s.Moves ts s') : s'.Lists ms :=
  ⟨fun m hmem => hm.persists (h.1 m hmem), h.2⟩

theorem Coherent.moves (h : s.Coherent) (hm : s.Moves ts s') (ht : .typeDef ∉ ts) :
    s'.Coherent := by
  refine ⟨fun x row hrow => ?_, fun d row hrow => ?_⟩
  · exact (hm.labelled hrow).elim (h.labelled x row) id
  · rw [hm.row?_eq ht] at hrow
    exact (h.lists d row hrow).moves hm

theorem Coherent.reserve (h : s.Coherent) (t : Table) : (s.reserve t).2.Coherent := by
  refine ⟨fun x row hrow => ?_, fun d row hrow => ?_⟩
  · rw [row?_reserve] at hrow
    exact h.labelled x row hrow
  · rw [row?_reserve] at hrow
    have hm : s.Moves [t] (s.reserve t).2 := .reserve .refl List.mem_cons_self
    exact (h.lists d row hrow).moves hm

/-- The row of a type is written under its own token, and the methods it lists have rows. -/
theorem Coherent.put (h : s.Coherent) {d : TypeDef} {row : TypeRow} (hrow : row.token = d.token)
    (hl : s.Lists row.methods) : (s.put d (t := .typeDef) row).Coherent := by
  have hm : s.Moves [.typeDef] (s.put d (t := .typeDef) row) :=
    .put .refl List.mem_cons_self hrow
  refine ⟨fun x r hr => (hm.labelled hr).elim (h.labelled x r) id, fun x r hr => ?_⟩
  rcases row?_put_cases hr with e | hr
  · cases e
    exact hl.moves hm
  · exact (h.lists x r hr).moves hm

end Store

namespace Edit

variable {α β : Type} {P : Store → Prop} {E : Store → Prop}

/-- From a store in `P` the step leads to one in `Q` of its answer or, if it fails, to one in `E`.
-/
def Ends (P : Store → Prop) (e : Edit α) (Q : α → Store → Prop) (E : Store → Prop) : Prop :=
  ∀ s : Store, P s → match e.perform s with
    | (.ok a, s') => Q a s'
    | (.error _, s') => E s'

theorem Ends.bind {e : Edit α} {f : α → Edit β} {Q : α → Store → Prop} {Q' : β → Store → Prop}
    (he : Ends P e Q E) (hf : ∀ a, Ends (Q a) (f a) Q' E) : Ends P (e >>= f) Q' E := by
  intro s hs
  have h := he s hs
  rw [perform_bind]
  rcases hes : e.perform s with ⟨x, s'⟩
  rw [hes] at h
  cases x with
  | error x => exact h
  | ok a => exact hf a s' h

theorem Ends.lift_bind {x : Except Error α} {f : α → Edit β} {Q : β → Store → Prop}
    (hE : ∀ s, P s → E s) (hf : ∀ a, x = .ok a → Ends P (f a) Q E) :
    Ends P (liftM x >>= f) Q E := by
  intro s hs
  rw [perform_bind, perform_lift]
  cases x with
  | error x => exact hE s hs
  | ok a => exact hf a rfl s hs

theorem Ends.mapM {f : α → Edit β} {as : List α} (hf : ∀ a ∈ as, Ends P (f a) (fun _ => P) E) :
    Ends P (as.mapM f) (fun _ => P) E := by
  induction as with
  | nil => exact fun s hs => hs
  | cons a as ih =>
    rw [List.mapM_cons]
    exact (hf a List.mem_cons_self).bind fun b =>
      (ih fun x hx => hf x (List.mem_cons_of_mem a hx)).bind fun bs s hs => hs

theorem Ends.of_along {R : Store → Store → Prop} {e : Edit α} (he : Along R e)
    (hP : ∀ s s', P s → R s s' → P s') (hE : ∀ s, P s → E s) : Ends P e (fun _ => P) E := by
  intro s hs
  have h := hP s _ hs (he s)
  rcases hes : e.perform s with ⟨x, s'⟩
  rw [hes] at h
  cases x with
  | error x => exact hE s' h
  | ok a => exact h

end Edit

namespace TypeDecl

open Store

/-- Methods that were written have rows. Their numbers rise, for a number is handed out after the
one before it, and 0 does not pass. -/
theorem lists_of_write {parent : TypeDef} {ds : List MethodDecl} {ms : List MethodDef}
    {s s' : Store} (h : (ds.mapM (MethodDecl.write parent)).perform s = (.ok ms, s')) :
    s'.Lists ms ∧ ∀ m ∈ ms, (s.rows .methodDef).issued % 16777216 < m.row.val := by
  induction ds generalizing s ms with
  | nil =>
    cases h
    exact ⟨⟨fun m hm => absurd hm List.not_mem_nil, .nil⟩, fun m hm => absurd hm List.not_mem_nil⟩
  | cons d ds ih =>
    rw [List.mapM_cons] at h
    obtain ⟨m, s₁, hm, hrest⟩ := Edit.perform_bind_eq_ok_iff.mp h
    obtain ⟨ms', s₂, hms, hpure⟩ := Edit.perform_bind_eq_ok_iff.mp hrest
    cases hpure
    obtain ⟨hrow, hne, hissued, params, attributes, hm⟩ := MethodDecl.write_eq_ok hm
    obtain ⟨⟨hrows, hrise⟩, hlater⟩ := ih hms
    have hmoves := Edit.Moves.mapM (fun d => MethodDecl.moves_write parent d) ds s₁
    rw [hms] at hmoves
    have hval : m.row.val = ((s.rows .methodDef).issued + 1) % 16777216 := by
      rw [hrow, RowNumber.val_ofNat]
    have hpos : m.row.val ≠ 0 := fun h0 => hne (Fin.ext h0)
    rw [hissued, ← hval] at hlater
    refine ⟨⟨?_, List.pairwise_cons.mpr ⟨hlater, hrise⟩⟩, ?_⟩
    · refine List.forall_mem_cons.mpr ⟨hmoves.persists ?_, hrows⟩
      rw [hm]; rfl
    · have hlt : (s.rows .methodDef).issued % 16777216 < m.row.val := by omega
      exact List.forall_mem_cons.mpr ⟨hlt, fun x hx => Nat.lt_trans hlt (hlater x hx)⟩

theorem ends_writeMethods (parent : TypeDef) (ds : List MethodDecl) :
    Edit.Ends Coherent (ds.mapM (MethodDecl.write parent)) (fun ms s => s.Coherent ∧ s.Lists ms)
      Coherent := by
  intro s hs
  have hmoves := Edit.Moves.mapM (fun d => MethodDecl.moves_write parent d) ds s
  have hc := hs.moves hmoves (by decide)
  rcases hes : (ds.mapM (MethodDecl.write parent)).perform s with ⟨x, s'⟩
  rw [hes] at hc
  cases x with
  | error x => exact hc
  | ok ms => exact ⟨hc, (lists_of_write hes).1⟩

theorem ends_publish {d : TypeDef} {row : TypeRow} {ms : List MethodDef}
    (hrow : row.token = d.token) (hms : row.methods = ms) :
    Edit.Ends (fun s => s.Coherent ∧ s.Lists ms) (publish d row) (fun _ => Coherent)
      Coherent := by
  intro s hs
  rw [← hms] at hs
  rw [perform_publish]
  cases s.typeNames.contains row.fullName with
  | true => exact hs.1
  | false =>
    have hc := hs.1.put hrow hs.2
    exact ⟨hc.labelled, hc.lists⟩

theorem ends_write (d : TypeDecl) :
    Edit.Ends Coherent d.write (fun _ => Coherent) Coherent := by
  have along {α : Type} {ts : List Table} {e : Edit α} (he : e.Moves ts) (ht : .typeDef ∉ ts) :
      Edit.Ends Coherent e (fun _ => Coherent) Coherent :=
    .of_along he (fun _ _ h hm => h.moves hm ht) fun _ => id
  have along' {α : Type} {ts : List Table} {e : Edit α} {ms : List MethodDef} (he : e.Moves ts)
      (ht : .typeDef ∉ ts) : Edit.Ends (fun s => s.Coherent ∧ s.Lists ms) e
        (fun _ s => s.Coherent ∧ s.Lists ms) Coherent :=
    .of_along he (fun _ _ h hm => ⟨h.1.moves hm ht, h.2.moves hm⟩) fun _ h => h.1
  refine Edit.Ends.bind (Q := fun _ => Coherent) (fun s hs => hs.reserve .typeDef) fun h => ?_
  refine Edit.Ends.lift_bind (fun _ => id) fun h' e => ?_
  obtain ⟨rfl, _⟩ := Handle.ofToken_token_eq_ok_iff.mp e
  refine (along d.moves_writeBase (by decide)).bind fun base => ?_
  refine (along (.mapM (fun a => AttributeDecl.moves_write a _) _) (by decide)).bind fun _ => ?_
  refine (ends_writeMethods _ _).bind fun ms => ?_
  refine (along' (.mapM (AccessorDecl.moves_writeProperty _ _) _) (by decide)).bind fun _ => ?_
  refine (along' (.mapM (AccessorDecl.moves_writeEvent _ _) _) (by decide)).bind fun _ => ?_
  refine (along' (.mapM (FieldDecl.moves_write _) _) (by decide)).bind fun _ => ?_
  exact ends_publish rfl rfl

end TypeDecl

theorem Store.Coherent.define {s : Store} (h : s.Coherent) (d : TypeDecl) :
    (s.define d).2.Coherent := by
  have hw := d.ends_write s h
  change (d.write.perform s).2.Coherent
  rcases hes : d.write.perform s with ⟨x, s'⟩
  rw [hes] at hw
  cases x with
  | error x => exact hw
  | ok a => exact hw

/-! ## Reading -/

/-- By rising token. -/
def Ascending (ds : List TypeDef) : Prop := ds.Pairwise fun a b => a.token.value < b.token.value

namespace View

theorem ascending_definitions (v : View) : Ascending v.definitions := by
  have hkeys : v.store.typeDefs.byNumber.keys.Pairwise fun a b => compare a b = .lt :=
    Std.TreeMap.ordered_keys
  refine List.pairwise_map.mpr (hkeys.imp fun {a b} h => ?_)
  have hlt : a.val < b.val := Nat.compare_eq_lt.mp h
  rw [UInt32.lt_iff_toNat_lt, Token.toNat_value, Token.toNat_value]
  exact Nat.add_lt_add_left hlt _

theorem mem_definitions_iff {s : Store} {d : TypeDef} :
    d ∈ s.view.definitions ↔ ∃ row : TypeRow, s.view.row d = .ok row := by
  constructor
  · intro h
    obtain ⟨n, hn, rfl⟩ := List.mem_map.mp h
    rw [Std.TreeMap.mem_keys, Std.TreeMap.mem_iff_isSome_getElem?] at hn
    obtain ⟨row, hrow⟩ := Option.isSome_iff_exists.mp hn
    exact ⟨row, row_eq_ok_iff.mpr ⟨List.not_mem_nil, hrow⟩⟩
  · rintro ⟨row, hrow⟩
    exact mem_definitions_of_row hrow

/-- Rows that were written can be read together. -/
theorem exists_mapM_row {s : Store} {t : Table} {xs : List (Handle t)}
    (h : ∀ x ∈ xs, (s.row? x).isSome) : ∃ rows, xs.mapM (s.view.row (t := t)) = .ok rows := by
  refine Except.exists_mapM_eq_ok fun x hx => ?_
  obtain ⟨row, hrow⟩ := Option.isSome_iff_exists.mp (h x hx)
  exact ⟨row, row_eq_ok_iff.mpr ⟨List.not_mem_nil, hrow⟩⟩

/-- A row carries the token it is found under. -/
def Labelled (v : View) : Prop :=
  ∀ ⦃t : Table⦄ (h : Handle t) (row : Row t), v.row h = .ok row → rowToken row = h.token

variable {v : View}

theorem Labelled.type (hv : v.Labelled) {d : TypeDef} {row : TypeRow} (h : v.row d = .ok row) :
    row.handle = d :=
  congrArg (fun k : Token => (⟨k.row⟩ : TypeDef)) (hv d row h)

theorem Labelled.method (hv : v.Labelled) {x : MethodDef} {m : MethodRow} (h : v.row x = .ok m) :
    m.handle = x :=
  congrArg (fun k : Token => (⟨k.row⟩ : MethodDef)) (hv x m h)

end View

theorem Store.Coherent.withheld {s : Store} (h : s.Coherent) (hidden : List Token) :
    View.Labelled { store := s, hidden } :=
  fun _ x row hrow => h.labelled x row (View.row_eq_ok_iff.mp hrow).2

theorem Store.Coherent.view {s : Store} (h : s.Coherent) : s.view.Labelled := h.withheld []

/-- The methods of a type can be read. -/
theorem Store.Coherent.exists_methodRows {s : Store} (h : s.Coherent) {d : TypeDef} {row : TypeRow}
    (hrow : s.view.row d = .ok row) : ∃ methods, s.view.methodRows row.methods = .ok methods :=
  View.exists_mapM_row (h.lists d row (View.row_eq_ok_iff.mp hrow).2).1

/-! ## Sessions -/

/-- The declaration that is made, if it is one. -/
def Action.declaration? : Action → Option TypeDecl
  | .define d => some d
  | _ => none

namespace Session

/-- Only a declaration writes other rows than those of references and instantiations. -/
theorem moves_step (cfg : Config) (σ : Session) (a : Action) (ha : a.declaration? = none) :
    σ.store.Moves [.typeRef, .typeSpec] (σ.step cfg a).store := by
  cases a with
  | addTypeRef space name => exact (σ.store.moves_addTypeRef space name).mono (by decide)
  | addTypeSpec signature => exact (σ.store.moves_addTypeSpec signature).mono (by decide)
  | define d => cases ha
  | ask q => exact .refl
  | forget => exact .refl

theorem coherent_step {σ : Session} (cfg : Config) (h : σ.store.Coherent) (a : Action) :
    (σ.step cfg a).store.Coherent := by
  cases a with
  | define d => exact h.define d
  | _ => exact h.moves (moves_step cfg σ _ rfl) (by decide)

theorem coherent_run (cfg : Config) (history : List Action) :
    (run cfg history).store.Coherent :=
  List.foldlRecOn (motive := fun σ : Session => σ.store.Coherent) history (step cfg)
    Store.coherent_empty fun _ h a _ => coherent_step cfg h a

end Session
end MetadataProjection
