import Mathlib.Data.List.Nodup
import Mathlib.Data.List.Perm.Subperm
import MetadataProjection.Proofs.Outcome
import MetadataProjection.Store.Define

/-!
# MetadataProjection.Proofs.Growth

A store only grows. Writing a declaration, whether it succeeds or fails, touches no row but those
whose numbers it was handed out, and no name that was given.

* `Store.Grows`: what every step on a store keeps. `grows_addTypeRef`, `grows_addTypeSpec` and
  `grows_define` say so of the steps that make up a store.
* `Edit.Along`: steps from a store to one that is so related to it, closed under composition.
* `Edit.Grows`, `Edit.Fills`: steps that grow a store, and steps that may also write a row whose
  number was handed out before they began.
* `Store.Numbered`, `Store.InRange`: every row has a number that was handed out; no counter has run
  past the row numbers, which can be decided. As long as none has, a store that grows keeps all its
  rows (`Grows.partOf`).
-/

namespace MetadataProjection
namespace Store

/-- The handle got its number between `s` and `s'`. -/
def Issued (s s' : Store) {t : Table} (h : Handle t) : Prop :=
  ∃ k, (s.rows t).issued < k ∧ k ≤ (s'.rows t).issued ∧ h.row = .ofNat k

/-- From `s` to `s'` numbers were handed out, rows of these numbers written, and names given. -/
structure Grows (s s' : Store) : Prop where
  issued : ∀ t, (s.rows t).issued ≤ (s'.rows t).issued
  rows : ∀ {t : Table} (h : Handle t), ¬ s.Issued s' h → s'.row? h = s.row? h
  names : ∀ (key : String) (d : TypeDef), s.typeNames[key]? = some d → s'.typeNames[key]? = some d

theorem Grows.refl (s : Store) : s.Grows s := ⟨fun _ => Nat.le_refl _, fun _ _ => rfl, fun _ _ h => h⟩

theorem Grows.trans {s₁ s₂ s₃ : Store} (h₁ : s₁.Grows s₂) (h₂ : s₂.Grows s₃) : s₁.Grows s₃ := by
  refine ⟨fun t => Nat.le_trans (h₁.issued t) (h₂.issued t), fun {t} h hn => ?_,
    fun key d hd => h₂.names key d (h₁.names key d hd)⟩
  have le₁ := h₁.issued t
  have le₂ := h₂.issued t
  rw [h₂.rows h fun ⟨k, hk, hk', e⟩ => hn ⟨k, by omega, by omega, e⟩]
  exact h₁.rows h fun ⟨k, hk, hk', e⟩ => hn ⟨k, by omega, by omega, e⟩

variable {s s' : Store} {t : Table}

theorem Issued.mono {s'' : Store} {h : Handle t} (hi : s.Issued s' h) (hg : s'.Grows s'') :
    s.Issued s'' h := by
  obtain ⟨k, hk, hk', e⟩ := hi
  exact ⟨k, hk, Nat.le_trans hk' (hg.issued t), e⟩

theorem issued_reserve (s : Store) (t u : Table) :
    ((s.reserve t).2.rows u).issued = (s.rows u).issued + if t = u then 1 else 0 := by
  by_cases h : t = u
  · subst h
    simp [reserve]
  · simp [reserve, rows_setRows_of_ne s _ h, h]

theorem row?_reserve (s : Store) (t : Table) {u : Table} (h : Handle u) :
    (s.reserve t).2.row? h = s.row? h := by
  by_cases e : t = u
  · subst e
    simp [reserve, row?, Rows.get?]
  · simp [reserve, row?, rows_setRows_of_ne s _ e]

theorem reserve_issued (s : Store) (t : Table) : s.Issued (s.reserve t).2 (s.reserve t).1 := by
  have h := issued_reserve s t t
  rw [if_pos rfl] at h
  exact ⟨(s.rows t).issued + 1, by omega, by omega, rfl⟩

theorem grows_reserve (s : Store) (t : Table) : s.Grows (s.reserve t).2 := by
  refine ⟨fun u => ?_, fun h _ => row?_reserve s t h, fun key d hd => ?_⟩
  · rw [issued_reserve]; omega
  · simpa [reserve] using hd

theorem issued_put (s : Store) (h : Handle t) (row : Row t) (u : Table) :
    ((s.put h row).rows u).issued = (s.rows u).issued := by
  by_cases e : t = u
  · subst e
    simp [put, Rows.put]
  · simp [put, rows_setRows_of_ne s _ e]

theorem row?_put_self (s : Store) (h : Handle t) (row : Row t) :
    (s.put h row).row? h = some row := by
  simp [put, row?, Rows.get?_put]

theorem row?_put_of_ne (s : Store) {h h' : Handle t} (row : Row t) (e : h ≠ h') :
    (s.put h row).row? h' = s.row? h' := by
  have hr : h.row ≠ h'.row := fun hr => e (by cases h; cases h'; cases hr; rfl)
  simp [put, row?, Rows.get?_put, hr]

theorem row?_put_of_table_ne (s : Store) {u : Table} (h : Handle t) (row : Row t) (h' : Handle u)
    (e : t ≠ u) : (s.put h row).row? h' = s.row? h' := by
  simp [put, row?, rows_setRows_of_ne s _ e]

/-- A row is the one just written, or one of before. -/
theorem row?_put_cases {k : Handle t} {row : Row t} {t' : Table} {h : Handle t'} {r : Row t'}
    (hr : (s.put k row).row? h = some r) :
    (⟨t', h, r⟩ : (t : Table) × Handle t × Row t) = ⟨t, k, row⟩ ∨ s.row? h = some r := by
  by_cases e : t = t'
  · subst e
    by_cases e : k = h
    · subst e
      rw [row?_put_self] at hr
      cases hr
      exact .inl rfl
    · rw [row?_put_of_ne s row e] at hr
      exact .inr hr
  · rw [row?_put_of_table_ne s k row h e] at hr
    exact .inr hr

theorem Grows.put {h : Handle t} (hg : s.Grows s') (hi : s.Issued s' h) (row : Row t) :
    s.Grows (s'.put h row) := by
  have issued : ∀ {u : Table} {h' : Handle u}, s.Issued s' h' → s.Issued (s'.put h row) h' := by
    intro u h' ⟨k, hk, hk', e⟩
    exact ⟨k, hk, by rw [issued_put]; exact hk', e⟩
  refine ⟨fun u => ?_, fun {u} h' hn => ?_, fun key d hd => ?_⟩
  · rw [issued_put]; exact hg.issued u
  · rw [← hg.rows h' fun hi' => hn (issued hi')]
    by_cases e : t = u
    · subst e
      refine row?_put_of_ne s' row fun e => hn (issued ?_)
      rw [← e]; exact hi
    · exact row?_put_of_table_ne s' h row h' e
  · simpa [Store.put] using hg.names key d hd

theorem Grows.name (hg : s.Grows s') {key : String} {d : TypeDef}
    (hfree : s'.typeNames.contains key = false) :
    s.Grows { s' with typeNames := s'.typeNames.insert key d } := by
  refine ⟨hg.issued, fun h hn => hg.rows h hn, fun key' d' hd => ?_⟩
  have hd' := hg.names key' d' hd
  have hne : key ≠ key' := by
    rintro rfl
    rw [Std.TreeMap.contains_eq_isSome_getElem?, hd'] at hfree
    cases hfree
  simpa [Std.TreeMap.getElem?_insert, hne] using hd'

/-- The row of a type is written, and its full name leads to it. -/
def published (s : Store) (h : TypeDef) (row : TypeRow) : Store :=
  { s.put h (t := .typeDef) row with
    typeNames := (s.put h (t := .typeDef) row).typeNames.insert row.fullName h }

theorem grows_addTypeRef (s : Store) (space name : String) :
    s.Grows (s.addTypeRef space name).2 := by
  cases h : s.refNames[qualifiedName space name]? with
  | some x =>
    have e : s.addTypeRef space name = (x, s) := by simp only [addTypeRef, h]
    rw [e]
    exact .refl s
  | none =>
    have hg := (grows_reserve s .typeRef).put (reserve_issued s .typeRef)
      { token := (s.reserve .typeRef).1.token, space, name }
    simp only [addTypeRef, h]
    exact ⟨hg.issued, hg.rows, hg.names⟩

theorem grows_addTypeSpec (s : Store) (signature : Signature) :
    s.Grows (s.addTypeSpec signature).2 :=
  (grows_reserve s .typeSpec).put (reserve_issued s .typeSpec) _

end Store

/-! ## Steps that may fail -/

theorem Handle.eq_of_ofToken {t : Table} {h h' : Handle t}
    (e : Handle.ofToken t h.token = .ok h') : h' = h := by
  unfold Handle.ofToken at e
  split at e
  · next h'' he =>
    cases e
    exact (Handle.token_inj.mp (Handle.ofToken?_eq_some_iff.mp he).1).symm
  · cases e

namespace Edit

variable {α β : Type}

/-- The answer of a step, and the store after it. -/
def perform (e : Edit α) (s : Store) : Except Error α × Store := e.run.run s

theorem perform_bind (e : Edit α) (f : α → Edit β) (s : Store) :
    (e >>= f).perform s =
      match e.perform s with
      | (.ok a, s') => (f a).perform s'
      | (.error x, s') => (.error x, s') := by
  change (ExceptT.bind e f).run.run s = _
  simp only [perform, ExceptT.bind, ExceptT.run, StateT.run, ExceptT.mk, bind, StateT.bind]
  rcases e s with ⟨x, s'⟩
  cases x <;> rfl

@[simp] theorem perform_lift (x : Except Error α) (s : Store) :
    (liftM x : Edit α).perform s = (x, s) := by
  cases x <;> rfl

/-- From every store, the step leads to a store that is so related to it. -/
def Along (R : Store → Store → Prop) (e : Edit α) : Prop := ∀ s : Store, R s (e.perform s).2

namespace Along

variable {R : Store → Store → Prop}

theorem pure (refl : ∀ s, R s s) (a : α) : Along R (Pure.pure a) := fun s => refl s

theorem lift (refl : ∀ s, R s s) (x : Except Error α) : Along R (liftM x) := by
  intro s
  rw [perform_lift]
  exact refl s

theorem bind (trans : ∀ s₁ s₂ s₃, R s₁ s₂ → R s₂ s₃ → R s₁ s₃) {e : Edit α} {f : α → Edit β}
    (he : Along R e) (hf : ∀ a, Along R (f a)) : Along R (e >>= f) := by
  intro s
  have h := he s
  rw [perform_bind]
  rcases hes : e.perform s with ⟨a, s'⟩
  rw [hes] at h
  cases a with
  | error x => exact h
  | ok a => exact trans _ _ _ h (hf a s')

theorem mapM (refl : ∀ s, R s s) (trans : ∀ s₁ s₂ s₃, R s₁ s₂ → R s₂ s₃ → R s₁ s₃)
    {f : α → Edit β} (hf : ∀ a, Along R (f a)) : ∀ as : List α, Along R (as.mapM f) := by
  intro as
  induction as with
  | nil => exact pure refl []
  | cons a as ih =>
    rw [List.mapM_cons]
    exact bind trans (hf a) fun b => bind trans ih fun bs => pure refl (b :: bs)

end Along

/-- From every store, the step only adds to it. -/
def Grows (e : Edit α) : Prop := ∀ s : Store, s.Grows (e.perform s).2

/-- From every store that has grown from `s₁`, the step leads to one that has grown from `s`. -/
def Fills (s s₁ : Store) (e : Edit α) : Prop :=
  ∀ s₂ : Store, s₁.Grows s₂ → s.Grows (e.perform s₂).2

namespace Grows

theorem pure (a : α) : Grows (Pure.pure a) := Along.pure Store.Grows.refl a

theorem lift (x : Except Error α) : Grows (liftM x) := Along.lift Store.Grows.refl x

theorem bind {e : Edit α} {f : α → Edit β} (he : e.Grows) (hf : ∀ a, (f a).Grows) :
    (e >>= f).Grows :=
  Along.bind (fun _ _ _ => .trans) he hf

theorem mapM {f : α → Edit β} (hf : ∀ a, (f a).Grows) (as : List α) : (as.mapM f).Grows :=
  Along.mapM Store.Grows.refl (fun _ _ _ => .trans) hf as

end Grows

namespace Fills

variable {s s₁ : Store}

theorem bind {e : Edit α} {f : α → Edit β} (hs : s.Grows s₁) (he : e.Grows)
    (hf : ∀ a, Fills s s₁ (f a)) : Fills s s₁ (e >>= f) := by
  intro s₂ h₂
  have h := he s₂
  rw [perform_bind]
  rcases hes : e.perform s₂ with ⟨a, s₃⟩
  rw [hes] at h
  cases a with
  | error x => exact (hs.trans h₂).trans h
  | ok a => exact hf a s₃ (h₂.trans h)

theorem lift_bind {x : Except Error α} {f : α → Edit β} (hs : s.Grows s₁)
    (hf : ∀ a, x = .ok a → Fills s s₁ (f a)) : Fills s s₁ (liftM x >>= f) := by
  intro s₂ h₂
  rw [perform_bind, perform_lift]
  cases x with
  | error x => exact hs.trans h₂
  | ok a => exact hf a rfl s₂ h₂

theorem put {t : Table} {h : Handle t} (hs : s.Grows s₁) (hi : s.Issued s₁ h) (row : Row t) :
    Fills s s₁ (Edit.put h row) :=
  fun _ h₂ => (hs.trans h₂).put (hi.mono h₂) row

theorem bind_pure {e : Edit α} (he : Fills s s₁ e) (f : α → β) :
    Fills s s₁ (e >>= fun a => Pure.pure (f a)) := by
  intro s₂ h₂
  have h := he s₂ h₂
  rw [perform_bind]
  rcases hes : e.perform s₂ with ⟨a, s₃⟩
  rw [hes] at h
  cases a with
  | error x => exact h
  | ok a => exact h

theorem record {t : Table} {h : Handle t} (hs : s.Grows s₁) (hi : s.Issued s₁ h) (row : Row t) :
    Fills s s₁ (Edit.record h row) := by
  refine lift_bind hs fun h' e => ?_
  rw [Handle.eq_of_ofToken e]
  exact (put hs hi row).bind_pure _

end Fills

theorem grows_reserve_bind {t : Table} {f : Handle t → Edit α}
    (hf : ∀ (s s₁ : Store) (h : Handle t), s.Grows s₁ → s.Issued s₁ h → Fills s s₁ (f h)) :
    (Edit.reserve t >>= f).Grows := by
  intro s
  have hr : (Edit.reserve t).perform s = (.ok (s.reserve t).1, (s.reserve t).2) := rfl
  rw [perform_bind, hr]
  exact hf s _ _ (s.grows_reserve t) (s.reserve_issued t) _ (.refl _)

end Edit

/-! ## Declarations -/

theorem AttributeDecl.grows_write (parent : Token) (d : AttributeDecl) : (d.write parent).Grows :=
  Edit.grows_reserve_bind fun _ _ _ hs hi => (Edit.Fills.put hs hi _).bind_pure _

theorem ParamRow.grows_write (name : String) (flags sequence : UInt32) :
    (ParamRow.write name flags sequence).Grows :=
  Edit.grows_reserve_bind fun _ _ _ hs hi => (Edit.Fills.put hs hi _).bind_pure _

namespace MethodDecl

theorem grows_writeReturn (name : Option String) : (writeReturn name).Grows := by
  cases name with
  | none => exact .pure []
  | some name => exact (ParamRow.grows_write name 0 0).bind fun h => .pure [h]

theorem grows_writeParams (ds : List ParamDecl) :
    ∀ sequence : UInt32, (writeParams sequence ds).Grows := by
  induction ds with
  | nil => intro sequence; exact .pure []
  | cons d ds ih =>
    intro sequence
    exact (ParamRow.grows_write d.name d.flags sequence).bind fun h =>
      (ih (sequence + 1)).bind fun hs => .pure (h :: hs)

theorem grows_write (parent : TypeDef) (d : MethodDecl) : (d.write parent).Grows := by
  refine Edit.grows_reserve_bind fun s s₁ h hs hi => ?_
  refine Edit.Fills.bind hs (grows_writeReturn d.returnName) fun returnRow => ?_
  refine Edit.Fills.bind hs (grows_writeParams d.params 1) fun paramRows => ?_
  refine Edit.Fills.bind hs (Edit.Grows.mapM (AttributeDecl.grows_write h.token) _) fun _ => ?_
  exact Edit.Fills.record hs hi _

end MethodDecl

theorem AccessorDecl.grows_writeProperty (owner : String) (methods : List (String × MethodDef))
    (d : AccessorDecl) : (d.writeProperty owner methods).Grows :=
  (Edit.Grows.lift _).bind fun _ =>
    Edit.grows_reserve_bind fun _ _ _ hs hi => Edit.Fills.record hs hi _

theorem AccessorDecl.grows_writeEvent (owner : String) (methods : List (String × MethodDef))
    (d : AccessorDecl) : (d.writeEvent owner methods).Grows :=
  (Edit.Grows.lift _).bind fun _ =>
    Edit.grows_reserve_bind fun _ _ _ hs hi => Edit.Fills.record hs hi _

theorem FieldDecl.grows_write (parent : TypeDef) (d : FieldDecl) : (d.write parent).Grows :=
  Edit.grows_reserve_bind fun _ _ _ hs hi => Edit.Fills.record hs hi _

namespace TypeDecl

theorem grows_writeBase (d : TypeDecl) : d.writeBase.Grows := by
  unfold writeBase
  split
  · exact .pure _
  · next name _ _ =>
    intro s
    exact s.grows_addTypeRef Platform.systemNamespace name
  · exact .pure _

/-- A name that is taken is noticed before anything is written. -/
theorem perform_publish (h : TypeDef) (row : TypeRow) (s : Store) :
    (publish h row).perform s =
      if s.typeNames.contains row.fullName then
        (.error (.invalidMetadata (.definedTwice row.fullName)), s)
      else (.ok h, s.published h row) := by
  unfold publish
  rw [Edit.perform_bind]
  change Edit.perform (if s.typeNames.contains row.fullName then _ else _) s = _
  split <;> rfl

theorem fills_publish {s s₁ : Store} {h : TypeDef} (hs : s.Grows s₁) (hi : s.Issued s₁ h)
    (row : TypeRow) : Edit.Fills s s₁ (publish h row) := by
  intro s₂ h₂
  have hg : s.Grows s₂ := hs.trans h₂
  rw [perform_publish]
  cases hc : s₂.typeNames.contains row.fullName with
  | true => exact hg
  | false => exact (hg.put (hi.mono h₂) row).name hc

theorem grows_write (d : TypeDecl) : d.write.Grows := by
  refine Edit.grows_reserve_bind fun s s₁ h hs hi => ?_
  refine Edit.Fills.lift_bind hs fun h' e => ?_
  rw [Handle.eq_of_ofToken e]
  refine Edit.Fills.bind hs d.grows_writeBase fun base => ?_
  refine Edit.Fills.bind hs (Edit.Grows.mapM (AttributeDecl.grows_write h.token) _) fun _ => ?_
  refine Edit.Fills.bind hs (Edit.Grows.mapM (MethodDecl.grows_write h) _) fun methods => ?_
  refine Edit.Fills.bind hs (Edit.Grows.mapM (AccessorDecl.grows_writeProperty _ _) _) fun _ => ?_
  refine Edit.Fills.bind hs (Edit.Grows.mapM (AccessorDecl.grows_writeEvent _ _) _) fun _ => ?_
  refine Edit.Fills.bind hs (Edit.Grows.mapM (FieldDecl.grows_write h) _) fun _ => ?_
  exact fills_publish hs hi _

end TypeDecl

theorem Rows.nodup_keys {ρ : Type} (r : Rows ρ) : r.byNumber.keys.Nodup := by
  have hordered : r.byNumber.keys.Pairwise fun a b => compare a b = .lt := Std.TreeMap.ordered_keys
  exact hordered.imp fun hlt e => Nat.ne_of_lt (Nat.compare_eq_lt.mp hlt) (congrArg Fin.val e)

/-- Different numbers that have rows are at most as many as there are rows. -/
theorem Rows.length_le_size {ρ : Type} (r : Rows ρ) {ns : List RowNumber} (hn : ns.Nodup)
    (h : ∀ n ∈ ns, (r.get? n).isSome) : ns.length ≤ r.byNumber.size := by
  have hsub : ns ⊆ r.byNumber.keys := fun n hmem => by
    rw [Std.TreeMap.mem_keys, Std.TreeMap.mem_iff_isSome_getElem?]
    exact h n hmem
  rw [← Std.TreeMap.length_keys]
  exact (List.Nodup.subperm hn hsub).length_le

namespace Store

theorem grows_define (s : Store) (d : TypeDecl) : s.Grows (s.define d).2 := d.grows_write s

/-! ## What a growing store keeps -/

/-- Every row has a number that was handed out. -/
def Numbered (s : Store) : Prop :=
  ∀ {t : Table} (h : Handle t) (row : Row t), s.row? h = some row → h.row.val ≤ (s.rows t).issued

/-- No counter has run past the row numbers. -/
def InRange (s : Store) : Prop := ∀ t, (s.rows t).issued < 16777216

/-- All tables, so that it can be decided whether a store is in range. -/
def tables : List Table :=
  [.typeRef, .typeDef, .field, .methodDef, .param, .customAttribute, .event, .property, .typeSpec]

theorem mem_tables (t : Table) : t ∈ tables := by cases t <;> decide

instance (s : Store) : Decidable s.InRange :=
  decidable_of_iff (∀ t ∈ tables, (s.rows t).issued < 16777216)
    ⟨fun h t => h t (mem_tables t), fun h t _ => h t⟩

/-- The rows and the names of `s` are also in `s'`. -/
structure PartOf (s s' : Store) : Prop where
  rows : ∀ {t : Table} (h : Handle t) (row : Row t), s.row? h = some row → s'.row? h = some row
  names : ∀ (key : String) (d : TypeDef), s.typeNames[key]? = some d → s'.typeNames[key]? = some d

theorem numbered_empty : Numbered .empty := by
  intro t h row hr
  cases t <;> simp [row?, rows, empty, Rows.get?] at hr

variable {s s' : Store}

theorem Grows.inRange (hg : s.Grows s') (hr : s'.InRange) : s.InRange :=
  fun t => Nat.lt_of_le_of_lt (hg.issued t) (hr t)

theorem Issued.lt {t : Table} {h : Handle t} (hi : s.Issued s' h) (hr : s'.InRange) :
    (s.rows t).issued < h.row.val ∧ h.row.val ≤ (s'.rows t).issued := by
  obtain ⟨k, hk, hk', e⟩ := hi
  have hlt := hr t
  rw [e, RowNumber.val_ofNat, Nat.mod_eq_of_lt (by omega)]
  exact ⟨hk, hk'⟩

/-- A number that is handed out has no row yet, so no row is lost. -/
theorem Grows.partOf (hg : s.Grows s') (hn : s.Numbered) (hr : s'.InRange) : s.PartOf s' := by
  refine ⟨fun {t} h row hrow => ?_, hg.names⟩
  rw [hg.rows h, hrow]
  intro hi
  have hle := hn h row hrow
  have hlt := (hi.lt hr).1
  omega

theorem Grows.numbered (hg : s.Grows s') (hn : s.Numbered) (hr : s'.InRange) : s'.Numbered := by
  intro t h row hrow
  by_cases hi : s.Issued s' h
  · exact (hi.lt hr).2
  · rw [hg.rows h hi] at hrow
    exact Nat.le_trans (hn h row hrow) (hg.issued t)

end Store
end MetadataProjection
