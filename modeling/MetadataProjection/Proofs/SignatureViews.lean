import MetadataProjection.Parameters
import MetadataProjection.Proofs.Records

/-!
# MetadataProjection.Proofs.SignatureViews

How the parameters of a declared method come back when its signature is viewed.

* `View.signatureOf_eq`: the view of any method whose parameter rows are all there.
* `MethodDecl.viewedRows`, `SignatureView.Shows`: which rows the view of a declared method pairs
  with the declared slots. `MethodDecl.Stands.signatureOf`: so it is with every method that stands
  as declared.
* `MethodDecl.Shifts`, `SignatureView.Shows.asDeclared_iff`: the view is as declared unless a method
  that returns nothing has a name for what it returns.
* `Store.MethodsFrom`: the invariant. Every row of a method, also one that a declaration that failed
  has left, stands as some declaration has it. `Session.signature_run`: so the signatures of all of
  them can be viewed.
-/

namespace MetadataProjection

/-! ## Views of arbitrary methods -/

namespace MethodRow

def returnAmong (m : MethodRow) (rs : List ParamRow) : Option ParamRow :=
  if m.signature.returns.type.isVoid then none else rs.head?.filter (·.isReturn)

def paramsAmong (m : MethodRow) (rs : List ParamRow) : List ParamRow :=
  if (m.returnAmong rs).isSome then rs.tail else rs

end MethodRow

namespace View

variable {v : View} {m : MethodRow} {hs : List Param} {rs : List ParamRow}

theorem pairParams_eq (h : List.Forall₂ (fun x r => v.row x = .ok r) hs rs) : ∀ slots : List Slot,
    v.pairParams m slots hs =
      if slots.length ≤ rs.length then .ok (List.zipWith .mk rs slots)
      else .error (.invalidMetadata (.missingParamRow m.name m.signature.params.length)) := by
  induction h with
  | nil =>
    intro slots
    cases slots <;> rfl
  | @cons x r hs rs hx _ ih =>
    intro slots
    cases slots with
    | nil => rfl
    | cons slot slots =>
      simp only [pairParams, hx, ih, Except.ok_bind, List.length_cons, Nat.add_le_add_iff_right]
      split <;> rfl

theorem returnRow?_eq (h : List.Forall₂ (fun x r => v.row x = .ok r) m.params rs) :
    v.returnRow? m = .ok (m.returnAmong rs) := by
  unfold returnRow? MethodRow.returnAmong
  split
  · rfl
  · generalize m.params = hs at h
    cases h with
    | nil => rfl
    | @cons x r hs rs hx _ =>
      simp only [hx, Except.ok_bind, List.head?_cons, Option.filter_some]
      rfl

theorem signatureOf_eq (h : List.Forall₂ (fun x r => v.row x = .ok r) m.params rs) :
    v.signatureOf m =
      if m.signature.params.length ≤ (m.paramsAmong rs).length then
        .ok { method := m, params := List.zipWith .mk (m.paramsAmong rs) m.signature.params,
              returnRow := m.returnAmong rs }
      else .error (.invalidMetadata (.missingParamRow m.name m.signature.params.length)) := by
  have hrest : List.Forall₂ (fun x r => v.row x = .ok r)
      (if (m.returnAmong rs).isSome then m.params.tail else m.params) (m.paramsAmong rs) := by
    unfold MethodRow.paramsAmong
    split
    · generalize m.params = hs at h
      cases h with
      | nil => exact .nil
      | cons _ htail => exact htail
    · exact h
  unfold signatureOf
  rw [returnRow?_eq h, Except.ok_bind]
  dsimp only
  rw [pairParams_eq hrest]
  split <;> rfl

end View

/-! ## Views of declared methods -/

def MethodParam.decl (p : MethodParam) : ParamDecl := ⟨p.row.name, p.row.flags, p.slot⟩

def MethodParam.content (p : MethodParam) : MethodParam := { p with row := p.row.content }

/-- The parameters are the declared ones, numbered from 1 on, and none is the return value. -/
structure SignatureView.AsDeclared (v : SignatureView) (d : MethodDecl) : Prop where
  params : v.params.map (·.decl) = d.params
  sequences : v.params.map (·.row.sequence.toNat) = List.range' 1 d.params.length
  noReturn : ∀ p ∈ v.params, p.row.isReturn = false

namespace MethodDecl

variable {d : MethodDecl}

/-- The rows that the view pairs with the declared slots, as far as there are slots. A method that
returns nothing is taken to have no return row, even where it has one. -/
def viewedRows (d : MethodDecl) : List ParamRow :=
  if d.returns.isVoid then d.paramRows else rowsFrom 1 d.params

def slots (d : MethodDecl) : List Slot := d.params.map (·.slot)

/-- The method returns nothing, has a name for what it returns, and has parameters. -/
def Shifts (d : MethodDecl) : Prop :=
  d.returns.isVoid = true ∧ d.returnName.isSome = true ∧ d.params ≠ []

theorem map_content_rowsFrom (ds : List ParamDecl) : ∀ sequence : UInt32,
    (rowsFrom sequence ds).map (·.content) = rowsFrom sequence ds := by
  induction ds with
  | nil => intro sequence; rfl
  | cons d ds ih => intro sequence; rw [rowsFrom, List.map_cons, ih]; rfl

theorem map_content_paramRows (d : MethodDecl) : d.paramRows.map (·.content) = d.paramRows := by
  rw [paramRows, List.map_append, map_content_rowsFrom]
  cases d.returnName <;> rfl

theorem map_decl_rowsFrom (ds : List ParamDecl) : ∀ sequence : UInt32,
    (List.zipWith .mk (rowsFrom sequence ds) (ds.map (·.slot))).map MethodParam.decl = ds := by
  induction ds with
  | nil => intro sequence; rfl
  | cons d ds ih =>
    intro sequence
    rw [rowsFrom, List.map_cons, List.zipWith_cons_cons, List.map_cons, ih]
    rfl

theorem map_row_rowsFrom (ds : List ParamDecl) : ∀ sequence : UInt32,
    (List.zipWith .mk (rowsFrom sequence ds) (ds.map (·.slot))).map MethodParam.row =
      rowsFrom sequence ds := by
  induction ds with
  | nil => intro sequence; rfl
  | cons d ds ih =>
    intro sequence
    rw [rowsFrom, List.map_cons, List.zipWith_cons_cons, List.map_cons, ih]

theorem zipWith_viewedRows (h : ¬ d.Shifts) :
    List.zipWith MethodParam.mk d.viewedRows d.slots =
      List.zipWith MethodParam.mk (rowsFrom 1 d.params) d.slots := by
  unfold viewedRows
  split
  · next hvoid =>
    by_cases hparams : d.params = []
    · rw [slots, hparams, List.map_nil, List.zipWith_nil_right, List.zipWith_nil_right]
    · have hname : d.returnName = none := by
        rw [← Option.not_isSome_iff_eq_none]
        exact fun hsome => h ⟨hvoid, hsome, hparams⟩
      rw [paramRows, hname]
      rfl
  · rfl

end MethodDecl

namespace SignatureView

/-- What the view of a declared method shows: the viewed rows with the declared slots, and the
return row where the method returns something that has a name. -/
structure Shows (v : SignatureView) (d : MethodDecl) : Prop where
  params : v.params.map (·.content) = List.zipWith .mk d.viewedRows d.slots
  returnRow : v.returnRow.map (·.content) =
    if d.returns.isVoid then none else d.returnName.map MethodDecl.returnRow

variable {v : SignatureView} {d : MethodDecl}

theorem Shows.asDeclared (h : v.Shows d) (hd : ¬ d.Shifts)
    (hlength : d.params.length ≤ 16777216) : v.AsDeclared d := by
  have hparams := h.params
  rw [MethodDecl.zipWith_viewedRows hd] at hparams
  have hdecl : v.params.map (·.decl) = d.params := by
    have hmap := congrArg (List.map (·.decl)) hparams
    rw [MethodDecl.slots, MethodDecl.map_decl_rowsFrom, List.map_map] at hmap
    exact hmap
  have hsequences : v.params.map (·.row.sequence.toNat) = List.range' 1 d.params.length := by
    have hmap := congrArg (List.map (·.sequence.toNat)) (congrArg (List.map (·.row)) hparams)
    rw [MethodDecl.slots, MethodDecl.map_row_rowsFrom, MethodDecl.map_sequence_rowsFrom,
      List.map_map, List.map_map] at hmap
    · exact hmap
    · rw [UInt32.toNat_one]
      omega
  refine ⟨hdecl, hsequences, fun p hp => ?_⟩
  have hmem : p.row.sequence.toNat ∈ List.range' 1 d.params.length :=
    hsequences ▸ List.mem_map_of_mem hp
  have hpos := (List.mem_range'_1.mp hmem).1
  refine beq_eq_false_iff_ne.mpr fun e => ?_
  rw [e] at hpos
  exact absurd hpos (by decide)

theorem Shows.asDeclared_iff (h : v.Shows d) (hlength : d.params.length ≤ 16777216) :
    v.AsDeclared d ↔ ¬ d.Shifts := by
  refine ⟨fun hv hd => ?_, fun hd => h.asDeclared hd hlength⟩
  obtain ⟨hvoid, hsome, hne⟩ := hd
  obtain ⟨name, hname⟩ := Option.isSome_iff_exists.mp hsome
  obtain ⟨p, ps, hps⟩ := List.exists_cons_of_ne_nil hne
  -- the first of the rows that are viewed is the return row
  have hparams := h.params
  rw [MethodDecl.viewedRows, if_pos hvoid, MethodDecl.paramRows, hname, MethodDecl.slots,
    hps] at hparams
  obtain ⟨q, qs, hqs, hq, -⟩ := List.map_eq_cons_iff.mp hparams
  have hreturn : q.row.isReturn = true := congrArg (fun p => p.row.isReturn) hq
  rw [hv.noReturn q (hqs ▸ List.mem_cons_self)] at hreturn
  cases hreturn

end SignatureView

namespace MethodDecl.Stands

variable {s : Store} {parent : TypeDef} {d : MethodDecl} {h : MethodDef} {row : MethodRow}
  {rs : List ParamRow}

/-- Of the rows of a declared method, the return row is told from those of the parameters where the
method returns something. -/
theorem rows_among (hd : d.Stands s parent h row) (hrs : rs.map (·.content) = d.paramRows) :
    (row.returnAmong rs).map (·.content) =
        (if d.returns.isVoid then none else d.returnName.map returnRow) ∧
      (row.paramsAmong rs).map (·.content) = d.viewedRows := by
  have hvoid : row.signature.returns.type.isVoid = d.returns.isVoid := by rw [hd.signature]; rfl
  unfold MethodRow.paramsAmong MethodRow.returnAmong viewedRows
  rw [hvoid]
  cases d.returns.isVoid with
  | true => exact ⟨rfl, hrs⟩
  | false =>
    unfold paramRows at hrs
    cases hname : d.returnName with
    | some name =>
      rw [hname] at hrs
      obtain ⟨r, rs', rfl, hr, hrs'⟩ := List.map_eq_cons_iff.mp hrs
      have hreturn : r.isReturn = true := congrArg (·.isReturn) hr
      simp only [Bool.false_eq_true, if_false, List.head?_cons, Option.filter_some, hreturn,
        if_true, Option.isSome_some, List.tail_cons, Option.map_some]
      exact ⟨congrArg some hr, hrs'⟩
    | none =>
      rw [hname] at hrs
      have hhead : rs.head?.filter (·.isReturn) = none := by
        cases hps : d.params with
        | nil =>
          rw [hps] at hrs
          rw [List.map_eq_nil_iff.mp hrs]
          rfl
        | cons p ps =>
          rw [hps] at hrs
          obtain ⟨r, rs', rfl, hr, -⟩ := List.map_eq_cons_iff.mp hrs
          have hreturn : r.isReturn = false := congrArg (·.isReturn) hr
          simp only [List.head?_cons, Option.filter_some, hreturn, Bool.false_eq_true, if_false]
      simp only [Bool.false_eq_true, if_false, hhead, Option.isSome_none, Option.map_none, true_and]
      exact hrs

theorem signatureOf (hd : d.Stands s parent h row) :
    ∃ v, s.view.signatureOf row = .ok v ∧ v.method = row ∧ v.Shows d := by
  obtain ⟨rs, hrs, hcontent⟩ := Store.exists_paramRows hd.params
  rw [d.map_content_paramRows] at hcontent
  obtain ⟨hreturn, hparams⟩ := hd.rows_among hcontent
  have hview : List.Forall₂ (fun x r => s.view.row x = .ok r) row.params rs :=
    hrs.imp fun x r hx => View.row_eq_ok_iff.mpr ⟨List.not_mem_nil, hx⟩
  have hslots : row.signature.params = d.slots := by rw [hd.signature]; rfl
  have henough : d.slots.length ≤ (row.paramsAmong rs).length := by
    have hlength := congrArg List.length hparams
    rw [List.length_map] at hlength
    rw [hlength, slots, List.length_map, viewedRows, paramRows]
    split
    · rw [List.length_append, length_rowsFrom]
      exact Nat.le_add_left _ _
    · rw [length_rowsFrom]
  rw [View.signatureOf_eq hview, hslots, if_pos henough]
  refine ⟨_, rfl, rfl, ?_, hreturn⟩
  rw [List.map_zipWith, ← hparams, List.zipWith_map_left]
  rfl

end MethodDecl.Stands

/-! ## The methods of a store -/

theorem MethodDecl.moves_gather (parent : TypeDef) (d : MethodDecl) (h : MethodDef) :
    (d.gather parent h).Moves parts := by
  unfold gather
  refine .bind (.mapM (fun _ => ?_) _) fun _ => .bind (.mapM (fun a => ?_) _) fun _ => .pure _
  · exact (ParamRow.moves_write _ _ _).mono (by decide)
  · exact (a.moves_write _).mono (by decide)

theorem MethodDecl.row?_of_write {parent : TypeDef} {d : MethodDecl} {x : Except Error MethodDef}
    {s s' : Store} (hwrite : (d.write parent).perform s = (x, s')) {k : MethodDef} {row : MethodRow}
    (hrow : s'.row? k = some row) : s.row? k = some row ∨ x = .ok k := by
  have hkept := (d.moves_gather parent (s.reserve .methodDef).1 (s.reserve .methodDef).2).row?_eq
    (t := .methodDef) (by decide) k
  rw [Store.row?_reserve] at hkept
  rw [write_eq, Edit.perform_bind, Edit.perform_reserve] at hwrite
  dsimp only at hwrite
  generalize (s.reserve .methodDef).1 = h at hwrite hkept
  rw [Edit.perform_bind] at hwrite
  rcases hg : (d.gather parent h).perform (s.reserve .methodDef).2 with ⟨y, s₁⟩
  rw [hg] at hwrite hkept
  cases y with
  | error y =>
    cases hwrite
    exact .inl (hkept.symm.trans hrow)
  | ok row' =>
    dsimp only at hwrite
    rcases Edit.writes_record h (t := .methodDef) row' s₁ with hok | ⟨z, herror⟩
    · rw [hok] at hwrite
      cases hwrite
      rcases Store.row?_put_cases hrow with e | hrow
      · cases e
        exact .inr rfl
      · exact .inl (hkept.symm.trans hrow)
    · rw [herror] at hwrite
      cases hwrite
      exact .inl (hkept.symm.trans hrow)

namespace Store

/-- The row of a method that is new in `s'` stands as one of `ds` has it. -/
def MethodsSince (ds : List MethodDecl) (s s' : Store) : Prop :=
  ∀ (h : MethodDef) (row : MethodRow), s'.row? h = some row →
    s.row? h = some row ∨ ∃ parent, ∃ d ∈ ds, d.Stands s' parent h row

variable {ds : List MethodDecl} {s s₁ s' : Store}

theorem methodsSince_of_eq (h : ∀ x : MethodDef, s'.row? x = s.row? x) : MethodsSince ds s s' :=
  fun x _ hrow => .inl ((h x).symm.trans hrow)

theorem MethodsSince.trans (h : MethodsSince ds s s₁) (h' : MethodsSince ds s₁ s')
    (hp : s₁.PartOf s') : MethodsSince ds s s' := by
  intro x row hrow
  rcases h' x row hrow with hrow | hstands
  · rcases h x row hrow with hrow | ⟨parent, d, hd, hstands⟩
    · exact .inl hrow
    · exact .inr ⟨parent, d, hd, hstands.mono hp⟩
  · exact .inr hstands

end Store

namespace Edit

variable {α β : Type}

/-- The step builds on a tidy store, and the methods it writes stand as some of `ds`. -/
structure AddsMethods (ds : List MethodDecl) (e : Edit α) : Prop where
  builds : e.Builds fun _ _ _ => True
  adds : ∀ s : Store, s.Tidy → (e.perform s).2.InRange → Store.MethodsSince ds s (e.perform s).2

namespace AddsMethods

variable {ds : List MethodDecl}

theorem of_moves {ts : List Table} {e : Edit α} {Q : α → Store → Store → Prop} (he : e.Builds Q)
    (hm : e.Moves ts) (ht : .methodDef ∉ ts) : AddsMethods ds e :=
  ⟨he.imp fun _ _ _ _ => trivial, fun s _ _ => Store.methodsSince_of_eq ((hm s).row?_eq ht)⟩

theorem lift (x : Except Error α) : AddsMethods ds (liftM x) := by
  have hm : Edit.Moves [] (liftM x : Edit α) := .lift x
  exact of_moves (.lift x) hm List.not_mem_nil

theorem pure (a : α) : AddsMethods ds (Pure.pure a) := lift (.ok a)

theorem bind {e : Edit α} {f : α → Edit β} (he : AddsMethods ds e)
    (hf : ∀ a, AddsMethods ds (f a)) : AddsMethods ds (e >>= f) := by
  refine ⟨(he.builds.bind fun a => (hf a).builds).imp fun _ _ _ _ => trivial, fun s hs hr => ?_⟩
  have hadds := he.adds s hs
  have hleads := he.builds.leads s
  rw [perform_bind] at hr ⊢
  rcases hes : e.perform s with ⟨x, s₁⟩
  rw [hes] at hadds hleads hr
  cases x with
  | error x => exact hadds hr
  | ok a =>
    change ((f a).perform s₁).2.InRange at hr
    have hr₁ : s₁.InRange := ((hf a).builds.grows s₁).inRange hr
    obtain ⟨hs₁, -, -⟩ := hleads s₁ _ rfl hs hr₁
    obtain ⟨-, hc, -⟩ := (hf a).builds.leads s₁ _ _ rfl hs₁ hr
    exact (hadds hr₁).trans ((hf a).adds s₁ hs₁ hr) hc.partOf

theorem mapM {f : α → Edit β} {as : List α} (hf : ∀ a ∈ as, AddsMethods ds (f a)) :
    AddsMethods ds (as.mapM f) := by
  induction as with
  | nil => exact pure []
  | cons a as ih =>
    rw [List.mapM_cons]
    refine bind (hf a List.mem_cons_self) fun b => bind ?_ fun bs => pure (b :: bs)
    exact ih fun x hx => hf x (List.mem_cons_of_mem a hx)

end AddsMethods
end Edit

theorem MethodDecl.addsMethods_write {ds : List MethodDecl} (parent : TypeDef) {d : MethodDecl}
    (hd : d ∈ ds) : (d.write parent).AddsMethods ds := by
  refine ⟨(d.builds_write parent).imp fun _ _ _ _ => trivial, fun s hs hr k row hrow => ?_⟩
  rcases hw : (d.write parent).perform s with ⟨x, s'⟩
  rw [hw] at hr hrow
  rcases row?_of_write hw hrow with hrow | rfl
  · exact .inl hrow
  · obtain ⟨-, -, hstands⟩ := (d.builds_write parent).leads s s' _ hw hs hr
    obtain ⟨-, row', hrow', hstands⟩ := hstands k rfl s s' (.refl s) (.refl s') hr
    rw [hrow] at hrow'
    cases hrow'
    exact .inr ⟨parent, d, hd, hstands⟩

theorem TypeDecl.addsMethods_gather (d : TypeDecl) (h : TypeDef) :
    (d.gather h).AddsMethods d.methods := by
  have hattribute (k : Token) (a : AttributeDecl) : (a.write k).AddsMethods d.methods :=
    .of_moves (a.builds_write k) (a.moves_write k) (by decide)
  unfold gather
  refine .bind (.lift _) fun k =>
    .bind (.of_moves d.builds_writeBase d.moves_writeBase (by decide)) fun base =>
    .bind (.mapM fun a _ => hattribute k.token a) fun attributes =>
    .bind (.mapM fun m hm => m.addsMethods_write k hm) fun methods =>
    .bind (.mapM fun p _ => ?_) fun properties => .bind (.mapM fun e _ => ?_) fun events =>
    .bind (.mapM fun f _ => ?_) fun fields => .pure _
  · exact .of_moves (p.builds_writeProperty _ _) (p.moves_writeProperty _ _) (by decide)
  · exact .of_moves (e.builds_writeEvent _ _) (e.moves_writeEvent _ _) (by decide)
  · exact .of_moves (f.builds_write k) (f.moves_write k) (by decide)

namespace Store

variable {ds : List MethodDecl} {s s' : Store}

theorem methodsSince_define {d : TypeDecl} {x : Except Error TypeDef} (hd : s.define d = (x, s'))
    (hs : s.Tidy) (hr : s'.InRange) : MethodsSince d.methods s s' := by
  have hgathered : ∀ {y : Except Error TypeRow} {s₁ : Store},
      (d.gather (s.reserve .typeDef).1).perform (s.reserve .typeDef).2 = (y, s₁) → s₁.InRange →
        MethodsSince d.methods s s₁ := by
    intro y s₁ hg hr₁
    have hadds := (d.addsMethods_gather (s.reserve .typeDef).1).adds _ (hs.reserve .typeDef).1
    rw [hg] at hadds
    have hreserve : MethodsSince d.methods s (s.reserve .typeDef).2 :=
      methodsSince_of_eq fun x => row?_reserve s .typeDef x
    exact hreserve.trans (hadds hr₁) (hs.gather hg hr₁).2.1.partOf
  have hattempt := s.attempt_define d
  rw [hd] at hattempt
  cases hattempt with
  | unwritten hg => exact hgathered hg hr
  | taken hg _ => exact hgathered hg hr
  | @published row s₁ _ hg hfree hs' =>
    subst hs'
    have hr₁ : s₁.InRange := inRange_put.mp hr
    obtain ⟨-, -, -, hpart, -⟩ := hs.published hg hfree hr₁
    refine (hgathered hg hr₁).trans (methodsSince_of_eq fun x => ?_) hpart
    exact row?_put_of_table_ne s₁ (t := .typeDef) (s.reserve .typeDef).1 row x (by decide)

def MethodsFrom (s : Store) (ds : List MethodDecl) : Prop :=
  ∀ (h : MethodDef) (row : MethodRow), s.row? h = some row →
    ∃ parent, ∃ d ∈ ds, d.Stands s parent h row

theorem methodsFrom_empty : MethodsFrom .empty [] := by
  intro h row hrow
  rw [row?_empty] at hrow
  cases hrow

theorem MethodsFrom.since {ds' : List MethodDecl} (h : s.MethodsFrom ds)
    (h' : MethodsSince ds' s s') (hp : s.PartOf s') : s'.MethodsFrom (ds ++ ds') := by
  intro x row hrow
  rcases h' x row hrow with hrow | ⟨parent, d, hd, hstands⟩
  · obtain ⟨parent, d, hd, hstands⟩ := h x row hrow
    exact ⟨parent, d, List.mem_append_left ds' hd, hstands.mono hp⟩
  · exact ⟨parent, d, List.mem_append_right ds hd, hstands⟩

/-- The signature of the row can be viewed. It shows what the declaration has, and this is as it was
declared unless there is a shift. -/
def Views (s : Store) (d : MethodDecl) (row : MethodRow) : Prop :=
  ∃ v, s.view.signatureOf row = .ok v ∧ v.method = row ∧ v.Shows d ∧ (v.AsDeclared d ↔ ¬ d.Shifts)

theorem Tidy.views (hs : s.Tidy) {parent : TypeDef} {d : MethodDecl} {h : MethodDef}
    {row : MethodRow} (hrow : s.row? h = some row) (hd : d.Stands s parent h row) :
    s.Views d row := by
  obtain ⟨v, hv, hmethod, hshows⟩ := hd.signatureOf
  have hlength := hs.length_paramRows_le hrow hd
  rw [MethodDecl.paramRows, List.length_append, MethodDecl.length_rowsFrom] at hlength
  exact ⟨v, hv, hmethod, hshows, hshows.asDeclared_iff (by omega)⟩

end Store

/-! ## Sessions -/

def Action.methods : Action → List MethodDecl
  | .define d => d.methods
  | _ => []

namespace Session

/-- All methods that are declared in a run, successfully or not. -/
def declaredMethods (history : List Action) : List MethodDecl := history.flatMap Action.methods

theorem methodsFrom_step {cfg : Config} {σ : Session} {ds : List MethodDecl} (hs : σ.store.Tidy)
    (h : σ.store.MethodsFrom ds) (a : Action) (hr : (σ.step cfg a).store.InRange) :
    (σ.step cfg a).store.MethodsFrom (ds ++ a.methods) := by
  have hpart := (grows_step cfg σ a).partOf hs.numbered hr
  have hm := moves_step cfg σ a
  refine h.since ?_ hpart
  cases a with
  | define d => exact Store.methodsSince_define (d := d) rfl hs hr
  | _ => exact Store.methodsSince_of_eq ((hm rfl).row?_eq (by decide))

theorem run_methodsFrom (cfg : Config) (history : List Action)
    (hr : (run cfg history).store.InRange) :
    (run cfg history).store.MethodsFrom (declaredMethods history) := by
  refine foldl_induction (P := fun history σ => σ.store.MethodsFrom (declaredMethods history))
    Store.methodsFrom_empty (fun history a h hr' => ?_) history hr
  rw [declaredMethods, List.flatMap_append, List.flatMap_singleton]
  exact methodsFrom_step (run_records cfg history ((grows_step cfg _ a).inRange hr')).tidy h a hr'

/-- After every run, the signatures of the methods of each type that was declared successfully can
be viewed, in the order of declaration; and so can those of all rows of methods there are, which
stand as some declaration has them. The view pairs the declared slots with the declared parameters,
in order and numbered from 1, unless a method that returns nothing has a name for what it returns:
then the return row comes first, and the others follow it. -/
theorem signature_run (cfg : Config) (history : List Action)
    (hr : (run cfg history).store.InRange) :
    (∀ (d : TypeDecl) (h : TypeDef), (d, h) ∈ made cfg history → ∃ row : TypeRow,
      (run cfg history).store.row? h = some row ∧
      List.Forall₂ (fun m x => ∃ r : MethodRow, (run cfg history).store.row? x = some r ∧
        (run cfg history).store.Views m r) d.methods row.methods) ∧
    ∀ (x : MethodDef) (r : MethodRow), (run cfg history).store.row? x = some r →
      ∃ m ∈ declaredMethods history, (run cfg history).store.Views m r := by
  have hrecords := run_records cfg history hr
  refine ⟨fun d h hmade => ?_, fun x r hrow => ?_⟩
  · obtain ⟨row, hrow, hstands⟩ := hrecords.stands hmade
    refine ⟨row, hrow, hstands.methods.imp fun m x ⟨r, hx, hm⟩ => ⟨r, hx, ?_⟩⟩
    exact hrecords.tidy.views hx hm
  · obtain ⟨parent, m, hm, hstands⟩ := run_methodsFrom cfg history hr x r hrow
    exact ⟨m, hm, hrecords.tidy.views hrow hstands⟩

/-- A method that returns a number, and has a name for it. -/
def measure : MethodDecl :=
  .ofClauses "Measure" [.param "x" (.fundamental .int32), .returns (.fundamental .int32),
    .returnName "size"]

/-- A method that returns nothing, and has a name for it. -/
def draw : MethodDecl :=
  .ofClauses "Draw" [.param "x" (.fundamental .int32), .returnName "drawn"]

def declaring (d : MethodDecl) : List Action :=
  [.define { space := "Demo", name := "Canvas", methods := [d] }]

theorem signature_run_measure : ∃ (r : MethodRow) (v : SignatureView),
    (run {} (declaring measure)).store.row? (⟨1⟩ : MethodDef) = some r ∧
    (run {} (declaring measure)).store.view.signatureOf r = .ok v ∧
    v.params.map (·.decl) = [⟨"x", ParamFlag.input, ⟨false, .fundamental .int32⟩⟩] ∧
    v.params.map (·.row.sequence.toNat) = [1] ∧ v.returnRow.map (·.name) = some "size" := by
  have hr : (run {} (declaring measure)).store.InRange := by decide +kernel
  have hsome : ((run {} (declaring measure)).store.row? (⟨1⟩ : MethodDef)).isSome := by
    decide +kernel
  obtain ⟨r, hrow⟩ := Option.isSome_iff_exists.mp hsome
  obtain ⟨m, hm, v, hv, -, hshows, hiff⟩ := (signature_run {} (declaring measure) hr).2 ⟨1⟩ r hrow
  obtain rfl : m = measure := List.mem_singleton.mp hm
  have hdeclared : v.AsDeclared measure := hiff.mpr fun hshifts => Bool.noConfusion hshifts.1
  have hreturn := congrArg (Option.map (·.name)) hshows.returnRow
  rw [Option.map_map] at hreturn
  exact ⟨r, v, hrow, hv, hdeclared.params, hdeclared.sequences, hreturn⟩

/-- The return row of the second method is shown as its parameter. -/
theorem signature_draw : ∃ (r : MethodRow) (v : SignatureView),
    (run {} (declaring draw)).store.row? (⟨1⟩ : MethodDef) = some r ∧
    (run {} (declaring draw)).store.view.signatureOf r = .ok v ∧
    draw.params.map (·.name) = ["x"] ∧
    v.params.map (fun p => (p.row.name, p.row.isReturn)) = [("drawn", true)] :=
  ⟨_, _, rfl, rfl, rfl, rfl⟩

end Session

end MetadataProjection
