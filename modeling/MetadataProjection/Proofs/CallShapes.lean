import MetadataProjection.Projection
import MetadataProjection.Proofs.Answers
import MetadataProjection.Proofs.SignatureViews

/-!
# MetadataProjection.Proofs.CallShapes

How any method is called, whatever its parameter rows and its signature say.

* `View.signatureOf_by_position`: slots are paired with rows by position, from the first row or the
  second on; rows left over are ignored, and slots left over are a fault.
* `countParams_eq`: a count fails as the first parameter without a direction.
* `countIn_add_countOut`: the two counts together are all parameters, and arrays to be filled once more.
* `Resolver.shape_accounts`: so it is with every method that has a shape.
-/

namespace MetadataProjection

/-! ## Pairing by position -/

namespace MethodRow

variable {m : MethodRow} {rs : List ParamRow} {r : ParamRow}

/-- The position of the row that goes with the first slot. A return row comes before it. -/
def offset (m : MethodRow) (rs : List ParamRow) : Nat :=
  if !m.signature.returns.type.isVoid && rs.head?.any (·.sequence == 0) then 1 else 0

theorem offset_eq : m.offset rs = if (m.returnAmong rs).isSome then 1 else 0 := by
  have hsome : (m.returnAmong rs).isSome =
      (!m.signature.returns.type.isVoid && rs.head?.any (·.sequence == 0)) := by
    unfold returnAmong
    cases m.signature.returns.type.isVoid with
    | true => rfl
    | false => exact Option.isSome_filter
  rw [offset, hsome]

theorem head?_of_returnAmong (h : m.returnAmong rs = some r) : rs.head? = some r := by
  unfold returnAmong at h
  split at h
  · cases h
  · exact (Option.filter_eq_some_iff.mp h).1

theorem returnAmong_eq_some_iff : m.returnAmong rs = some r ↔ m.offset rs = 1 ∧ rs.head? = some r := by
  constructor
  · intro h
    exact ⟨by rw [offset_eq, h]; rfl, head?_of_returnAmong h⟩
  · rintro ⟨hoffset, hhead⟩
    rw [offset_eq] at hoffset
    cases h : m.returnAmong rs with
    | none => rw [h] at hoffset; cases hoffset
    | some r' => rw [← hhead, head?_of_returnAmong h]

theorem paramsAmong_eq : m.paramsAmong rs = rs.drop (m.offset rs) := by
  rw [paramsAmong, offset_eq]
  split
  · exact List.drop_one.symm
  · rfl

theorem offset_le : m.offset rs ≤ rs.length := by
  cases rs with
  | nil => simp [offset]
  | cons r rs => rw [offset_eq]; split <;> simp

end MethodRow

/-- The view of a method that takes rows from this position on: slot by slot the next row, and the
first row for the return value if it is skipped. -/
structure SignatureView.PairsFrom (s : SignatureView) (offset : Nat) (m : MethodRow)
    (rs : List ParamRow) : Prop where
  method : s.method = m
  returnRow : ∀ r, s.returnRow = some r ↔ offset = 1 ∧ rs.head? = some r
  length : s.params.length = m.signature.params.length
  entry : ∀ k (hk : k < m.signature.params.length), ∃ r, rs[offset + k]? = some r ∧
    s.params[k]? = some ⟨r, m.signature.params[k]⟩

namespace View

variable {v : View} {m : MethodRow} {rs : List ParamRow}

theorem pairsFrom_signatureOf (h : List.Forall₂ (fun x r => v.row x = .ok r) m.params rs)
    {s : SignatureView} (hs : v.signatureOf m = .ok s) : s.PairsFrom (m.offset rs) m rs := by
  rw [signatureOf_eq h, MethodRow.paramsAmong_eq] at hs
  split at hs
  · next hlength =>
    cases hs
    refine ⟨rfl, fun r => MethodRow.returnAmong_eq_some_iff, ?_, fun k hk => ?_⟩
    · rw [List.length_zipWith, Nat.min_eq_right hlength]
    · have hk' : k < (rs.drop (m.offset rs)).length := Nat.lt_of_lt_of_le hk hlength
      refine ⟨(rs.drop (m.offset rs))[k], ?_, ?_⟩
      · rw [← List.getElem?_drop, List.getElem?_eq_getElem hk']
      · rw [List.getElem?_zipWith_eq_some]
        exact ⟨_, _, List.getElem?_eq_getElem hk', List.getElem?_eq_getElem hk, rfl⟩
  · cases hs

/-- A method whose parameter rows are all there, though they and its signature may have nothing to do
with each other, has a view just if it has a row for every slot, after the return row if it starts
with one. Then the view pairs them by position, and rows left over are ignored; otherwise the method
is at fault. -/
theorem signatureOf_by_position (h : m.params.mapM (v.row (t := .param)) = .ok rs) :
    ((∃ s, v.signatureOf m = .ok s) ↔
      m.offset rs + m.signature.params.length ≤ m.params.length) ∧
    (∀ s, v.signatureOf m = .ok s → s.PairsFrom (m.offset rs) m rs) ∧
    (m.params.length < m.offset rs + m.signature.params.length → v.signatureOf m =
      .error (.invalidMetadata (.missingParamRow m.name m.signature.params.length))) := by
  have hrows : List.Forall₂ (fun x r => v.row x = .ok r) m.params rs := Except.mapM_eq_ok_iff.mp h
  have hlength : m.signature.params.length ≤ (m.paramsAmong rs).length ↔
      m.offset rs + m.signature.params.length ≤ m.params.length := by
    have hoffset : m.offset rs ≤ rs.length := MethodRow.offset_le
    rw [MethodRow.paramsAmong_eq, List.length_drop, hrows.length_eq]
    omega
  refine ⟨?_, fun s => pairsFrom_signatureOf hrows, fun hlt => ?_⟩
  · rw [signatureOf_eq hrows, ← hlength]
    constructor
    · rintro ⟨s, hs⟩
      by_contra hfew
      rw [if_neg hfew] at hs
      cases hs
    · intro henough
      exact ⟨_, if_pos henough⟩
  · rw [signatureOf_eq hrows, if_neg fun henough => Nat.not_lt.mpr (hlength.mp henough) hlt]

end View

namespace Session

def surplus : MethodRow where
  name := "Measure"
  params := [⟨1⟩, ⟨2⟩, ⟨2⟩]
  signature := { returns := ⟨false, .fundamental .int32⟩, params := [⟨false, .fundamental .string⟩] }

theorem signatureOf_surplus :
    let v := (run {} (declaring measure)).store.view
    ∃ (rs : List ParamRow) (s : SignatureView), surplus.params.mapM (v.row (t := .param)) = .ok rs ∧
      surplus.offset rs = 1 ∧ v.signatureOf surplus = .ok s ∧ s.PairsFrom 1 surplus rs := by
  intro v
  obtain ⟨rs, hrs, hoffset⟩ : ∃ rs : List ParamRow,
      surplus.params.mapM (v.row (t := .param)) = .ok rs ∧ surplus.offset rs = 1 := ⟨_, rfl, rfl⟩
  obtain ⟨hiff, hpairs, -⟩ := View.signatureOf_by_position hrs
  rw [hoffset] at hiff hpairs
  obtain ⟨s, hs⟩ := hiff.mpr (by decide)
  exact ⟨rs, s, hrs, hoffset, hs, hpairs s hs⟩

end Session

/-! ## Counts -/

/-- The parameter is an array to be filled. -/
def MethodParam.fills (p : MethodParam) : Bool := p.category.toOption == some .fillArray

theorem countParams_eq (f : ParamCategory → Bool) (ps : List MethodParam) :
    countParams (fun p => f <$> p.category) ps =
      do return (← ps.mapM (·.category)).countP f := by
  induction ps with
  | nil => rfl
  | cons p ps ih =>
    rw [countParams, ih, List.mapM_cons]
    cases p.category with
    | error e => rfl
    | ok c =>
      cases ps.mapM (·.category) with
      | error e => rfl
      | ok cs =>
        simp only [Except.ok_bind, Except.map_ok, pure_bind, List.countP_cons]
        split <;> rfl

theorem countP_isIn_add_countP_isOut (cs : List ParamCategory) :
    cs.countP (·.isIn) + cs.countP (·.isOut) = cs.length + cs.count .fillArray := by
  induction cs with
  | nil => rfl
  | cons c cs ih =>
    have hc : (if c.isIn then 1 else 0) + (if c.isOut then 1 else 0) =
        1 + (if c == .fillArray then 1 else 0) := by
      cases c <;> rfl
    rw [List.countP_cons, List.countP_cons, List.count_cons, List.length_cons]
    omega

theorem countP_fills {ps : List MethodParam} {cs : List ParamCategory}
    (h : ps.mapM (·.category) = .ok cs) : ps.countP (·.fills) = cs.count .fillArray := by
  have hfills (p : MethodParam) (c : ParamCategory) (hc : p.category = .ok c) :
      (c == .fillArray) = p.fills := by
    rw [MethodParam.fills, hc]
    rfl
  have hmap := map_eq_of_forall₂ (Except.mapM_eq_ok_iff.mp h) hfills
  have hcount := congrArg (List.countP id) hmap
  rw [List.countP_map, List.countP_map] at hcount
  exact hcount.symm

/-- Both counts are there, and together they are all parameters and the arrays to be filled once more;
or the first parameter without a direction is the failure of both. -/
theorem countIn_add_countOut (ps : List MethodParam) :
    (∃ i o, countIn ps = .ok i ∧ countOut ps = .ok o ∧
      i + o = ps.length + ps.countP (·.fills)) ∨
    ∃ e, countIn ps = .error e ∧ countOut ps = .error e ∧
      Except.FailsFirst MethodParam.category ps e := by
  have hin : countIn ps = do return (← ps.mapM (·.category)).countP (·.isIn) := countParams_eq _ ps
  have hout : countOut ps = do return (← ps.mapM (·.category)).countP (·.isOut) := countParams_eq _ ps
  cases h : ps.mapM (·.category) with
  | error e =>
    rw [h] at hin hout
    exact .inr ⟨e, hin, hout, Except.mapM_eq_error_iff.mp h⟩
  | ok cs =>
    rw [h] at hin hout
    refine .inl ⟨_, _, hin, hout, ?_⟩
    rw [countP_isIn_add_countP_isOut, countP_fills h, (Except.mapM_eq_ok_iff.mp h).length_eq]

/-! ## Shapes -/

theorem SignatureView.returnSlot?_eq_none_iff {s : SignatureView} :
    s.returnSlot? = none ↔ s.method.signature.returns.type.isVoid = true := by
  unfold SignatureView.returnSlot?
  dsimp only
  split <;> simp [*]

namespace View

variable {v : View} {m : MethodRow}

theorem map_slot_pairParams {slots : List Slot} {hs : List Param} {ps : List MethodParam}
    (h : v.pairParams m slots hs = .ok ps) : ps.map (·.slot) = slots := by
  induction slots generalizing hs ps with
  | nil => cases h; rfl
  | cons slot slots ih =>
    cases hs with
    | nil => cases h
    | cons x hs =>
      obtain ⟨row, -, h⟩ := Except.bind_eq_ok_iff.mp h
      obtain ⟨ps', hps', h⟩ := Except.bind_eq_ok_iff.mp h
      cases h
      rw [List.map_cons, ih hps']

theorem slots_signatureOf {s : SignatureView} (h : v.signatureOf m = .ok s) :
    s.method = m ∧ s.params.map (·.slot) = m.signature.params := by
  obtain ⟨returnRow, -, h⟩ := Except.bind_eq_ok_iff.mp h
  obtain ⟨params, hparams, h⟩ := Except.bind_eq_ok_iff.mp h
  cases h
  exact ⟨rfl, map_slot_pairParams hparams⟩

end View

namespace Resolver

theorem returns_shape (r : Resolver) (m : MethodRow) : Query.Returns (fun s : Shape =>
    ∃ view, r.view.signatureOf m = .ok view ∧ countIn view.params = .ok s.inputs ∧
      countOut view.params = .ok s.outputs ∧
      s.returns = view.returnSlot?.map (·.returnCategory)) (r.shape m) :=
  (Query.Returns.any _).bind fun _ _ => (Query.Returns.lift _).bind fun view hview =>
    (Query.Returns.lift _).bind fun _ hinputs => (Query.Returns.lift _).bind fun _ houtputs =>
      .pure ⟨view, hview, hinputs, houtputs, rfl⟩

/-- The counts of any list of parameters, in and out, are both there and together make up all parameters
and the arrays to be filled once more, or both fail as the first parameter without a direction. So in
the shape of a method every slot of its signature is counted, an array to be filled twice; and there is
a direction for what it returns just if it returns something. -/
theorem shape_accounts :
    (∀ ps : List MethodParam,
      (∃ i o, countIn ps = .ok i ∧ countOut ps = .ok o ∧
        i + o = ps.length + ps.countP (·.fills)) ∨
      ∃ e, countIn ps = .error e ∧ countOut ps = .error e ∧
        Except.FailsFirst MethodParam.category ps e) ∧
    ∀ (r : Resolver) (m : MethodRow) (c : Cache) (s : Shape), ((r.shape m).ask c).1 = .ok s →
      ∃ view, r.view.signatureOf m = .ok view ∧ view.params.map (·.slot) = m.signature.params ∧
        s.inputs + s.outputs = m.signature.params.length + view.params.countP (·.fills) ∧
        (s.returns = none ↔ m.signature.returns.type.isVoid = true) := by
  refine ⟨countIn_add_countOut, fun r m c s hs => ?_⟩
  obtain ⟨view, hview, hin, hout, hreturns⟩ := r.returns_shape m c s hs
  obtain ⟨hmethod, hslots⟩ := View.slots_signatureOf hview
  refine ⟨view, hview, hslots, ?_, ?_⟩
  · obtain ⟨i, o, hi, ho, hsum⟩ | ⟨e, he, -⟩ := countIn_add_countOut view.params
    · rw [hin] at hi
      rw [hout] at ho
      cases hi
      cases ho
      rw [hsum, ← hslots, List.length_map]
    · rw [hin] at he
      cases he
  · rw [hreturns, Option.map_eq_none_iff, SignatureView.returnSlot?_eq_none_iff, hmethod]

end Resolver
namespace Session

/-- A method that fills an array, and returns how much of it. -/
def fill : MethodDecl :=
  .ofClauses "Fill" [.param "start" (.fundamental .int32),
    .paramWith "buffer" ParamFlag.output ⟨false, .szArray (.fundamental .uint8)⟩,
    .returns (.fundamental .int32)]

theorem shape_accounts_fill :
    let r : Resolver := { view := (run {} (declaring fill)).store.view }
    ∃ (m : MethodRow) (s : Shape) (view : SignatureView), r.view.row (⟨1⟩ : MethodDef) = .ok m ∧
      ((r.shape m).ask ∅).1 = .ok s ∧ r.view.signatureOf m = .ok view ∧
      m.signature.params.length = 2 ∧ s.inputs + s.outputs = 2 + view.params.countP (·.fills) ∧
      s.inputs = 2 ∧ s.outputs = 1 ∧ s.returns ≠ none := by
  intro r
  obtain ⟨m, s, hm, hs, hlength, hvoid, hinputs, houtputs⟩ : ∃ (m : MethodRow) (s : Shape),
      r.view.row (⟨1⟩ : MethodDef) = .ok m ∧ ((r.shape m).ask ∅).1 = .ok s ∧
      m.signature.params.length = 2 ∧ m.signature.returns.type.isVoid = false ∧ s.inputs = 2 ∧
      s.outputs = 1 := ⟨_, _, rfl, rfl, rfl, rfl, rfl, rfl⟩
  obtain ⟨-, hshapes⟩ := Resolver.shape_accounts
  obtain ⟨view, hview, -, hsum, hreturns⟩ := hshapes r m ∅ s hs
  rw [hlength] at hsum
  rw [hvoid] at hreturns
  exact ⟨m, s, view, hm, hs, hview, hlength, hsum, hinputs, houtputs,
    fun hnone => Bool.noConfusion (hreturns.mp hnone)⟩

end Session
end MetadataProjection
