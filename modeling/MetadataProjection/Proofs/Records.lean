import Mathlib.Data.Fintype.Card
import Mathlib.Data.List.Sort
import MetadataProjection.Proofs.Written

/-!
# MetadataProjection.Proofs.Records

What a store holds after a whole run, as long as no counter has run past the row numbers.

* `Session.made`: the declarations of a run that succeeded, with their handles.
* `Store.Records`: the invariant. The rows of types are those of these declarations, each as it was
  declared, and the index of names leads to them and to nothing else. `Session.run_records`: so it
  is after every run.
* `Session.nameIndex_run`: the counter, the table and the index of types agree.
* `Store.Intact`: what a type lists has rows, and these refer back to the type.
  `Session.integrity_run`: so it is with all types of a run, and no row has two owners.
-/

namespace MetadataProjection

/-! ## Declarations that succeeded -/

namespace Session

def made? (σ : Session) : Action → Option (TypeDecl × TypeDef)
  | .define d => (σ.store.define d).1.toOption.map (d, ·)
  | _ => none

def madeFrom (cfg : Config) (σ : Session) : List Action → List (TypeDecl × TypeDef)
  | [] => []
  | a :: history => (σ.made? a).toList ++ madeFrom cfg (σ.step cfg a) history

/-- The declarations that succeed in a run, in order, with the handles of their types. -/
def made (cfg : Config) (history : List Action) : List (TypeDecl × TypeDef) :=
  madeFrom cfg {} history

end Session

namespace Store

variable {s s' : Store} {made : List (TypeDecl × TypeDef)}

/-- The types of the store are those that `made` lists. -/
structure Records (s : Store) (made : List (TypeDecl × TypeDef)) : Prop where
  tidy : s.Tidy
  declared : ∀ (h : TypeDef) (row : TypeRow), s.row? h = some row →
    ∃ d, (d, h) ∈ made ∧ d.Stands s h row
  kept : ∀ p ∈ made, (s.row? p.2).isSome
  rising : made.Pairwise (·.2.row < ·.2.row)
  names : ∀ (key : String) (h : TypeDef), s.typeNames[key]? = some h ↔
    ∃ row : TypeRow, s.row? h = some row ∧ row.fullName = key

theorem records_empty : Records .empty [] := by
  refine ⟨tidy_empty, fun h row hrow => ?_, nofun, .nil, fun key h => ?_⟩
  · rw [row?_empty] at hrow; cases hrow
  · have hname : Store.empty.typeNames[key]? = none := Std.TreeMap.getElem?_emptyc
    simp [row?_empty, hname]

theorem Records.continues (h : s.Records made) (hs' : s'.Tidy) (hc : s.Continues s')
    (hrows : ∀ x : TypeDef, s'.row? x = s.row? x) (hnames : s'.typeNames = s.typeNames) :
    s'.Records made := by
  refine ⟨hs', fun x row hrow => ?_, fun p hp => ?_, h.rising, fun key x => ?_⟩
  · rw [hrows] at hrow
    obtain ⟨d, hd, hstands⟩ := h.declared x row hrow
    exact ⟨d, hd, hstands.mono hc.partOf⟩
  · rw [hrows]
    exact h.kept p hp
  · rw [hnames, hrows]
    exact h.names key x

theorem Records.define (h : s.Records made) {d : TypeDecl} {x : Except Error TypeDef}
    (hd : s.define d = (x, s')) (hr : s'.InRange) :
    s'.Records (made ++ (x.toOption.map (d, ·)).toList) := by
  obtain ⟨hs', hc, hcases⟩ := define_cases hd h.tidy hr
  cases hcases with
  | failed hrows hnames =>
    change s'.Records (made ++ [])
    rw [List.append_nil]
    exact h.continues hs' hc hrows hnames
  | @added _ k row hfree hissued hstands hrows hnames =>
    have hnew : s.row? k = none := h.tidy.row?_of_issued hr hissued
    have hself : s'.row? k = some row := by rw [hrows, if_pos rfl]
    refine ⟨hs', fun y r hy => ?_, fun p hp => ?_, ?_, fun key y => ?_⟩
    · rw [hrows] at hy
      split at hy
      · next e =>
        cases hy; subst e
        exact ⟨d, List.mem_append_right _ List.mem_cons_self, hstands⟩
      · obtain ⟨d', hd', hstands'⟩ := h.declared y r hy
        exact ⟨d', List.mem_append_left _ hd', hstands'.mono hc.partOf⟩
    · rcases List.mem_append.mp hp with hp | hp
      · exact hc.partOf.isSome (h.kept p hp)
      · rw [List.mem_singleton.mp hp, hself]; rfl
    · refine List.pairwise_append.mpr ⟨h.rising, List.pairwise_singleton _ _, fun p hp q hq => ?_⟩
      rw [List.mem_singleton.mp hq]
      obtain ⟨r, hrow⟩ := Option.isSome_iff_exists.mp (h.kept p hp)
      exact Nat.lt_of_le_of_lt (h.tidy.numbered p.2 r hrow) (hissued.lt hr).1
    · rw [hnames, hrows]
      by_cases e : y = k
      · subst e
        have hold : s.typeNames[key]? ≠ some y := by
          intro hkey
          obtain ⟨r, hy, -⟩ := (h.names key y).mp hkey
          rw [hnew] at hy; cases hy
        by_cases e : key = row.fullName <;> simp [e, hold, eq_comm]
      · rw [if_neg e, ← h.names key y]
        by_cases e' : key = row.fullName
        · rw [if_pos e', e', hfree]
          simp [Ne.symm e]
        · rw [if_neg e']

/-! ## The index of names -/

theorem Records.definitions_eq (h : s.Records made) : s.definitions = made.map (·.2) := by
  have hordered : s.typeDefs.byNumber.keys.Pairwise fun a b => compare a b = .lt :=
    Std.TreeMap.ordered_keys
  have hkeys : s.typeDefs.byNumber.keys = made.map (·.2.row) := by
    refine List.Pairwise.eq_of_mem_iff (r := (· < ·)) ?_ (List.pairwise_map.mpr h.rising)
      fun n => ?_
    · exact hordered.imp fun hlt => Nat.compare_eq_lt.mp hlt
    · rw [Std.TreeMap.mem_keys, Std.TreeMap.mem_iff_isSome_getElem?]
      constructor
      · intro hn
        obtain ⟨row, hrow⟩ := Option.isSome_iff_exists.mp hn
        obtain ⟨d, hd, -⟩ := h.declared ⟨n⟩ row hrow
        exact List.mem_map_of_mem (f := (·.2.row)) hd
      · intro hn
        obtain ⟨p, hp, rfl⟩ := List.mem_map.mp hn
        exact h.kept p hp
  rw [definitions, hkeys, List.map_map]
  rfl

theorem Records.stands (h : s.Records made) {d : TypeDecl} {k : TypeDef} (hd : (d, k) ∈ made) :
    ∃ row : TypeRow, s.row? k = some row ∧ d.Stands s k row := by
  obtain ⟨row, hrow⟩ := Option.isSome_iff_exists.mp (h.kept (d, k) hd)
  obtain ⟨d', hd', hstands⟩ := h.declared k row hrow
  have hnodup : (made.map (·.2.row)).Nodup :=
    List.pairwise_map.mpr (h.rising.imp fun hlt => Fin.ne_of_lt hlt)
  cases List.inj_on_of_nodup_map hnodup hd hd' rfl
  exact ⟨row, hrow, hstands⟩

theorem Records.eq_of_fullName_eq (h : s.Records made) {x y : TypeDef} {row row' : TypeRow}
    (hx : s.row? x = some row) (hy : s.row? y = some row') (e : row.fullName = row'.fullName) :
    x = y := by
  have hxn := (h.names row.fullName x).mpr ⟨row, hx, rfl⟩
  have hyn := (h.names row.fullName y).mpr ⟨row', hy, e.symm⟩
  exact Option.some.inj (hxn.symm.trans hyn)

theorem Records.define_taken (h : s.Records made) {d : TypeDecl} {k : TypeDef}
    (hk : s.findType? d.space d.name = some k) (hr : (s.define d).2.InRange) :
    (∃ e, (s.define d).1 = .error e) ∧ (s.define d).2.findType? d.space d.name = some k ∧
      (s.define d).2.row? k = s.row? k ∧ (s.define d).2.definitions = s.definitions := by
  rcases hd : s.define d with ⟨x, s'⟩
  rw [hd] at hr
  have h' := h.define hd hr
  obtain ⟨-, -, hcases⟩ := define_cases hd h.tidy hr
  cases hcases with
  | added hfree _ hstands _ _ =>
    rw [hstands.fullName] at hfree
    rw [findType?, hfree] at hk
    cases hk
  | @failed _ e hrows hnames =>
    refine ⟨⟨e, rfl⟩, ?_, hrows k, ?_⟩
    · rw [findType?, hnames]; exact hk
    · rw [h.definitions_eq, h'.definitions_eq]
      exact congrArg _ (List.append_nil made)

end Store

namespace Session

variable {cfg : Config} {σ : Session} {made₀ : List (TypeDecl × TypeDef)}

theorem records_step (h : σ.store.Records made₀) (a : Action) (hr : (σ.step cfg a).store.InRange) :
    (σ.step cfg a).store.Records (made₀ ++ (σ.made? a).toList) := by
  have hm := moves_step cfg σ a
  cases a with
  | define d => exact h.define rfl hr
  | _ =>
    obtain ⟨hs', hc⟩ := h.tidy.step hr rfl
    change Store.Records _ (made₀ ++ [])
    rw [List.append_nil]
    exact h.continues hs' hc ((hm rfl).row?_eq (by decide)) (hm rfl).typeNames_eq

theorem madeFrom_concat (history : List Action) (a : Action) : ∀ σ : Session,
    madeFrom cfg σ (history ++ [a]) =
      madeFrom cfg σ history ++ ((history.foldl (step cfg) σ).made? a).toList := by
  induction history with
  | nil => intro σ; exact List.append_nil _
  | cons b history ih =>
    intro σ
    rw [List.cons_append, madeFrom, ih, madeFrom, List.append_assoc, List.foldl_cons]

theorem run_records (cfg : Config) (history : List Action)
    (hr : (run cfg history).store.InRange) :
    (run cfg history).store.Records (made cfg history) := by
  refine foldl_induction (P := fun history σ => σ.store.Records (made cfg history))
    Store.records_empty (fun history a h hr' => ?_) history hr
  rw [made, madeFrom_concat]
  exact records_step h a hr'

/-- After every run a name leads to the one type that has it. The list of definitions holds the
types that were declared successfully, and their number is counted. A declaration of a name that is
taken fails, and the first one stays. -/
theorem nameIndex_run (cfg : Config) (history : List Action)
    (hr : (run cfg history).store.InRange) :
    (∀ (space name : String) (h : TypeDef), (run cfg history).store.findType? space name = some h ↔
      ∃ row : TypeRow, (run cfg history).store.row? h = some row ∧
        row.fullName = qualifiedName space name) ∧
    (∀ (h h' : TypeDef) (row row' : TypeRow), (run cfg history).store.row? h = some row →
      (run cfg history).store.row? h' = some row' → row.fullName = row'.fullName → h = h') ∧
    Ascending (run cfg history).store.definitions ∧
    (run cfg history).store.definitions = (made cfg history).map (·.2) ∧
    (run cfg history).store.definitionCount = (made cfg history).length ∧
    ∀ (d : TypeDecl) (h : TypeDef), (run cfg history).store.findType? d.space d.name = some h →
      ((run cfg history).store.define d).2.InRange →
      (∃ e, ((run cfg history).store.define d).1 = .error e) ∧
      ((run cfg history).store.define d).2.findType? d.space d.name = some h ∧
      ((run cfg history).store.define d).2.row? h = (run cfg history).store.row? h ∧
      ((run cfg history).store.define d).2.definitions = (run cfg history).store.definitions := by
  have h := run_records cfg history hr
  have hdefinitions := h.definitions_eq
  refine ⟨fun space name => h.names (qualifiedName space name),
    fun _ _ _ _ hx hy e => h.eq_of_fullName_eq hx hy e,
    (run cfg history).store.view.ascending_definitions, hdefinitions, ?_,
    fun d k hk hr' => h.define_taken hk hr'⟩
  have hlength := congrArg List.length hdefinitions
  rw [Store.definitions, List.length_map, List.length_map, Std.TreeMap.length_keys] at hlength
  exact hlength

/-- Two types, the second of which succeeds at the third attempt; in between, the name of the first
is tried again, cut in another place. -/
def gaps : List Action :=
  [.define (.ofClauses "A" "B.C" []),
    .define (.ofClauses "A" "D" [.property "P" [.getter "get_P"]]),
    .define (.ofClauses "A.B" "C" []),
    .define (.ofClauses "A" "D" [])]

theorem nameIndex_run_gaps :
    let s := (run {} gaps).store
    let d : TypeDecl := .ofClauses "A.B" "C" [.method "M" []]
    s.InRange ∧ s.definitions = [⟨1⟩, ⟨4⟩] ∧ s.definitionCount = 2 ∧
      s.findType? "A.B" "C" = some ⟨1⟩ ∧ (s.define d).2.InRange ∧
      (∃ e, (s.define d).1 = .error e) ∧ (s.define d).2.findType? "A.B" "C" = some ⟨1⟩ ∧
      (s.define d).2.row? (⟨1⟩ : TypeDef) = s.row? ⟨1⟩ ∧
      (s.define d).2.definitions = s.definitions := by
  intro s d
  have hr : s.InRange := by decide
  have hr' : (s.define d).2.InRange := by decide
  obtain ⟨-, -, -, hdefinitions, hcount, htaken⟩ := nameIndex_run {} gaps hr
  have hfound : s.findType? "A.B" "C" = some ⟨1⟩ := rfl
  exact ⟨hr, hdefinitions, hcount, hfound, hr', htaken d ⟨1⟩ hfound hr'⟩

end Session

/-! ## Integrity -/

namespace MethodDecl

theorem map_sequence_rowsFrom (ds : List ParamDecl) : ∀ sequence : UInt32,
    sequence.toNat + ds.length < 4294967296 →
      (rowsFrom sequence ds).map (·.sequence.toNat) = List.range' sequence.toNat ds.length := by
  induction ds with
  | nil => intro sequence h; rfl
  | cons d ds ih =>
    intro sequence h
    rw [List.length_cons] at h
    have hnext : (sequence + 1).toNat = sequence.toNat + 1 := by
      rw [UInt32.toNat_add, UInt32.toNat_one]
      omega
    rw [rowsFrom, List.map_cons, ih (sequence + 1) (by omega), hnext]
    rfl

theorem length_rowsFrom (ds : List ParamDecl) : ∀ sequence : UInt32,
    (rowsFrom sequence ds).length = ds.length := by
  induction ds with
  | nil => intro sequence; rfl
  | cons d ds ih => intro sequence; rw [rowsFrom, List.length_cons, List.length_cons, ih]

theorem map_sequence_paramRows {d : MethodDecl} (h : d.paramRows.length ≤ 16777216) :
    d.paramRows.map (·.sequence.toNat) =
      (if d.returnName.isSome then [0] else []) ++ List.range' 1 d.params.length := by
  rw [paramRows, List.length_append, length_rowsFrom] at h
  rw [paramRows, List.map_append, map_sequence_rowsFrom]
  · cases d.returnName <;> rfl
  · rw [UInt32.toNat_one]
    omega

end MethodDecl

theorem Handle.length_le_of_nodup {t : Table} {xs : List (Handle t)} (h : xs.Nodup) :
    xs.length ≤ 16777216 := by
  have hrows : (xs.map (·.row)).Nodup := h.map fun a b e => by cases a; cases b; cases e; rfl
  simpa using hrows.length_le_card

namespace Store

/-- The method belongs to `parent`. Its attributes refer to it, and its parameters are numbered from
1 on, after the return value if that was given a name. -/
structure IntactMethod (s : Store) (parent : TypeDef) (d : MethodDecl) (h : MethodDef)
    (row : MethodRow) : Prop where
  token : row.token = h.token
  parent : row.parent = some parent
  attributes : ∀ a ∈ row.attributes, ∃ r : AttributeRow, s.row? a = some r ∧ r.parent = row.token
  params : ∃ rs : List ParamRow, List.Forall₂ (fun p r => s.row? p = some r) row.params rs ∧
    rs.map (·.sequence.toNat) =
      (if d.returnName.isSome then [0] else []) ++ List.range' 1 row.signature.params.length

/-- All that the type lists has rows, and these refer back to it. -/
structure Intact (s : Store) (d : TypeDecl) (h : TypeDef) (row : TypeRow) : Prop where
  token : row.token = h.token
  attributes : ∀ a ∈ row.attributes, ∃ r : AttributeRow, s.row? a = some r ∧ r.parent = row.token
  methods : List.Forall₂ (fun m x => ∃ r, s.row? x = some r ∧ s.IntactMethod h m x r)
    d.methods row.methods
  fields : ∀ f ∈ row.fields, ∃ r : FieldRow, s.row? f = some r ∧ r.parent = some h
  properties : ∀ p ∈ row.properties, ∃ r : PropertyRow, s.row? p = some r ∧
    ∀ l ∈ r.links, l.method ∈ row.methods
  events : ∀ e ∈ row.events, ∃ r : EventRow, s.row? e = some r ∧
    ∀ l ∈ r.links, l.method ∈ row.methods

theorem exists_paramRows {s : Store} {rs : List ParamRow} {xs : List Param}
    (h : List.Forall₂ (fun r x => s.row? x = some { r with token := x.token }) rs xs) :
    ∃ rs' : List ParamRow, List.Forall₂ (fun x r => s.row? x = some r) xs rs' ∧
      rs'.map (·.content) = rs.map (·.content) := by
  induction h with
  | nil => exact ⟨[], .nil, rfl⟩
  | @cons r x rs xs hx _ ih =>
    obtain ⟨rs', hrs', e⟩ := ih
    exact ⟨{ r with token := x.token } :: rs', .cons hx hrs', congrArg (r.content :: ·) e⟩

theorem exists_attributeRow {s : Store} {parent : Token} {ds : List AttributeDecl}
    {xs : List CustomAttribute}
    (h : List.Forall₂ (fun a x => s.row? x = some (a.row parent x)) ds xs) :
    ∀ x ∈ xs, ∃ r : AttributeRow, s.row? x = some r ∧ r.parent = parent := by
  intro x hx
  obtain ⟨d, -, hr⟩ := (exists_of_mem_of_forall₂ h).2 x hx
  exact ⟨_, hr, rfl⟩

theorem Tidy.length_paramRows_le {s : Store} (hs : s.Tidy) {parent : TypeDef} {d : MethodDecl}
    {h : MethodDef} {row : MethodRow} (hrow : s.row? h = some row) (hd : d.Stands s parent h row) :
    d.paramRows.length ≤ 16777216 := by
  rw [hd.params.length_eq]
  exact Handle.length_le_of_nodup (hs.nodup hrow .param)

/-- A method that stands as declared is intact: its parameters are as many as have different row
numbers, so the count of them does not start over. -/
theorem Tidy.intactMethod {s : Store} (hs : s.Tidy) {parent : TypeDef} {d : MethodDecl}
    {h : MethodDef} {row : MethodRow} (hrow : s.row? h = some row) (hd : d.Stands s parent h row) :
    s.IntactMethod parent d h row := by
  refine ⟨hd.token, hd.parent, hd.token ▸ exists_attributeRow hd.attributes, ?_⟩
  have hlength := hs.length_paramRows_le hrow hd
  obtain ⟨rs, hrs, e⟩ := exists_paramRows hd.params
  have hsequence : rs.map (·.sequence.toNat) = d.paramRows.map (·.sequence.toNat) := by
    have hmap := congrArg (List.map (·.sequence.toNat)) e
    rw [List.map_map, List.map_map] at hmap
    exact hmap
  refine ⟨rs, hrs, ?_⟩
  rw [hsequence, MethodDecl.map_sequence_paramRows hlength, hd.signature, MethodDecl.signature,
    List.length_map]

theorem Tidy.intact {s : Store} (hs : s.Tidy) {d : TypeDecl} {h : TypeDef} {row : TypeRow}
    (hd : d.Stands s h row) : s.Intact d h row := by
  have hlinked {links : List Link} {a : AccessorDecl}
      (hlinks : a.resolveLinks d.ownerName (d.named row.methods) = .ok links) :
      ∀ l ∈ links, l.method ∈ row.methods := by
    intro l hl
    obtain ⟨name, hmem⟩ := a.mem_of_resolveLinks _ _ hlinks hl
    exact (List.of_mem_zip hmem).2
  refine ⟨hd.token, hd.token ▸ exists_attributeRow hd.attributes, ?_, fun f hf => ?_,
    fun p hp => ?_, fun e he => ?_⟩
  · exact hd.methods.imp fun m x ⟨r, hr, hm⟩ => ⟨r, hr, hs.intactMethod hr hm⟩
  · obtain ⟨decl, -, hr⟩ := (exists_of_mem_of_forall₂ hd.fields).2 f hf
    exact ⟨_, hr, rfl⟩
  · obtain ⟨decl, -, links, hlinks, hr⟩ := (exists_of_mem_of_forall₂ hd.properties).2 p hp
    exact ⟨_, hr, hlinked hlinks⟩
  · obtain ⟨decl, -, links, hlinks, hr⟩ := (exists_of_mem_of_forall₂ hd.events).2 e he
    exact ⟨_, hr, hlinked hlinks⟩

end Store

namespace Session

/-- After every run the rows of types are those that were declared successfully. What they list, and
what their methods list, has rows that refer back to them. No row lists a handle twice, and no two
rows list the same one, be they rows of types or of methods or what a declaration that failed has
left. -/
theorem integrity_run (cfg : Config) (history : List Action)
    (hr : (run cfg history).store.InRange) :
    (∀ (h : TypeDef) (row : TypeRow), (run cfg history).store.row? h = some row →
      ∃ d, (d, h) ∈ made cfg history ∧ (run cfg history).store.Intact d h row) ∧
    (∀ {t : Table} (h : Handle t) (row : Row t), (run cfg history).store.row? h = some row →
      ∀ u, (listed row u).Nodup) ∧
    ∀ {t t' u : Table} (h : Handle t) (h' : Handle t') (row : Row t) (row' : Row t') (x : Handle u),
      (run cfg history).store.row? h = some row → (run cfg history).store.row? h' = some row' →
      x ∈ listed row u → x ∈ listed row' u → h.token = h'.token := by
  have hrecords := run_records cfg history hr
  refine ⟨fun h row hrow => ?_, fun _ _ hrow => hrecords.tidy.nodup hrow,
    fun _ _ row row' _ hrow hrow' hx hx' => hrecords.tidy.unique ⟨row, hrow, hx⟩ ⟨row', hrow', hx'⟩⟩
  obtain ⟨d, hmade, hstands⟩ := hrecords.declared h row hrow
  exact ⟨d, hmade, hrecords.tidy.intact hstands⟩

/-- A declaration that fails after its method is written, and one that succeeds. -/
def orphans : List Action :=
  [.define (.ofClauses "Demo" "Broken" [.method "Draw" [.param "x" (.fundamental .int32)],
      .property "P" [.getter "get_P"]]),
    .define (.ofClauses "Demo" "Widget" [.attribute ⟨"Demo", "Mark", {}⟩,
      .method "Draw" [.param "x" (.fundamental .int32), .returnName "drawn", .overload "DrawAt"],
      .simpleProperty "Size" (.fundamental .int32) true, .field "size" (.fundamental .int32)])]

theorem integrity_run_orphans :
    let s := (run {} orphans).store
    s.InRange ∧ (∃ row : TypeRow, s.row? (⟨2⟩ : TypeDef) = some row ∧
      row.methods = [⟨2⟩, ⟨3⟩, ⟨4⟩] ∧ row.methods.Nodup ∧
      ∃ d, (d, ⟨2⟩) ∈ made {} orphans ∧ s.Intact d ⟨2⟩ row) ∧
    ∀ (h : MethodDef) (row : MethodRow), s.row? h = some row → ⟨1⟩ ∈ row.params → h = ⟨1⟩ := by
  intro s
  have hr : s.InRange := by decide +kernel
  obtain ⟨hintact, hnodup, hunique⟩ := integrity_run {} orphans hr
  have hwidget : (s.row? (⟨2⟩ : TypeDef)).map (·.methods) = some [⟨2⟩, ⟨3⟩, ⟨4⟩] := by
    decide +kernel
  have horphan : (s.row? (⟨1⟩ : MethodDef)).map (·.params) = some [⟨1⟩] := by decide +kernel
  obtain ⟨widget, hwidget, hmethods⟩ := Option.map_eq_some_iff.mp hwidget
  obtain ⟨orphan, horphan, hparams⟩ := Option.map_eq_some_iff.mp horphan
  have hlisted : (⟨1⟩ : Param) ∈ orphan.params := hparams ▸ List.mem_cons_self
  refine ⟨hr, ⟨widget, hwidget, hmethods, hnodup (t := .typeDef) ⟨2⟩ widget hwidget .methodDef,
    hintact ⟨2⟩ widget hwidget⟩, fun h row hrow hmem => ?_⟩
  exact Handle.token_inj.mp
    (@hunique .methodDef .methodDef .param h ⟨1⟩ row orphan ⟨1⟩ hrow horphan hmem hlisted)

end Session
end MetadataProjection
