import MetadataProjection.Proofs.Verdict

/-!
# MetadataProjection.Proofs.FullNames

Types and references are found by their full names, and a full name may be cut into a namespace and
a name in more than one way.

* `TypeName`: a namespace and a name. `TypeName.eq_of_full_eq`: pairs whose names have no dot are
  told apart by their full names.
* `Session.mentioned`: the pairs that a run asks references for, its declarations included.
* `Store.References`: the invariant. A full name leads to a reference to the first pair that was
  mentioned by it. `Session.run_references`: so it is after every run.
* `Session.lookup_run`: which pair a look-up finds, and when it is the one that was asked for.
-/

namespace MetadataProjection

/-! ## Full names -/

structure TypeName where
  space : String
  name : String
deriving DecidableEq, Repr

namespace TypeName

def full (n : TypeName) : String := qualifiedName n.space n.name

/-- The name itself has no dot, so that the last dot of the full name is where it is to be cut. -/
def Plain (n : TypeName) : Prop := '.' ∉ n.name.toList

instance (n : TypeName) : Decidable n.Plain := inferInstanceAs (Decidable (_ ∉ _))

def row (n : TypeName) (h : TypeRef) : TypeRefRow :=
  { token := h.token, space := n.space, name := n.name }

def first? (ns : List TypeName) (key : String) : Option TypeName := ns.find? (·.full == key)

theorem first?_append_of_ne {ns : List TypeName} {n : TypeName} {key : String} (h : n.full ≠ key) :
    first? (ns ++ [n]) key = first? ns key := by
  simp only [first?, List.find?_append, List.find?_cons, beq_eq_false_iff_ne.mpr h, List.find?_nil,
    Option.or_none]

theorem first?_append_self (ns : List TypeName) (n : TypeName) :
    first? (ns ++ [n]) n.full = some ((first? ns n.full).getD n) := by
  simp only [first?, List.find?_append, List.find?_cons, beq_self_eq_true]
  cases ns.find? (·.full == n.full) <;> rfl

theorem full_of_first? {ns : List TypeName} {m : TypeName} {key : String}
    (h : first? ns key = some m) : m.full = key := by
  unfold first? at h
  simpa using List.find?_some h

theorem splitFullName_full {n : TypeName} (h : n.Plain) :
    splitFullName n.full = (n.space, n.name) := by
  unfold full qualifiedName
  cases hspace : n.space.isEmpty with
  | true =>
    rw [if_pos rfl, splitFullName_of_not_mem h, String.isEmpty_iff.mp hspace]
  | false =>
    rw [if_neg Bool.false_ne_true, splitFullName_append h]

theorem eq_of_full_eq {m n : TypeName} (hm : m.Plain) (hn : n.Plain) (e : m.full = n.full) :
    m = n := by
  have hsplit : (m.space, m.name) = (n.space, n.name) := by
    rw [← splitFullName_full hm, ← splitFullName_full hn, e]
  cases m
  cases n
  cases hsplit
  rfl

theorem eq_of_space_eq {m n : TypeName} (hspace : m.space = n.space) (hfull : m.full = n.full) :
    m = n := by
  obtain ⟨space, name⟩ := m
  obtain ⟨space', name'⟩ := n
  obtain rfl : space = space' := hspace
  unfold full qualifiedName at hfull
  dsimp only at hfull
  split at hfull
  · rw [hfull]
  · rw [(String.append_right_inj _).mp hfull]

theorem isNamed_row_iff {m n : TypeName} {h : TypeRef} :
    (m.row h).isNamed n.space n.name = true ↔ m = n := by
  cases m
  cases n
  simp only [row, TypeRefRow.isNamed, Bool.and_eq_true, beq_iff_eq, mk.injEq]

end TypeName

namespace TypeDecl

def typeName (d : TypeDecl) : TypeName := ⟨d.space, d.name⟩

/-- The system type that a declaration without a base refers to. -/
def impliedBase? (d : TypeDecl) : Option TypeName :=
  match d.base with
  | some _ => none
  | none => d.category.systemBase.map fun name => ⟨Platform.systemNamespace, name⟩

theorem Stands.isNamed_iff {s : Store} {d : TypeDecl} {h : TypeDef} {row : TypeRow} {n : TypeName}
    (hd : d.Stands s h row) : row.isNamed n.space n.name = true ↔ d.typeName = n := by
  cases n
  simp only [TypeRow.isNamed, hd.space, hd.name, typeName, Bool.and_eq_true, beq_iff_eq,
    TypeName.mk.injEq]

end TypeDecl

/-! ## References -/

namespace Store

variable {s s' : Store} {ns : List TypeName}

/-- The full name leads to a reference to this pair, or to none. -/
def Refers (s : Store) (key : String) : Option TypeName → Prop
  | none => s.refNames[key]? = none
  | some n => ∃ h : TypeRef, s.refNames[key]? = some h ∧ s.row? h = some (n.row h)

/-- Where references were asked for with the pairs `ns`, a full name leads to a reference to the
first of them that has it. -/
structure References (s : Store) (ns : List TypeName) : Prop where
  numbered : ∀ (h : TypeRef) (row : TypeRefRow), s.row? h = some row →
    h.row.val ≤ (s.rows .typeRef).issued
  first : ∀ key : String, s.Refers key (TypeName.first? ns key)

theorem references_empty : References .empty [] := by
  refine ⟨fun h row hrow => ?_, fun key => Std.TreeMap.getElem?_emptyc⟩
  rw [row?_empty] at hrow
  cases hrow

theorem References.congr (h : s.References ns) (hrows : s'.rows .typeRef = s.rows .typeRef)
    (hnames : s'.refNames = s.refNames) : s'.References ns := by
  have hrow : ∀ x : TypeRef, s'.row? x = s.row? x := fun x => by rw [row?, hrows, row?]
  refine ⟨fun x row hx => ?_, fun key => ?_⟩
  · rw [hrow] at hx
    rw [hrows]
    exact h.numbered x row hx
  · have hkey := h.first key
    cases hn : TypeName.first? ns key with
    | none =>
      rw [hn] at hkey
      rw [Refers, hnames]
      exact hkey
    | some n =>
      rw [hn] at hkey
      obtain ⟨x, hx, hxrow⟩ := hkey
      exact ⟨x, hnames ▸ hx, (hrow x).trans hxrow⟩

theorem References.moves {ts : List Table} (h : s.References ns) (hm : s.Moves ts s')
    (ht : .typeRef ∉ ts) : s'.References ns :=
  h.congr (hm.rows_eq ht) (hm.refNames_eq ht)

theorem addTypeRef_of_some {n : TypeName} {h : TypeRef} (hkey : s.refNames[n.full]? = some h) :
    s.addTypeRef n.space n.name = (h, s) := by
  have hkey' : s.refNames[qualifiedName n.space n.name]? = some h := hkey
  simp only [addTypeRef, hkey']

theorem addTypeRef_of_none {n : TypeName} (hkey : s.refNames[n.full]? = none) :
    (s.addTypeRef n.space n.name).1 = (s.reserve .typeRef).1 ∧
    ((s.addTypeRef n.space n.name).2.rows .typeRef).issued = (s.rows .typeRef).issued + 1 ∧
    (∀ x : TypeRef, (s.addTypeRef n.space n.name).2.row? x =
      if (s.reserve .typeRef).1 = x then some (n.row (s.reserve .typeRef).1) else s.row? x) ∧
    ∀ key : String, (s.addTypeRef n.space n.name).2.refNames[key]? =
      if n.full = key then some (s.reserve .typeRef).1 else s.refNames[key]? := by
  have hkey' : s.refNames[qualifiedName n.space n.name]? = none := hkey
  unfold addTypeRef
  dsimp only
  rw [hkey']
  refine ⟨rfl, ?_, fun x => ?_, fun key => ?_⟩
  · exact (issued_put (s.reserve .typeRef).2 _ _ .typeRef).trans
      (issued_reserve s .typeRef .typeRef)
  · by_cases e : (s.reserve .typeRef).1 = x
    · rw [if_pos e, ← e]
      exact row?_put_self (s.reserve .typeRef).2 (t := .typeRef) _ (n.row (s.reserve .typeRef).1)
    · rw [if_neg e]
      exact (row?_put_of_ne (s.reserve .typeRef).2 (t := .typeRef) _ e).trans (row?_reserve s _ x)
  · rw [Std.TreeMap.getElem?_insert]
    simp only [Std.compare_eq_iff_eq]
    rfl

theorem refNames_addTypeRef_self (s : Store) (n : TypeName) :
    (s.addTypeRef n.space n.name).2.refNames[n.full]? = some (s.addTypeRef n.space n.name).1 := by
  cases hkey : s.refNames[n.full]? with
  | some x =>
    rw [addTypeRef_of_some hkey]
    exact hkey
  | none =>
    obtain ⟨hfst, -, -, hnames⟩ := addTypeRef_of_none hkey
    rw [hnames, hfst, if_pos rfl]

theorem References.addTypeRef (h : s.References ns) {n : TypeName}
    (hr : ((s.addTypeRef n.space n.name).2.rows .typeRef).issued < 16777216) :
    (s.addTypeRef n.space n.name).2.References (ns ++ [n]) := by
  have hself := h.first n.full
  cases hn : TypeName.first? ns n.full with
  | some m =>
    -- nothing is written, and the pair is not the first of its full name
    rw [hn] at hself
    obtain ⟨x, hx, hxrow⟩ := hself
    rw [addTypeRef_of_some hx]
    refine ⟨h.numbered, fun key => ?_⟩
    by_cases e : n.full = key
    · rw [← e, TypeName.first?_append_self, hn]
      exact ⟨x, hx, hxrow⟩
    · rw [TypeName.first?_append_of_ne e]
      exact h.first key
  | none =>
    rw [hn] at hself
    obtain ⟨-, hissued, hrows, hnames⟩ := addTypeRef_of_none hself
    rw [hissued] at hr
    have hval : (s.reserve .typeRef).1.row.val = (s.rows .typeRef).issued + 1 :=
      Nat.mod_eq_of_lt hr
    -- the number is higher than those of all rows there are, so none of these is written over
    have hnew : ∀ (x : TypeRef) (row : TypeRefRow), s.row? x = some row →
        (s.reserve .typeRef).1 ≠ x := by
      rintro x row hx rfl
      have hle := h.numbered _ row hx
      omega
    refine ⟨fun x row hx => ?_, fun key => ?_⟩
    · rw [hrows] at hx
      rw [hissued]
      split at hx
      · next e => rw [← e, hval]
      · exact Nat.le_succ_of_le (h.numbered x row hx)
    · by_cases e : n.full = key
      · rw [← e, TypeName.first?_append_self, hn]
        refine ⟨(s.reserve .typeRef).1, ?_, ?_⟩
        · rw [hnames, if_pos rfl]
        · rw [hrows, if_pos rfl]
          rfl
      · rw [TypeName.first?_append_of_ne e]
        have hkey := h.first key
        cases hk : TypeName.first? ns key with
        | none =>
          rw [hk] at hkey
          exact (hnames key).trans ((if_neg e).trans hkey)
        | some m =>
          rw [hk] at hkey
          obtain ⟨x, hx, hxrow⟩ := hkey
          refine ⟨x, ?_, ?_⟩
          · rw [hnames, if_neg e, hx]
          · rw [hrows, if_neg (hnew x _ hxrow), hxrow]

theorem References.row?_addTypeRef (h : s.References ns) {n : TypeName} {x : TypeRef}
    (hadd : s.addTypeRef n.space n.name = (x, s')) (hr : (s'.rows .typeRef).issued < 16777216) :
    s'.row? x = some (((TypeName.first? ns n.full).getD n).row x) := by
  obtain rfl : (s.addTypeRef n.space n.name).1 = x := congrArg Prod.fst hadd
  obtain rfl : (s.addTypeRef n.space n.name).2 = s' := congrArg Prod.snd hadd
  have hfirst := (h.addTypeRef hr).first n.full
  rw [TypeName.first?_append_self] at hfirst
  obtain ⟨x, hx, hrow⟩ := hfirst
  rw [refNames_addTypeRef_self] at hx
  cases hx
  exact hrow

/-! ## Declarations -/

theorem Moves.rises {ts : List Table} (h : s.Moves ts s') : s.Rises s' := by
  induction h with
  | refl => exact .refl s
  | @reserve s' t _ _ ih => exact ih.trans (grows_reserve s' t).issued
  | @put s' t k row _ _ _ ih => exact ih.trans fun u => Nat.le_of_eq (issued_put s' k row u).symm
  | nameRef _ _ ih => exact ih.trans (.refl _)

theorem rises_published (s : Store) (h : TypeDef) (row : TypeRow) : s.Rises (s.published h row) :=
  fun u => Nat.le_of_eq (issued_put s (t := .typeDef) h row u).symm

def mention (s : Store) : Option TypeName → Store
  | none => s
  | some n => (s.addTypeRef n.space n.name).2

theorem References.mention (h : s.References ns) {n : Option TypeName}
    (hr : ((s.mention n).rows .typeRef).issued < 16777216) :
    (s.mention n).References (ns ++ n.toList) := by
  cases n with
  | none =>
    rw [Option.toList_none, List.append_nil]
    exact h
  | some n => exact h.addTypeRef hr

end Store

namespace TypeDecl

variable (d : TypeDecl)

/-- The base that a declaration has in this store: its own, or else the reference that it asks for. -/
def baseIn (s : Store) : Option TypeDefOrRef :=
  d.base.or (d.impliedBase?.map fun n => .typeRef (s.addTypeRef n.space n.name).1)

theorem perform_writeBase (s : Store) :
    d.writeBase.perform s = (.ok (d.baseIn s), s.mention d.impliedBase?) := by
  unfold writeBase baseIn impliedBase?
  cases d.base with
  | some type => rfl
  | none => cases d.category.systemBase <;> rfl

theorem baseIn_of_impliedBase? {n : TypeName} (h : d.impliedBase? = some n) (s : Store) :
    d.baseIn s = some (.typeRef (s.addTypeRef n.space n.name).1) := by
  have hnone : d.base = none := by
    cases hbase : d.base with
    | none => rfl
    | some type => rw [impliedBase?, hbase] at h; cases h
  rw [baseIn, hnone, h]
  rfl

theorem publish_keeps (h : TypeDef) (row : TypeRow) (s : Store) :
    s.Rises ((publish h row).perform s).2 ∧
    ((publish h row).perform s).2.rows .typeRef = s.rows .typeRef ∧
    ((publish h row).perform s).2.refNames = s.refNames := by
  rw [perform_publish]
  split
  · exact ⟨.refl s, rfl, rfl⟩
  · exact ⟨s.rises_published h row, rfl, rfl⟩

theorem parts_keep (k h : TypeDef) (base : Option TypeDefOrRef) (s : Store) :
    s.Rises ((d.gatherParts k base >>= publish h).perform s).2 ∧
    ((d.gatherParts k base >>= publish h).perform s).2.rows .typeRef = s.rows .typeRef ∧
    ((d.gatherParts k base >>= publish h).perform s).2.refNames = s.refNames := by
  have hm := d.moves_gatherParts k base s
  rw [Edit.perform_bind]
  rcases hg : (d.gatherParts k base).perform s with ⟨x, s₁⟩
  rw [hg] at hm
  have hrows : s₁.rows .typeRef = s.rows .typeRef := hm.rows_eq (by decide)
  have hnames : s₁.refNames = s.refNames := hm.refNames_eq (by decide)
  cases x with
  | error x => exact ⟨hm.rises, hrows, hnames⟩
  | ok row =>
    obtain ⟨hrises, hrows', hnames'⟩ := publish_keeps h row s₁
    exact ⟨hm.rises.trans hrises, hrows'.trans hrows, hnames'.trans hnames⟩

end TypeDecl

/-- A declaration asks for the system type its category implies, whether it succeeds or fails. -/
theorem Store.References.define {s : Store} {ns : List TypeName} (h : s.References ns)
    (d : TypeDecl) (hr : (s.define d).2.InRange) :
    (s.define d).2.References (ns ++ d.impliedBase?.toList) := by
  change (d.write.perform s).2.InRange at hr
  change (d.write.perform s).2.References _
  have hreserved : (s.reserve .typeDef).2.References ns :=
    h.moves (.reserve .refl List.mem_cons_self : s.Moves [.typeDef] _) (by decide)
  rw [d.perform_write, d.gather_eq, bind_assoc, Edit.perform_bind, Edit.perform_lift] at hr ⊢
  cases hk : Handle.ofToken .typeDef (s.reserve .typeDef).1.token with
  | error e =>
    rw [hk] at hr
    have hne := Store.reserve_row_ne_zero hr
    rw [Handle.ofToken_token_eq_ok_iff.mpr ⟨rfl, hne⟩] at hk
    cases hk
  | ok k =>
    rw [hk] at hr
    dsimp only at hr ⊢
    rw [bind_assoc, Edit.perform_bind, d.perform_writeBase] at hr ⊢
    obtain ⟨hrises, hrows, hnames⟩ := d.parts_keep k (s.reserve .typeDef).1 (d.baseIn _)
      ((s.reserve .typeDef).2.mention d.impliedBase?)
    exact (hreserved.mention (hrises.inRange hr .typeRef)).congr hrows hnames

/-! ## Sessions -/

def Action.mentions? : Action → Option TypeName
  | .addTypeRef space name => some ⟨space, name⟩
  | .define d => d.impliedBase?
  | _ => none

namespace Session

def mentioned (history : List Action) : List TypeName := history.filterMap Action.mentions?

variable {cfg : Config} {σ : Session} {ns : List TypeName}

theorem references_step (h : σ.store.References ns) (a : Action)
    (hr : (σ.step cfg a).store.InRange) :
    (σ.step cfg a).store.References (ns ++ a.mentions?.toList) := by
  -- what asks for no reference leaves the references as they are
  have hnone (hm : a.mentions? = none) (h' : (σ.step cfg a).store.References ns) :
      (σ.step cfg a).store.References (ns ++ a.mentions?.toList) := by
    rw [hm, Option.toList_none, List.append_nil]
    exact h'
  cases a with
  | addTypeRef space name => exact h.addTypeRef (n := ⟨space, name⟩) (hr .typeRef)
  | define d => exact h.define d hr
  | addTypeSpec signature =>
    exact hnone rfl (h.moves (σ.store.moves_addTypeSpec signature) (by decide))
  | ask q => exact hnone rfl h
  | forget => exact hnone rfl h

theorem mentioned_concat (history : List Action) (a : Action) :
    mentioned (history ++ [a]) = mentioned history ++ a.mentions?.toList := by
  rw [mentioned, List.filterMap_append, List.filterMap_cons]
  cases a.mentions? <;> rfl

theorem run_references (cfg : Config) (history : List Action)
    (hr : (run cfg history).store.InRange) :
    (run cfg history).store.References (mentioned history) := by
  refine foldl_induction (P := fun history σ => σ.store.References (mentioned history))
    Store.references_empty (fun history a h hr' => ?_) history hr
  rw [mentioned_concat]
  exact references_step h a hr'

/-- The pair that a reference is to if it is asked for with `n` after a run: the first one that was
mentioned by the full name of `n`, which may be cut in another place. -/
def addressed (history : List Action) (n : TypeName) : TypeName :=
  (TypeName.first? (mentioned history) n.full).getD n

theorem full_addressed (history : List Action) (n : TypeName) :
    (addressed history n).full = n.full := by
  unfold addressed
  cases h : TypeName.first? (mentioned history) n.full with
  | none => rfl
  | some m => exact TypeName.full_of_first? h

theorem addressed_eq_self {history : List Action} {n : TypeName}
    (h : ∀ m ∈ mentioned history, m.Plain) (hn : n.Plain) : addressed history n = n := by
  have hfull := full_addressed history n
  unfold addressed at hfull ⊢
  cases hm : TypeName.first? (mentioned history) n.full with
  | none => rfl
  | some m =>
    rw [hm] at hfull
    exact TypeName.eq_of_full_eq (h m (List.mem_of_find?_eq_some hm)) hn hfull

end Session

/-- The identifier type, which needs no definition. -/
def TypeName.guid : TypeName := ⟨Platform.systemNamespace, "Guid"⟩

theorem Resolver.resolveReference_eq_guid_iff {r : Resolver} (hdepth : 0 < r.config.maxDepth)
    {x : TypeRef} {n : TypeName} (hrow : r.view.row x = .ok (n.row x)) :
    ((r.resolveReference (.typeRef x)).ask ∅).1 = .ok .guid ↔ n = .guid := by
  rw [(r.answers_resolveReference .none (.typeRef x) ∅ r.keeps_empty).1,
    resolveReferenceFrom_eq_ok_iff, ← TypeName.isNamed_row_iff (h := x)]
  constructor
  · rintro ⟨k, hm, -⟩
    cases hm with
    | guid hrow' hnamed =>
      rw [hrow] at hrow'
      cases hrow'
      exact hnamed
  · intro hnamed
    exact ⟨0, .guid hrow hnamed, hdepth⟩

namespace Session

/-- A look-up finds what has the full name that is asked for. A type that is found was declared with
a pair of that full name, and is named as asked just if that is the pair asked for. A reference is
to the first pair that was mentioned by the full name; one to the identifier type resolves to it
just if that pair is its own. Where no name has a dot, all of them are named as asked. -/
theorem lookup_run (cfg : Config) (history : List Action)
    (hr : (run cfg history).store.InRange) :
    (∀ (n : TypeName) (h : TypeDef), (run cfg history).store.findType? n.space n.name = some h →
      ∃ (d : TypeDecl) (row : TypeRow), (d, h) ∈ made cfg history ∧
        (run cfg history).store.row? h = some row ∧ d.typeName.full = n.full ∧
        (row.isNamed n.space n.name = true ↔ d.typeName = n) ∧
        (d.typeName.Plain → n.Plain → row.isNamed n.space n.name = true)) ∧
    (∀ (n : TypeName) (x : TypeRef) (s : Store),
      (run cfg history).store.addTypeRef n.space n.name = (x, s) → s.InRange →
      ∃ row : TypeRefRow, s.row? x = some row ∧ row.fullName = n.full ∧
        (row.isNamed n.space n.name = true ↔ addressed history n = n) ∧
        ((∀ m ∈ mentioned history, m.Plain) → n.Plain → row.isNamed n.space n.name = true)) ∧
    ∀ (x : TypeRef) (s : Store), 0 < cfg.maxDepth →
      (run cfg history).store.addTypeRef Platform.systemNamespace "Guid" = (x, s) → s.InRange →
      (((Resolver.resolveReference { view := s.view, config := cfg } (.typeRef x)).ask ∅).1 =
          .ok .guid ↔ addressed history .guid = .guid) ∧
        ((∀ m ∈ mentioned history, m.Plain) → addressed history .guid = .guid) := by
  have hrecords := run_records cfg history hr
  have hreferences := run_references cfg history hr
  refine ⟨fun n h hfound => ?_, fun n x s hadd hr' => ?_, fun x s hdepth hadd hr' => ?_⟩
  · obtain ⟨row, hrow, hfull⟩ := (hrecords.names n.full h).mp hfound
    obtain ⟨d, hmade, hstands⟩ := hrecords.declared h row hrow
    have hfull' : d.typeName.full = n.full := hstands.fullName.symm.trans hfull
    refine ⟨d, row, hmade, hrow, hfull', hstands.isNamed_iff, fun hd hn => ?_⟩
    exact hstands.isNamed_iff.mpr (TypeName.eq_of_full_eq hd hn hfull')
  · have hrow := hreferences.row?_addTypeRef hadd (hr' .typeRef)
    refine ⟨_, hrow, full_addressed history n, TypeName.isNamed_row_iff, fun hplain hn => ?_⟩
    exact TypeName.isNamed_row_iff.mpr (addressed_eq_self hplain hn)
  · have hrow := hreferences.row?_addTypeRef (n := .guid) hadd (hr' .typeRef)
    refine ⟨Resolver.resolveReference_eq_guid_iff hdepth ?_, fun hplain => ?_⟩
    · exact View.row_eq_ok_iff.mpr ⟨List.not_mem_nil, hrow⟩
    · exact addressed_eq_self hplain (by decide)

/-- A type and two references, whose names have no dots. -/
def plainNames : List Action :=
  [.define (.ofClauses "A.B" "C" []), .addTypeRef "A.B" "C", .addTypeRef "System" "Guid"]

/-- The same full names, cut in other places. -/
def dottedNames : List Action :=
  [.define (.ofClauses "A.B" "C" []), .addTypeRef "" "System.Guid"]

theorem lookup_run_plainNames :
    (∃ row : TypeRow, (run {} plainNames).store.findType? "A.B" "C" = some ⟨1⟩ ∧
      (run {} plainNames).store.row? (⟨1⟩ : TypeDef) = some row ∧ row.isNamed "A.B" "C" = true) ∧
    ∃ (x : TypeRef) (s : Store) (row : TypeRefRow),
      (run {} plainNames).store.addTypeRef "System" "Guid" = (x, s) ∧ s.row? x = some row ∧
      row.isNamed "System" "Guid" = true ∧
      ((Resolver.resolveReference { view := s.view } (.typeRef x)).ask ∅).1 = .ok .guid := by
  have hr : (run {} plainNames).store.InRange := by decide +kernel
  have hr' : ((run {} plainNames).store.addTypeRef "System" "Guid").2.InRange := by decide +kernel
  have hplain : ∀ m ∈ mentioned plainNames, m.Plain := by decide +kernel
  have hfound : (run {} plainNames).store.findType? "A.B" "C" = some ⟨1⟩ := by decide +kernel
  obtain ⟨htypes, hrefs, hguid⟩ := lookup_run {} plainNames hr
  obtain ⟨d, row, hmade, hrow, -, hnamed, -⟩ := htypes ⟨"A.B", "C"⟩ ⟨1⟩ hfound
  obtain ⟨ref, href, -, -, hrefnamed⟩ := hrefs .guid _ _ rfl hr'
  obtain ⟨hresolves, hself⟩ := hguid _ _ (by decide) rfl hr'
  have hmade' : ∀ p ∈ made {} plainNames, p.1.typeName = ⟨"A.B", "C"⟩ := by decide +kernel
  exact ⟨⟨row, hfound, hrow, hnamed.mpr (hmade' (d, ⟨1⟩) hmade)⟩,
    _, _, ref, rfl, href, hrefnamed hplain (by decide), hresolves.mpr (hself hplain)⟩

/-- A type that is found but is not named as asked, and a reference to the identifier type that does
not resolve. -/
theorem lookup_dottedNames :
    let s := (run {} dottedNames).store
    let x := (s.addTypeRef "System" "Guid").1
    let s' := (s.addTypeRef "System" "Guid").2
    s'.InRange ∧ s.findType? "A" "B.C" = some ⟨1⟩ ∧
      (s.row? (⟨1⟩ : TypeDef)).map (·.isNamed "A" "B.C") = some false ∧
      (s'.row? x).map (·.isNamed "System" "Guid") = some false ∧
      ((Resolver.resolveReference { view := s'.view } (.typeRef x)).ask ∅).1 =
        .error (.unresolvedTypeReference "System.Guid") := by
  exact ⟨by decide +kernel, by decide +kernel, by decide +kernel, by decide +kernel,
    by decide +kernel⟩

end Session

end MetadataProjection
