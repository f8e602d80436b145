import MetadataProjection.Proofs.Records

/-!
# MetadataProjection.Proofs.Verdict

Which declarations succeed, and what one that fails leaves behind.

* `TypeDecl.unknownAccessor?`: the first accessor that no method of the declaration is named after.
* `Edit.FailsWith`: a step that fails in one way or not at all, as long as no counter has run past
  the row numbers. It is closed under composition.
* `Store.verdict`, `Store.define_eq_verdict`: the answer to a declaration, read off the declaration
  and the names that are taken. There are two reasons to fail and no others.
* `Session.define_error_invisible`: a declaration that fails does not show to readers, and its name
  stays free.
-/

namespace MetadataProjection

/-! ## Accessors that name no method -/

def AccessorDecl.unknown? (names : List String) (d : AccessorDecl) : Option String :=
  (d.links.map (·.method)).find? (!names.contains ·)

namespace TypeDecl

/-- The first accessor that no method of the type is named after, properties before events. -/
def unknownAccessor? (d : TypeDecl) : Option String :=
  (d.properties ++ d.events).findSome? (·.unknown? (d.methods.map (·.name)))

/-- Every accessor is the name of a method of the type. -/
def Linked (d : TypeDecl) : Prop :=
  ∀ a ∈ d.properties ++ d.events, ∀ l ∈ a.links, l.method ∈ d.methods.map (·.name)

instance (d : TypeDecl) : Decidable d.Linked :=
  inferInstanceAs (Decidable (∀ a ∈ d.properties ++ d.events, ∀ l ∈ a.links, _))

theorem unknownAccessor?_eq_none_iff {d : TypeDecl} : d.unknownAccessor? = none ↔ d.Linked := by
  simp only [unknownAccessor?, AccessorDecl.unknown?, Linked, List.findSome?_eq_none_iff,
    List.find?_eq_none, List.forall_mem_map, Bool.not_eq_true, Bool.not_eq_false',
    List.contains_iff_mem]

end TypeDecl

/-! ## Steps that fail in one way -/

def faultOf {α : Type} : Except Error α → Option Error
  | .ok _ => none
  | .error e => some e

theorem faultOf_mapM {α β : Type} (f : α → Except Error β) (as : List α) :
    faultOf (as.mapM f) = as.findSome? fun a => faultOf (f a) := by
  induction as with
  | nil => rfl
  | cons a as ih =>
    rw [List.mapM_cons, List.findSome?_cons, ← ih]
    cases f a with
    | error e => rfl
    | ok b => cases as.mapM f <;> rfl

namespace Store

variable {s s' s'' : Store}

def Rises (s s' : Store) : Prop := ∀ t, (s.rows t).issued ≤ (s'.rows t).issued

theorem Rises.refl (s : Store) : s.Rises s := fun _ => Nat.le_refl _

theorem Rises.trans (h : s.Rises s') (h' : s'.Rises s'') : s.Rises s'' :=
  fun t => Nat.le_trans (h t) (h' t)

theorem Rises.inRange (h : s.Rises s') (hr : s'.InRange) : s.InRange :=
  fun t => Nat.lt_of_le_of_lt (h t) (hr t)

theorem reserve_row_ne_zero {t : Table} (hr : (s.reserve t).2.InRange) :
    (s.reserve t).1.row ≠ 0 := by
  have hlt := hr t
  rw [issued_reserve, if_pos rfl] at hlt
  intro hzero
  have hval := congrArg Fin.val hzero
  change ((s.rows t).issued + 1) % 16777216 = 0 at hval
  omega

end Store

namespace Edit

variable {α β : Type}

/-- An answer in `P` if there is no fault, and else the fault. -/
def Expected (fault : Option Error) (P : α → Prop) : Except Error α → Prop
  | .ok a => fault = none ∧ P a
  | .error x => fault = some x

/-- The step fails with `fault`, and where there is none it has an answer in `P`; provided that in
the end no counter has run past the row numbers. -/
structure FailsWith (e : Edit α) (fault : Option Error) (P : α → Prop) : Prop where
  rises : Along Store.Rises e
  answer : ∀ s : Store, (e.perform s).2.InRange → Expected fault P (e.perform s).1

namespace FailsWith

variable {fault fault' : Option Error} {P : α → Prop} {Q : β → Prop}

theorem pure {a : α} (h : P a) : FailsWith (Pure.pure a) none P :=
  ⟨Along.pure Store.Rises.refl a, fun _ _ => ⟨rfl, h⟩⟩

theorem lift (x : Except Error α) : FailsWith (liftM x) (faultOf x) fun _ => True := by
  refine ⟨Along.lift Store.Rises.refl x, fun s _ => ?_⟩
  rw [perform_lift]
  cases x with
  | error e => exact rfl
  | ok a => exact ⟨rfl, trivial⟩

/-- One step after the other. What is known of the first answer says how the second step fails, and
adds to what is known of its answer. -/
theorem bind {e : Edit α} {f : α → Edit β} {faults : α → Option Error} {Q' : α → β → Prop}
    (he : FailsWith e fault P) (hf : ∀ a, FailsWith (f a) (faults a) (Q' a))
    (hP : ∀ a, P a → faults a = fault' ∧ ∀ b, Q' a b → Q b) :
    FailsWith (e >>= f) (fault.or fault') Q := by
  refine ⟨Along.bind (fun _ _ _ => .trans) he.rises fun a => (hf a).rises, fun s hr => ?_⟩
  have ha := he.answer s
  rw [perform_bind] at hr ⊢
  rcases hes : e.perform s with ⟨x, s₁⟩
  rw [hes] at hr ha
  cases x with
  | error x =>
    obtain rfl : fault = some x := ha hr
    rfl
  | ok a =>
    change ((f a).perform s₁).2.InRange at hr
    -- the counters never fall, so they are in range where the second step begins
    obtain ⟨rfl, hPa⟩ := ha (((hf a).rises s₁).inRange hr)
    obtain ⟨hfault, hQ⟩ := hP a hPa
    have hb := (hf a).answer s₁ hr
    change Expected _ Q ((f a).perform s₁).1
    rw [Option.none_or, ← hfault]
    cases hx : ((f a).perform s₁).1 with
    | error x => rw [hx] at hb; exact hb
    | ok b => rw [hx] at hb; exact ⟨hb.1, hQ b hb.2⟩

theorem bind_pure {e : Edit α} (he : FailsWith e fault P) (g : α → β) (h : ∀ a, P a → Q (g a)) :
    FailsWith (e >>= fun a => Pure.pure (g a)) fault Q := by
  rw [← Option.or_none (o := fault)]
  exact he.bind (fun a => pure (P := (· = g a)) rfl) fun a ha => ⟨rfl, fun b e => e ▸ h a ha⟩

theorem andThen {e : Edit α} {f : α → Edit β} (he : FailsWith e none P)
    (hf : ∀ a, FailsWith (f a) fault Q) : FailsWith (e >>= f) fault Q :=
  he.bind hf fun _ _ => ⟨rfl, fun _ => id⟩

theorem mapM {f : α → Edit β} {faults : α → Option Error}
    (hf : ∀ a, FailsWith (f a) (faults a) fun _ => True) (as : List α) :
    FailsWith (as.mapM f) (as.findSome? faults) fun bs => bs.length = as.length := by
  induction as with
  | nil => exact pure rfl
  | cons a as ih =>
    rw [List.mapM_cons]
    have hrest (b : β) := ih.bind_pure (b :: ·) (Q := fun bs => bs.length = (a :: as).length)
      fun bs hbs => congrArg (· + 1) hbs
    have h := (hf a).bind hrest fun _ _ => ⟨rfl, fun _ => id⟩
    rw [List.findSome?_cons]
    cases hfa : faults a <;> rw [hfa] at h <;> exact h

theorem mapM_none {f : α → Edit β} (hf : ∀ a, FailsWith (f a) none fun _ => True) (as : List α) :
    FailsWith (as.mapM f) none fun bs => bs.length = as.length := by
  have h := mapM hf as
  rw [List.findSome?_eq_none_iff.mpr fun _ _ => rfl] at h
  exact h

theorem reserve (t : Table) : FailsWith (Edit.reserve t) none fun h => h.row ≠ 0 :=
  ⟨fun s u => (s.grows_reserve t).issued u, fun _ hr => ⟨rfl, Store.reserve_row_ne_zero hr⟩⟩

theorem put {t : Table} (h : Handle t) (row : Row t) :
    FailsWith (Edit.put h row) none fun _ => True :=
  ⟨fun s u => Nat.le_of_eq (s.issued_put h row u).symm, fun _ _ => ⟨rfl, trivial⟩⟩

theorem record {t : Table} (h : Handle t) (row : Row t) :
    FailsWith (Edit.record h row) (faultOf (Handle.ofToken t h.token)) fun _ => True := by
  have hrest (h' : Handle t) := (put h' row).bind_pure (fun _ => h') (Q := fun _ => True)
    fun _ _ => trivial
  have h := (lift (Handle.ofToken t h.token)).bind hrest fun _ _ => ⟨rfl, fun _ => id⟩
  rw [Option.or_none] at h
  exact h

theorem reserve_put {t : Table} (row : Handle t → Row t) :
    FailsWith (Edit.reserve t >>= fun h => Edit.put h (row h) >>= fun _ => Pure.pure h) none
      fun _ => True :=
  (reserve t).andThen fun h => (put h (row h)).bind_pure (fun _ => h) fun _ _ => trivial

/-- A number is handed out, parts are written, and then the row under the number, which is not 0. -/
theorem reserve_record {t : Table} {e : Handle t → Edit (Row t)}
    (he : ∀ h, FailsWith (e h) none fun _ => True) :
    FailsWith (Edit.reserve t >>= fun h => e h >>= Edit.record h) none fun _ => True := by
  change FailsWith _ (Option.or none none) _
  refine (reserve t).bind (fun h => (he h).andThen (record h)) fun h hne => ⟨?_, fun _ => id⟩
  rw [Handle.ofToken_token_eq_ok_iff.mpr ⟨rfl, hne⟩]
  rfl

end FailsWith
end Edit

/-! ## Declarations -/

theorem AttributeDecl.failsWith_write (parent : Token) (d : AttributeDecl) :
    (d.write parent).FailsWith none fun _ => True :=
  .reserve_put _

theorem MethodDecl.failsWith_write (parent : TypeDef) (d : MethodDecl) :
    (d.write parent).FailsWith none fun _ => True := by
  have hparam (row : ParamRow) : (MethodDecl.writeParam row).FailsWith none fun _ => True :=
    .reserve_put _
  rw [write_eq]
  refine .reserve_record fun h => ?_
  refine (Edit.FailsWith.mapM_none hparam _).andThen fun params => ?_
  exact (Edit.FailsWith.mapM_none (AttributeDecl.failsWith_write _) _).bind_pure _
    fun _ _ => trivial

theorem FieldDecl.failsWith_write (parent : TypeDef) (d : FieldDecl) :
    (d.write parent).FailsWith none fun _ => True := by
  have h := Edit.FailsWith.reserve_record fun h => .pure (a := d.row parent h) trivial
  simp only [pure_bind] at h
  exact h

namespace AccessorDecl

variable (owner : String) (d : AccessorDecl)

def unknown (owner name : String) : Error := .invalidMetadata (.unknownAccessor name owner)

theorem lookup_zip_eq_none_iff {names : List String} {methods : List MethodDef} {n : String}
    (h : methods.length = names.length) : (names.zip methods).lookup n = none ↔ n ∉ names := by
  have hfst : (names.zip methods).map Prod.fst = names := List.map_fst_zip (Nat.le_of_eq h.symm)
  rw [List.lookup_eq_none_iff]
  constructor
  · intro hn hmem
    rw [← hfst] at hmem
    obtain ⟨p, hp, rfl⟩ := List.mem_map.mp hmem
    simpa using hn p hp
  · intro hn p hp
    rw [bne_iff_ne]
    rintro rfl
    exact hn (hfst ▸ List.mem_map_of_mem hp)

def resolveLink (methods : List (String × MethodDef)) (l : LinkDecl) : Except Error Link :=
  match methods.lookup l.method with
  | some h => .ok ⟨l.semantics, h⟩
  | none => .error (unknown owner l.method)

theorem resolveLinks_eq (methods : List (String × MethodDef)) :
    d.resolveLinks owner methods = d.links.mapM (resolveLink owner methods) := rfl

theorem faultOf_resolveLink {names : List String} {methods : List MethodDef}
    (h : methods.length = names.length) (l : LinkDecl) :
    faultOf (resolveLink owner (names.zip methods) l) =
      if names.contains l.method then none else some (unknown owner l.method) := by
  unfold resolveLink
  cases hl : (names.zip methods).lookup l.method with
  | none =>
    have hn := (lookup_zip_eq_none_iff h).mp hl
    simp [faultOf, hn]
  | some x =>
    have hmem : l.method ∈ names := by
      by_contra hn
      rw [(lookup_zip_eq_none_iff h).mpr hn] at hl
      cases hl
    simp [faultOf, hmem]

/-- All links lead to methods, or the first that does not is the fault. -/
theorem faultOf_resolveLinks {names : List String} {methods : List MethodDef}
    (h : methods.length = names.length) :
    faultOf (d.resolveLinks owner (names.zip methods)) =
      (d.unknown? names).map (unknown owner) := by
  rw [resolveLinks_eq, faultOf_mapM, unknown?]
  induction d.links with
  | nil => rfl
  | cons l links ih =>
    rw [List.findSome?_cons, ih, faultOf_resolveLink owner h, List.map_cons, List.find?_cons]
    cases names.contains l.method <;> rfl

variable (methods : List (String × MethodDef))

theorem failsWith_writeProperty : (d.writeProperty owner methods).FailsWith
    (faultOf (d.resolveLinks owner methods)) fun _ => True := by
  have hrow (links : List Link) := Edit.FailsWith.reserve_record fun h =>
    .pure (a := d.propertyRow links h) trivial
  simp only [pure_bind] at hrow
  have h := (Edit.FailsWith.lift (d.resolveLinks owner methods)).bind hrow
    fun _ _ => ⟨rfl, fun _ => id⟩
  rw [Option.or_none] at h
  exact h

theorem failsWith_writeEvent : (d.writeEvent owner methods).FailsWith
    (faultOf (d.resolveLinks owner methods)) fun _ => True := by
  have hrow (links : List Link) := Edit.FailsWith.reserve_record fun h =>
    .pure (a := d.eventRow links h) trivial
  simp only [pure_bind] at hrow
  have h := (Edit.FailsWith.lift (d.resolveLinks owner methods)).bind hrow
    fun _ _ => ⟨rfl, fun _ => id⟩
  rw [Option.or_none] at h
  exact h

end AccessorDecl

namespace TypeDecl

variable (d : TypeDecl)

theorem failsWith_writeBase : d.writeBase.FailsWith none fun _ => True := by
  unfold writeBase
  split
  · exact .pure trivial
  · next name _ _ =>
    exact ⟨fun s => (s.grows_addTypeRef Platform.systemNamespace name).issued,
      fun _ _ => ⟨rfl, trivial⟩⟩
  · exact .pure trivial

theorem findSome?_faultOf_resolveLinks {methods : List MethodDef}
    (h : methods.length = d.methods.length) :
    (d.properties.findSome? fun a => faultOf (a.resolveLinks d.ownerName (d.named methods))).or
        (d.events.findSome? fun a => faultOf (a.resolveLinks d.ownerName (d.named methods))) =
      d.unknownAccessor?.map (AccessorDecl.unknown d.ownerName) := by
  have hlength : methods.length = (d.methods.map (·.name)).length := by rw [h, List.length_map]
  have hfault (a : AccessorDecl) := a.faultOf_resolveLinks d.ownerName hlength
  simp only [named, hfault]
  rw [← List.findSome?_append, unknownAccessor?, List.map_findSome?]
  rfl

theorem failsWith_gather {h : TypeDef} (hne : h.row ≠ 0) :
    (d.gather h).FailsWith (d.unknownAccessor?.map (AccessorDecl.unknown d.ownerName))
      fun row => row.fullName = qualifiedName d.space d.name := by
  unfold gather
  rw [Handle.ofToken_token_eq_ok_iff.mpr ⟨rfl, hne⟩]
  refine (Edit.FailsWith.lift _).andThen fun k => d.failsWith_writeBase.andThen fun base =>
    (Edit.FailsWith.mapM_none (AttributeDecl.failsWith_write _) _).andThen fun attributes => ?_
  refine (Edit.FailsWith.mapM_none (MethodDecl.failsWith_write k) _).bind (fun methods => ?_)
    fun methods hlength => ⟨d.findSome?_faultOf_resolveLinks hlength, fun _ => id⟩
  refine (Edit.FailsWith.mapM (fun a => a.failsWith_writeProperty _ _) _).bind
    (fun properties => ?_) fun _ _ => ⟨rfl, fun _ => id⟩
  rw [← Option.or_none (o := d.events.findSome? _)]
  refine (Edit.FailsWith.mapM (fun a => a.failsWith_writeEvent _ _) _).bind (fun events => ?_)
    fun _ _ => ⟨rfl, fun _ => id⟩
  exact (Edit.FailsWith.mapM_none (FieldDecl.failsWith_write k) _).bind_pure _ fun _ _ => rfl

end TypeDecl

namespace Store

/-- The answer to a declaration: an accessor that names no method is noticed first, then a name that
is taken. -/
def verdict (s : Store) (d : TypeDecl) : Except Error TypeDef :=
  match d.unknownAccessor? with
  | some name => .error (.invalidMetadata (.unknownAccessor name d.ownerName))
  | none =>
    if s.typeNames.contains (qualifiedName d.space d.name) then
      .error (.invalidMetadata (.definedTwice (qualifiedName d.space d.name)))
    else .ok (s.reserve .typeDef).1

/-- As long as no counter runs past the row numbers, a declaration fails for these two reasons. -/
theorem define_eq_verdict {s s' : Store} {d : TypeDecl} {x : Except Error TypeDef}
    (hd : s.define d = (x, s')) (hr : s'.InRange) : x = s.verdict d := by
  have hgathered : ∀ {y : Except Error TypeRow} {s₁ : Store},
      (d.gather (s.reserve .typeDef).1).perform (s.reserve .typeDef).2 = (y, s₁) → s₁.InRange →
        Edit.Expected (d.unknownAccessor?.map (AccessorDecl.unknown d.ownerName))
          (fun row => row.fullName = qualifiedName d.space d.name) y := by
    intro y s₁ hg hr₁
    have hgrows := (d.builds_gather (s.reserve .typeDef).1).grows (s.reserve .typeDef).2
    rw [hg] at hgrows
    have hne := reserve_row_ne_zero (hgrows.inRange hr₁)
    have hanswer := (d.failsWith_gather hne).answer (s.reserve .typeDef).2
    rw [hg] at hanswer
    exact hanswer hr₁
  have hattempt := s.attempt_define d
  rw [hd] at hattempt
  cases hattempt with
  | unwritten hg =>
    have hfault := hgathered hg hr
    obtain ⟨name, hname, rfl⟩ := Option.map_eq_some_iff.mp hfault
    rw [verdict, hname]
    rfl
  | taken hg htaken =>
    obtain ⟨hfault, hrow⟩ := hgathered hg hr
    rw [(unknown_of_gather hg).2, hrow] at htaken
    rw [verdict, Option.map_eq_none_iff.mp hfault, hrow]
    exact (if_pos htaken).symm
  | published hg hfree hs' =>
    subst hs'
    obtain ⟨hfault, hrow⟩ := hgathered hg (inRange_put.mp hr)
    rw [(unknown_of_gather hg).2, hrow] at hfree
    rw [verdict, Option.map_eq_none_iff.mp hfault]
    exact (if_neg (Bool.eq_false_iff.mp hfree)).symm

theorem verdict_eq_ok {s : Store} {d : TypeDecl} (hl : d.Linked)
    (hfree : s.findType? d.space d.name = none) : s.verdict d = .ok (s.reserve .typeDef).1 := by
  have hnot : s.typeNames.contains (qualifiedName d.space d.name) = false := by
    rw [Std.TreeMap.contains_eq_isSome_getElem?]
    exact Option.isSome_eq_false_iff.mpr (Option.isNone_iff_eq_none.mpr hfree)
  rw [verdict, TypeDecl.unknownAccessor?_eq_none_iff.mpr hl, hnot]
  rfl

theorem verdict_eq_error {s : Store} {d : TypeDecl} {e : Error} (h : s.verdict d = .error e) :
    (∃ name, d.unknownAccessor? = some name ∧
      e = .invalidMetadata (.unknownAccessor name d.ownerName)) ∨
    (∃ k, s.findType? d.space d.name = some k) ∧
      e = .invalidMetadata (.definedTwice (qualifiedName d.space d.name)) := by
  unfold verdict at h
  split at h
  · next name hname =>
    cases h
    exact .inl ⟨name, hname, rfl⟩
  · split at h
    · next htaken =>
      cases h
      rw [Std.TreeMap.contains_eq_isSome_getElem?] at htaken
      exact .inr ⟨Option.isSome_iff_exists.mp htaken, rfl⟩
    · cases h

/-! ## What a failure leaves behind -/

/-- A reader of `s'` finds what a reader of `s` does. What was handed out in between is listed by no
type, and is nothing that had a row before. -/
structure SameToReaders (s s' : Store) : Prop where
  definitions : s'.definitions = s.definitions
  definitionCount : s'.definitionCount = s.definitionCount
  findType? : ∀ space name : String, s'.findType? space name = s.findType? space name
  rows : ∀ {t : Table} (x : Handle t) (row : Row t), s.row? x = some row → s'.row? x = some row
  unlisted : ∀ (h : TypeDef) (row : TypeRow), s'.row? h = some row → ∀ {u : Table} (x : Handle u),
    s.Issued s' x → x ∉ listed (t := .typeDef) row u
  unused : ∀ {t : Table} (x : Handle t), s.Issued s' x → s.row? x = none

theorem Records.definitionCount_eq {s : Store} {made : List (TypeDecl × TypeDef)}
    (h : s.Records made) : s.definitionCount = made.length := by
  have hlength := congrArg List.length h.definitions_eq
  rw [definitions, List.length_map, List.length_map, Std.TreeMap.length_keys] at hlength
  exact hlength

variable {s s' : Store} {made : List (TypeDecl × TypeDef)} {d : TypeDecl} {e : Error}

theorem Records.define_error (h : s.Records made) (hd : s.define d = (.error e, s'))
    (hr : s'.InRange) : s'.Records made ∧ s.SameToReaders s' := by
  have h' : s'.Records (made ++ []) := h.define hd hr
  rw [List.append_nil] at h'
  obtain ⟨-, hc, hcases⟩ := define_cases hd h.tidy hr
  cases hcases with
  | failed hrows hnames =>
    refine ⟨h', ?_, ?_, fun space name => ?_, hc.partOf.rows, fun x row hrow u y hi hmem => ?_,
      fun x hi => h.tidy.row?_of_issued hr hi⟩
    · rw [h.definitions_eq, h'.definitions_eq]
    · rw [h.definitionCount_eq, h'.definitionCount_eq]
    · rw [Store.findType?, Store.findType?, hnames]
    · -- the rows of types are those of before, so what they list had rows before
      rw [hrows] at hrow
      have howns : s.Owns x y := ⟨row, hrow, hmem⟩
      exact h.tidy.not_issued hr (h.tidy.present howns) hi

end Store

namespace Session

/-- After a declaration that fails, which it does for one of two reasons, a reader finds the store
as it was before, and no type lists what the declaration was handed out. If its name was free, the
next declaration of that name succeeds, provided that its accessors name methods of it. -/
theorem define_error_invisible (cfg : Config) (history : List Action) (d : TypeDecl) (e : Error)
    (s' : Store) (hd : (run cfg history).store.define d = (.error e, s')) (hr : s'.InRange) :
    ((∃ name, d.unknownAccessor? = some name ∧
        e = .invalidMetadata (.unknownAccessor name d.ownerName)) ∨
      (∃ k, (run cfg history).store.findType? d.space d.name = some k) ∧
        e = .invalidMetadata (.definedTwice (qualifiedName d.space d.name))) ∧
    (run cfg history).store.SameToReaders s' ∧
    ∀ d' : TypeDecl, (run cfg history).store.findType? d.space d.name = none →
      d'.space = d.space → d'.name = d.name → d'.Linked → (s'.define d').2.InRange →
      ∃ h, (s'.define d').1 = .ok h ∧ (s'.define d').2.findType? d.space d.name = some h := by
  have hgrows := (run cfg history).store.grows_define d
  rw [hd] at hgrows
  have hrecords := run_records cfg history (hgrows.inRange hr)
  obtain ⟨hrecords', hsame⟩ := hrecords.define_error hd hr
  refine ⟨?_, hsame, fun d' hfree hspace hname hl hr' => ?_⟩
  · exact Store.verdict_eq_error (Store.define_eq_verdict hd hr).symm
  · have hfree' : s'.findType? d'.space d'.name = none := by
      rw [hsame.findType?, hspace, hname, hfree]
    rcases hd' : s'.define d' with ⟨x, s''⟩
    rw [hd'] at hr'
    obtain rfl := (Store.define_eq_verdict hd' hr').trans (Store.verdict_eq_ok hl hfree')
    obtain ⟨-, -, hcases⟩ := Store.define_cases hd' hrecords'.tidy hr'
    cases hcases with
    | added _ _ hstands _ hnames =>
      refine ⟨_, rfl, ?_⟩
      rw [Store.findType?, hnames, hstands.fullName, hspace, hname, if_pos rfl]

/-- A class with one method. -/
def canvas : List Action :=
  [.define (.ofClauses "Demo" "Canvas" [.method "Draw" [.param "x" (.fundamental .int32)]])]

/-- A class whose second property is linked to a method it does not have. -/
def broken : TypeDecl :=
  .ofClauses "Demo" "Broken" [.attribute ⟨"Demo", "Mark", {}⟩,
    .method "Move" [.param "x" (.fundamental .int32), .returnName "moved"],
    .simpleProperty "Size" (.fundamental .int32) true, .property "P" [.getter "get_P"]]

def repaired : TypeDecl :=
  .ofClauses "Demo" "Broken" [.method "get_P" [.specialName], .property "P" [.getter "get_P"]]

theorem define_error_invisible_broken : ∃ s', s'.InRange ∧
    (run {} canvas).store.define broken =
      (.error (.invalidMetadata (.unknownAccessor "get_P" "Demo.Broken")), s') ∧
    s'.definitions = [⟨1⟩] ∧ s'.definitionCount = 1 ∧ s'.findType? "Demo" "Broken" = none ∧
    (∃ row : TypeRow, s'.row? (⟨1⟩ : TypeDef) = some row ∧ (⟨2⟩ : MethodDef) ∉ row.methods) ∧
    ∃ h, (s'.define repaired).1 = .ok h ∧
      (s'.define repaired).2.findType? "Demo" "Broken" = some h := by
  have hdefinitions : (run {} canvas).store.definitions = [⟨1⟩] := by decide +kernel
  have hcount : (run {} canvas).store.definitionCount = 1 := by decide +kernel
  have hfree : (run {} canvas).store.findType? "Demo" "Broken" = none := by decide +kernel
  have hsome : ((run {} canvas).store.row? (⟨1⟩ : TypeDef)).isSome := by decide +kernel
  obtain ⟨row, hrow⟩ := Option.isSome_iff_exists.mp hsome
  have herror : ((run {} canvas).store.define broken).1 =
      .error (.invalidMetadata (.unknownAccessor "get_P" "Demo.Broken")) := by decide +kernel
  obtain ⟨s', hs'⟩ : ∃ s', s' = ((run {} canvas).store.define broken).2 := ⟨_, rfl⟩
  have hd : (run {} canvas).store.define broken =
      (.error (.invalidMetadata (.unknownAccessor "get_P" "Demo.Broken")), s') :=
    Prod.ext herror hs'.symm
  have hr : s'.InRange := by rw [hs']; decide +kernel
  have hr' : (s'.define repaired).2.InRange := by rw [hs']; decide +kernel
  have hissued : (run {} canvas).store.Issued s' (⟨2⟩ : MethodDef) := by
    rw [hs']
    exact ⟨2, by decide +kernel, by decide +kernel, by decide +kernel⟩
  obtain ⟨-, hsame, hnext⟩ := define_error_invisible {} canvas broken _ s' hd hr
  have hrow' := hsame.rows (t := .typeDef) ⟨1⟩ row hrow
  exact ⟨s', hr, hd, hsame.definitions.trans hdefinitions, hsame.definitionCount.trans hcount,
    (hsame.findType? "Demo" "Broken").trans hfree,
    ⟨row, hrow', hsame.unlisted ⟨1⟩ row hrow' ⟨2⟩ hissued⟩,
    hnext repaired hfree rfl rfl (by decide +kernel) hr'⟩

end Session

end MetadataProjection
