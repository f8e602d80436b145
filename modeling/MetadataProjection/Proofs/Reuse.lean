import MetadataProjection.Proofs.FullNames

/-!
# MetadataProjection.Proofs.Reuse

Row numbers come around. A counter that has handed out all of them begins again, and a row that is
written then takes the place of the one that has its number.

* `Renewal`: a table whose rows have names, and an index by these names, before and after. The rows
  of some handles are new ones, of names that were free; all others are as they were.
* `Store.renewsRefs_define`, `Store.renewsTypes_define`: what a step renews.
* `Store.HoldsSpec`: which signature is under a handle, however often its number has come around.
* `Session.rows_run`: how long a handle reads the row it was returned for.
-/

namespace MetadataProjection

/-! ## Rows with names -/

section Renewals

variable {α ρ : Type}

/-- From one table and its index to another, the handles that are used again have new rows. Their
names were free, and lead to them. -/
structure Renewal (name : ρ → String) (again : α → Prop) (index index' : String → Option α)
    (rows rows' : α → Option ρ) : Prop where
  names : ∀ key x, index key = some x → index' key = some x
  kept : ∀ x, ¬ again x → rows' x = rows x
  fresh : ∀ x, again x → ∃ r, rows' x = some r ∧ index (name r) = none ∧ index' (name r) = some x
  led : ∀ key x, index' key = some x → index key = some x ∨ again x

/-- The name of a row leads to it, and names lead to rows. -/
structure Indexed (name : ρ → String) (index : String → Option α) (rows : α → Option ρ) : Prop where
  named : ∀ x r, rows x = some r → index (name r) = some x
  written : ∀ key x, index key = some x → (rows x).isSome

theorem Indexed.of_none {name : ρ → String} {index : String → Option α} {rows : α → Option ρ}
    (hrows : ∀ x, rows x = none) (hindex : ∀ key, index key = none) : Indexed name index rows := by
  refine ⟨fun x r hr => ?_, fun key x hx => ?_⟩
  · rw [hrows] at hr
    cases hr
  · rw [hindex] at hx
    cases hx

variable {name : ρ → String} {again again' : α → Prop} {index₁ index₂ index₃ : String → Option α}
  {rows₁ rows₂ rows₃ : α → Option ρ}

namespace Renewal

theorem refl (name : ρ → String) (index : String → Option α) (rows : α → Option ρ) :
    Renewal name (fun _ => False) index index rows rows :=
  ⟨fun _ _ h => h, fun _ _ => rfl, fun _ h => h.elim, fun _ _ h => .inl h⟩

theorem single {x : α} {r : ρ} (hfree : index₁ (name r) = none) (hrow : rows₂ x = some r)
    (hrows : ∀ y, x ≠ y → rows₂ y = rows₁ y) (hname : index₂ (name r) = some x)
    (hnames : ∀ key, name r ≠ key → index₂ key = index₁ key) :
    Renewal name (x = ·) index₁ index₂ rows₁ rows₂ := by
  refine ⟨fun key y hy => ?_, fun y hy => hrows y hy, fun y hy => ?_, fun key y hy => ?_⟩
  · have hne : name r ≠ key := by
      rintro rfl
      rw [hfree] at hy
      cases hy
    rw [hnames key hne, hy]
  · subst hy
    exact ⟨r, hrow, hfree, hname⟩
  · by_cases hkey : name r = key
    · rw [← hkey, hname] at hy
      exact .inr (Option.some.inj hy)
    · rw [hnames key hkey] at hy
      exact .inl hy

theorem free (h : Renewal name again index₁ index₂ rows₁ rows₂) {key : String}
    (hkey : index₂ key = none) : index₁ key = none := by
  cases hk : index₁ key with
  | none => rfl
  | some x =>
    rw [h.names key x hk] at hkey
    cases hkey

theorem trans (h : Renewal name again index₁ index₂ rows₁ rows₂)
    (h' : Renewal name again' index₂ index₃ rows₂ rows₃) :
    Renewal name (fun x => again x ∨ again' x) index₁ index₃ rows₁ rows₃ := by
  refine ⟨fun key x hk => h'.names key x (h.names key x hk), fun x hx => ?_, fun x hx => ?_,
    fun key x hk => ?_⟩
  · rw [not_or] at hx
    rw [h'.kept x hx.2, h.kept x hx.1]
  · by_cases hx' : again' x
    · obtain ⟨r, hr, hnone, hsome⟩ := h'.fresh x hx'
      exact ⟨r, hr, h.free hnone, hsome⟩
    · obtain ⟨r, hr, hnone, hsome⟩ := h.fresh x (hx.resolve_right hx')
      exact ⟨r, (h'.kept x hx').trans hr, hnone, h'.names _ x hsome⟩
  · rcases h'.led key x hk with hk | hx
    · rcases h.led key x hk with hk | hx
      · exact .inl hk
      · exact .inr (.inl hx)
    · exact .inr (.inr hx)

theorem congr (h : Renewal name again index₁ index₂ rows₁ rows₂)
    (hagain : ∀ x, again x ↔ again' x) : Renewal name again' index₁ index₂ rows₁ rows₂ :=
  (funext fun x => propext (hagain x) : again = again') ▸ h

theorem indexed (h : Renewal name again index₁ index₂ rows₁ rows₂)
    (hi : Indexed name index₁ rows₁) : Indexed name index₂ rows₂ := by
  refine ⟨fun x r hr => ?_, fun key x hk => ?_⟩
  · by_cases hx : again x
    · obtain ⟨r', hr', -, hsome⟩ := h.fresh x hx
      rw [hr] at hr'
      cases hr'
      exact hsome
    · rw [h.kept x hx] at hr
      exact h.names _ x (hi.named x r hr)
  · by_cases hx : again x
    · obtain ⟨r, hr, -⟩ := h.fresh x hx
      rw [hr]
      rfl
    · rw [h.kept x hx]
      exact hi.written key x ((h.led key x hk).resolve_right hx)

/-- A row whose handle is used again is gone, for the name of the new row was free. -/
theorem row_eq_iff (h : Renewal name again index₁ index₂ rows₁ rows₂)
    (hi : Indexed name index₁ rows₁) {x : α} {r : ρ} (hr : rows₁ x = some r) :
    rows₂ x = some r ↔ ¬ again x := by
  constructor
  · intro hr₂ hx
    obtain ⟨r', hr', hnone, -⟩ := h.fresh x hx
    rw [hr₂] at hr'
    cases hr'
    rw [hi.named x r hr] at hnone
    cases hnone
  · intro hx
    rw [h.kept x hx, hr]

end Renewal
end Renewals

namespace Store

variable {s s' s'' : Store} {t : Table}

/-! ## Numbers -/

theorem moves_reserve (s : Store) (t : Table) : s.Moves [t] (s.reserve t).2 :=
  .reserve .refl List.mem_cons_self

theorem not_issued_of_eq (h : (s'.rows t).issued = (s.rows t).issued) (x : Handle t) :
    ¬ s.Issued s' x := by
  rintro ⟨k, hk, hk', -⟩
  omega

theorem issued_succ_iff (h : (s'.rows t).issued = (s.rows t).issued + 1) (x : Handle t) :
    s.Issued s' x ↔ (s.reserve t).1 = x := by
  constructor
  · rintro ⟨k, hk, hk', e⟩
    obtain rfl : k = (s.rows t).issued + 1 := by omega
    cases x
    cases e
    rfl
  · rintro rfl
    exact ⟨(s.rows t).issued + 1, by omega, by omega, rfl⟩

theorem issued_trans_iff (h : (s.rows t).issued ≤ (s'.rows t).issued)
    (h' : (s'.rows t).issued ≤ (s''.rows t).issued) (x : Handle t) :
    s.Issued s'' x ↔ s.Issued s' x ∨ s'.Issued s'' x := by
  constructor
  · rintro ⟨k, hk, hk', e⟩
    rcases Nat.lt_or_ge (s'.rows t).issued k with hlt | hge
    · exact .inr ⟨k, hlt, hk', e⟩
    · exact .inl ⟨k, hk, hge, e⟩
  · rintro (⟨k, hk, hk', e⟩ | ⟨k, hk, hk', e⟩)
    · exact ⟨k, hk, by omega, e⟩
    · exact ⟨k, by omega, hk', e⟩

/-! ## References -/

structure RenewsRefs (s s' : Store) : Prop where
  rises : (s.rows .typeRef).issued ≤ (s'.rows .typeRef).issued
  renewal : Renewal TypeRefRow.fullName (fun x : TypeRef => s.Issued s' x) (s.refNames[·]?)
    (s'.refNames[·]?) s.row? s'.row?

theorem RenewsRefs.of_eq (hrows : s'.rows .typeRef = s.rows .typeRef)
    (hnames : s'.refNames = s.refNames) : s.RenewsRefs s' := by
  have hissued : (s'.rows .typeRef).issued = (s.rows .typeRef).issued := congrArg Rows.issued hrows
  have hrow : (s'.row? : TypeRef → Option TypeRefRow) = s.row? := by
    funext x
    rw [row?, hrows, row?]
  refine ⟨hissued.ge, ?_⟩
  rw [hrow, hnames]
  exact (Renewal.refl _ _ _).congr fun x => by simp [not_issued_of_eq hissued x]

theorem RenewsRefs.trans (h : s.RenewsRefs s') (h' : s'.RenewsRefs s'') : s.RenewsRefs s'' := by
  refine ⟨h.rises.trans h'.rises, (h.renewal.trans h'.renewal).congr fun x => ?_⟩
  exact (issued_trans_iff h.rises h'.rises x).symm

theorem renewsRefs_addTypeRef (s : Store) (n : TypeName) :
    s.RenewsRefs (s.addTypeRef n.space n.name).2 := by
  cases hkey : s.refNames[n.full]? with
  | some x =>
    rw [addTypeRef_of_some hkey]
    exact .of_eq rfl rfl
  | none =>
    obtain ⟨-, hissued, hrows, hnames⟩ := addTypeRef_of_none hkey
    refine ⟨by omega, Renewal.congr ?_ fun x => (issued_succ_iff hissued x).symm⟩
    refine .single (r := n.row (s.reserve .typeRef).1) hkey ?_ (fun x hx => ?_) ?_ fun key hne => ?_
    · rw [hrows, if_pos rfl]
    · rw [hrows, if_neg hx]
    · exact (hnames n.full).trans (if_pos rfl)
    · exact (hnames key).trans (if_neg hne)

theorem renewsRefs_mention (s : Store) (n : Option TypeName) : s.RenewsRefs (s.mention n) := by
  cases n with
  | none => exact .of_eq rfl rfl
  | some n => exact s.renewsRefs_addTypeRef n

/-- A declaration asks for a reference to its implied base, and for no other. -/
theorem renewsRefs_define (s : Store) (d : TypeDecl) : s.RenewsRefs (s.define d).2 := by
  have hm := s.moves_reserve .typeDef
  have hreserve : s.RenewsRefs (s.reserve .typeDef).2 :=
    .of_eq (hm.rows_eq (by decide)) (hm.refNames_eq (by decide))
  change s.RenewsRefs (d.write.perform s).2
  rw [d.perform_write, d.gather_eq, bind_assoc, Edit.perform_bind, Edit.perform_lift]
  cases Handle.ofToken .typeDef (s.reserve .typeDef).1.token with
  | error e => exact hreserve
  | ok k =>
    dsimp only
    rw [bind_assoc, Edit.perform_bind, d.perform_writeBase]
    obtain ⟨-, hrows, hnames⟩ := d.parts_keep k (s.reserve .typeDef).1 (d.baseIn _)
      ((s.reserve .typeDef).2.mention d.impliedBase?)
    exact (hreserve.trans (renewsRefs_mention _ _)).trans (.of_eq hrows hnames)

/-! ## Types -/

def RenewsTypes (s s' : Store) (hs : List TypeDef) : Prop :=
  Renewal TypeRow.fullName (· ∈ hs) (s.typeNames[·]?) (s'.typeNames[·]?) s.row? s'.row?

theorem RenewsTypes.of_eq (hrows : ∀ x : TypeDef, s'.row? x = s.row? x)
    (hnames : s'.typeNames = s.typeNames) : s.RenewsTypes s' [] := by
  unfold RenewsTypes
  rw [funext hrows, hnames]
  exact (Renewal.refl _ _ _).congr fun x => by simp

theorem RenewsTypes.trans {hs hs' : List TypeDef} (h : s.RenewsTypes s' hs)
    (h' : s'.RenewsTypes s'' hs') : s.RenewsTypes s'' (hs ++ hs') :=
  (Renewal.trans h h').congr fun _ => List.mem_append.symm

/-- A declaration renews the type that it adds; if it fails, it renews none. -/
theorem renewsTypes_define (s : Store) (d : TypeDecl) :
    s.RenewsTypes (s.define d).2 (s.define d).1.toOption.toList := by
  have hattempt := s.attempt_define d
  generalize (s.define d).1 = x, (s.define d).2 = s' at hattempt
  cases hattempt with
  | unwritten hg | taken hg _ =>
    obtain ⟨hrows, hnames⟩ := unknown_of_gather hg
    exact .of_eq hrows hnames
  | @published row s₁ _ hg hfree hs' =>
    subst hs'
    obtain ⟨hrows, hnames⟩ := unknown_of_gather hg
    rw [hnames] at hfree
    have hnone : s.typeNames[row.fullName]? = none :=
      Std.TreeMap.getElem?_eq_none_of_contains_eq_false hfree
    have hkey := s₁.typeNames_published (s.reserve .typeDef).1 row
    have hone : Renewal TypeRow.fullName ((s.reserve .typeDef).1 = ·) (s.typeNames[·]?)
        ((s₁.published (s.reserve .typeDef).1 row).typeNames[·]?) s.row?
        (s₁.published (s.reserve .typeDef).1 row).row? := by
      refine .single hnone ?_ (fun x hx => ?_) ?_ fun key hne => ?_
      · rw [row?_published, if_pos rfl]
      · rw [row?_published, if_neg hx.symm, hrows]
      · rw [hkey, if_pos rfl]
      · rw [hkey, if_neg hne.symm, hnames]
    exact hone.congr fun x => eq_comm.trans List.mem_singleton.symm

/-! ## Instantiations -/

theorem rows_define_typeSpec (s : Store) (d : TypeDecl) :
    (s.define d).2.rows .typeSpec = s.rows .typeSpec := by
  have hm := s.moves_reserve .typeDef
  have hreserve := hm.rows_eq (t := .typeSpec) (by decide)
  have hgather := d.moves_gather (s.reserve .typeDef).1 (s.reserve .typeDef).2
  have hattempt := s.attempt_define d
  generalize (s.define d).1 = x, (s.define d).2 = s' at hattempt
  cases hattempt with
  | unwritten hg | taken hg _ =>
    rw [hg] at hgather
    exact (hgather.rows_eq (by decide)).trans hreserve
  | published hg _ hs' =>
    rw [hg] at hgather
    rw [hs']
    exact (hgather.rows_eq (by decide)).trans hreserve

def specRow (h : TypeSpec) (e : Signature) : TypeSpecRow := { token := h.token, signature := e }

/-- The signature `e` was added as `h`, and `es` after it. Whenever all numbers have been handed out
once more, `h` gets the signature that is added then. -/
structure HoldsSpec (s : Store) (h : TypeSpec) (e : Signature) (es : List Signature) : Prop where
  number : ∃ n, h.row = .ofNat n ∧ (s.rows .typeSpec).issued = n + es.length
  row : s.row? h = (e :: es)[es.length / 16777216 * 16777216]?.map (specRow h)

theorem issued_addTypeSpec (s : Store) (e : Signature) :
    ((s.addTypeSpec e).2.rows .typeSpec).issued = (s.rows .typeSpec).issued + 1 :=
  (issued_put (s.reserve .typeSpec).2 _ _ .typeSpec).trans (issued_reserve s .typeSpec .typeSpec)

theorem row?_addTypeSpec (s : Store) (e : Signature) (x : TypeSpec) :
    (s.addTypeSpec e).2.row? x =
      if (s.addTypeSpec e).1 = x then some (specRow x e) else s.row? x := by
  by_cases hx : (s.addTypeSpec e).1 = x
  · rw [if_pos hx, ← hx]
    exact row?_put_self (s.reserve .typeSpec).2 (t := .typeSpec) _ _
  · rw [if_neg hx]
    exact (row?_put_of_ne (s.reserve .typeSpec).2 (t := .typeSpec) _ hx).trans (row?_reserve s _ x)

theorem holdsSpec_addTypeSpec (s : Store) (e : Signature) :
    (s.addTypeSpec e).2.HoldsSpec (s.addTypeSpec e).1 e [] := by
  refine ⟨⟨(s.rows .typeSpec).issued + 1, rfl, issued_addTypeSpec s e⟩, ?_⟩
  rw [row?_addTypeSpec, if_pos rfl]
  rfl

theorem HoldsSpec.addTypeSpec {h : TypeSpec} {e : Signature} {es : List Signature}
    (hs : s.HoldsSpec h e es) (e' : Signature) :
    (s.addTypeSpec e').2.HoldsSpec h e (es ++ [e']) := by
  obtain ⟨⟨n, hn, hissued⟩, hrow⟩ := hs
  have hlength : (es ++ [e']).length = es.length + 1 := by simp
  refine ⟨⟨n, hn, by rw [issued_addTypeSpec, hlength, hissued, Nat.add_assoc]⟩, ?_⟩
  have hnew : (s.addTypeSpec e').1 = h ↔ (es.length + 1) % 16777216 = 0 := by
    obtain ⟨number⟩ := h
    change (⟨.ofNat ((s.rows .typeSpec).issued + 1)⟩ : TypeSpec) = ⟨number⟩ ↔ _
    obtain rfl : number = .ofNat n := hn
    rw [Handle.mk.injEq, Fin.ext_iff, RowNumber.val_ofNat, RowNumber.val_ofNat, hissued]
    omega
  rw [row?_addTypeSpec, hlength, ← List.cons_append]
  by_cases hzero : (es.length + 1) % 16777216 = 0
  · have hindex : (es.length + 1) / 16777216 * 16777216 = (e :: es).length := by
      rw [List.length_cons]
      omega
    rw [if_pos (hnew.mpr hzero), hindex, List.getElem?_concat_length, Option.map_some]
  · have hindex : (es.length + 1) / 16777216 = es.length / 16777216 := by omega
    rw [if_neg (mt hnew.mp hzero), hindex, hrow, List.getElem?_append_left]
    rw [List.length_cons]
    omega

theorem HoldsSpec.congr {h : TypeSpec} {e : Signature} {es : List Signature}
    (hs : s.HoldsSpec h e es) (hrows : s'.rows .typeSpec = s.rows .typeSpec) :
    s'.HoldsSpec h e es := by
  refine ⟨?_, ?_⟩
  · rw [hrows]
    exact hs.number
  · rw [← hs.row, row?, hrows, row?]

/-! ## Counters within their range -/

/-- Until its own counter has run out, a table keeps its rows. -/
theorem Grows.row?_eq (hg : s.Grows s') (hn : s.Numbered) {x : Handle t} {row : Row t}
    (hrow : s.row? x = some row) (hr : (s'.rows t).issued < 16777216) : s'.row? x = some row := by
  rw [hg.rows x, hrow]
  rintro ⟨k, hk, hk', e⟩
  have hle := hn x row hrow
  rw [e, RowNumber.val_ofNat, Nat.mod_eq_of_lt (by omega)] at hle
  omega

end Store

/-! ## Sessions -/

def Action.spec? : Action → Option Signature
  | .addTypeSpec e => some e
  | _ => none

namespace Session

variable {cfg : Config} {σ : Session}

theorem renewsRefs_step (cfg : Config) (σ : Session) (a : Action) :
    σ.store.RenewsRefs (σ.step cfg a).store := by
  cases a with
  | addTypeRef space name => exact σ.store.renewsRefs_addTypeRef ⟨space, name⟩
  | addTypeSpec e =>
    have hm := σ.store.moves_addTypeSpec e
    exact .of_eq (hm.rows_eq (by decide)) (hm.refNames_eq (by decide))
  | define d => exact σ.store.renewsRefs_define d
  | ask q => exact .of_eq rfl rfl
  | forget => exact .of_eq rfl rfl

theorem renewsRefs_foldl (cfg : Config) (history : List Action) (σ : Session) :
    σ.store.RenewsRefs (history.foldl (step cfg) σ).store := by
  induction history generalizing σ with
  | nil => exact .of_eq rfl rfl
  | cons a history ih => exact (renewsRefs_step cfg σ a).trans (ih (σ.step cfg a))

theorem renewsTypes_step (cfg : Config) (σ : Session) (a : Action) :
    σ.store.RenewsTypes (σ.step cfg a).store ((σ.made? a).toList.map (·.2)) := by
  have hm := moves_step cfg σ a
  cases a with
  | define d =>
    have hmade : (σ.made? (.define d)).toList.map (·.2) = (σ.store.define d).1.toOption.toList := by
      rw [made?]
      cases (σ.store.define d).1 <;> rfl
    rw [hmade]
    exact σ.store.renewsTypes_define d
  | _ => exact .of_eq ((hm rfl).row?_eq (by decide)) (hm rfl).typeNames_eq

theorem renewsTypes_foldl (cfg : Config) (history : List Action) (σ : Session) :
    σ.store.RenewsTypes (history.foldl (step cfg) σ).store
      ((madeFrom cfg σ history).map (·.2)) := by
  induction history generalizing σ with
  | nil => exact .of_eq (fun _ => rfl) rfl
  | cons a history ih =>
    rw [madeFrom, List.map_append]
    exact (renewsTypes_step cfg σ a).trans (ih (σ.step cfg a))

theorem holdsSpec_foldl (cfg : Config) (history : List Action) {h : TypeSpec} {e : Signature}
    {es : List Signature} (hs : σ.store.HoldsSpec h e es) :
    (history.foldl (step cfg) σ).store.HoldsSpec h e (es ++ history.filterMap Action.spec?) := by
  induction history generalizing σ es with
  | nil => simpa using hs
  | cons a history ih =>
    cases a with
    | addTypeSpec e' =>
      have hes : es ++ (Action.addTypeSpec e' :: history).filterMap Action.spec? =
          (es ++ [e']) ++ history.filterMap Action.spec? := by
        simp [Action.spec?]
      rw [hes]
      exact ih (hs.addTypeSpec e')
    | addTypeRef space name =>
      exact ih (hs.congr ((σ.store.moves_addTypeRef space name).rows_eq (by decide)))
    | define d => exact ih (hs.congr (σ.store.rows_define_typeSpec d))
    | ask q => exact ih hs
    | forget => exact ih hs

/-- Also where a counter has run out, a row has a number that was handed out. -/
theorem numbered_run (cfg : Config) (history : List Action) : (run cfg history).store.Numbered := by
  intro t h row hrow
  have hg := grows_foldl cfg history {}
  by_cases hi : Store.empty.Issued (run cfg history).store h
  · obtain ⟨k, -, hk, e⟩ := hi
    rw [e, RowNumber.val_ofNat]
    exact (Nat.mod_le _ _).trans hk
  · rw [show (run cfg history).store.row? h = Store.empty.row? h from hg.rows h hi] at hrow
    exact (Store.numbered_empty h row hrow).trans (hg.issued t)

theorem indexedRefs_run (cfg : Config) (history : List Action) :
    Indexed TypeRefRow.fullName ((run cfg history).store.refNames[·]?)
      (run cfg history).store.row? :=
  (renewsRefs_foldl cfg history {}).renewal.indexed
    (.of_none Store.row?_empty fun _ => Std.TreeMap.getElem?_emptyc)

theorem indexedTypes_run (cfg : Config) (history : List Action) :
    Indexed TypeRow.fullName ((run cfg history).store.typeNames[·]?) (run cfg history).store.row? :=
  (renewsTypes_foldl cfg history {}).indexed
    (.of_none Store.row?_empty fun _ => Std.TreeMap.getElem?_emptyc)

theorem run_append (cfg : Config) (before after : List Action) :
    run cfg (before ++ after) = after.foldl (step cfg) (run cfg before) :=
  List.foldl_append

/-- A handle that a call returns has a row then. Rows stay as they are while the counter of their
table is within its range, whatever else is added. Beyond it a reference keeps its row just if its
number is not handed out again, a type just if no later declaration succeeds under its handle, and
an instantiation has the signature that was added last under its number. -/
theorem rows_run (cfg : Config) (before after : List Action) :
    (∀ (t : Table) (x : Handle t) (row : Row t), (run cfg before).store.row? x = some row →
      ((run cfg (before ++ after)).store.rows t).issued < 16777216 →
      (run cfg (before ++ after)).store.row? x = some row) ∧
    (∀ (space name : String),
      let h := ((run cfg before).store.addTypeRef space name).1
      let s := (run cfg (before ++ [.addTypeRef space name])).store
      let s' := (run cfg (before ++ .addTypeRef space name :: after)).store
      ∃ row : TypeRefRow, s.row? h = some row ∧ (s'.row? h = some row ↔ ¬ s.Issued s' h)) ∧
    (∀ e : Signature,
      let h := ((run cfg before).store.addTypeSpec e).1
      let s := (run cfg (before ++ [.addTypeSpec e])).store
      let s' := (run cfg (before ++ .addTypeSpec e :: after)).store
      let es := after.filterMap Action.spec?
      s.row? h = some (Store.specRow h e) ∧
        s'.row? h = (e :: es)[es.length / 16777216 * 16777216]?.map (Store.specRow h)) ∧
    ∀ (d : TypeDecl) (h : TypeDef), ((run cfg before).store.define d).1 = .ok h →
      let σ := run cfg (before ++ [.define d])
      let s' := (run cfg (before ++ .define d :: after)).store
      ∃ row : TypeRow, σ.store.row? h = some row ∧
        (s'.row? h = some row ↔ h ∉ (madeFrom cfg σ after).map (·.2)) := by
  have hrest : ∀ a, run cfg (before ++ a :: after) =
      after.foldl (step cfg) (run cfg (before ++ [a])) := by
    intro a
    rw [← run_append, List.append_assoc]
    rfl
  have hnext : ∀ a, run cfg (before ++ [a]) = (run cfg before).step cfg a := fun a =>
    run_append cfg before [a]
  refine ⟨fun t x row hrow hr => ?_, fun space name => ?_, fun e => ?_, fun d h hd => ?_⟩
  · rw [run_append] at hr ⊢
    exact (grows_foldl cfg after _).row?_eq (numbered_run cfg before) hrow hr
  · intro h s s'
    have hindexed := indexedRefs_run cfg (before ++ [.addTypeRef space name])
    have hname : s.refNames[qualifiedName space name]? = some h := by
      change (run cfg (before ++ [.addTypeRef space name])).store.refNames[_]? = _
      rw [hnext]
      exact Store.refNames_addTypeRef_self _ ⟨space, name⟩
    obtain ⟨row, hrow⟩ := Option.isSome_iff_exists.mp (hindexed.written _ _ hname)
    refine ⟨row, hrow, ?_⟩
    have hrenews := renewsRefs_foldl cfg after (run cfg (before ++ [.addTypeRef space name]))
    rw [← hrest] at hrenews
    exact hrenews.renewal.row_eq_iff hindexed hrow
  · intro h s s' es
    have hspec : s.HoldsSpec h e [] := by
      change (run cfg (before ++ [.addTypeSpec e])).store.HoldsSpec h e []
      rw [hnext]
      exact Store.holdsSpec_addTypeSpec _ e
    have hspecs := holdsSpec_foldl cfg after hspec
    rw [← hrest] at hspecs
    exact ⟨hspec.row, hspecs.row⟩
  · intro σ s'
    have hmem : h ∈ ((run cfg before).store.define d).1.toOption.toList := by
      rw [hd]
      exact List.mem_cons_self
    obtain ⟨row, hrow, -⟩ := (Store.renewsTypes_define _ d).fresh h hmem
    have hrow : σ.store.row? h = some row := by
      change (run cfg (before ++ [.define d])).store.row? h = some row
      rw [hnext]
      exact hrow
    refine ⟨row, hrow, ?_⟩
    have hrenews := renewsTypes_foldl cfg after σ
    rw [← hrest] at hrenews
    exact hrenews.row_eq_iff (indexedTypes_run cfg (before ++ [.define d])) hrow

/-- A type is declared between two references. -/
def mixed : List Action :=
  [.addTypeRef "Demo" "IShape", .define (.ofClauses "Demo" "Widget" []), .addTypeRef "Demo" "ISize"]

theorem rows_run_mixed :
    (∃ row : TypeRefRow, (run {} (mixed.take 1)).store.row? (⟨1⟩ : TypeRef) = some row ∧
      (run {} mixed).store.row? (⟨1⟩ : TypeRef) = some row) ∧
    ∃ row : TypeRow, (run {} (mixed.take 2)).store.row? (⟨1⟩ : TypeDef) = some row ∧
      (run {} mixed).store.row? (⟨1⟩ : TypeDef) = some row := by
  have hdefine : ((run {} (mixed.take 1)).store.define (.ofClauses "Demo" "Widget" [])).1 =
      .ok ⟨1⟩ := by decide +kernel
  obtain ⟨hkept, -⟩ := rows_run {} (mixed.take 1) (mixed.drop 1)
  obtain ⟨-, -, -, htypes⟩ := rows_run {} (mixed.take 1) (mixed.drop 2)
  refine ⟨⟨_, rfl, hkept .typeRef ⟨1⟩ _ rfl (by decide +kernel)⟩, ?_⟩
  obtain ⟨row, hrow, hiff⟩ := htypes _ ⟨1⟩ hdefine
  exact ⟨row, hrow, hiff.mpr (by decide +kernel)⟩

/-- With as many more instantiations as there are numbers, a handle comes to lead to the last. -/
theorem row?_addTypeSpecs (cfg : Config) (σ : Session) (e e' : Signature) {es : List Signature}
    (hlength : es.length = 16777215) :
    (((es ++ [e']).map Action.addTypeSpec).foldl (step cfg)
      (σ.step cfg (.addTypeSpec e))).store.row? (σ.store.addTypeSpec e).1 =
        some (Store.specRow (σ.store.addTypeSpec e).1 e') := by
  have hes : ((es ++ [e']).map Action.addTypeSpec).filterMap Action.spec? = es ++ [e'] := by
    rw [List.filterMap_map]
    exact List.filterMap_some
  have hspecs := holdsSpec_foldl cfg ((es ++ [e']).map Action.addTypeSpec)
    (σ := σ.step cfg (.addTypeSpec e)) (Store.holdsSpec_addTypeSpec σ.store e)
  have hindex : (es ++ [e']).length / 16777216 * 16777216 = (e :: es).length := by
    rw [List.length_append, List.length_singleton, List.length_cons, hlength]
  have hrow := hspecs.row
  rw [hes, List.nil_append, hindex, ← List.cons_append, List.getElem?_concat_length] at hrow
  exact hrow

def numbers : List Signature := .replicate 16777215 (.fundamental .int32)

/-- The first handle of all is returned for a number, and leads to a text in the end. -/
theorem spec_replaced :
    (run {} [.addTypeSpec (.fundamental .int32)]).store.row? (⟨1⟩ : TypeSpec) =
        some (Store.specRow ⟨1⟩ (.fundamental .int32)) ∧
      (((numbers ++ [Signature.fundamental .string]).map Action.addTypeSpec).foldl (step {})
        (run {} [.addTypeSpec (.fundamental .int32)])).store.row? (⟨1⟩ : TypeSpec) =
          some (Store.specRow ⟨1⟩ (.fundamental .string)) := by
  have hlength : numbers.length = 16777215 := List.length_replicate
  have hfirst := (Store.holdsSpec_addTypeSpec .empty (.fundamental .int32)).row
  exact ⟨hfirst, row?_addTypeSpecs {} {} (.fundamental .int32) (.fundamental .string) hlength⟩

end Session
end MetadataProjection
