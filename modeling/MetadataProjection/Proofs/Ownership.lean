import MetadataProjection.Proofs.Coherence

/-!
# MetadataProjection.Proofs.Ownership

What a row lists belongs to it alone.

* `listed`, `Store.Owns`: the handles a row lists, table by table.
* `Store.Tidy`: the invariant. What is listed has a row, no row lists a handle twice, and no two
  rows list the same one.
* `Store.Continues`: a tidy store further on. It has all the rows of the one before, and only
  numbers handed out in between come to be listed.
* `Store.Fresh`: handles that were handed out in between and are not listed yet. Whoever lists them
  leaves the store tidy (`Tidy.put`).
* `Edit.Builds`: a step that leads from tidy stores to such that continue them, together with what
  is known of its answer from then on. It is closed under composition.
-/

namespace MetadataProjection

/-- The handles of table `u` that a row lists as its parts. -/
def listed : {t : Table} → Row t → (u : Table) → List (Handle u)
  | .typeDef, (r : TypeRow), .methodDef => r.methods
  | .typeDef, (r : TypeRow), .field => r.fields
  | .typeDef, (r : TypeRow), .property => r.properties
  | .typeDef, (r : TypeRow), .event => r.events
  | .typeDef, (r : TypeRow), .customAttribute => r.attributes
  | .methodDef, (r : MethodRow), .param => r.params
  | .methodDef, (r : MethodRow), .customAttribute => r.attributes
  | _, _, _ => []

namespace Store

variable {s s₀ s₁ s₂ s' : Store} {t u : Table}

/-! ## Owners -/

def Owns (s : Store) (h : Handle t) (x : Handle u) : Prop :=
  ∃ row : Row t, s.row? h = some row ∧ x ∈ listed row u

def Unowned (s : Store) (x : Handle u) : Prop := ∀ {t : Table} (h : Handle t), ¬ s.Owns h x

/-- Rows have numbers that were handed out; what they list has rows; and it is listed once. -/
structure Tidy (s : Store) : Prop where
  numbered : s.Numbered
  present : ∀ {t u : Table} {h : Handle t} {x : Handle u}, s.Owns h x → (s.row? x).isSome
  nodup : ∀ {t : Table} {h : Handle t} {row : Row t}, s.row? h = some row → ∀ u,
    (listed row u).Nodup
  unique : ∀ {t t' u : Table} {h : Handle t} {h' : Handle t'} {x : Handle u}, s.Owns h x →
    s.Owns h' x → h.token = h'.token

/-- All rows of `s` are still there, and what is owned since was handed out since. -/
structure Continues (s s' : Store) : Prop where
  grows : s.Grows s'
  partOf : s.PartOf s'
  owns : ∀ {t u : Table} {h : Handle t} {x : Handle u}, s'.Owns h x → s.Owns h x ∨ s.Issued s' x

theorem row?_empty (h : Handle t) : Store.empty.row? h = none := by
  cases t <;> simp [row?, rows, empty, Rows.get?]

theorem tidy_empty : Tidy .empty := by
  refine ⟨numbered_empty, ?_, ?_, ?_⟩
  · rintro t u h x ⟨row, hrow, -⟩
    rw [row?_empty] at hrow; cases hrow
  · intro t h row hrow
    rw [row?_empty] at hrow; cases hrow
  · rintro t t' u h h' x ⟨row, hrow, -⟩
    rw [row?_empty] at hrow; cases hrow

theorem PartOf.refl (s : Store) : s.PartOf s := ⟨fun _ _ h => h, fun _ _ h => h⟩

theorem PartOf.trans (h : s.PartOf s₁) (h' : s₁.PartOf s') : s.PartOf s' :=
  ⟨fun x row hr => h'.rows x row (h.rows x row hr),
    fun key d hd => h'.names key d (h.names key d hd)⟩

theorem PartOf.isSome (h : s.PartOf s') {x : Handle t} (hx : (s.row? x).isSome) :
    (s'.row? x).isSome := by
  obtain ⟨row, hrow⟩ := Option.isSome_iff_exists.mp hx
  rw [h.rows x row hrow]; rfl

theorem PartOf.put (h : s.PartOf s') {x : Handle t} (hnone : s.row? x = none) (row : Row t) :
    s.PartOf (s'.put x row) := by
  refine ⟨fun {u} y r hr => ?_, fun key d hd => by simpa [Store.put] using h.names key d hd⟩
  by_cases e : t = u
  · subst e
    have hne : x ≠ y := by
      rintro rfl
      rw [hnone] at hr; cases hr
    rw [row?_put_of_ne s' row hne]
    exact h.rows y r hr
  · rw [row?_put_of_table_ne s' x row y e]
    exact h.rows y r hr

theorem PartOf.name (h : s.PartOf s') {key : String} {d : TypeDef}
    (hfree : s'.typeNames.contains key = false) :
    s.PartOf { s' with typeNames := s'.typeNames.insert key d } :=
  ⟨h.rows, fun k x hx => ((Grows.refl s').name hfree).names k x (h.names k x hx)⟩

theorem Issued.widen {x : Handle t} (hi : s.Issued s' x) (h₀ : s₀.Grows s) (h₂ : s'.Grows s₂) :
    s₀.Issued s₂ x := by
  obtain ⟨n, hn, hn', e⟩ := hi.mono h₂
  exact ⟨n, Nat.lt_of_le_of_lt (h₀.issued t) hn, hn', e⟩

theorem Continues.refl (s : Store) : s.Continues s := ⟨.refl s, .refl s, .inl⟩

theorem Continues.trans (h : s.Continues s₁) (h' : s₁.Continues s') : s.Continues s' := by
  refine ⟨h.grows.trans h'.grows, h.partOf.trans h'.partOf, fun {t u k x} hx => ?_⟩
  rcases h'.owns hx with hx | hi
  · exact (h.owns hx).imp id fun hi => hi.mono h'.grows
  · exact .inr (hi.widen h.grows (.refl s'))

theorem Tidy.not_issued (hs : s.Tidy) (hr : s'.InRange) {x : Handle t} (hx : (s.row? x).isSome) :
    ¬ s.Issued s' x := by
  intro hi
  obtain ⟨row, hrow⟩ := Option.isSome_iff_exists.mp hx
  have hle := hs.numbered x row hrow
  have hlt := (hi.lt hr).1
  omega

theorem Tidy.row?_of_issued (hs : s.Tidy) (hr : s'.InRange) {x : Handle t} (hi : s.Issued s' x) :
    s.row? x = none :=
  Option.not_isSome_iff_eq_none.mp fun hx => hs.not_issued hr hx hi

/-! ## Fresh handles -/

/-- Different handles that were handed out from `s` to `s'`, have rows, and belong to nobody. -/
structure Fresh (s s' : Store) (xs : List (Handle u)) : Prop where
  nodup : xs.Nodup
  issued : ∀ x ∈ xs, s.Issued s' x
  present : ∀ x ∈ xs, (s'.row? x).isSome
  unowned : ∀ x ∈ xs, s'.Unowned x

theorem fresh_nil : s.Fresh s' ([] : List (Handle u)) :=
  ⟨.nil, fun _ h => absurd h List.not_mem_nil, fun _ h => absurd h List.not_mem_nil,
    fun _ h => absurd h List.not_mem_nil⟩

theorem Fresh.widen {xs : List (Handle u)} (h : s.Fresh s' xs) (hs : s'.Tidy)
    (h₀ : s₀.Continues s) (h₂ : s'.Continues s₂) (hr : s₂.InRange) : s₀.Fresh s₂ xs := by
  refine ⟨h.nodup, fun x hx => (h.issued x hx).widen h₀.grows h₂.grows,
    fun x hx => h₂.partOf.isSome (h.present x hx), fun x hx {t} k hk => ?_⟩
  rcases h₂.owns hk with hk | hi
  · exact h.unowned x hx k hk
  · exact hs.not_issued hr (h.present x hx) hi

theorem Fresh.append {xs ys : List (Handle u)} (hx : s.Fresh s₁ xs) (hy : s₁.Fresh s' ys)
    (hs₁ : s₁.Tidy) (hs' : s'.Tidy) (h : s.Continues s₁) (h' : s₁.Continues s')
    (hr : s'.InRange) : s.Fresh s' (xs ++ ys) := by
  have hx' := hx.widen hs₁ (.refl s) h' hr
  have hy' := hy.widen hs' h (.refl s') hr
  refine ⟨List.nodup_append.mpr ⟨hx.nodup, hy.nodup, fun x hmem y hmem' e => ?_⟩,
    fun x hmem => ?_, fun x hmem => ?_, fun x hmem {t} => ?_⟩
  · -- a number of the first list had a row when those of the second were handed out
    exact hs₁.not_issued hr (hx.present x hmem) (e ▸ hy.issued y hmem')
  · exact (List.mem_append.mp hmem).elim (hx'.issued x) (hy'.issued x)
  · exact (List.mem_append.mp hmem).elim (hx'.present x) (hy'.present x)
  · rcases List.mem_append.mp hmem with hmem | hmem
    · exact hx'.unowned x hmem
    · exact hy'.unowned x hmem

/-! ## Rows that are written -/

theorem owns_put {k : Handle t} {row : Row t} {t' : Table} {h : Handle t'} {x : Handle u}
    (hx : (s.put k row).Owns h x) : (h.token = k.token ∧ x ∈ listed row u) ∨ s.Owns h x := by
  obtain ⟨r, hr, hmem⟩ := hx
  rcases row?_put_cases hr with e | hr
  · cases e
    exact .inl ⟨rfl, hmem⟩
  · exact .inr ⟨r, hr, hmem⟩

theorem issued_put_iff (k : Handle t) (row : Row t) {x : Handle u} :
    s.Issued (s'.put k row) x ↔ s.Issued s' x := by
  simp only [Issued, issued_put]

/-- A row is written that has a new number and lists what is fresh. -/
theorem Tidy.put (hs : s'.Tidy) (hc : s.Continues s') {k : Handle t} {row : Row t}
    (hi : s.Issued s' k) (hr : s'.InRange) (hnone : s'.row? k = none)
    (hl : ∀ u, s.Fresh s' (listed row u)) : (s'.put k row).Tidy ∧ s.Continues (s'.put k row) := by
  have hpart : s'.PartOf (s'.put k row) := (PartOf.refl s').put hnone row
  refine ⟨⟨fun {u} h r hrow => ?_, fun {_ u h x} hx => ?_, fun {u h r} hrow v => ?_, ?_⟩,
    ⟨hc.grows.put hi row, hc.partOf.trans hpart, fun {_ u h x} hx => ?_⟩⟩
  · rw [issued_put]
    rcases row?_put_cases hrow with e | hrow
    · cases e
      exact (hi.lt hr).2
    · exact hs.numbered h r hrow
  · rcases owns_put hx with ⟨-, hmem⟩ | hx
    · exact hpart.isSome ((hl u).present x hmem)
    · exact hpart.isSome (hs.present hx)
  · rcases row?_put_cases hrow with e | hrow
    · cases e
      exact (hl v).nodup
    · exact hs.nodup hrow v
  · intro _ _ u h h' x hx hx'
    rcases owns_put hx with ⟨e, hmem⟩ | hx <;> rcases owns_put hx' with ⟨e', hmem'⟩ | hx'
    · exact e.trans e'.symm
    · exact absurd hx' ((hl u).unowned x hmem h')
    · exact absurd hx ((hl u).unowned x hmem' h)
    · exact hs.unique hx hx'
  · rcases owns_put hx with ⟨-, hmem⟩ | hx
    · exact .inr ((issued_put_iff k row).mpr ((hl u).issued x hmem))
    · exact (hc.owns hx).imp id (issued_put_iff k row).mpr

theorem Tidy.reserve (hs : s.Tidy) (t : Table) :
    (s.reserve t).2.Tidy ∧ s.Continues (s.reserve t).2 := by
  have howns : ∀ {t' u : Table} {h : Handle t'} {x : Handle u}, (s.reserve t).2.Owns h x →
      s.Owns h x := by
    rintro t' u h x ⟨row, hrow, hmem⟩
    rw [row?_reserve] at hrow
    exact ⟨row, hrow, hmem⟩
  refine ⟨⟨fun h row hrow => ?_, fun hx => ?_, fun hrow => ?_, fun hx hx' => ?_⟩,
    ⟨s.grows_reserve t, ⟨fun h row hrow => ?_, (s.grows_reserve t).names⟩,
      fun hx => .inl (howns hx)⟩⟩
  · rw [row?_reserve] at hrow
    exact Nat.le_trans (hs.numbered h row hrow) ((s.grows_reserve t).issued _)
  · rw [row?_reserve]
    exact hs.present (howns hx)
  · rw [row?_reserve] at hrow
    exact hs.nodup hrow
  · exact hs.unique (howns hx) (howns hx')
  · rw [row?_reserve]
    exact hrow

theorem Tidy.row?_reserve_fst (hs : s.Tidy) {t : Table} (h : (s.reserve t).2.Grows s')
    (hr : s'.InRange) : s'.row? (s.reserve t).1 = none := by
  have hi := s.reserve_issued t
  have hlt := hi.lt (h.inRange hr)
  rw [h.rows, row?_reserve]
  · exact hs.row?_of_issued (h.inRange hr) hi
  · intro hi'
    have hlt' := (hi'.lt hr).1
    omega

theorem Tidy.put_reserved (hs : s.Tidy) {t : Table} {row : Row t} (hs₁ : s₁.Tidy)
    (hc : (s.reserve t).2.Continues s₁) (hr : s₁.InRange)
    (hl : ∀ u, (s.reserve t).2.Fresh s₁ (listed row u)) :
    (s₁.put (s.reserve t).1 row).Tidy ∧ s.Continues (s₁.put (s.reserve t).1 row) ∧
      s.Fresh (s₁.put (s.reserve t).1 row) [(s.reserve t).1] ∧
      s₁.PartOf (s₁.put (s.reserve t).1 row) := by
  obtain ⟨hsr, hcr⟩ := hs.reserve t
  have hnone := hs.row?_reserve_fst hc.grows hr
  have hi : s.Issued s₁ (s.reserve t).1 := (s.reserve_issued t).mono hc.grows
  obtain ⟨hs', hc'⟩ := hs₁.put (hcr.trans hc) hi hr hnone fun u =>
    (hl u).widen hs₁ hcr (.refl s₁) hr
  refine ⟨hs', hc', ?_, (PartOf.refl s₁).put hnone row⟩
  refine ⟨List.pairwise_singleton _ _, List.forall_mem_singleton.mpr ?_,
    List.forall_mem_singleton.mpr ?_, List.forall_mem_singleton.mpr fun {t'} h hown => ?_⟩
  · exact (issued_put_iff _ row).mpr hi
  · rw [row?_put_self]; rfl
  · -- whatever is listed has a row already
    have hsome : (s₁.row? (s.reserve t).1).isSome := by
      rcases owns_put hown with ⟨-, hmem⟩ | hown
      · exact (hl t).present _ hmem
      · exact hs₁.present hown
    rw [hnone] at hsome
    cases hsome

theorem inRange_put {k : Handle t} {row : Row t} : (s.put k row).InRange ↔ s.InRange :=
  forall_congr' fun u => by rw [issued_put]

theorem Tidy.addTypeSpec (hs : s.Tidy) {signature : Signature}
    (hr : (s.addTypeSpec signature).2.InRange) :
    (s.addTypeSpec signature).2.Tidy ∧ s.Continues (s.addTypeSpec signature).2 := by
  obtain ⟨hs', hc', -⟩ := hs.put_reserved (hs.reserve .typeSpec).1 (.refl _) (inRange_put.mp hr)
    fun u => by cases u <;> exact fresh_nil
  exact ⟨hs', hc'⟩

theorem Tidy.addTypeRef (hs : s.Tidy) {space name : String}
    (hr : (s.addTypeRef space name).2.InRange) :
    (s.addTypeRef space name).2.Tidy ∧ s.Continues (s.addTypeRef space name).2 := by
  cases h : s.refNames[qualifiedName space name]? with
  | some x =>
    have e : s.addTypeRef space name = (x, s) := by simp only [Store.addTypeRef, h]
    rw [e]
    exact ⟨hs, .refl s⟩
  | none =>
    simp only [Store.addTypeRef, h] at hr ⊢
    obtain ⟨hs', hc', -⟩ := hs.put_reserved (hs.reserve .typeRef).1 (.refl _) (inRange_put.mp hr)
      fun u => by cases u <;> exact fresh_nil
    exact ⟨⟨hs'.numbered, hs'.present, hs'.nodup, hs'.unique⟩,
      ⟨⟨hc'.grows.issued, hc'.grows.rows, hc'.grows.names⟩, ⟨hc'.partOf.rows, hc'.partOf.names⟩,
        hc'.owns⟩⟩

theorem Tidy.step {cfg : Config} {σ : Session} {a : Action} (hs : σ.store.Tidy)
    (hr : (σ.step cfg a).store.InRange) (ha : a.declaration? = none) :
    (σ.step cfg a).store.Tidy ∧ σ.store.Continues (σ.step cfg a).store := by
  cases a with
  | addTypeRef space name => exact hs.addTypeRef hr
  | addTypeSpec signature => exact hs.addTypeSpec hr
  | define d => cases ha
  | ask q => exact ⟨hs, .refl _⟩
  | forget => exact ⟨hs, .refl _⟩

/-- `Q` holds between any earlier store and any later one. -/
def Lasts (Q : Store → Store → Prop) (s s' : Store) : Prop :=
  ∀ s₀ s₂ : Store, s₀.Continues s → s'.Continues s₂ → s₂.InRange → Q s₀ s₂

end Store

/-! ## Steps that build -/

namespace Edit

variable {α β : Type}

theorem Grows.of_perform {e : Edit α} (he : e.Grows) {s s' : Store} {x : Except Error α}
    (h : e.perform s = (x, s')) : s.Grows s' := by
  have hg := he s
  rw [h] at hg
  exact hg

/-- The step only adds. From a tidy store it leads to one that continues it, and from then on `Q`
holds of its answer, if it has one. -/
structure Builds (e : Edit α) (Q : α → Store → Store → Prop) : Prop where
  grows : e.Grows
  leads : ∀ (s s' : Store) (x : Except Error α), e.perform s = (x, s') → s.Tidy → s'.InRange →
    s'.Tidy ∧ s.Continues s' ∧ ∀ a, x = .ok a → Store.Lasts (Q a) s s'

namespace Builds

theorem pure (a : α) : Builds (Pure.pure a) fun b _ _ => b = a := by
  refine ⟨.pure a, fun s s' x h hs hr => ?_⟩
  cases h
  exact ⟨hs, .refl s, fun b hb _ _ _ _ _ => (Except.ok.inj hb).symm⟩

theorem lift (x : Except Error α) : Builds (liftM x) fun a _ _ => x = .ok a := by
  refine ⟨.lift x, fun s s' y h hs hr => ?_⟩
  rw [perform_lift] at h
  cases h
  exact ⟨hs, .refl s, fun a ha _ _ _ _ _ => ha⟩

theorem imp {e : Edit α} {Q Q' : α → Store → Store → Prop} (h : Builds e Q)
    (hQ : ∀ a s s', Q a s s' → Q' a s s') : Builds e Q' := by
  refine ⟨h.grows, fun s s' x he hs hr => ?_⟩
  obtain ⟨hs', hc, ha⟩ := h.leads s s' x he hs hr
  exact ⟨hs', hc, fun a e s₀ s₂ h₀ h₂ hr₂ => hQ a s₀ s₂ (ha a e s₀ s₂ h₀ h₂ hr₂)⟩

/-- One step after the other, where what is known of the two answers adds up to `R`. -/
theorem bind_lasts {e : Edit α} {f : α → Edit β} {Q : α → Store → Store → Prop}
    {Q' : α → β → Store → Store → Prop} {R : β → Store → Store → Prop} (he : Builds e Q)
    (hf : ∀ a, Builds (f a) (Q' a))
    (hR : ∀ {a : α} {b : β} {s s₁ s' : Store}, s₁.Tidy → s'.Tidy → s.Continues s₁ →
      s₁.Continues s' → s'.InRange → Store.Lasts (Q a) s s₁ → Store.Lasts (Q' a b) s₁ s' →
      Store.Lasts (R b) s s') :
    Builds (e >>= f) R := by
  refine ⟨he.grows.bind fun a => (hf a).grows, fun s s' x h hs hr => ?_⟩
  rw [perform_bind] at h
  rcases hes : e.perform s with ⟨y, s₁⟩
  rw [hes] at h
  cases y with
  | error y =>
    cases h
    obtain ⟨hs', hc, -⟩ := he.leads s s' _ hes hs hr
    exact ⟨hs', hc, nofun⟩
  | ok a =>
    have hr₁ := ((hf a).grows.of_perform h).inRange hr
    obtain ⟨hs₁, hc₁, ha⟩ := he.leads s s₁ _ hes hs hr₁
    obtain ⟨hs', hc', hb⟩ := (hf a).leads s₁ s' x h hs₁ hr
    exact ⟨hs', hc₁.trans hc', fun b e => hR hs₁ hs' hc₁ hc' hr (ha a rfl) (hb b e)⟩

theorem bind {e : Edit α} {f : α → Edit β} {Q : α → Store → Store → Prop}
    {Q' : α → β → Store → Store → Prop} (he : Builds e Q) (hf : ∀ a, Builds (f a) (Q' a)) :
    Builds (e >>= f) fun b s s' => ∃ a, Q a s s' ∧ Q' a b s s' := by
  refine he.bind_lasts hf fun {a b s s₁ s'} _ _ hc hc' _ ha hb s₀ s₂ h₀ h₂ hr => ⟨a, ?_, ?_⟩
  · exact ha s₀ s₂ h₀ (hc'.trans h₂) hr
  · exact hb s₀ s₂ (h₀.trans hc) h₂ hr

/-- What the first step and the second answer with is fresh together. -/
theorem mapM {t : Table} {f : α → Edit (Handle t)} {P : α → Handle t → Store → Prop}
    (hf : ∀ a, Builds (f a) fun x s s' => s.Fresh s' [x] ∧ P a x s') (as : List α) :
    Builds (as.mapM f) fun xs s s' => s.Fresh s' xs ∧ List.Forall₂ (P · · s') as xs := by
  induction as with
  | nil =>
    refine imp (pure []) fun xs s s' e => ?_
    rw [e]
    exact ⟨Store.fresh_nil, .nil⟩
  | cons a as ih =>
    rw [List.mapM_cons]
    refine (hf a).bind_lasts (fun k => ih.bind fun ks => pure (k :: ks)) ?_
    intro k ks s s₁ s' hs₁ hs' hc hc' hr hk hks s₀ s₂ h₀ h₂ hr₂
    obtain ⟨hfirst, -⟩ := hk s s₁ (.refl s) (.refl s₁) (hc'.grows.inRange hr)
    obtain ⟨_, ⟨hrest, -⟩, rfl⟩ := hks s₁ s' (.refl s₁) (.refl s') hr
    obtain ⟨_, ⟨-, hPs⟩, e⟩ := hks s₀ s₂ (h₀.trans hc) h₂ hr₂
    cases e
    exact ⟨(hfirst.append hrest hs₁ hs' hc hc' hr).widen hs' h₀ h₂ hr₂,
      .cons (hk s₀ s₂ h₀ (hc'.trans h₂) hr₂).2 hPs⟩

end Builds

/-! ## Steps that write -/

/-- The step writes this row and answers with its handle, or fails and leaves all as it is. -/
def Writes {t : Table} (e : Edit (Handle t)) (h : Handle t) (row : Row t) : Prop :=
  ∀ s : Store, e.perform s = (.ok h, s.put h row) ∨ ∃ x, e.perform s = (.error x, s)

theorem writes_put {t : Table} (h : Handle t) (row : Row t) :
    Writes (Edit.put h row >>= fun _ => Pure.pure h) h row := fun _ => .inl rfl

theorem writes_record {t : Table} (h : Handle t) (row : Row t) : Writes (record h row) h row := by
  intro s
  unfold record
  cases he : Handle.ofToken t h.token with
  | error x => exact .inr ⟨x, rfl⟩
  | ok h' =>
    rw [Handle.eq_of_ofToken he]
    exact .inl rfl

theorem Writes.fills {t : Table} {e : Edit (Handle t)} {h : Handle t} {row : Row t}
    (hw : Writes e h row) {s s₁ : Store} (hs : s.Grows s₁) (hi : s.Issued s₁ h) :
    Fills s s₁ e := by
  intro s₂ h₂
  rcases hw s₂ with hok | ⟨x, herror⟩
  · rw [hok]
    exact (hs.trans h₂).put (hi.mono h₂) row
  · rw [herror]
    exact hs.trans h₂

/-- A number is handed out; parts are written and gathered in a row; and the row is written under
the number. -/
theorem builds_reserve_bind {t : Table} {e : Handle t → Edit (Row t)}
    {w : Handle t → Row t → Edit (Handle t)} {P : Handle t → Row t → Store → Prop}
    (hP : ∀ h row s s', s.PartOf s' → P h row s → P h row s')
    (he : ∀ h, Builds (e h) fun row s s' => (∀ u, s.Fresh s' (listed row u)) ∧ P h row s')
    (hw : ∀ h row, Writes (w h row) h row) :
    Builds (Edit.reserve t >>= fun h => e h >>= w h) fun h s s' =>
      s.Fresh s' [h] ∧ ∃ row, s'.row? h = some row ∧ P h row s' := by
  have hgrows : (Edit.reserve t >>= fun h => e h >>= w h).Grows :=
    grows_reserve_bind fun s s₁ h hs hi =>
      Fills.bind hs (he h).grows fun row => (hw h row).fills hs hi
  refine ⟨hgrows, fun s s' x hperform hs hr => ?_⟩
  obtain ⟨hsr, hcr⟩ := hs.reserve t
  rw [perform_bind, perform_reserve] at hperform
  change (e (s.reserve t).1 >>= w (s.reserve t).1).perform (s.reserve t).2 = (x, s') at hperform
  rw [perform_bind] at hperform
  rcases hes : (e (s.reserve t).1).perform (s.reserve t).2 with ⟨y, s₁⟩
  rw [hes] at hperform
  cases y with
  | error y =>
    cases hperform
    obtain ⟨hs', hc, -⟩ := (he _).leads _ _ _ hes hsr hr
    exact ⟨hs', hcr.trans hc, nofun⟩
  | ok row =>
    change (w (s.reserve t).1 row).perform s₁ = (x, s') at hperform
    rcases hw (s.reserve t).1 row s₁ with hok | ⟨z, herror⟩
    · rw [hok] at hperform
      cases hperform
      have hr₁ : s₁.InRange := Store.inRange_put.mp hr
      obtain ⟨hs₁, hc₁, hrow⟩ := (he _).leads _ _ _ hes hsr hr₁
      obtain ⟨hfresh, hProw⟩ := hrow row rfl _ s₁ (.refl _) (.refl s₁) hr₁
      obtain ⟨hs', hc', hself, hpart⟩ := hs.put_reserved hs₁ hc₁ hr₁ hfresh
      refine ⟨hs', hc', fun h e s₀ s₂ h₀ h₂ hr₂ => ?_⟩
      cases e
      have hwritten := h₂.partOf.rows _ _ (Store.row?_put_self _ _ _)
      exact ⟨hself.widen hs' h₀ h₂ hr₂, row, hwritten,
        hP _ _ _ _ (hpart.trans h₂.partOf) hProw⟩
    · rw [herror] at hperform
      cases hperform
      obtain ⟨hs', hc, -⟩ := (he _).leads _ _ _ hes hsr hr
      exact ⟨hs', hcr.trans hc, nofun⟩

theorem builds_write {t : Table} {row : Handle t → Row t} {w : Handle t → Row t → Edit (Handle t)}
    (hl : ∀ h u, listed (row h) u = []) (hw : ∀ h row, Writes (w h row) h row) :
    Builds (Edit.reserve t >>= fun h => w h (row h)) fun h s s' =>
      s.Fresh s' [h] ∧ s'.row? h = some (row h) := by
  have hb := builds_reserve_bind (e := fun h => pure (row h)) (w := w)
    (P := fun h r _ => r = row h) (fun _ _ _ _ _ h => h) (fun h => ?_) hw
  · simp only [pure_bind] at hb
    exact hb.imp fun h s s' ⟨hf, r, hr, e⟩ => ⟨hf, e ▸ hr⟩
  · refine (Builds.pure (row h)).imp fun r s s' e => ⟨fun u => ?_, e⟩
    rw [e, hl]
    exact Store.fresh_nil

end Edit
end MetadataProjection
