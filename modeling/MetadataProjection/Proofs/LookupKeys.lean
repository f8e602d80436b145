import MetadataProjection.Proofs.FullNames

/-!
# MetadataProjection.Proofs.LookupKeys

Full names as keys. A text that is looked up is cut at its last dot and joined again, and joining
leaves the dot out where the namespace is empty.

* `DotFirst`: the only dot of a text is its first character. A full name is so only in the global
  namespace (`dotFirst_qualifiedName_iff`).
* `keyOf`: what a text comes to when it is cut and joined (`qualifiedName_splitFullName`): itself, or
  the rest behind its only dot. `keyOf_eq_iff` says for which texts a name is looked up.
* `View.findFullName_eq_ok_iff`, `View.findFullName_eq_error_iff`: a look-up finds what the key leads
  to, or fails with the key.
* `Session.fullName_run`: the texts that find a type, and when its full name is one of them.
-/

namespace MetadataProjection

/-! ## Texts with a dot -/

theorem exists_last_dot (text : String) : '.' ∉ text.toList ∨
    ∃ space name : String, '.' ∉ name.toList ∧ text = space ++ "." ++ name := by
  by_cases h : '.' ∈ text.toList
  · -- the last dot is the first one from the end
    obtain ⟨name, space, e, hname⟩ := List.eq_append_cons_of_mem (List.mem_reverse.mpr h)
    refine .inr ⟨.ofList space.reverse, .ofList name.reverse, by simpa using hname, ?_⟩
    rw [← String.toList_inj, ← List.reverse_inj, e]
    simp
  · exact .inl h

/-- The first character is a dot, and there is no other dot. -/
def DotFirst (text : String) : Prop := text.toList.head? = some '.' ∧ '.' ∉ text.toList.tail

instance (text : String) : Decidable (DotFirst text) := inferInstanceAs (Decidable (_ ∧ _))

theorem not_dotFirst_of_not_mem {text : String} (h : '.' ∉ text.toList) : ¬ DotFirst text :=
  fun hdot => h (List.mem_of_mem_head? hdot.1)

theorem dotFirst_append_iff {space name : String} :
    DotFirst (space ++ "." ++ name) ↔ space = "" ∧ '.' ∉ name.toList := by
  rw [DotFirst, ← String.toList_eq_nil_iff]
  cases h : space.toList <;> simp [h]

theorem dotFirst_qualifiedName_iff {space name : String} :
    DotFirst (qualifiedName space name) ↔ space = "" ∧ DotFirst name := by
  unfold qualifiedName
  split
  · next h => simp [String.isEmpty_iff.mp h]
  · next h =>
    have hspace : space ≠ "" := fun e => h (String.isEmpty_iff.mpr e)
    simp [dotFirst_append_iff, hspace]

/-! ## Keys -/

/-- What is looked up for a text: the text, less its dot if that is its first character and its only
dot. -/
def keyOf (text : String) : String :=
  if DotFirst text then .ofList text.toList.tail else text

theorem keyOf_of_dotFirst {text : String} (h : DotFirst text) :
    text = "." ++ keyOf text ∧ '.' ∉ (keyOf text).toList := by
  rw [keyOf, if_pos h]
  refine ⟨?_, by simpa using h.2⟩
  rw [← String.toList_inj, ← List.cons_head?_tail h.1]
  simp

theorem keyOf_append {space name : String} (h : '.' ∉ name.toList) :
    keyOf (space ++ "." ++ name) = qualifiedName space name := by
  unfold keyOf qualifiedName
  rw [if_congr dotFirst_append_iff rfl rfl]
  by_cases hspace : space = ""
  · simp [hspace, h]
  · simp [hspace]

/-- Cutting a text at its last dot and joining the parts gives the text back, unless its only dot is
its first character. -/
theorem qualifiedName_splitFullName (text : String) :
    qualifiedName (splitFullName text).1 (splitFullName text).2 = keyOf text := by
  rcases exists_last_dot text with h | ⟨space, name, h, rfl⟩
  · rw [splitFullName_of_not_mem h, keyOf, if_neg (not_dotFirst_of_not_mem h)]
    rfl
  · rw [splitFullName_append h, keyOf_append h]

example : keyOf ".X" = "X" ∧ keyOf "..X" = "..X" ∧ keyOf "A." = "A." := by decide +kernel

theorem keyOf_eq_iff {text name : String} : keyOf text = name ↔
    text = name ∧ ¬ DotFirst name ∨ '.' ∉ name.toList ∧ text = "." ++ name := by
  constructor
  · rintro rfl
    by_cases h : DotFirst text
    · obtain ⟨htext, hkey⟩ := keyOf_of_dotFirst h
      exact .inr ⟨hkey, htext⟩
    · rw [keyOf, if_neg h]
      exact .inl ⟨rfl, h⟩
  · rintro (⟨rfl, h⟩ | ⟨h, rfl⟩)
    · rw [keyOf, if_neg h]
    · exact @keyOf_append "" name h

theorem keyOf_eq_self_iff {text : String} : keyOf text = text ↔ ¬ DotFirst text := by
  constructor
  · intro e h
    have hkey := (keyOf_of_dotFirst h).2
    rw [e] at hkey
    exact not_dotFirst_of_not_mem hkey h
  · exact fun h => if_neg h

/-! ## Look-ups -/

namespace View

variable {v : View} {text : String}

theorem findFullName_eq (v : View) (text : String) : v.findFullName text =
    match v.store.typeNames[keyOf text]? with
    | some h => .ok h
    | none => .error (.unresolvedTypeReference (keyOf text)) := by
  rw [← qualifiedName_splitFullName]
  rfl

theorem findFullName_eq_ok_iff {h : TypeDef} :
    v.findFullName text = .ok h ↔ v.store.typeNames[keyOf text]? = some h := by
  rw [findFullName_eq]
  cases v.store.typeNames[keyOf text]? <;> simp

theorem findFullName_eq_error_iff {e : Error} : v.findFullName text = .error e ↔
    v.store.typeNames[keyOf text]? = none ∧ e = .unresolvedTypeReference (keyOf text) := by
  rw [findFullName_eq]
  cases v.store.typeNames[keyOf text]? <;> simp [eq_comm]

end View

namespace Store.Records

variable {s : Store} {made : List (TypeDecl × TypeDef)} {x : TypeDef} {row : TypeRow} {text : String}

theorem exists_row_of_findFullName (h : s.Records made) (hfound : s.view.findFullName text = .ok x) :
    ∃ row : TypeRow, s.row? x = some row ∧ row.fullName = keyOf text :=
  (h.names (keyOf text) x).mp (View.findFullName_eq_ok_iff.mp hfound)

theorem findFullName_eq_ok_iff (h : s.Records made) (hrow : s.row? x = some row) :
    s.view.findFullName text = .ok x ↔ keyOf text = row.fullName := by
  constructor
  · intro hfound
    obtain ⟨row', hrow', e⟩ := h.exists_row_of_findFullName hfound
    rw [hrow] at hrow'
    cases hrow'
    exact e.symm
  · intro e
    exact View.findFullName_eq_ok_iff.mpr ((h.names (keyOf text) x).mpr ⟨row, hrow, e.symm⟩)

theorem findFullName_eq_error_iff (h : s.Records made) {e : Error} :
    s.view.findFullName text = .error e ↔ e = .unresolvedTypeReference (keyOf text) ∧
      ∀ (x : TypeDef) (row : TypeRow), s.row? x = some row → row.fullName ≠ keyOf text := by
  have hnames : s.typeNames[keyOf text]? = none ↔
      ∀ (x : TypeDef) (row : TypeRow), s.row? x = some row → row.fullName ≠ keyOf text := by
    simp only [Option.eq_none_iff_forall_ne_some, ne_eq, h.names, not_exists, not_and]
  rw [← hnames, and_comm]
  exact View.findFullName_eq_error_iff

end Store.Records

namespace Session

/-- A type is found by its full name, unless the only dot of that is at its start, and by the same
with a dot before it, if it has none. So its full name finds it, but for a type of the global
namespace whose name starts with its only dot. What is found has the full name that was asked for,
but for a text that starts with its only dot. A look-up fails just if its key is the full name of no
type. -/
theorem fullName_run (cfg : Config) (history : List Action)
    (hr : (run cfg history).store.InRange) :
    (∀ (h : TypeDef) (row : TypeRow), (run cfg history).store.row? h = some row →
      (∀ text : String, (run cfg history).store.view.findFullName text = .ok h ↔
        text = row.fullName ∧ ¬ DotFirst row.fullName ∨
          '.' ∉ row.fullName.toList ∧ text = "." ++ row.fullName) ∧
      ((run cfg history).store.view.findFullName row.fullName = .ok h ↔
        ¬ (row.space = "" ∧ DotFirst row.name))) ∧
    (∀ (text : String) (h : TypeDef), (run cfg history).store.view.findFullName text = .ok h →
      ∃ row : TypeRow, (run cfg history).store.row? h = some row ∧
        (row.fullName = text ↔ ¬ DotFirst text)) ∧
    ∀ (text : String) (e : Error), (run cfg history).store.view.findFullName text = .error e ↔
      e = .unresolvedTypeReference (keyOf text) ∧
        ∀ (h : TypeDef) (row : TypeRow), (run cfg history).store.row? h = some row →
          row.fullName ≠ keyOf text := by
  have hrecords := run_records cfg history hr
  refine ⟨fun h row hrow => ⟨fun text => ?_, ?_⟩, fun text h hfound => ?_, fun text e => ?_⟩
  · rw [hrecords.findFullName_eq_ok_iff hrow, keyOf_eq_iff]
  · rw [hrecords.findFullName_eq_ok_iff hrow, keyOf_eq_self_iff, ← dotFirst_qualifiedName_iff]
    rfl
  · obtain ⟨row, hrow, e⟩ := hrecords.exists_row_of_findFullName hfound
    exact ⟨row, hrow, by rw [e, keyOf_eq_self_iff]⟩
  · exact hrecords.findFullName_eq_error_iff

/-- Types with dots in their names; the only dot of the second is at its start. -/
def dottedTypes : List Action :=
  [.define (.ofClauses "A.B" "C" []), .define (.ofClauses "" ".X" []), .define (.ofClauses "" "X" []),
    .define (.ofClauses "" "..X" [])]

/-- With two dots at its start a full name finds its type. With one it finds another type, and the
type that has it is found by no text at all. -/
theorem fullName_run_dottedTypes :
    let s := (run {} dottedTypes).store
    s.InRange ∧ s.view.findFullName "..X" = .ok ⟨4⟩ ∧ s.view.findFullName ".X" = .ok ⟨3⟩ ∧
      (∃ row : TypeRow, s.row? (⟨3⟩ : TypeDef) = some row ∧ row.fullName ≠ ".X") ∧
      (∀ text : String, s.view.findFullName text ≠ .ok ⟨2⟩) ∧
      s.view.findFullName "." = .error (.unresolvedTypeReference "") ∧
      ∀ (h : TypeDef) (row : TypeRow), s.row? h = some row → row.fullName ≠ "" := by
  intro s
  have hr : s.InRange := by decide +kernel
  have hstray : (s.row? (⟨2⟩ : TypeDef)).map (·.fullName) = some ".X" := by decide +kernel
  have hplain : (s.row? (⟨3⟩ : TypeDef)).map (·.fullName) = some "X" := by decide +kernel
  have htwo : (s.row? (⟨4⟩ : TypeDef)).map (·.fullName) = some "..X" := by decide +kernel
  have hdot : s.view.findFullName "." = .error (.unresolvedTypeReference "") := by decide +kernel
  obtain ⟨stray, hstray, hstrayName⟩ := Option.map_eq_some_iff.mp hstray
  obtain ⟨plain, hplain, hplainName⟩ := Option.map_eq_some_iff.mp hplain
  obtain ⟨two, htwo, htwoName⟩ := Option.map_eq_some_iff.mp htwo
  obtain ⟨htexts, hfound, hfails⟩ := fullName_run {} dottedTypes hr
  have hother : s.view.findFullName ".X" = .ok ⟨3⟩ :=
    ((htexts ⟨3⟩ plain hplain).1 ".X").mpr (.inr (by rw [hplainName]; decide))
  obtain ⟨row, hrow, hname⟩ := hfound ".X" ⟨3⟩ hother
  refine ⟨hr, ?_, hother, ⟨row, hrow, fun e => hname.mp e (by decide)⟩, fun text h => ?_, hdot,
    ((hfails "." _).mp hdot).2⟩
  · exact ((htexts ⟨4⟩ two htwo).1 "..X").mpr (.inl (by rw [htwoName]; decide))
  · rcases ((htexts ⟨2⟩ stray hstray).1 text).mp h with ⟨-, h⟩ | ⟨h, -⟩
    · rw [hstrayName] at h
      exact h (by decide)
    · rw [hstrayName] at h
      exact h (by decide)

/-- The only dot of a full name is lost: the type that has it is not found, with another type or
without one of the name that is left. -/
theorem fullName_dotLost :
    let alone := (run {} [.define (.ofClauses "" ".X" [])]).store
    let beside := (run {} dottedTypes).store
    alone.InRange ∧ (alone.row? (⟨1⟩ : TypeDef)).map (·.fullName) = some ".X" ∧
      alone.view.findFullName ".X" = .error (.unresolvedTypeReference "X") ∧
      beside.InRange ∧ (beside.row? (⟨2⟩ : TypeDef)).map (·.fullName) = some ".X" ∧
      beside.view.findFullName ".X" = .ok ⟨3⟩ ∧
      (beside.row? (⟨3⟩ : TypeDef)).map (·.fullName) = some "X" := by
  intro alone beside
  decide +kernel

end Session

end MetadataProjection
