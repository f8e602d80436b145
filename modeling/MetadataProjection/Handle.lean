import MetadataProjection.Token

/-!
# MetadataProjection.Handle

Typed references to rows. A `Handle t` points into table `t`, so a method handle cannot be used
where a type is wanted; a `TypeDefOrRef` points at a type in one of the three ways metadata knows.

* `Handle.token`, `Handle.ofToken?`: a handle is a token of the right table with a row number
  other than 0 (`ofToken?_eq_some_iff`).
* `TypeDefOrRef`: the coded reference to a definition, a named reference or an instantiation.
-/

namespace MetadataProjection

structure Handle (t : Table) where
  row : RowNumber
deriving DecidableEq, Repr

instance {t : Table} : LawfulBEq (Handle t) := inferInstance

abbrev TypeDef := Handle .typeDef
abbrev TypeRef := Handle .typeRef
abbrev TypeSpec := Handle .typeSpec
abbrev MethodDef := Handle .methodDef
abbrev Field := Handle .field
abbrev Property := Handle .property
abbrev Event := Handle .event
abbrev Param := Handle .param
abbrev CustomAttribute := Handle .customAttribute

namespace Handle

variable {t : Table}

/-- The handle of the row with this number, of which the low 24 bits are kept. -/
def ofRow (t : Table) (row : UInt32) : Handle t := ⟨RowNumber.ofNat row.toNat⟩

def token (h : Handle t) : Token := ⟨t.number, h.row⟩

/-- Reads a token of table `t`; row 0 is no row. -/
def ofToken? (t : Table) (k : Token) : Option (Handle t) :=
  if k.table = t.number ∧ k.row ≠ 0 then some ⟨k.row⟩ else none

theorem ofToken?_eq_some_iff {k : Token} {h : Handle t} :
    ofToken? t k = some h ↔ k = h.token ∧ h.row ≠ 0 := by
  obtain ⟨table, row⟩ := k
  obtain ⟨row'⟩ := h
  simp only [ofToken?, token, Option.ite_none_right_eq_some, Option.some.injEq, Token.mk.injEq,
    Handle.mk.injEq]
  constructor
  · rintro ⟨⟨h₁, h₂⟩, rfl⟩; exact ⟨⟨h₁, rfl⟩, h₂⟩
  · rintro ⟨⟨h₁, rfl⟩, h₂⟩; exact ⟨⟨h₁, h₂⟩, rfl⟩

theorem token_inj {a b : Handle t} : a.token = b.token ↔ a = b := by
  obtain ⟨a⟩ := a
  obtain ⟨b⟩ := b
  simp [token]

theorem token_ne {u : Table} (h : t ≠ u) (a : Handle t) (b : Handle u) : a.token ≠ b.token := by
  intro e
  exact h (Table.number_inj.mp (congrArg Token.table e))

def describe (h : Handle t) : String := s!"{t.name}({h.token.hex})"

end Handle

/-- A reference to a type: one defined in this metadata, one named for lookup, or an
instantiation of a generic type. -/
inductive TypeDefOrRef where
  | typeDef (h : TypeDef)
  | typeRef (h : TypeRef)
  | typeSpec (h : TypeSpec)
deriving DecidableEq, Repr

namespace TypeDefOrRef

def token : TypeDefOrRef → Token
  | typeDef h => h.token
  | typeRef h => h.token
  | typeSpec h => h.token

instance : Coe TypeDef TypeDefOrRef := ⟨typeDef⟩
instance : Coe TypeRef TypeDefOrRef := ⟨typeRef⟩
instance : Coe TypeSpec TypeDefOrRef := ⟨typeSpec⟩

theorem token_inj {a b : TypeDefOrRef} : a.token = b.token ↔ a = b := by
  constructor
  · intro e
    cases a <;> cases b <;>
      first
        | simpa [token, Handle.token_inj] using e
        | exact absurd e (Handle.token_ne (by decide) _ _)
  · rintro rfl; rfl

/-- Definitions come before named references, these before instantiations; within one kind the
row number decides. -/
def position : TypeDefOrRef → Nat
  | typeDef h => h.row.val
  | typeRef h => 16777216 + h.row.val
  | typeSpec h => 2 * 16777216 + h.row.val

instance : Ord TypeDefOrRef := ⟨compareOn position⟩

theorem position_inj {a b : TypeDefOrRef} : a.position = b.position ↔ a = b := by
  constructor
  · intro e
    cases a with
    | typeDef a | typeRef a | typeSpec a =>
      cases b with
      | typeDef b | typeRef b | typeSpec b =>
        have ha := a.row.isLt
        have hb := b.row.isLt
        simp only [position] at e
        first
          | omega
          | exact congrArg _ (congrArg Handle.mk (Fin.ext (by omega)))
  · rintro rfl; rfl

instance : Std.TransOrd TypeDefOrRef :=
  inferInstanceAs (Std.TransCmp (compareOn position))

instance : Std.LawfulEqOrd TypeDefOrRef where
  eq_of_compare h := position_inj.mp (Nat.compare_eq_eq.mp h)

def describe : TypeDefOrRef → String
  | typeDef h => s!"TypeDef({h.describe})"
  | typeRef h => s!"TypeRef({h.describe})"
  | typeSpec h => s!"TypeSpec({h.describe})"

end TypeDefOrRef

end MetadataProjection
