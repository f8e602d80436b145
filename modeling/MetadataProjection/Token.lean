/-!
# MetadataProjection.Token

Metadata tokens. A token names one row of one table: a table number of eight bits and a row number
of 24 bits. Its 32-bit value holds the table number in the high byte.

* `Token.ofValue`, `Token.value`: the 32-bit form; each undoes the other (`ofValue_value`,
  `value_ofValue`).
* `Token.ofParts`: a token from a table number and a row number, of which the low 24 bits are kept.
* `Token.hex`, `Token.describe`: the two texts of a token.
-/

namespace MetadataProjection

inductive Table where
  | typeRef | typeDef | field | methodDef | param | customAttribute | event | property | typeSpec
deriving DecidableEq, Repr

namespace Table

def number : Table → UInt8
  | typeRef => 0x01
  | typeDef => 0x02
  | field => 0x04
  | methodDef => 0x06
  | param => 0x08
  | customAttribute => 0x0C
  | event => 0x14
  | property => 0x17
  | typeSpec => 0x1B

def name : Table → String
  | typeRef => "TypeRef"
  | typeDef => "TypeDef"
  | field => "Field"
  | methodDef => "MethodDef"
  | param => "Param"
  | customAttribute => "CustomAttribute"
  | event => "Event"
  | property => "Property"
  | typeSpec => "TypeSpec"

theorem number_inj {t u : Table} : t.number = u.number ↔ t = u := by
  cases t <;> cases u <;> decide

end Table

/-- Row numbers have 24 bits. Rows are counted from 1; number 0 names no row. -/
abbrev RowNumber := Fin 16777216

instance RowNumber.neZero : @NeZero Nat Zero.ofOfNat0 16777216 := ⟨Nat.succ_ne_zero 16777215⟩

def RowNumber.ofNat (n : Nat) : RowNumber := ⟨n % 16777216, Nat.mod_lt _ (by decide)⟩

@[simp] theorem RowNumber.val_ofNat (n : Nat) : (RowNumber.ofNat n).val = n % 16777216 := rfl

structure Token where
  table : UInt8
  row : RowNumber
deriving DecidableEq, Repr

/-- The digits of `n` to base 16 in lower case, padded with zeros to at least `width` digits. -/
def hexDigits (width n : Nat) : String :=
  let digits := Nat.toDigits 16 n
  String.ofList (List.replicate (width - digits.length) '0' ++ digits)

namespace Token

def null : Token := ⟨0, 0⟩

instance : Inhabited Token := ⟨null⟩

/-- A token from a table number and a row number, of which the low 24 bits are kept. -/
def ofParts (table : UInt8) (row : UInt32) : Token := ⟨table, RowNumber.ofNat row.toNat⟩

def ofValue (v : UInt32) : Token := ⟨UInt8.ofNat (v.toNat / 16777216), RowNumber.ofNat v.toNat⟩

/-- The 32-bit form: the table number in the high byte, the row number in the other 24 bits. -/
def value (t : Token) : UInt32 := UInt32.ofNat (t.table.toNat * 16777216 + t.row.val)

def isNull (t : Token) : Bool := t == null

/-- Tokens are ordered by table number, then by row number, which is the order of their values. -/
instance : Ord Token := ⟨fun a b => compare a.value b.value⟩

theorem toNat_value (t : Token) : t.value.toNat = t.table.toNat * 16777216 + t.row.val := by
  have h₁ := t.table.toNat_lt
  have h₂ := t.row.isLt
  simp only [value, UInt32.toNat_ofNat']
  omega

@[simp] theorem ofValue_value (t : Token) : ofValue t.value = t := by
  have h₂ := t.row.isLt
  have hv := t.toNat_value
  have e₁ : t.value.toNat / 16777216 = t.table.toNat := by omega
  have e₂ : t.value.toNat % 16777216 = t.row.val := by omega
  obtain ⟨table, row⟩ := t
  simp only [ofValue, e₁, UInt8.ofNat_toNat, mk.injEq, true_and]
  exact Fin.ext e₂

@[simp] theorem value_ofValue (v : UInt32) : (ofValue v).value = v := by
  have hv := v.toNat_lt
  apply UInt32.toNat_inj.mp
  rw [toNat_value]
  simp only [ofValue, UInt8.toNat_ofNat', RowNumber.val_ofNat]
  omega

/-- The value in eight hexadecimal digits, as diagnostics write it. -/
def hex (t : Token) : String := s!"0x{hexDigits 8 t.value.toNat}"

def describe (t : Token) : String :=
  s!"Token({t.hex}, table: 0x{hexDigits 2 t.table.toNat}, row: {t.row.val})"

end Token

end MetadataProjection
