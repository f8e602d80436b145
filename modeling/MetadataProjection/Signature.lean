import MetadataProjection.Token

/-!
# MetadataProjection.Signature

Decoded signatures (ECMA-335 II.23.2): the types of fields, parameters and instantiations as the
metadata spells them, before any name is looked up.

* `Fundamental`: the thirteen value kinds an element can name directly.
* `Signature`: a type as a signature spells it, with decidable equality.
* `Signature.elementType?`, `Signature.ofElementType?`: the element type tag; the tags that stand
  alone are read back (`elementType?_of_ofElementType?`).
* `Slot`, `MethodSignature`: parameter slots and whole method signatures.
* `Signature.describe`: the text of a signature, constructor by constructor.
-/

namespace MetadataProjection

inductive Fundamental where
  | boolean | char | int8 | uint8 | int16 | uint16 | int32 | uint32 | int64 | uint64
  | float | double | string
deriving DecidableEq, Repr

namespace Fundamental

/-- Every kind, in the order of the element type tags. -/
def all : List Fundamental :=
  [boolean, char, int8, uint8, int16, uint16, int32, uint32, int64, uint64, float, double, string]

def elementType : Fundamental → UInt8
  | boolean => 0x02
  | char => 0x03
  | int8 => 0x04
  | uint8 => 0x05
  | int16 => 0x06
  | uint16 => 0x07
  | int32 => 0x08
  | uint32 => 0x09
  | int64 => 0x0a
  | uint64 => 0x0b
  | float => 0x0c
  | double => 0x0d
  | string => 0x0e

def ofElementType? (tag : UInt8) : Option Fundamental := all.find? (·.elementType == tag)

def name : Fundamental → String
  | boolean => "Boolean"
  | char => "Char"
  | int8 => "Int8"
  | uint8 => "UInt8"
  | int16 => "Int16"
  | uint16 => "UInt16"
  | int32 => "Int32"
  | uint32 => "UInt32"
  | int64 => "Int64"
  | uint64 => "UInt64"
  | float => "Float"
  | double => "Double"
  | string => "String"

def mnemonic : Fundamental → String
  | boolean => "Boolean"
  | char => "Char"
  | int8 => "I1"
  | uint8 => "U1"
  | int16 => "I2"
  | uint16 => "U2"
  | int32 => "I4"
  | uint32 => "U4"
  | int64 => "I8"
  | uint64 => "U8"
  | float => "R4"
  | double => "R8"
  | string => "String"

theorem ofElementType?_elementType (k : Fundamental) : ofElementType? k.elementType = some k := by
  cases k <;> rfl

end Fundamental

inductive Signature where
  | unknown
  | void
  | fundamental (kind : Fundamental)
  | ptr (pointee : Signature)
  | byRef (referent : Signature)
  | valueType (type : Token)
  | classType (type : Token)
  | genericParamType (index : UInt32)
  | genericInst (base : Signature) (args : List Signature)
  | typedByRef
  | nativeInt
  | nativeUInt
  | object
  | szArray (element : Signature)
  | genericParamMethod (index : UInt32)
deriving Repr, Inhabited

namespace Signature

/-! ## Equality -/

mutual

/-- Structural equality, as a test. -/
def beq : Signature → Signature → Bool
  | unknown, unknown => true
  | void, void => true
  | fundamental j, fundamental k => j == k
  | ptr a, ptr b => beq a b
  | byRef a, byRef b => beq a b
  | valueType a, valueType b => a == b
  | classType a, classType b => a == b
  | genericParamType i, genericParamType j => i == j
  | genericInst a as, genericInst b bs => beq a b && beqList as bs
  | typedByRef, typedByRef => true
  | nativeInt, nativeInt => true
  | nativeUInt, nativeUInt => true
  | object, object => true
  | szArray a, szArray b => beq a b
  | genericParamMethod i, genericParamMethod j => i == j
  | _, _ => false

/-- Structural equality of argument lists, as a test. -/
def beqList : List Signature → List Signature → Bool
  | [], [] => true
  | a :: as, b :: bs => beq a b && beqList as bs
  | _, _ => false

end

mutual

theorem eq_of_beq : ∀ {a b : Signature}, beq a b = true → a = b
  | ptr a, ptr b, h | byRef a, byRef b, h | szArray a, szArray b, h => by
    rw [eq_of_beq (a := a) (b := b) (by simpa [beq] using h)]
  | genericInst a as, genericInst b bs, h => by
    simp only [beq, Bool.and_eq_true] at h
    rw [eq_of_beq h.1, eq_of_beqList h.2]
  | unknown, b, h | void, b, h | typedByRef, b, h | nativeInt, b, h | nativeUInt, b, h
  | object, b, h | fundamental _, b, h | valueType _, b, h | classType _, b, h
  | genericParamType _, b, h | genericParamMethod _, b, h => by
    cases b <;> simp_all [beq]

theorem eq_of_beqList : ∀ {as bs : List Signature}, beqList as bs = true → as = bs
  | [], [], _ => rfl
  | a :: as, b :: bs, h => by
    simp only [beqList, Bool.and_eq_true] at h
    rw [eq_of_beq h.1, eq_of_beqList h.2]

end

mutual

theorem beq_self : ∀ a : Signature, beq a a = true
  | ptr a | byRef a | szArray a => by simpa [beq] using beq_self a
  | genericInst a as => by simp [beq, beq_self a, beqList_self as]
  | unknown | void | typedByRef | nativeInt | nativeUInt | object => rfl
  | fundamental _ | valueType _ | classType _ | genericParamType _ | genericParamMethod _ => by
    simp [beq]

theorem beqList_self : ∀ as : List Signature, beqList as as = true
  | [] => rfl
  | a :: as => by simp [beqList, beq_self a, beqList_self as]

end

instance : DecidableEq Signature := fun a b =>
  decidable_of_iff (beq a b = true) ⟨eq_of_beq, fun h => h ▸ beq_self a⟩

/-! ## Element types -/

def elementType? : Signature → Option UInt8
  | unknown => none
  | void => some 0x01
  | fundamental k => some k.elementType
  | ptr _ => some 0x0f
  | byRef _ => some 0x10
  | valueType _ => some 0x11
  | classType _ => some 0x12
  | genericParamType _ => some 0x13
  | genericInst _ _ => some 0x15
  | typedByRef => some 0x16
  | nativeInt => some 0x18
  | nativeUInt => some 0x19
  | object => some 0x1c
  | szArray _ => some 0x1d
  | genericParamMethod _ => some 0x1e

/-- The signature a tag spells alone. Tags that announce a token, a type or a position spell none. -/
def ofElementType? (tag : UInt8) : Option Signature :=
  match Fundamental.ofElementType? tag with
  | some k => some (fundamental k)
  | none =>
    if tag = 0x01 then some void
    else if tag = 0x16 then some typedByRef
    else if tag = 0x18 then some nativeInt
    else if tag = 0x19 then some nativeUInt
    else if tag = 0x1c then some object
    else none

theorem elementType?_of_ofElementType? {tag : UInt8} {s : Signature}
    (h : ofElementType? tag = some s) : s.elementType? = some tag := by
  unfold ofElementType? at h
  split at h
  next k hk =>
    cases h
    have := List.find?_some hk
    simpa [elementType?] using this
  next =>
    repeat' split at h
    all_goals cases h
    all_goals simp_all [elementType?]

def fundamental? : Signature → Option Fundamental
  | fundamental k => some k
  | _ => none

/-- A fundamental kind is named by exactly the signatures that start with its tag. -/
theorem fundamental?_eq (s : Signature) :
    s.fundamental? = s.elementType?.bind Fundamental.ofElementType? := by
  cases s with
  | fundamental k => exact (Fundamental.ofElementType?_elementType k).symm
  | _ => rfl

def isSzArray : Signature → Bool
  | szArray _ => true
  | _ => false

def isVoid : Signature → Bool
  | void => true
  | _ => false

/-! ## Text -/

mutual

/-- The constructor's name with its arguments in brackets, lists in square brackets. -/
def describe : Signature → String
  | unknown => "Unknown"
  | void => "Void"
  | fundamental k => k.mnemonic
  | ptr s => "Ptr(" ++ describe s ++ ")"
  | byRef s => "ByRef(" ++ describe s ++ ")"
  | valueType t => "ValueType(" ++ t.describe ++ ")"
  | classType t => "Class(" ++ t.describe ++ ")"
  | genericParamType i => "GenericParamType(" ++ toString i.toNat ++ ")"
  | genericInst b args => "GenericInst(" ++ describe b ++ ", [" ++ describeArgs args ++ "])"
  | typedByRef => "TypedByRef"
  | nativeInt => "I"
  | nativeUInt => "U"
  | object => "Object"
  | szArray s => "SzArray(" ++ describe s ++ ")"
  | genericParamMethod i => "GenericParamMethod(" ++ toString i.toNat ++ ")"

/-- The texts of a list, separated by commas. -/
def describeArgs : List Signature → String
  | [] => ""
  | [s] => describe s
  | s :: r => describe s ++ ", " ++ describeArgs r

end

end Signature

structure Slot where
  byRef : Bool := false
  type : Signature := .unknown
deriving DecidableEq, Repr, Inhabited

structure MethodSignature where
  hasThis : Bool := false
  genericParamCount : UInt32 := 0
  returns : Slot := {}
  params : List Slot := []
deriving DecidableEq, Repr, Inhabited

end MetadataProjection
