import MetadataProjection.Token

/-!
# MetadataProjection.Attribute

Decoded values of custom attributes (ECMA-335 II.23.3).

* `Binary32`, `Binary64`: floating-point payloads by their bit patterns, compared as the numbers
  they stand for: no NaN equals anything, the two zeros are equal.
* `AttributeArgument`, `AttributeValue`: the arguments an attribute was given.
* `Platform`: the names of the attributes the projection rules look for.
-/

namespace MetadataProjection

/-- A single-precision number, by its bits. -/
structure Binary32 where
  bits : UInt32
deriving Repr

/-- A double-precision number, by its bits. -/
structure Binary64 where
  bits : UInt64
deriving Repr

namespace Binary32

def isNaN (x : Binary32) : Bool := x.bits &&& 0x7FFFFFFF > 0x7F800000

def isZero (x : Binary32) : Bool := x.bits &&& 0x7FFFFFFF == 0

/-- Equality of numbers: a NaN equals nothing, the zeros are equal whatever their sign. -/
instance : BEq Binary32 :=
  ⟨fun x y => !x.isNaN && !y.isNaN && (x.bits == y.bits || x.isZero && y.isZero)⟩

end Binary32

namespace Binary64

def isNaN (x : Binary64) : Bool := x.bits &&& 0x7FFFFFFFFFFFFFFF > 0x7FF0000000000000

def isZero (x : Binary64) : Bool := x.bits &&& 0x7FFFFFFFFFFFFFFF == 0

/-- Equality of numbers: a NaN equals nothing, the zeros are equal whatever their sign. -/
instance : BEq Binary64 :=
  ⟨fun x y => !x.isNaN && !y.isNaN && (x.bits == y.bits || x.isZero && y.isZero)⟩

end Binary64

inductive AttributeArgument where
  | bool (value : Bool)
  | char (value : Char)
  | int8 (value : Int8)
  | uint8 (value : UInt8)
  | int16 (value : Int16)
  | uint16 (value : UInt16)
  | int32 (value : Int32)
  | uint32 (value : UInt32)
  | int64 (value : Int64)
  | uint64 (value : UInt64)
  | float (value : Binary32)
  | double (value : Binary64)
  | string (value : String)
  | type (fullName : String)
  | array (elements : List AttributeArgument)
  | enum (type : String) (value : AttributeArgument)
deriving Inhabited

namespace AttributeArgument

def string? : AttributeArgument → Option String
  | string s => some s
  | _ => none

def typeName? : AttributeArgument → Option String
  | type n => some n
  | _ => none

mutual

/-- Equality of arguments of one kind; numbers with a fraction are compared as numbers. -/
def beq : AttributeArgument → AttributeArgument → Bool
  | bool a, bool b => a == b
  | char a, char b => a == b
  | int8 a, int8 b => a == b
  | uint8 a, uint8 b => a == b
  | int16 a, int16 b => a == b
  | uint16 a, uint16 b => a == b
  | int32 a, int32 b => a == b
  | uint32 a, uint32 b => a == b
  | int64 a, int64 b => a == b
  | uint64 a, uint64 b => a == b
  | float a, float b => a == b
  | double a, double b => a == b
  | string a, string b => a == b
  | type a, type b => a == b
  | array as, array bs => beqList as bs
  | enum t a, enum u b => t == u && beq a b
  | _, _ => false

def beqList : List AttributeArgument → List AttributeArgument → Bool
  | [], [] => true
  | a :: as, b :: bs => beq a b && beqList as bs
  | _, _ => false

end

instance : BEq AttributeArgument := ⟨beq⟩

end AttributeArgument

/-- An argument given by name, to a field or to a property of the attribute. -/
structure NamedArgument where
  isField : Bool
  name : String
  value : AttributeArgument

structure AttributeValue where
  fixed : List AttributeArgument := []
  named : List NamedArgument := []
deriving Inhabited

/-! ## The attributes the projection rules look for -/

namespace Platform

def metadataNamespace : String := "Windows.Foundation.Metadata"

def overloadAttribute : String := "OverloadAttribute"

def activatableAttribute : String := "ActivatableAttribute"

def exclusiveToAttribute : String := "ExclusiveToAttribute"

def systemNamespace : String := "System"

def flagsAttribute : String := "FlagsAttribute"

def foundationNamespace : String := "Windows.Foundation"

def collectionsNamespace : String := "Windows.Foundation.Collections"

end Platform

end MetadataProjection
