import MetadataProjection.Handle
import MetadataProjection.Signature
import MetadataProjection.Name
import MetadataProjection.Attribute

/-!
# MetadataProjection.Row

The rows of the metadata tables, with the lists that the table format spreads over several tables
gathered in the row that owns them. A row carries the token it was recorded under, the null token
if it was never recorded.

* `TypeRow`, `TypeRefRow`, `TypeSpecRow`: types, named references, instantiations.
* `MethodRow`, `ParamRow`, `FieldRow`: methods with their parameter rows, fields.
* `PropertyRow`, `EventRow`, `Link`: members that point at their accessor methods.
* `AttributeRow`: an attribute and its owner.
* `Row`: the kind of row each table holds.
-/

namespace MetadataProjection

def hasFlag (mask flags : UInt32) : Bool := flags &&& mask != 0

theorem hasFlag_or (mask a b : UInt32) :
    hasFlag mask (a ||| b) = (hasFlag mask a || hasFlag mask b) := by
  have h : (a ||| b) &&& mask = (a &&& mask) ||| (b &&& mask) := by
    apply UInt32.toBitVec_inj.mp
    simp only [UInt32.toBitVec_and, UInt32.toBitVec_or]
    ext i
    simp only [BitVec.getElem_and, BitVec.getElem_or, Bool.and_or_distrib_right]
  rw [Bool.eq_iff_iff]
  simp only [hasFlag, h, Bool.or_eq_true, bne_iff_ne, ne_eq, UInt32.or_eq_zero_iff]
  exact Decidable.not_and_iff_not_or_not

/-! ## Types -/

namespace TypeFlag

def publicVisibility : UInt32 := 0x0001
def interface : UInt32 := 0x0020
def abstract : UInt32 := 0x0080
def sealed : UInt32 := 0x0100
def windowsRuntime : UInt32 := 0x4000

end TypeFlag

structure TypeRow where
  token : Token := .null
  space : String := ""
  name : String := ""
  flags : UInt32 := 0
  base : Option TypeDefOrRef := none
  genericParams : List String := []
  interfaces : List TypeDefOrRef := []
  methods : List MethodDef := []
  fields : List Field := []
  properties : List Property := []
  events : List Event := []
  attributes : List CustomAttribute := []
deriving DecidableEq, Repr, Inhabited

namespace TypeRow

def handle (r : TypeRow) : TypeDef := ⟨r.token.row⟩

def fullName (r : TypeRow) : String := qualifiedName r.space r.name

def isInterface (r : TypeRow) : Bool := hasFlag TypeFlag.interface r.flags

def isAbstract (r : TypeRow) : Bool := hasFlag TypeFlag.abstract r.flags

def isGeneric (r : TypeRow) : Bool := !r.genericParams.isEmpty

def isNamed (r : TypeRow) (space name : String) : Bool := r.space == space && r.name == name

end TypeRow

structure TypeRefRow where
  token : Token := .null
  space : String := ""
  name : String := ""
deriving DecidableEq, Repr, Inhabited

namespace TypeRefRow

def handle (r : TypeRefRow) : TypeRef := ⟨r.token.row⟩

def fullName (r : TypeRefRow) : String := qualifiedName r.space r.name

def isNamed (r : TypeRefRow) (space name : String) : Bool := r.space == space && r.name == name

end TypeRefRow

structure TypeSpecRow where
  token : Token := .null
  signature : Signature := .unknown
deriving DecidableEq, Repr, Inhabited

namespace TypeSpecRow

def handle (r : TypeSpecRow) : TypeSpec := ⟨r.token.row⟩

end TypeSpecRow

/-! ## Methods, parameters, fields -/

/-- The flags of a method that say how it is called, apart from access and slot layout. -/
inductive Modifier where
  | static | final | virtual | hideBySig | abstract | specialName | rtSpecialName
deriving DecidableEq, Repr

namespace Modifier

/-- Every modifier, by rising flag. -/
def all : List Modifier := [static, final, virtual, hideBySig, abstract, specialName, rtSpecialName]

def flag : Modifier → UInt32
  | static => 0x0010
  | final => 0x0020
  | virtual => 0x0040
  | hideBySig => 0x0080
  | abstract => 0x0400
  | specialName => 0x0800
  | rtSpecialName => 0x1000

def name : Modifier → String
  | static => "STATIC"
  | final => "FINAL"
  | virtual => "VIRTUAL"
  | hideBySig => "HIDE_BY_SIG"
  | abstract => "ABSTRACT"
  | specialName => "SPECIAL_NAME"
  | rtSpecialName => "RTSPECIAL_NAME"

def isIn (m : Modifier) (flags : UInt32) : Bool := hasFlag m.flag flags

def ofFlags (flags : UInt32) : List Modifier := all.filter (·.isIn flags)

def mask (flags : UInt32) : UInt32 := flags &&& all.foldl (fun m x => m ||| x.flag) 0

end Modifier

def constructorName : String := ".ctor"

/-- A method. The first parameter row may describe the return value. -/
structure MethodRow where
  token : Token := .null
  parent : Option TypeDef := none
  name : String := ""
  flags : UInt32 := 0
  signature : MethodSignature := {}
  params : List Param := []
  attributes : List CustomAttribute := []
deriving DecidableEq, Repr, Inhabited

namespace MethodRow

def handle (r : MethodRow) : MethodDef := ⟨r.token.row⟩

def isStatic (r : MethodRow) : Bool := Modifier.static.isIn r.flags

def isSpecialName (r : MethodRow) : Bool := Modifier.specialName.isIn r.flags

def isRtSpecialName (r : MethodRow) : Bool := Modifier.rtSpecialName.isIn r.flags

def isConstructor (r : MethodRow) : Bool := r.isRtSpecialName && r.name == constructorName

def isAccessor (start : String) (r : MethodRow) : Bool := r.isSpecialName && startsWith start r.name

def isGetter (r : MethodRow) : Bool := r.isAccessor "get_"

def isSetter (r : MethodRow) : Bool := r.isAccessor "put_"

def isAdder (r : MethodRow) : Bool := r.isAccessor "add_"

def isRemover (r : MethodRow) : Bool := r.isAccessor "remove_"

end MethodRow

namespace ParamFlag

def input : UInt32 := 0x0001
def output : UInt32 := 0x0002

end ParamFlag

/-- A parameter of a method, or its return value if the sequence number is 0. -/
structure ParamRow where
  token : Token := .null
  name : String := ""
  flags : UInt32 := 0
  sequence : UInt32 := 0
deriving DecidableEq, Repr, Inhabited

namespace ParamRow

def handle (r : ParamRow) : Param := ⟨r.token.row⟩

def isIn (r : ParamRow) : Bool := hasFlag ParamFlag.input r.flags

def isOut (r : ParamRow) : Bool := hasFlag ParamFlag.output r.flags

def isReturn (r : ParamRow) : Bool := r.sequence == 0

end ParamRow

namespace FieldFlag

def publicAccess : UInt32 := 0x0006
def static : UInt32 := 0x0010
def rtSpecialName : UInt32 := 0x0400

end FieldFlag

/-- A field of a struct, or a named constant of an enum. -/
structure FieldRow where
  token : Token := .null
  parent : Option TypeDef := none
  name : String := ""
  flags : UInt32 := 0
  signature : Signature := .unknown
deriving DecidableEq, Repr, Inhabited

namespace FieldRow

def handle (r : FieldRow) : Field := ⟨r.token.row⟩

def isStatic (r : FieldRow) : Bool := hasFlag FieldFlag.static r.flags

def isRtSpecialName (r : FieldRow) : Bool := hasFlag FieldFlag.rtSpecialName r.flags

end FieldRow

/-! ## Properties and events -/

namespace LinkFlag

def setter : UInt32 := 0x0001
def getter : UInt32 := 0x0002
def adder : UInt32 := 0x0008
def remover : UInt32 := 0x0010

end LinkFlag

structure Link where
  semantics : UInt32
  method : MethodDef
deriving DecidableEq, Repr

namespace Link

def isGetter (l : Link) : Bool := hasFlag LinkFlag.getter l.semantics

def isSetter (l : Link) : Bool := hasFlag LinkFlag.setter l.semantics

def isAdder (l : Link) : Bool := hasFlag LinkFlag.adder l.semantics

def isRemover (l : Link) : Bool := hasFlag LinkFlag.remover l.semantics

end Link

structure PropertyRow where
  token : Token := .null
  name : String := ""
  links : List Link := []
deriving DecidableEq, Repr, Inhabited

def PropertyRow.handle (r : PropertyRow) : Property := ⟨r.token.row⟩

structure EventRow where
  token : Token := .null
  name : String := ""
  handlerType : Option TypeDefOrRef := none
  links : List Link := []
deriving DecidableEq, Repr, Inhabited

def EventRow.handle (r : EventRow) : Event := ⟨r.token.row⟩

/-! ## Attributes -/

/-- An attribute, by the name of its type, on the row that `parent` names. -/
structure AttributeRow where
  token : Token := .null
  parent : Token := .null
  typeSpace : String := ""
  typeName : String := ""
  value : AttributeValue := {}
deriving Inhabited

namespace AttributeRow

def handle (r : AttributeRow) : CustomAttribute := ⟨r.token.row⟩

def fullName (r : AttributeRow) : String := qualifiedName r.typeSpace r.typeName

def isNamed (r : AttributeRow) (space name : String) : Bool :=
  r.typeSpace == space && r.typeName == name

end AttributeRow

abbrev Row : Table → Type
  | .typeDef => TypeRow
  | .typeRef => TypeRefRow
  | .typeSpec => TypeSpecRow
  | .methodDef => MethodRow
  | .field => FieldRow
  | .property => PropertyRow
  | .event => EventRow
  | .param => ParamRow
  | .customAttribute => AttributeRow

end MetadataProjection
