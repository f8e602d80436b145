import MetadataProjection.Category
import MetadataProjection.Row
import MetadataProjection.Semantics

/-!
# MetadataProjection.Error

Why a query fails. An `Error` holds the cause; all wording is in this module.

* `Error`: the kinds of failure, with `Malformation`, `PropertyFault` and `EventFault` for the
  causes that a kind has several of.
* `Report`: a failure in words, as it is shown (`Error.report`, `Report.message`).
-/

namespace MetadataProjection

inductive Malformation where
  /-- The token is of another table, or names row 0. -/
  | notHandle (token : Token) (table : Table)
  | notTypeDefOrRef (token : Token)
  | definedTwice (fullName : String)
  | unknownAccessor (method owner : String)
  | specNotInstance (spec : Token) (signature : Signature)
  | instanceOfNonType (base : Signature)
  | instanceOfInstance (base : Token)
  | noDefinition (type : Semantics)
  | fieldOfCategory (field : String) (category : Category) (type : String)
  | referenceArity (field : String) (count : Nat)
  | notDelegate (type : String)
  | noInvoke (type : String)
  | overloadUnnamed (method : String)
  | missingParamRow (method : String) (count : Nat)
  | arrayWithoutDirection (param : String)
  | twoDirections (param : String)
  | withoutDirection (param : String)
  | orphanConstructor (constructor : Token)
  /-- Constructors activate one another in a circle, so no name is ever reached. -/
  | circularActivation (constructor : Token)
deriving DecidableEq, Repr

/-- How the links of a property break its shape: one getter, at most one setter, nothing else. -/
inductive PropertyFault where
  | secondGetter | secondSetter | otherLink | noGetter
deriving DecidableEq, Repr

/-- How the links of an event break its shape: one adder, one remover, nothing else. -/
inductive EventFault where
  | secondAdder | secondRemover | otherLink | noAdder | noRemover
deriving DecidableEq, Repr

inductive Error where
  | invalidMetadata (cause : Malformation)
  | rowNotFound (token : Token)
  | unresolvedTypeReference (fullName : String)
  | unsupportedElementType (element : String)
  | malformedProperty (property : String) (fault : PropertyFault)
  | malformedEvent (event : String) (fault : EventFault)
  | inconsistentAccessorStaticness (member : String)
  | inconsistentMemberKind (member : String)
  | factoryMethodNotFound (type : String)
  | recursionLimit (limit : Nat)
deriving DecidableEq, Repr

inductive Report where
  | invalidMetadata (text : String)
  | rowNotFound (token : Token)
  | unresolvedTypeReference (fullName : String)
  | unsupportedElementType (element : String)
  | malformedProperty (property reason : String)
  | malformedEvent (event reason : String)
  | inconsistentAccessorStaticness (member : String)
  | inconsistentMemberKind (member : String)
  | factoryMethodNotFound (type : String)
  | recursionLimit (limit : Nat)
deriving DecidableEq, Repr

namespace Malformation

def message : Malformation → String
  | notHandle token table => s!"Token {token.hex} is not a valid {table.name} handle"
  | notTypeDefOrRef token => s!"Token {token.hex} is not a TypeDefOrRef coded index"
  | definedTwice fullName => s!"Type {fullName} is defined twice"
  | unknownAccessor method owner => s!"Accessor {method} is not a method of {owner}"
  | specNotInstance spec signature =>
    s!"TypeSpec {spec.hex} is not a generic instantiation - {signature.describe}"
  | instanceOfNonType base =>
    s!"Generic instantiation over non-type element - {base.describe}"
  | instanceOfInstance base =>
    s!"Generic instantiation base {base.hex} is itself an instantiation"
  | noDefinition type => s!"Type {type.describe} doesn't contain a typedef"
  | fieldOfCategory field category type =>
    s!"Field {field} has {category.name} type {type}, expected enum or struct"
  | referenceArity field count => s!"Field {field} is an IReference`1 with {count} arguments"
  | notDelegate type => s!"{type} is not a delegate"
  | noInvoke type => s!"Invoke method not found on {type}"
  | overloadUnnamed method => s!"OverloadAttribute on {method} has no string argument"
  | missingParamRow method count =>
    s!"Method {method} has {count} signature parameters but fewer Param rows"
  | arrayWithoutDirection param => s!"Array parameter {param} is neither in nor out"
  | twoDirections param => s!"Parameter {param} is flagged both in and out"
  | withoutDirection param => s!"Parameter {param} is neither in nor out"
  | orphanConstructor constructor => s!"Constructor {constructor.hex} has no declaring type"
  | circularActivation constructor => s!"Constructor {constructor.hex} activates itself"

end Malformation

namespace PropertyFault

def reason : PropertyFault → String
  | secondGetter => "more than one getter"
  | secondSetter => "more than one setter"
  | otherLink => "properties can only have get and set methods"
  | noGetter => "missing getter"

end PropertyFault

namespace EventFault

def reason : EventFault → String
  | secondAdder => "more than one add method"
  | secondRemover => "more than one remove method"
  | otherLink => "events can only have add and remove methods"
  | noAdder => "missing add method"
  | noRemover => "missing remove method"

end EventFault

namespace Report

def kind : Report → String
  | invalidMetadata _ => "InvalidMetadata"
  | rowNotFound _ => "RowNotFound"
  | unresolvedTypeReference _ => "UnresolvedTypeReference"
  | unsupportedElementType _ => "UnsupportedElementType"
  | malformedProperty _ _ => "MalformedProperty"
  | malformedEvent _ _ => "MalformedEvent"
  | inconsistentAccessorStaticness _ => "InconsistentAccessorStaticness"
  | inconsistentMemberKind _ => "InconsistentMemberKind"
  | factoryMethodNotFound _ => "FactoryMethodNotFound"
  | recursionLimit _ => "RecursionLimit"

def message : Report → String
  | invalidMetadata text => text
  | rowNotFound token => s!"No metadata row for token - {token.hex}"
  | unresolvedTypeReference fullName => s!"Unresolved type reference - {fullName}"
  | unsupportedElementType element => s!"Unsupported element type - {element}"
  | malformedProperty property reason => s!"Malformed property {property}: {reason}"
  | malformedEvent event reason => s!"Malformed event {event}: {reason}"
  | inconsistentAccessorStaticness member => s!"Accessors of {member} disagree on static-ness"
  | inconsistentMemberKind member => s!"Overloads of {member} mix static and instance members"
  | factoryMethodNotFound type => s!"Couldn't find factory method for {type}"
  | recursionLimit limit => s!"Reach the maximum recursion level allowed - {limit}"

/-- The failure in one line, with the place where a malformation was noticed. -/
def messageAt (file : String) (line : UInt32) : Report → String
  | invalidMetadata text => s!"Invalid metadata - {file}:{line.toNat}: {text}"
  | report => report.message

end Report

def Error.report : Error → Report
  | invalidMetadata cause => .invalidMetadata cause.message
  | rowNotFound token => .rowNotFound token
  | unresolvedTypeReference fullName => .unresolvedTypeReference fullName
  | unsupportedElementType element => .unsupportedElementType element
  | malformedProperty property fault => .malformedProperty property fault.reason
  | malformedEvent event fault => .malformedEvent event fault.reason
  | inconsistentAccessorStaticness member => .inconsistentAccessorStaticness member
  | inconsistentMemberKind member => .inconsistentMemberKind member
  | factoryMethodNotFound type => .factoryMethodNotFound type
  | recursionLimit limit => .recursionLimit limit

/-! ## Reading tokens -/

def Handle.ofToken (t : Table) (k : Token) : Except Error (Handle t) :=
  match Handle.ofToken? t k with
  | some h => .ok h
  | none => .error (.invalidMetadata (.notHandle k t))

def TypeDefOrRef.ofToken (k : Token) : Except Error TypeDefOrRef :=
  if k.table = Table.typeDef.number then .typeDef <$> Handle.ofToken .typeDef k
  else if k.table = Table.typeRef.number then .typeRef <$> Handle.ofToken .typeRef k
  else if k.table = Table.typeSpec.number then .typeSpec <$> Handle.ofToken .typeSpec k
  else .error (.invalidMetadata (.notTypeDefOrRef k))

def Semantics.definitionOf (s : Semantics) : Except Error TypeDef :=
  match s.definition? with
  | some d => .ok d
  | none => .error (.invalidMetadata (.noDefinition s))

end MetadataProjection
