import MetadataProjection.Category
import MetadataProjection.Row

/-!
# MetadataProjection.Store.Declaration

Declarations of types. A declaration is written as a list of clauses, read from left to right.

* `MethodClause`, `AccessorClause`, `TypeClause`: what can be said of a method, of a property or an
  event, and of a type.
* `MethodDecl`, `AccessorDecl`, `TypeDecl`: what has been said when all clauses are read
  (`MethodDecl.ofClauses`, `AccessorDecl.ofClauses`, `TypeDecl.ofClauses`).
-/

namespace MetadataProjection

structure AttributeDecl where
  space : String
  name : String
  value : AttributeValue := {}

/-! ## Methods -/

structure ParamDecl where
  name : String
  flags : UInt32
  slot : Slot

structure MethodDecl where
  name : String
  flags : UInt32
  params : List ParamDecl := []
  returns : Signature := .void
  /-- The name of the return value, if it has one. -/
  returnName : Option String := none
  attributes : List AttributeDecl := []

inductive MethodClause where
  | static
  | specialName
  | flags (flags : UInt32)
  | param (name : String) (type : Signature)
  | outParam (name : String) (type : Signature)
  | paramWith (name : String) (flags : UInt32) (slot : Slot)
  | returns (type : Signature)
  | returnName (name : String)
  | overload (name : String)
  | attribute (decl : AttributeDecl)

namespace MethodDecl

def defaultFlags : UInt32 := 0x0006 ||| Modifier.hideBySig.flag

def constructorFlags : UInt32 :=
  defaultFlags ||| Modifier.specialName.flag ||| Modifier.rtSpecialName.flag

def apply (m : MethodDecl) : MethodClause → MethodDecl
  | .static => { m with flags := m.flags ||| Modifier.static.flag }
  | .specialName => { m with flags := m.flags ||| Modifier.specialName.flag }
  | .flags f => { m with flags := f }
  | .param name type => { m with params := m.params ++ [⟨name, ParamFlag.input, ⟨false, type⟩⟩] }
  | .outParam name type => { m with params := m.params ++ [⟨name, ParamFlag.output, ⟨true, type⟩⟩] }
  | .paramWith name flags slot => { m with params := m.params ++ [⟨name, flags, slot⟩] }
  | .returns type => { m with returns := type }
  | .returnName name => { m with returnName := some name }
  | .overload name =>
    let value : AttributeValue := { fixed := [.string name] }
    let decl : AttributeDecl := ⟨Platform.metadataNamespace, Platform.overloadAttribute, value⟩
    { m with attributes := m.attributes ++ [decl] }
  | .attribute decl => { m with attributes := m.attributes ++ [decl] }

/-- A public instance method without a return value, and what the clauses make of it. -/
def ofClauses (name : String) (clauses : List MethodClause) : MethodDecl :=
  clauses.foldl apply { name, flags := defaultFlags }

/-- A constructor, and what the clauses make of it. -/
def constructorOfClauses (clauses : List MethodClause) : MethodDecl :=
  clauses.foldl apply { name := constructorName, flags := constructorFlags }

end MethodDecl

/-! ## Properties and events -/

structure LinkDecl where
  semantics : UInt32
  method : String
deriving DecidableEq, Repr

/-- A property or an event to be declared. Only events have a handler type. -/
structure AccessorDecl where
  name : String
  handlerType : Option TypeDefOrRef := none
  links : List LinkDecl := []
deriving DecidableEq, Repr

inductive AccessorClause where
  | getter (method : String)
  | setter (method : String)
  | adder (method : String)
  | remover (method : String)
  | link (semantics : UInt32) (method : String)
  | handler (type : TypeDefOrRef)
deriving DecidableEq, Repr

namespace AccessorDecl

def addLink (d : AccessorDecl) (semantics : UInt32) (method : String) : AccessorDecl :=
  { d with links := d.links ++ [⟨semantics, method⟩] }

def apply (d : AccessorDecl) : AccessorClause → AccessorDecl
  | .getter method => d.addLink LinkFlag.getter method
  | .setter method => d.addLink LinkFlag.setter method
  | .adder method => d.addLink LinkFlag.adder method
  | .remover method => d.addLink LinkFlag.remover method
  | .link semantics method => d.addLink semantics method
  | .handler type => { d with handlerType := some type }

def ofClauses (name : String) (clauses : List AccessorClause) : AccessorDecl :=
  clauses.foldl apply { name }

end AccessorDecl

/-! ## Types -/

structure FieldDecl where
  name : String
  flags : UInt32
  type : Signature
deriving DecidableEq, Repr

structure TypeDecl where
  space : String
  name : String
  flags : UInt32 := TypeFlag.publicVisibility ||| TypeFlag.windowsRuntime
  category : Category := .runtimeClass
  /-- The base type, where it is not the one the category implies. -/
  base : Option TypeDefOrRef := none
  genericParams : List String := []
  interfaces : List TypeDefOrRef := []
  attributes : List AttributeDecl := []
  methods : List MethodDecl := []
  properties : List AccessorDecl := []
  events : List AccessorDecl := []
  fields : List FieldDecl := []

inductive TypeClause where
  /-- The category of the type; a later clause of this kind overrides an earlier one. -/
  | category (category : Category)
  | abstract
  | sealed
  | base (type : TypeDefOrRef)
  | genericParam (name : String)
  | implements (type : TypeDefOrRef)
  | attribute (decl : AttributeDecl)
  | method (name : String) (clauses : List MethodClause)
  | constructor (clauses : List MethodClause)
  | property (name : String) (clauses : List AccessorClause)
  | event (name : String) (clauses : List AccessorClause)
  /-- A property with its getter and, if writable, its setter. -/
  | simpleProperty (name : String) (type : Signature) (writable : Bool)
  | simpleEvent (name : String) (handler : TypeDefOrRef)
  | field (name : String) (type : Signature)
  | fieldWith (name : String) (flags : UInt32) (type : Signature)

/-- The flags a category adds to a type. Naming another category later does not take them back. -/
def Category.flags : Category → UInt32
  | .interface => TypeFlag.interface ||| TypeFlag.abstract
  | .runtimeClass => 0
  | .struct | .enum | .delegate => TypeFlag.sealed

def Category.systemBase : Category → Option String
  | .interface => none
  | .runtimeClass => some "Object"
  | .struct => some "ValueType"
  | .enum => some "Enum"
  | .delegate => some "MulticastDelegate"

namespace TypeDecl

def addMethod (d : TypeDecl) (m : MethodDecl) : TypeDecl := { d with methods := d.methods ++ [m] }

def addProperty (d : TypeDecl) (p : AccessorDecl) : TypeDecl :=
  { d with properties := d.properties ++ [p] }

def addEvent (d : TypeDecl) (e : AccessorDecl) : TypeDecl := { d with events := d.events ++ [e] }

/-- The getter, the setter where there is one, and the property that links them. -/
def addSimpleProperty (d : TypeDecl) (name : String) (type : Signature) (writable : Bool) :
    TypeDecl :=
  let getter := "get_" ++ name
  let setter := "put_" ++ name
  let d := d.addMethod (.ofClauses getter [.specialName, .returns type])
  if writable then
    (d.addMethod (.ofClauses setter [.specialName, .param "value" type])).addProperty
      (.ofClauses name [.getter getter, .setter setter])
  else
    d.addProperty (.ofClauses name [.getter getter])

/-- The adder, the remover and the event that links them. A registration is named by a token of
64 bits. -/
def addSimpleEvent (d : TypeDecl) (name : String) (handler : TypeDefOrRef) : TypeDecl :=
  let adder := "add_" ++ name
  let remover := "remove_" ++ name
  let registration : Signature := .fundamental .int64
  let add : MethodDecl := .ofClauses adder
    [.specialName, .param "handler" (.classType handler.token), .returns registration]
  let remove : MethodDecl := .ofClauses remover [.specialName, .param "token" registration]
  ((d.addMethod add).addMethod remove).addEvent
    (.ofClauses name [.handler handler, .adder adder, .remover remover])

def apply (d : TypeDecl) : TypeClause → TypeDecl
  | .category c => { d with category := c, flags := d.flags ||| c.flags }
  | .abstract => { d with flags := d.flags ||| TypeFlag.abstract }
  | .sealed => { d with flags := d.flags ||| TypeFlag.sealed }
  | .base type => { d with base := some type }
  | .genericParam name => { d with genericParams := d.genericParams ++ [name] }
  | .implements type => { d with interfaces := d.interfaces ++ [type] }
  | .attribute decl => { d with attributes := d.attributes ++ [decl] }
  | .method name clauses => d.addMethod (.ofClauses name clauses)
  | .constructor clauses => d.addMethod (.constructorOfClauses clauses)
  | .property name clauses => d.addProperty (.ofClauses name clauses)
  | .event name clauses => d.addEvent (.ofClauses name clauses)
  | .simpleProperty name type writable => d.addSimpleProperty name type writable
  | .simpleEvent name handler => d.addSimpleEvent name handler
  | .field name type => { d with fields := d.fields ++ [⟨name, FieldFlag.publicAccess, type⟩] }
  | .fieldWith name flags type => { d with fields := d.fields ++ [⟨name, flags, type⟩] }

/-- A public class, and what the clauses make of it. -/
def ofClauses (space name : String) (clauses : List TypeClause) : TypeDecl :=
  clauses.foldl apply { space, name }

end TypeDecl

end MetadataProjection
