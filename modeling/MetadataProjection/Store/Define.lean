import MetadataProjection.Store.Basic
import MetadataProjection.Store.Declaration

/-!
# MetadataProjection.Store.Define

Writing a declaration into the store: the attributes of the type, then methods, properties, events
and fields in the order of declaration, and the type itself last. A declaration that fails keeps
the row numbers and the rows of what came before the failure; only a type whose row is written can
be found.

* `Edit`: a step on the store that may fail; what it did before failing stays done.
* `TypeDecl.write`: the whole of a declaration, by way of `MethodDecl.write`,
  `AccessorDecl.writeProperty`, `AccessorDecl.writeEvent` and `FieldDecl.write`.
* `Store.define`: the answer and the store after it.
-/

namespace MetadataProjection

abbrev Edit := ExceptT Error (StateM Store)

namespace Edit

def reserve (t : Table) : Edit (Handle t) := do
  let (h, s) := (← get).reserve t
  set s
  return h

def put {t : Table} (h : Handle t) (row : Row t) : Edit Unit := modify (·.put h row)

/-- Writes a row that must not have number 0. -/
def record {t : Table} (h : Handle t) (row : Row t) : Edit (Handle t) := do
  let h ← Handle.ofToken t h.token
  put h row
  return h

end Edit

def AttributeDecl.write (parent : Token) (d : AttributeDecl) : Edit CustomAttribute := do
  let h ← Edit.reserve .customAttribute
  Edit.put h (t := .customAttribute)
    { token := h.token, parent, typeSpace := d.space, typeName := d.name, value := d.value }
  return h

def ParamRow.write (name : String) (flags sequence : UInt32) : Edit Param := do
  let h ← Edit.reserve .param
  Edit.put h (t := .param) { token := h.token, name, flags, sequence }
  return h

namespace MethodDecl

/-- Writes the row of the return value, where it is named. It has sequence number 0. -/
def writeReturn : Option String → Edit (List Param)
  | some name => do return [← ParamRow.write name 0 0]
  | none => return []

def writeParams (sequence : UInt32) : List ParamDecl → Edit (List Param)
  | [] => return []
  | d :: ds => do
    let h ← ParamRow.write d.name d.flags sequence
    let hs ← writeParams (sequence + 1) ds
    return h :: hs

def signature (d : MethodDecl) : MethodSignature where
  hasThis := !Modifier.static.isIn d.flags
  returns := ⟨false, d.returns⟩
  params := d.params.map (·.slot)

def write (parent : TypeDef) (d : MethodDecl) : Edit MethodDef := do
  let h ← Edit.reserve .methodDef
  let returnRow ← writeReturn d.returnName
  let paramRows ← writeParams 1 d.params
  let attributes ← d.attributes.mapM (·.write h.token)
  Edit.record h (t := .methodDef)
    { token := h.token, parent := some parent, name := d.name, flags := d.flags,
      signature := d.signature, params := returnRow ++ paramRows, attributes }

end MethodDecl

namespace AccessorDecl

/-- The links of a declaration among the methods of `owner`. Of two methods of one name the first
is meant. -/
def resolveLinks (owner : String) (methods : List (String × MethodDef)) (d : AccessorDecl) :
    Except Error (List Link) :=
  d.links.mapM fun l =>
    match methods.lookup l.method with
    | some h => .ok ⟨l.semantics, h⟩
    | none => .error (.invalidMetadata (.unknownAccessor l.method owner))

def writeProperty (owner : String) (methods : List (String × MethodDef)) (d : AccessorDecl) :
    Edit Property := do
  let links ← d.resolveLinks owner methods
  let h ← Edit.reserve .property
  Edit.record h (t := .property) { token := h.token, name := d.name, links }

def writeEvent (owner : String) (methods : List (String × MethodDef)) (d : AccessorDecl) :
    Edit Event := do
  let links ← d.resolveLinks owner methods
  let h ← Edit.reserve .event
  Edit.record h (t := .event)
    { token := h.token, name := d.name, handlerType := d.handlerType, links }

end AccessorDecl

def FieldDecl.write (parent : TypeDef) (d : FieldDecl) : Edit Field := do
  let h ← Edit.reserve .field
  Edit.record h (t := .field)
    { token := h.token, parent := some parent, name := d.name, flags := d.flags,
      signature := d.type }

namespace TypeDecl

/-- The base of a type: the declared one, or else the system type that its category implies. -/
def writeBase (d : TypeDecl) : Edit (Option TypeDefOrRef) :=
  match d.base, d.category.systemBase with
  | some type, _ => return some type
  | none, some name => do
    let (h, s) := (← get).addTypeRef Platform.systemNamespace name
    set s
    return some (.typeRef h)
  | none, none => return none

/-- Writes the row of a type and makes it known by its full name, which must be free. -/
def publish (h : TypeDef) (row : TypeRow) : Edit TypeDef := do
  let s ← get
  if s.typeNames.contains row.fullName then
    throw (.invalidMetadata (.definedTwice row.fullName))
  else
    let s := s.put h (t := .typeDef) row
    set { s with typeNames := s.typeNames.insert row.fullName h }
    return h

/-- Writes a type with all its members. In the message about an unknown accessor the owner's name
follows its namespace and a dot even in the global namespace. -/
def write (d : TypeDecl) : Edit TypeDef := do
  let h ← Handle.ofToken .typeDef (← Edit.reserve .typeDef).token
  let base ← d.writeBase
  let attributes ← d.attributes.mapM (·.write h.token)
  let methods ← d.methods.mapM (·.write h)
  let named := (d.methods.map (·.name)).zip methods
  let owner := d.space ++ "." ++ d.name
  let properties ← d.properties.mapM (·.writeProperty owner named)
  let events ← d.events.mapM (·.writeEvent owner named)
  let fields ← d.fields.mapM (·.write h)
  publish h
    { token := h.token, space := d.space, name := d.name, flags := d.flags, base,
      genericParams := d.genericParams, interfaces := d.interfaces, methods, fields, properties,
      events, attributes }

end TypeDecl

def Store.define (s : Store) (d : TypeDecl) : Except Error TypeDef × Store := d.write.run.run s

end MetadataProjection
