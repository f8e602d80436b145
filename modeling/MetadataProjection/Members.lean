import MetadataProjection.Accessors
import MetadataProjection.Resolver
import MetadataProjection.Traits

/-!
# MetadataProjection.Members

The members of a type by role.

* `View.members`: all members of a type, in groups.
* `View.memberName`: the name that tells overloads apart.
* `View.delegateInvoke`: the method a delegate stands for.
* `Resolver.fieldMeaning`: the type of a struct's field.
-/

namespace MetadataProjection

structure Members where
  constructors : List MethodRow := []
  methods : List MethodRow := []
  properties : List PropertyAccessors := []
  events : List EventAccessors := []
  fields : List FieldRow := []
deriving DecidableEq, Repr

def accessorHandles (ps : List PropertyAccessors) (es : List EventAccessors) : List MethodDef :=
  ps.flatMap (fun p => p.getter.handle :: (p.setter.map (·.handle)).toList) ++
    es.flatMap (fun e => [e.adder.handle, e.remover.handle])

namespace View

def methodRows (v : View) (hs : List MethodDef) : Except Error (List MethodRow) :=
  hs.mapM (v.row (t := .methodDef))

def members (v : View) (d : TypeDef) : Except Error Members := do
  let row : TypeRow ← v.row d
  let properties ← row.properties.mapM v.propertyAccessors
  let events ← row.events.mapM v.eventAccessors
  let methods ← v.methodRows row.methods
  let fields : List FieldRow ← row.fields.mapM (v.row (t := .field))
  let accessors := accessorHandles properties events
  return {
    constructors := methods.filter (·.isConstructor)
    methods := methods.filter (fun m => !m.isConstructor && !accessors.contains m.handle)
    properties, events, fields }

/-- The name that tells the overloads of a method apart: the one an attribute gives, or its own. -/
def memberName (v : View) (m : MethodRow) : Except Error String := do
  match ← v.findAttribute Platform.metadataNamespace Platform.overloadAttribute m.attributes with
  | none => return m.name
  | some a =>
    match a.value.fixed.head?.bind (·.string?) with
    | some name => return name
    | none => throw (.invalidMetadata (.overloadUnnamed m.name))

def invokeName : String := "Invoke"

/-- The first special-name method called `Invoke`. Methods after it are not read. -/
def findInvoke (v : View) : List MethodDef → Except Error (Option MethodRow)
  | [] => return none
  | h :: hs => do
    let m : MethodRow ← v.row h
    if m.isSpecialName && m.name == invokeName then return some m else v.findInvoke hs

def delegateInvoke (v : View) (d : TypeDef) : Except Error MethodRow := do
  let row : TypeRow ← v.row d
  if (← v.categoryOf row) = .delegate then
    match ← v.findInvoke row.methods with
    | some m => return m
    | none => throw (.invalidMetadata (.noInvoke row.fullName))
  else throw (.invalidMetadata (.notDelegate row.fullName))

end View

/-! ## Fields -/

def View.enumStorage (v : View) (d : TypeDef) : Except Error Semantics := do
  return .fundamental (if ← v.isFlagsEnum d then .uint32 else .int32)

/-- The type of a struct's field. A definition must be an enum or a struct; enums give way to their
storage if `storage` is set. An optional value stands for the value. -/
def Resolver.fieldMeaning (r : Resolver) (f : FieldRow) (storage : Bool) : Query Semantics := do
  match ← r.resolve f.signature with
  | .definition d =>
    match ← r.view.category d with
    | .enum => if storage then r.view.enumStorage d else return .definition d
    | .struct => return .definition d
    | other =>
      let row : TypeRow ← r.view.row d
      throw (.invalidMetadata (.fieldOfCategory f.name other row.fullName))
  | .inst d args =>
    let row : TypeRow ← r.view.row d
    if row.isNamed Platform.foundationNamespace "IReference`1" then
      match args with
      | [a] => return a
      | _ => throw (.invalidMetadata (.referenceArity f.name args.length))
    else return .inst d args
  | other => return other

end MetadataProjection
