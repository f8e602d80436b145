import MetadataProjection.Activation
import MetadataProjection.Closure.Overloads
import MetadataProjection.Parameters

/-!
# MetadataProjection.Projection

Everything that is known about a type, as whoever writes it out for callers needs it.

* `Shape`, `Resolver.shape`: how a single method is called.
* `Projection`, `Resolver.project`: all of one type.
* `Resolver.projectAll`: all types of a store; a type that fails is reported and skipped.
-/

namespace MetadataProjection

structure Shape where
  method : MethodRow
  abiName : String
  convention : Convention
  inputs : Nat
  outputs : Nat
  /-- The direction of the return value, if there is one. -/
  returns : Option ParamCategory
deriving DecidableEq, Repr

namespace Shape

def name (s : Shape) : String := s.method.name

def isStatic (s : Shape) : Bool := s.method.isStatic

end Shape

structure FieldShape where
  name : String
  meaning : Semantics
deriving DecidableEq, Repr

structure Projection where
  type : TypeDef
  name : String
  category : Category
  members : Members
  interfaces : List InterfaceInfo
  overloads : OverloadMap
  shapes : List Shape
  /-- The fields of a struct; other types have none here. -/
  fields : List FieldShape

def Projection.shape? (p : Projection) (name : String) : Option Shape :=
  p.shapes.find? (·.name == name)

structure Diagnostic where
  typeName : String
  error : Error
deriving DecidableEq, Repr

namespace Resolver

def shape (r : Resolver) (m : MethodRow) : Query Shape := do
  let abiName ← r.abiName m
  let s ← r.view.signatureOf m
  let inputs ← countIn s.params
  let outputs ← countOut s.params
  return {
    method := m, abiName, convention := m.convention, inputs, outputs
    returns := s.returnSlot?.map (·.returnCategory) }

/-- The shapes of the methods of a type. Constructors count only in classes: elsewhere they are not
activation. -/
def shapes (r : Resolver) (category : Category) : List MethodDef → Query (List Shape)
  | [] => return []
  | h :: hs => do
    let m : MethodRow ← r.view.row h
    if m.isConstructor && category != .runtimeClass then r.shapes category hs
    else
      let s ← r.shape m
      let ss ← r.shapes category hs
      return s :: ss

def fieldShapes (r : Resolver) (fs : List FieldRow) : Query (List FieldShape) :=
  fs.mapM fun f => do return ⟨f.name, ← r.fieldMeaning f true⟩

def project (r : Resolver) (d : TypeDef) : Query Projection := do
  let row : TypeRow ← r.view.row d
  let category ← r.view.categoryOf row
  let members ← r.view.members d
  let interfaces ← r.requiredInterfaces d
  let overloads ← r.overloads d
  let shapes ← r.shapes category row.methods
  let fields ← if category = .struct then r.fieldShapes members.fields else pure []
  return { type := d, name := row.fullName, category, members, interfaces, overloads, shapes, fields }

/-- What a diagnostic calls a type: its full name, or its token if its row cannot be read. -/
def diagnosticName (r : Resolver) (d : TypeDef) : String :=
  match r.view.row d with
  | .ok (row : TypeRow) => row.fullName
  | .error _ => d.token.hex

def tryProject (r : Resolver) (d : TypeDef) : StateM Cache (Except Diagnostic Projection) := do
  match ← (r.project d).run with
  | .ok p => return .ok p
  | .error error => return .error ⟨r.diagnosticName d, error⟩

/-- Projects every type of the store, by rising row number. -/
def projectAll (r : Resolver) : StateM Cache (List Projection × List Diagnostic) := do
  let results ← r.view.definitions.mapM r.tryProject
  return (results.filterMap (·.toOption), results.filterMap fun
    | .ok _ => none
    | .error e => some e)

end Resolver

end MetadataProjection
