import MetadataProjection.Store.View

/-!
# MetadataProjection.Traits

What kind of type a definition declares, and what follows from it.

* `View.categoryOf`, `View.category`: the category of a type, from its flags and its base.
* `View.findAttribute`: the first attribute of a given type in a list.
* `View.isExclusiveTo` and the others: traits that combine the category with flags, generic
  parameters, attributes and names.
-/

namespace MetadataProjection

def Category.ofBase (space name : String) : Category :=
  if space != Platform.systemNamespace then .runtimeClass
  else if name == "Enum" then .enum
  else if name == "ValueType" then .struct
  else if name == "MulticastDelegate" then .delegate
  else .runtimeClass

namespace View

/-- The category of a type: what is flagged an interface is one, all else is told by its base. An
instantiation as base tells nothing. -/
def categoryOf (v : View) (r : TypeRow) : Except Error Category :=
  if r.isInterface then .ok .interface
  else
    match r.base with
    | some (.typeRef h) => (fun b : TypeRefRow => .ofBase b.space b.name) <$> v.row h
    | some (.typeDef h) => (fun b : TypeRow => .ofBase b.space b.name) <$> v.row h
    | some (.typeSpec _) | none => .ok .runtimeClass

def category (v : View) (d : TypeDef) : Except Error Category := do
  v.categoryOf (← v.row d)

/-- The first attribute of a type. Attributes after it are not read. -/
def findAttribute (v : View) (space name : String) :
    List CustomAttribute → Except Error (Option AttributeRow)
  | [] => return none
  | h :: hs => do
    let row : AttributeRow ← v.row h
    if row.isNamed space name then return some row else v.findAttribute space name hs

def hasAttribute (v : View) (space name : String) (hs : List CustomAttribute) :
    Except Error Bool := do
  return (← v.findAttribute space name hs).isSome

def isExclusiveTo (v : View) (d : TypeDef) : Except Error Bool := do
  let r : TypeRow ← v.row d
  if (← v.categoryOf r) = .interface then
    v.hasAttribute Platform.metadataNamespace Platform.exclusiveToAttribute r.attributes
  else return false

def isFlagsEnum (v : View) (d : TypeDef) : Except Error Bool := do
  let r : TypeRow ← v.row d
  if (← v.categoryOf r) = .enum then
    v.hasAttribute Platform.systemNamespace Platform.flagsAttribute r.attributes
  else return false

def isParameterized (v : View) (d : TypeDef) : Except Error Bool := do
  let r : TypeRow ← v.row d
  return r.isGeneric

def isStaticClass (v : View) (d : TypeDef) : Except Error Bool := do
  let r : TypeRow ← v.row d
  return (← v.categoryOf r) = .runtimeClass && r.isAbstract

def customizedStructs : List String := ["DateTime", "EventRegistrationToken", "HResult", "TimeSpan"]

def isCustomizedStruct (v : View) (d : TypeDef) : Except Error Bool := do
  let r : TypeRow ← v.row d
  return r.space == Platform.foundationNamespace && customizedStructs.contains r.name

/-- Do instances own something that must be released? Structs, interfaces and instantiable classes
do. -/
def hasDealloc (v : View) (d : TypeDef) : Except Error Bool := do
  let r : TypeRow ← v.row d
  match ← v.categoryOf r with
  | .struct | .interface => return true
  | .runtimeClass => return !r.isAbstract
  | .enum | .delegate => return false

/-- Is one of the methods a constructor without parameter rows? Methods after it are not read. -/
def anyDefaultConstructor (v : View) : List MethodDef → Except Error Bool
  | [] => return false
  | h :: hs => do
    let m : MethodRow ← v.row h
    if m.isConstructor && m.params.isEmpty then return true else v.anyDefaultConstructor hs

def isDefaultConstructable (v : View) (d : TypeDef) : Except Error Bool := do
  let r : TypeRow ← v.row d
  if (← v.categoryOf r) = .runtimeClass then v.anyDefaultConstructor r.methods else return false

end View

end MetadataProjection
