import MetadataProjection.Closure.Interfaces

/-!
# MetadataProjection.Closure.Overloads

The methods of a closure, merged by name.

* `OverloadMap`: overloads by name, in the order of visits; `OverloadMap.add` keeps static and
  instance methods of one name apart.
* `Resolver.overloads`: the methods of the closure of a definition.
* `isStaticGroup`, `isGetterGroup`, `isSetterGroup`: what kind of member a group is.
-/

namespace MetadataProjection

structure MethodInfo where
  method : MethodRow
  arguments : List Semantics
deriving DecidableEq, Repr

abbrev OverloadMap := Std.TreeMap String (List MethodInfo)

/-- A group is static if its first method is; all others agree with it. -/
def isStaticGroup (ms : List MethodInfo) : Bool := ms.head?.any (·.method.isStatic)

def isGetterGroup : List MethodInfo → Bool
  | [m] => m.method.isGetter
  | _ => false

def isSetterGroup : List MethodInfo → Bool
  | [m] => m.method.isSetter
  | _ => false

namespace OverloadMap

/-- Adds an overload. It must be static exactly if the others of its name are. -/
def add (ms : OverloadMap) (m : MethodInfo) : Except Error OverloadMap :=
  let group := ms.getD m.method.name []
  if group.any (fun o => o.method.isStatic != m.method.isStatic) then
    .error (.inconsistentMemberKind m.method.name)
  else .ok (ms.insert m.method.name (group ++ [m]))

def addMethods (v : View) (arguments : List Semantics) (ms : OverloadMap) :
    List MethodDef → Except Error OverloadMap
  | [] => return ms
  | h :: hs => do
    let m : MethodRow ← v.row h
    let ms ← if m.isConstructor then pure ms else ms.add ⟨m, arguments⟩
    addMethods v arguments ms hs

end OverloadMap

def Resolver.overloads (r : Resolver) (d : TypeDef) : Query OverloadMap :=
  r.enumerate (fun ms node row => OverloadMap.addMethods r.view node.args ms row.methods) ∅ d

end MetadataProjection
