import MetadataProjection.Closure.Traversal
import MetadataProjection.Traits

/-!
# MetadataProjection.Closure.Implements

Does a type implement an interface?

* `Resolver.implements`: a search through everything the type and its bases declare, arguments left
  aside.
* `Resolver.isSequence`, `Resolver.isMapping`, `Resolver.isStringable`, `Resolver.hasLength`: the
  protocols that well-known interfaces stand for.
-/

namespace MetadataProjection

namespace Resolver

/-- Is this the row of the interface of this name? The category of other rows is not looked up. -/
def isInterfaceNamed (r : Resolver) (space name : String) (row : TypeRow) : Except Error Bool := do
  if row.isNamed space name then return (← r.view.categoryOf row) = .interface else return false

/-- Is the type, or anything it declares directly or indirectly, the interface of this name? What is
declared last is searched first. -/
def implements (r : Resolver) (d : TypeDef) (space name : String) : Query Bool := do
  let tour ← r.view.traverse (σ := Bool) pure
    (fun found _ row => do
      if ← r.isInterfaceNamed space name row then return .stop true
      else
        let declared ← row.interfaces.mapM r.definitionOf
        return .next found declared.reverse)
    { state := false } [d]
  return tour.state

/-- The answer to the first question, or else to the second, which is not asked if the first is
true. -/
def either (p q : Query Bool) : Query Bool := do
  if ← p then return true else q

def isSequence (r : Resolver) (d : TypeDef) : Query Bool :=
  either (r.implements d Platform.collectionsNamespace "IVector`1")
    (r.implements d Platform.collectionsNamespace "IVectorView`1")

def isMapping (r : Resolver) (d : TypeDef) : Query Bool :=
  either (r.implements d Platform.collectionsNamespace "IMap`2")
    (r.implements d Platform.collectionsNamespace "IMapView`2")

def isStringable (r : Resolver) (d : TypeDef) : Query Bool :=
  r.implements d Platform.foundationNamespace "IStringable"

def hasLength (r : Resolver) (d : TypeDef) : Query Bool := either (r.isMapping d) (r.isSequence d)

end Resolver

end MetadataProjection
