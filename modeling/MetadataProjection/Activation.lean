import MetadataProjection.Members

/-!
# MetadataProjection.Activation

The names of methods in the binary interface. A constructor has no slot of its own: one without
parameters stands for default activation, any other for a method of a factory interface that the
attributes of its class name.

* `AttributeRow.factory?`: the factory an attribute names.
* `Resolver.factoryMethod`: the factory method behind a constructor.
* `Resolver.abiName`: the name of a method's slot.
-/

namespace MetadataProjection

/-- The full name of the factory that an attribute names. Attributes for default activation name
none. -/
def AttributeRow.factory? (a : AttributeRow) : Option String :=
  if a.isNamed Platform.metadataNamespace Platform.activatableAttribute then
    a.value.fixed.head?.bind (·.typeName?)
  else none

namespace Resolver

def sameSlot (r : Resolver) (a b : Slot) : Query Bool := do
  if a.byRef != b.byRef then return false
  else
    let x ← r.resolve a.type
    let y ← r.resolve b.type
    return x == y

/-- Do the slots agree, position by position? Slots after the first disagreement are not looked at. -/
def sameSlots (r : Resolver) : List Slot → List Slot → Query Bool
  | a :: as, b :: bs => do
    if ← r.sameSlot a b then r.sameSlots as bs else return false
  | _, _ => return true

def matchByTypes (r : Resolver) (slots : List Slot) : List MethodRow → Query (Option MethodRow)
  | [] => return none
  | m :: ms => do
    if ← r.sameSlots slots m.signature.params then return some m else r.matchByTypes slots ms

def matchFactory (r : Resolver) (slots : List Slot) (factory : TypeRow) :
    Query (Option MethodRow) := do
  let methods ← r.view.methodRows factory.methods
  let candidates := methods.filter (·.signature.params.length == slots.length)
  match r.config.matching with
  | .parameterCount => return candidates.head?
  | .parameterTypes => r.matchByTypes slots candidates

def searchFactories (r : Resolver) (slots : List Slot) :
    List CustomAttribute → Query (Option MethodRow)
  | [] => return none
  | h :: hs => do
    let a : AttributeRow ← r.view.row h
    match a.factory? with
    | none => r.searchFactories slots hs
    | some name =>
      let factory : TypeRow ← r.view.row (← r.view.findFullName name)
      match ← r.matchFactory slots factory with
      | some m => return some m
      | none => r.searchFactories slots hs

def factoryMethod (r : Resolver) (constructor : MethodRow) : Query MethodRow := do
  match constructor.parent with
  | none => throw (.invalidMetadata (.orphanConstructor constructor.token))
  | some parent =>
    let owner : TypeRow ← r.view.row parent
    match ← r.searchFactories constructor.signature.params owner.attributes with
    | some m => return m
    | none => throw (.factoryMethodNotFound owner.fullName)

def defaultConstructorName : String := "_default_ctor"

/-- The name of a method's slot, following at most `steps` factories from constructor to
constructor. -/
def abiNameWithin (r : Resolver) : Nat → MethodRow → Query String
  | 0, m => throw (.invalidMetadata (.circularActivation m.token))
  | steps + 1, m =>
    if !m.isConstructor then r.view.memberName m
    else if m.signature.params.isEmpty then return defaultConstructorName
    else do r.abiNameWithin steps (← r.factoryMethod m)

/-- The name of a method's slot. A chain of factories that is longer than there are methods runs in
a circle. -/
def abiName (r : Resolver) (m : MethodRow) : Query String :=
  r.abiNameWithin (r.view.store.methods.byNumber.size + 1) m

end Resolver

end MetadataProjection
