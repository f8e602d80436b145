import MetadataProjection.Store.View

/-!
# MetadataProjection.Accessors

Properties and events with the methods that serve them. The links of a property name one getter and
at most one setter, those of an event one adder and one remover; nothing else may be linked.

* `propertyPair`, `eventPair`: the methods that links name, or the first fault in them.
* `View.propertyAccessors`, `View.eventAccessors`: the rows of these methods, which must agree on
  being static.
-/

namespace MetadataProjection

/-! ## The shape of links -/

structure AccessorPair where
  first : Option MethodDef := none
  second : Option MethodDef := none
deriving DecidableEq, Repr

namespace AccessorPair

/-- Reads one more link of a property. A link with both roles is a getter. -/
def addPropertyLink (p : AccessorPair) (l : Link) : Except PropertyFault AccessorPair :=
  if l.isGetter then
    if p.first.isSome then .error .secondGetter else .ok { p with first := some l.method }
  else if l.isSetter then
    if p.second.isSome then .error .secondSetter else .ok { p with second := some l.method }
  else .error .otherLink

/-- Reads one more link of an event. A link with both roles is an adder. -/
def addEventLink (p : AccessorPair) (l : Link) : Except EventFault AccessorPair :=
  if l.isAdder then
    if p.first.isSome then .error .secondAdder else .ok { p with first := some l.method }
  else if l.isRemover then
    if p.second.isSome then .error .secondRemover else .ok { p with second := some l.method }
  else .error .otherLink

end AccessorPair

def propertyPair (links : List Link) : Except PropertyFault (MethodDef × Option MethodDef) := do
  let p ← links.foldlM AccessorPair.addPropertyLink {}
  match p.first with
  | some getter => return (getter, p.second)
  | none => throw .noGetter

def eventPair (links : List Link) : Except EventFault (MethodDef × Option MethodDef) := do
  let p ← links.foldlM AccessorPair.addEventLink {}
  match p.first with
  | some adder => return (adder, p.second)
  | none => throw .noAdder

/-! ## Properties and events -/

structure PropertyAccessors where
  property : Property
  name : String
  getter : MethodRow
  setter : Option MethodRow
deriving DecidableEq, Repr

namespace PropertyAccessors

def isStatic (p : PropertyAccessors) : Bool := p.getter.isStatic

def isWritable (p : PropertyAccessors) : Bool := p.setter.isSome

end PropertyAccessors

structure EventAccessors where
  event : Event
  name : String
  adder : MethodRow
  remover : MethodRow
deriving DecidableEq, Repr

namespace EventAccessors

def isStatic (e : EventAccessors) : Bool := e.adder.isStatic

end EventAccessors

namespace View

def propertyAccessors (v : View) (property : Property) : Except Error PropertyAccessors := do
  let row : PropertyRow ← v.row property
  let (getter, setter) ← (propertyPair row.links).mapError (.malformedProperty row.name)
  let getter : MethodRow ← v.row getter
  match setter with
  | none => return { property, name := row.name, getter, setter := none }
  | some setter =>
    let setter : MethodRow ← v.row setter
    if setter.isStatic != getter.isStatic then throw (.inconsistentAccessorStaticness row.name)
    else return { property, name := row.name, getter, setter := some setter }

/-- An event with its methods, which must agree on being static. The adder is read before a missing
remover is noticed. -/
def eventAccessors (v : View) (event : Event) : Except Error EventAccessors := do
  let row : EventRow ← v.row event
  let (adder, remover) ← (eventPair row.links).mapError (.malformedEvent row.name)
  let adder : MethodRow ← v.row adder
  match remover with
  | none => throw (.malformedEvent row.name .noRemover)
  | some remover =>
    let remover : MethodRow ← v.row remover
    if adder.isStatic != remover.isStatic then throw (.inconsistentAccessorStaticness row.name)
    else return { event, name := row.name, adder, remover }

end View

end MetadataProjection
