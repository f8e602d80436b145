import MetadataProjection.Store.View

/-!
# MetadataProjection.Parameters

How a method is called: its parameters paired with the slots of its signature, and the direction
of each.

* `MethodParam.category`: the direction of a parameter, from its flags and its slot.
* `countIn`, `countOut`: how many parameters carry values in and out.
* `SignatureView`, `View.signatureOf`: the parameters of a method without the return row.
* `MethodRow.convention`: the calling convention.
-/

namespace MetadataProjection

structure MethodParam where
  row : ParamRow
  slot : Slot
deriving DecidableEq, Repr

namespace MethodParam

/-- The direction of a parameter. An array that comes in is passed; one that only goes out is
received if it is passed by reference, and filled otherwise. Anything else goes either in or out. -/
def category (p : MethodParam) : Except Error ParamCategory :=
  if p.slot.type.isSzArray then
    if p.row.isIn then .ok .passArray
    else if !p.row.isOut then .error (.invalidMetadata (.arrayWithoutDirection p.row.name))
    else if p.slot.byRef then .ok .receiveArray
    else .ok .fillArray
  else if p.row.isIn then
    if p.row.isOut then .error (.invalidMetadata (.twoDirections p.row.name)) else .ok .input
  else if p.row.isOut then .ok .output
  else .error (.invalidMetadata (.withoutDirection p.row.name))

def isIn (p : MethodParam) : Except Error Bool := (·.isIn) <$> p.category

def isOut (p : MethodParam) : Except Error Bool := (·.isOut) <$> p.category

end MethodParam

def countParams (test : MethodParam → Except Error Bool) : List MethodParam → Except Error Nat
  | [] => return 0
  | p :: ps => do
    let b ← test p
    let n ← countParams test ps
    return if b then n + 1 else n

def countIn (ps : List MethodParam) : Except Error Nat := countParams (·.isIn) ps

def countOut (ps : List MethodParam) : Except Error Nat := countParams (·.isOut) ps

def Slot.returnCategory (s : Slot) : ParamCategory :=
  if s.type.isSzArray then .receiveArray else .output

structure SignatureView where
  method : MethodRow
  params : List MethodParam
  returnRow : Option ParamRow := none
deriving DecidableEq, Repr

namespace SignatureView

def returnSlot? (s : SignatureView) : Option Slot :=
  let slot := s.method.signature.returns
  if slot.type.isVoid then none else some slot

def defaultReturnName : String := "_return_value"

def returnName (s : SignatureView) : String :=
  match s.returnRow with
  | some r => r.name
  | none => defaultReturnName

end SignatureView

namespace View

/-- The return row: the first parameter row, if the method returns something and the row has
sequence number 0. -/
def returnRow? (v : View) (m : MethodRow) : Except Error (Option ParamRow) :=
  if m.signature.returns.type.isVoid then .ok none
  else
    match m.params with
    | [] => .ok none
    | h :: _ => do
      let r : ParamRow ← v.row h
      return if r.isReturn then some r else none

/-- Pairs slots with rows by position. Rows left over do not matter, slots left over are a fault of
the method. -/
def pairParams (v : View) (m : MethodRow) : List Slot → List Param → Except Error (List MethodParam)
  | [], _ => return []
  | _ :: _, [] =>
    throw (.invalidMetadata (.missingParamRow m.name m.signature.params.length))
  | slot :: slots, h :: hs => do
    let row : ParamRow ← v.row h
    let ps ← v.pairParams m slots hs
    return ⟨row, slot⟩ :: ps

def signatureOf (v : View) (m : MethodRow) : Except Error SignatureView := do
  let returnRow ← v.returnRow? m
  let rows := if returnRow.isSome then m.params.tail else m.params
  let params ← v.pairParams m m.signature.params rows
  return { method := m, params, returnRow }

end View

/-- The calling convention. Default constructors and getters take nothing; setters, adders and
removers take one argument. -/
def MethodRow.convention (m : MethodRow) : Convention :=
  if m.isConstructor && m.params.isEmpty || m.isGetter then .noArgs
  else if m.isSetter || m.isAdder || m.isRemover then .singleArg
  else .variableArgs

end MetadataProjection
