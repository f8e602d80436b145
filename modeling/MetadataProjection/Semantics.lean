import MetadataProjection.Handle
import MetadataProjection.Signature

/-!
# MetadataProjection.Semantics

What a use of a type means once its names are looked up.

* `Semantics`: a fundamental kind, the object type, the identifier type, a definition, a generic
  instance, or an open position of the enclosing definition; with decidable equality.
* `Semantics.substitute`: puts arguments into open positions (`substituteList_eq_map`).
* `Semantics.hasIndex`: is a position still open?
* `Semantics.definition?`: the definition behind a definition or an instance.
-/

namespace MetadataProjection

inductive Semantics where
  | fundamental (kind : Fundamental)
  | object
  | guid
  | definition (type : TypeDef)
  | inst (generic : TypeDef) (args : List Semantics)
  | index (position : UInt32)
deriving Repr, Inhabited

namespace Semantics

/-! ## Equality -/

mutual

def beq : Semantics → Semantics → Bool
  | fundamental j, fundamental k => j == k
  | object, object => true
  | guid, guid => true
  | definition a, definition b => a == b
  | inst a as, inst b bs => a == b && beqList as bs
  | index i, index j => i == j
  | _, _ => false

def beqList : List Semantics → List Semantics → Bool
  | [], [] => true
  | a :: as, b :: bs => beq a b && beqList as bs
  | _, _ => false

end

mutual

theorem eq_of_beq : ∀ {a b : Semantics}, beq a b = true → a = b
  | inst a as, inst b bs, h => by
    simp only [beq, Bool.and_eq_true, beq_iff_eq] at h
    rw [h.1, eq_of_beqList h.2]
  | fundamental _, b, h | object, b, h | guid, b, h | definition _, b, h | index _, b, h => by
    cases b <;> simp_all [beq]

theorem eq_of_beqList : ∀ {as bs : List Semantics}, beqList as bs = true → as = bs
  | [], [], _ => rfl
  | a :: as, b :: bs, h => by
    simp only [beqList, Bool.and_eq_true] at h
    rw [eq_of_beq h.1, eq_of_beqList h.2]

end

mutual

theorem beq_self : ∀ a : Semantics, beq a a = true
  | inst _ as => by simp [beq, beqList_self as]
  | fundamental _ | object | guid | definition _ | index _ => by simp [beq]

theorem beqList_self : ∀ as : List Semantics, beqList as as = true
  | [] => rfl
  | a :: as => by simp [beqList, beq_self a, beqList_self as]

end

instance : DecidableEq Semantics := fun a b =>
  decidable_of_iff (beq a b = true) ⟨eq_of_beq, fun h => h ▸ beq_self a⟩

/-! ## Parts -/

def definition? : Semantics → Option TypeDef
  | definition d => some d
  | inst d _ => some d
  | _ => none

/-- The arguments of an instance; nothing else has any. -/
def args : Semantics → List Semantics
  | inst _ as => as
  | _ => []

def isIndex : Semantics → Bool
  | index _ => true
  | _ => false

/-! ## Open positions -/

mutual

/-- Does an open position occur, at any nesting? -/
def hasIndex : Semantics → Bool
  | index _ => true
  | inst _ as => anyHasIndex as
  | _ => false

def anyHasIndex : List Semantics → Bool
  | [] => false
  | a :: as => hasIndex a || anyHasIndex as

end

mutual

/-- Puts the arguments into the open positions. A position beyond the arguments stays open. -/
def substitute (actuals : List Semantics) : Semantics → Semantics
  | index i => actuals[i.toNat]?.getD (index i)
  | inst d as => inst d (substituteList actuals as)
  | s => s

def substituteList (actuals : List Semantics) : List Semantics → List Semantics
  | [] => []
  | a :: as => substitute actuals a :: substituteList actuals as

end

theorem substituteList_eq_map (actuals as : List Semantics) :
    substituteList actuals as = as.map (substitute actuals) := by
  induction as with
  | nil => rfl
  | cons a as ih => simp [substituteList, ih]

/-! ## Text -/

mutual

/-- The constructor's name with its arguments, as diagnostics write it. -/
def describe : Semantics → String
  | fundamental k => "Fundamental(" ++ k.name ++ ")"
  | object => "Object"
  | guid => "Guid"
  | definition d => "TypeDefinition(" ++ d.describe ++ ")"
  | inst d as =>
    "GenericTypeInstance \x7b generic_type: " ++ d.describe ++ ", generic_args: [" ++
      describeArgs as ++ "] \x7d"
  | index i => "GenericTypeIndex(" ++ toString i.toNat ++ ")"

def describeArgs : List Semantics → String
  | [] => ""
  | [s] => describe s
  | s :: r => describe s ++ ", " ++ describeArgs r

end

end Semantics

end MetadataProjection
