import Mathlib.Data.List.Forall2
import MetadataProjection.Proofs.Outcome
import MetadataProjection.Semantics.Render

/-!
# MetadataProjection.Proofs.Positions

The open positions of a meaning, and what becomes of them.

* `Semantics.positions`: the open positions, at any nesting. `positions_substitute` says which are
  open after arguments have been put in, `hasIndex_substitute_iff` whether any is.
* `Semantics.Fixes`: arguments that leave a position as it is. A meaning stays as it is just if all its
  open positions do (`substitute_eq_self_iff`).
* `Semantics.Within`: every open position is one of the first few. Arguments for all positions leave
  only their own open (`Within.substitute`).
* `Semantics.Spelled`: the text of a meaning in which every open position bears the name of its
  parameter. Nothing else is rendered where there are enough names (`spelled_of_render`).
-/

namespace MetadataProjection
namespace Semantics

/-! ## Open positions -/

mutual

def positions : Semantics → List UInt32
  | index i => [i]
  | inst _ as => positionsList as
  | _ => []

def positionsList : List Semantics → List UInt32
  | [] => []
  | a :: as => positions a ++ positionsList as

end

theorem positionsList_eq_flatMap (as : List Semantics) :
    positionsList as = as.flatMap positions := by
  induction as with
  | nil => rfl
  | cons a as ih => rw [positionsList, ih, List.flatMap_cons]

mutual

theorem hasIndex_eq : ∀ s : Semantics, s.hasIndex = !s.positions.isEmpty
  | index _ => rfl
  | inst _ as => anyHasIndex_eq as
  | fundamental _ | object | guid | definition _ => rfl

theorem anyHasIndex_eq : ∀ as : List Semantics, anyHasIndex as = !(positionsList as).isEmpty
  | [] => rfl
  | a :: as => by
    rw [anyHasIndex, positionsList, hasIndex_eq a, anyHasIndex_eq as]
    cases a.positions <;> rfl

end

theorem hasIndex_iff {s : Semantics} : s.hasIndex = true ↔ ∃ i, i ∈ s.positions := by
  rw [hasIndex_eq, Bool.not_eq_true', List.isEmpty_eq_false_iff_exists_mem]

/-- What is open where `i` was, once the arguments are put in. -/
def opened (actuals : List Semantics) (i : UInt32) : List UInt32 :=
  (actuals[i.toNat]?.map positions).getD [i]

mutual

/-- Position by position: those of the argument that was put in, or the position itself. -/
theorem positions_substitute (actuals : List Semantics) : ∀ s : Semantics,
    (s.substitute actuals).positions = s.positions.flatMap (opened actuals)
  | index i => by
    rw [substitute, positions, List.flatMap_singleton, opened]
    cases actuals[i.toNat]? <;> rfl
  | inst _ as => positionsList_substitute actuals as
  | fundamental _ | object | guid | definition _ => rfl

theorem positionsList_substitute (actuals : List Semantics) : ∀ as : List Semantics,
    positionsList (substituteList actuals as) = (positionsList as).flatMap (opened actuals)
  | [] => rfl
  | a :: as => by
    rw [substituteList, positionsList, positionsList, List.flatMap_append,
      positions_substitute actuals a, positionsList_substitute actuals as]

end

theorem exists_mem_opened_iff {actuals : List Semantics} {i : UInt32} :
    (∃ k, k ∈ opened actuals i) ↔
      actuals.length ≤ i.toNat ∨ ∃ a, actuals[i.toNat]? = some a ∧ a.hasIndex = true := by
  rw [opened]
  cases h : actuals[i.toNat]? with
  | none =>
    have hle : actuals.length ≤ i.toNat := List.getElem?_eq_none_iff.mp h
    exact iff_of_true ⟨i, List.mem_cons_self⟩ (.inl hle)
  | some a =>
    have hlt : i.toNat < actuals.length := (List.getElem?_eq_some_iff.mp h).1
    simp [hasIndex_iff, Nat.not_le.mpr hlt]

theorem hasIndex_substitute_iff {actuals : List Semantics} {s : Semantics} :
    (s.substitute actuals).hasIndex = true ↔ ∃ i ∈ s.positions,
      actuals.length ≤ i.toNat ∨ ∃ a, actuals[i.toNat]? = some a ∧ a.hasIndex = true := by
  simp only [hasIndex_iff (s := s.substitute actuals), positions_substitute, List.mem_flatMap,
    ← exists_mem_opened_iff]
  constructor
  · rintro ⟨k, i, hi, hk⟩
    exact ⟨i, hi, k, hk⟩
  · rintro ⟨i, hi, k, hk⟩
    exact ⟨k, i, hi, hk⟩

/-- The position is beyond the arguments, or it is put into itself. -/
def Fixes (actuals : List Semantics) (i : UInt32) : Prop :=
  ∀ s, actuals[i.toNat]? = some s → s = index i

mutual

theorem substitute_eq_self_iff (actuals : List Semantics) : ∀ s : Semantics,
    s.substitute actuals = s ↔ ∀ i ∈ s.positions, Fixes actuals i
  | index i => by
    rw [substitute, positions, List.forall_mem_singleton, Fixes]
    cases actuals[i.toNat]? with
    | some s => simp only [Option.getD_some, Option.some.injEq, forall_eq']
    | none => exact iff_of_true rfl nofun
  | inst d as => by
    rw [substitute, inst.injEq, eq_self, true_and]
    exact substituteList_eq_self_iff actuals as
  | fundamental _ | object | guid | definition _ => iff_of_true rfl nofun

theorem substituteList_eq_self_iff (actuals : List Semantics) : ∀ as : List Semantics,
    substituteList actuals as = as ↔ ∀ i ∈ positionsList as, Fixes actuals i
  | [] => iff_of_true rfl nofun
  | a :: as => by
    rw [substituteList, positionsList, List.forall_mem_append, List.cons.injEq,
      substitute_eq_self_iff actuals a, substituteList_eq_self_iff actuals as]

end

theorem substitute_nil (s : Semantics) : s.substitute [] = s :=
  (substitute_eq_self_iff [] s).mpr fun _ _ => nofun

/-! ## Scope -/

def Within (n : Nat) (s : Semantics) : Prop := ∀ i ∈ s.positions, i.toNat < n

theorem within_zero_iff {s : Semantics} : s.Within 0 ↔ s.hasIndex = false := by
  simp only [Within, Nat.not_lt_zero, imp_false, ← Bool.not_eq_true, hasIndex_iff, not_exists]

theorem within_inst_iff {n : Nat} {d : TypeDef} {args : List Semantics} :
    (inst d args).Within n ↔ ∀ a ∈ args, a.Within n := by
  rw [Within, positions, positionsList_eq_flatMap]
  constructor
  · intro h a ha i hi
    exact h i (List.mem_flatMap.mpr ⟨a, ha, hi⟩)
  · intro h i hi
    obtain ⟨a, ha, hi⟩ := List.mem_flatMap.mp hi
    exact h a ha i hi

/-- With an argument for each position, only positions of the arguments are left. -/
theorem Within.substitute {n : Nat} {s : Semantics} {actuals : List Semantics}
    (hs : s.Within actuals.length) (h : ∀ a ∈ actuals, a.Within n) :
    (s.substitute actuals).Within n := by
  intro i hi
  rw [positions_substitute] at hi
  obtain ⟨j, hj, hi⟩ := List.mem_flatMap.mp hi
  have hlt := hs j hj
  rw [opened, List.getElem?_eq_getElem hlt] at hi
  exact h _ (List.getElem_mem hlt) i hi

/-! ## Names of parameters -/

/-- The text of a meaning in which every open position is the name of the parameter at it. -/
inductive Spelled (v : View) (params : List String) : Semantics → String → Prop where
  | fundamental (k : Fundamental) : Spelled v params (.fundamental k) k.name
  | object : Spelled v params .object "Object"
  | guid : Spelled v params .guid "Guid"
  | definition {d : TypeDef} {name : String} : renderDefinition v d = .ok name →
      Spelled v params (.definition d) name
  | inst {d : TypeDef} {name : String} {args : List Semantics} {texts : List String} :
      renderDefinition v d = .ok name → List.Forall₂ (Spelled v params) args texts →
      Spelled v params (.inst d args) (name ++ "<" ++ String.intercalate ", " texts ++ ">")
  | index {i : UInt32} {name : String} : params[i.toNat]? = some name →
      Spelled v params (.index i) name

variable {v : View} {params : List String}

mutual

/-- With a name for each open position, rendering never falls back on a number. -/
theorem spelled_of_render : ∀ {s : Semantics} {text : String}, s.Within params.length →
    s.render v params = .ok text → Spelled v params s text
  | .fundamental k, _, _, h => by cases h; exact .fundamental k
  | .object, _, _, h => by cases h; exact .object
  | .guid, _, _, h => by cases h; exact .guid
  | .definition d, _, _, h => .definition h
  | .inst d as, _, hs, h => by
    rw [render] at h
    obtain ⟨name, hname, h⟩ := Except.bind_eq_ok_iff.mp h
    obtain ⟨texts, htexts, h⟩ := Except.bind_eq_ok_iff.mp h
    cases h
    exact .inst hname (spelled_of_renderArgs (within_inst_iff.mp hs) htexts)
  | .index i, _, hs, h => by
    have hlt : i.toNat < params.length := hs i List.mem_cons_self
    rw [render, renderIndex, List.getElem?_eq_getElem hlt] at h
    cases h
    exact .index (List.getElem?_eq_getElem hlt)

theorem spelled_of_renderArgs : ∀ {as : List Semantics} {texts : List String},
    (∀ a ∈ as, a.Within params.length) → renderArgs v params as = .ok texts →
    List.Forall₂ (Spelled v params) as texts
  | [], _, _, h => by cases h; exact .nil
  | a :: as, _, hs, h => by
    rw [renderArgs] at h
    obtain ⟨text, htext, h⟩ := Except.bind_eq_ok_iff.mp h
    obtain ⟨texts, htexts, h⟩ := Except.bind_eq_ok_iff.mp h
    cases h
    have hs := List.forall_mem_cons.mp hs
    exact .cons (spelled_of_render hs.1 htext) (spelled_of_renderArgs hs.2 htexts)

end

end Semantics
end MetadataProjection
