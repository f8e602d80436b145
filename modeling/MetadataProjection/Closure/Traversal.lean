import MetadataProjection.Store.View
import MetadataProjection.Resolver

/-!
# MetadataProjection.Closure.Traversal

Depth-first traversal of type definitions with an explicit stack. Every definition is visited at
most once: a node whose definition was visited before is dropped when it comes up, with whatever
lies behind it.

* `Visit`: what a visit decides: to stop, or which nodes come next.
* `View.traverse`: the traversal. `traverse_nil` and `traverse_cons` say what it does with a stack.
* `View.unvisited`: how many definitions that have a row were not visited. Each visit lowers it
  (`unvisited_cons_lt`), so the rounds that `traverse` allows itself are enough on every store
  (`rounds_eq_rounds`).
-/

namespace MetadataProjection

inductive Visit (σ ν : Type) where
  | stop (state : σ)
  /-- These nodes come next, before all that wait. -/
  | next (state : σ) (nodes : List ν)

structure Tour (σ : Type) where
  /-- The definitions visited, the last one first. -/
  visited : List TypeDef := []
  state : σ

namespace View

def unvisited (v : View) (visited : List TypeDef) : Nat :=
  (v.definitions.filter (fun d => !visited.contains d)).length

theorem mem_definitions_of_row {v : View} {d : TypeDef} {r : TypeRow} (h : v.row d = .ok r) :
    d ∈ v.definitions := by
  have h' : v.store.typeDefs.byNumber[d.row]? = some r := (row_eq_ok_iff.mp h).2
  have hm : d.row ∈ v.store.typeDefs.byNumber := by
    rw [Std.TreeMap.mem_iff_isSome_getElem?, h']; rfl
  simp only [definitions, Store.definitions, List.mem_map]
  exact ⟨d.row, Std.TreeMap.mem_keys.mpr hm, rfl⟩

theorem length_filter_lt {α : Type} {p q : α → Bool} {xs : List α}
    (hpq : ∀ x, q x = true → p x = true) {a : α} (ha : a ∈ xs) (hp : p a = true)
    (hq : q a = false) : (xs.filter q).length < (xs.filter p).length := by
  induction xs with
  | nil => cases ha
  | cons x xs ih =>
    have hle : (xs.filter q).length ≤ (xs.filter p).length := by
      simp only [← List.countP_eq_length_filter]
      exact List.countP_mono_left fun x _ => hpq x
    simp only [List.filter_cons]
    rcases List.mem_cons.mp ha with rfl | ha
    · simp only [hp, hq, if_true, Bool.false_eq_true, if_false, List.length_cons]
      omega
    · have := ih ha
      cases hx : q x with
      | true =>
        simp only [hpq x hx, if_true, List.length_cons]
        omega
      | false =>
        cases p x <;> simp only [if_true, Bool.false_eq_true, if_false, List.length_cons] <;> omega

theorem unvisited_cons_lt {v : View} {visited : List TypeDef} {d : TypeDef} {r : TypeRow}
    (h : v.row d = .ok r) (hd : d ∉ visited) :
    v.unvisited (d :: visited) < v.unvisited visited := by
  apply length_filter_lt (a := d) _ (mem_definitions_of_row h)
  · simpa using hd
  · simp
  · intro x hx
    simp only [List.contains_cons, Bool.not_or, Bool.and_eq_true] at hx
    exact hx.2

variable {σ ν : Type}

/-- One round: drops the nodes that were visited before, visits the first other one, and hands the
nodes that then wait to `next`. `typeOf` is the definition of a node. -/
def advance (v : View) (typeOf : ν → Except Error TypeDef)
    (visit : σ → ν → TypeRow → Query (Visit σ ν)) (next : Tour σ → List ν → Query (Tour σ))
    (tour : Tour σ) : List ν → Query (Tour σ)
  | [] => return tour
  | node :: rest => do
    let d ← typeOf node
    if d ∈ tour.visited then v.advance typeOf visit next tour rest
    else
      let row : TypeRow ← v.row d
      match ← visit tour.state node row with
      | .stop state => return { visited := d :: tour.visited, state }
      | .next state nodes => next { visited := d :: tour.visited, state } (nodes ++ rest)

/-- Rounds until the stack is empty, `n + 1` of them at most. -/
def rounds (v : View) (typeOf : ν → Except Error TypeDef)
    (visit : σ → ν → TypeRow → Query (Visit σ ν)) : Nat → Tour σ → List ν → Query (Tour σ)
  | 0 => v.advance typeOf visit fun tour _ => return tour
  | n + 1 => v.advance typeOf visit (v.rounds typeOf visit n)

/-- Visits the nodes on the stack and those they lead to, each definition once. -/
def traverse (v : View) (typeOf : ν → Except Error TypeDef)
    (visit : σ → ν → TypeRow → Query (Visit σ ν)) (tour : Tour σ) (stack : List ν) :
    Query (Tour σ) :=
  v.rounds typeOf visit (v.unvisited tour.visited) tour stack

/-! ## What a traversal does -/

theorem advance_congr {v : View} {typeOf : ν → Except Error TypeDef}
    {visit : σ → ν → TypeRow → Query (Visit σ ν)} {f g : Tour σ → List ν → Query (Tour σ)}
    {tour : Tour σ} (stack : List ν)
    (h : ∀ tour' stack', v.unvisited tour'.visited < v.unvisited tour.visited →
      f tour' stack' = g tour' stack') :
    v.advance typeOf visit f tour stack = v.advance typeOf visit g tour stack := by
  induction stack with
  | nil => rfl
  | cons node rest ih =>
    simp only [advance]
    congr 1
    funext d
    split
    · exact ih
    · next hd =>
      cases hr : v.row d with
      | error e => rfl
      | ok row =>
        change (visit tour.state node row >>= _) = (visit tour.state node row >>= _)
        refine bind_congr fun w => ?_
        cases w with
        | stop state => rfl
        | next state nodes => exact h _ _ (unvisited_cons_lt hr hd)

/-- Any two numbers of rounds that leave nothing unvisited give the same answer. -/
theorem rounds_eq_rounds {v : View} {typeOf : ν → Except Error TypeDef}
    {visit : σ → ν → TypeRow → Query (Visit σ ν)} {n m : Nat} {tour : Tour σ} (stack : List ν)
    (hn : v.unvisited tour.visited ≤ n) (hm : v.unvisited tour.visited ≤ m) :
    v.rounds typeOf visit n tour stack = v.rounds typeOf visit m tour stack := by
  induction n generalizing m tour stack with
  | zero =>
    cases m with
    | zero => rfl
    | succ m => exact advance_congr stack fun _ _ h => absurd h (by omega)
  | succ n ih =>
    cases m with
    | zero => exact advance_congr stack fun _ _ h => absurd h (by omega)
    | succ m => exact advance_congr stack fun _ _ h => ih _ (by omega) (by omega)

theorem rounds_eq_traverse {v : View} {typeOf : ν → Except Error TypeDef}
    {visit : σ → ν → TypeRow → Query (Visit σ ν)} {n : Nat} {tour : Tour σ} (stack : List ν)
    (hn : v.unvisited tour.visited ≤ n) :
    v.rounds typeOf visit n tour stack = v.traverse typeOf visit tour stack :=
  rounds_eq_rounds stack hn (Nat.le_refl _)

theorem traverse_nil (v : View) (typeOf : ν → Except Error TypeDef)
    (visit : σ → ν → TypeRow → Query (Visit σ ν)) (tour : Tour σ) :
    v.traverse typeOf visit tour [] = pure tour := by
  unfold traverse
  cases v.unvisited tour.visited <;> rfl

theorem traverse_cons (v : View) (typeOf : ν → Except Error TypeDef)
    (visit : σ → ν → TypeRow → Query (Visit σ ν)) (tour : Tour σ) (node : ν) (rest : List ν) :
    v.traverse typeOf visit tour (node :: rest) = (do
      let d ← typeOf node
      if d ∈ tour.visited then v.traverse typeOf visit tour rest
      else
        let row : TypeRow ← v.row d
        match ← visit tour.state node row with
        | .stop state => return { visited := d :: tour.visited, state }
        | .next state nodes =>
          v.traverse typeOf visit { visited := d :: tour.visited, state } (nodes ++ rest)) := by
  have e : v.traverse typeOf visit tour =
      v.advance typeOf visit (v.traverse typeOf visit) tour := by
    funext stack
    rw [← rounds_eq_traverse stack (Nat.le_succ _)]
    exact advance_congr stack fun _ _ h => rounds_eq_traverse _ (Nat.le_of_lt h)
  rw [e]
  rfl

end View

end MetadataProjection
