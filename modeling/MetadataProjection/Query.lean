import Std.Data.TreeMap
import MetadataProjection.Error

/-!
# MetadataProjection.Query

Questions to a resolver that remembers. A question may fail; what was remembered before the failure
stays remembered.

* `Memo`, `Cache`: the meanings that are remembered, by reference.
* `Query`, `Query.ask`: a question, and its answer together with what is remembered after it. The
  lemmas `ask_pure`, `ask_throw`, `ask_lift` and `ask_bind` say how answers are put together.
-/

namespace MetadataProjection

/-- A remembered meaning and its height, that is, how many levels below itself it reaches. -/
structure Memo where
  meaning : Semantics
  height : Nat
deriving DecidableEq, Repr

def Memo.raise (m : Memo) : Memo := { m with height := m.height + 1 }

abbrev Cache := Std.TreeMap TypeDefOrRef Memo

abbrev Query := ExceptT Error (StateM Cache)

namespace Query

variable {α β : Type}

/-- The answer to a question, and what is remembered after it. -/
def ask (q : Query α) (c : Cache) : Except Error α × Cache := q.run.run c

@[simp] theorem ask_pure (a : α) (c : Cache) : (pure a : Query α).ask c = (.ok a, c) := rfl

@[simp] theorem ask_throw (e : Error) (c : Cache) : (throw e : Query α).ask c = (.error e, c) := rfl

@[simp] theorem ask_lift (x : Except Error α) (c : Cache) :
    (liftM x : Query α).ask c = (x, c) := by
  cases x <;> rfl

/-- The second question is asked only if the first has an answer. -/
theorem ask_bind (q : Query α) (f : α → Query β) (c : Cache) :
    (q >>= f).ask c =
      match q.ask c with
      | (.ok a, c') => (f a).ask c'
      | (.error e, c') => (.error e, c') := by
  change (ExceptT.bind q f).run.run c = _
  simp only [ask, ExceptT.bind, ExceptT.run, StateT.run, ExceptT.mk, bind, StateT.bind]
  rcases q c with ⟨x, c'⟩
  cases x <;> rfl

end Query

end MetadataProjection
