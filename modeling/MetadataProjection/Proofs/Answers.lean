import Mathlib.Data.List.Forall2
import MetadataProjection.Query

/-!
# MetadataProjection.Proofs.Answers

Questions whose answer does not depend on what is remembered. Nothing else here looks inside the
monad: each predicate is closed under the ways in which questions are put together, so a whole query
answers as its parts do.

* `Query.Answers`: wherever an invariant holds of what is remembered, the question has this answer,
  and the invariant still holds after it.
* `Query.Gives`: the same, where only the answers that are not failures are known.
* `Query.Returns`: what holds of every answer, whatever is remembered.
-/

namespace MetadataProjection
namespace Query

variable {α β : Type} {inv : Cache → Prop}

/-- Wherever the invariant holds the answer is `x`, and the invariant holds after it. -/
def Answers (inv : Cache → Prop) (q : Query α) (x : Except Error α) : Prop :=
  ∀ c, inv c → (q.ask c).1 = x ∧ inv (q.ask c).2

namespace Answers

theorem pure (a : α) : Answers inv (Pure.pure a) (.ok a) := fun _ hc => ⟨rfl, hc⟩

theorem throw (e : Error) : Answers inv (MonadExcept.throw e : Query α) (.error e) :=
  fun _ hc => ⟨rfl, hc⟩

theorem lift (x : Except Error α) : Answers inv (liftM x) x := by
  intro c hc
  rw [ask_lift]
  exact ⟨rfl, hc⟩

theorem bind {q : Query α} {f : α → Query β} {x : Except Error α} {y : α → Except Error β}
    (hq : Answers inv q x) (hf : ∀ a, x = .ok a → Answers inv (f a) (y a)) :
    Answers inv (q >>= f) (x >>= y) := by
  intro c hc
  obtain ⟨h₁, h₂⟩ := hq c hc
  rw [ask_bind]
  rcases hqc : q.ask c with ⟨a, c'⟩
  rw [hqc] at h₁ h₂
  subst h₁
  cases a with
  | error e => exact ⟨rfl, h₂⟩
  | ok a => exact hf a rfl c' h₂

/-- After an answer, the second question is asked about it. -/
theorem bind_ok {q : Query α} {f : α → Query β} {a : α} {y : Except Error β}
    (hq : Answers inv q (.ok a)) (hf : Answers inv (f a) y) : Answers inv (q >>= f) y :=
  hq.bind (y := fun _ => y) fun b e => by cases e; exact hf

theorem bind_error {q : Query α} {e : Error} (hq : Answers inv q (.error e)) (f : α → Query β) :
    Answers inv (q >>= f) (.error e) :=
  hq.bind (y := fun _ => .error e) nofun

theorem bind_pure {q : Query α} {x : Except Error α} (hq : Answers inv q x) (f : α → β) :
    Answers inv (q >>= fun a => Pure.pure (f a)) (x >>= fun a => .ok (f a)) :=
  hq.bind fun a _ => pure (f a)

theorem mapM {q : α → Query β} {x : α → Except Error β} (h : ∀ a, Answers inv (q a) (x a)) :
    ∀ as : List α, Answers inv (as.mapM q) (as.mapM x) := by
  intro as
  induction as with
  | nil => exact pure []
  | cons a as ih =>
    rw [List.mapM_cons, List.mapM_cons]
    exact (h a).bind fun b _ => ih.bind fun bs _ => pure (b :: bs)

end Answers

/-- Wherever the invariant holds the answer is the same; it is one of those in `S` if there are
any, and a failure if there are none. -/
def Gives (inv : Cache → Prop) (q : Query α) (S : α → Prop) : Prop :=
  ∃ x, Answers inv q x ∧ ∀ a, x = .ok a ↔ S a

namespace Gives

variable {S : α → Prop}

theorem of_answers {q : Query α} {x : Except Error α} (h : Answers inv q x) :
    Gives inv q (x = .ok ·) :=
  ⟨x, h, fun _ => Iff.rfl⟩

theorem pure (a : α) : Gives inv (Pure.pure a) (a = ·) :=
  ⟨.ok a, .pure a, fun _ => by rw [Except.ok.injEq]⟩

theorem lift (x : Except Error α) : Gives inv (liftM x) (x = .ok ·) := of_answers (.lift x)

theorem congr {q : Query α} {T : α → Prop} (h : Gives inv q S) (e : ∀ a, S a ↔ T a) :
    Gives inv q T := by
  obtain ⟨x, hx, hS⟩ := h
  exact ⟨x, hx, fun a => (hS a).trans (e a)⟩

theorem ite {q q' : Query α} {S' : α → Prop} (p : Prop) [Decidable p]
    (h : p → Gives inv q S) (h' : ¬ p → Gives inv q' S') :
    Gives inv (if p then q else q') fun a => if p then S a else S' a := by
  by_cases hp : p
  · simp only [if_pos hp]; exact h hp
  · simp only [if_neg hp]; exact h' hp

theorem bind {q : Query α} {f : α → Query β} {T : α → β → Prop} (hq : Gives inv q S)
    (hf : ∀ a, S a → Gives inv (f a) (T a)) : Gives inv (q >>= f) fun b => ∃ a, S a ∧ T a b := by
  obtain ⟨x, hx, hS⟩ := hq
  cases x with
  | error e =>
    have hnone : ∀ a, ¬ S a := fun a ha => by cases (hS a).mpr ha
    refine ⟨.error e, hx.bind_error f, fun b => ?_⟩
    constructor
    · intro h; cases h
    · rintro ⟨a, ha, _⟩
      exact absurd ha (hnone a)
  | ok a =>
    have ha := (hS a).mp rfl
    obtain ⟨y, hy, hT⟩ := hf a ha
    refine ⟨y, hx.bind_ok hy, fun b => ?_⟩
    constructor
    · intro h
      exact ⟨a, ha, (hT b).mp h⟩
    · rintro ⟨a', ha', hb⟩
      cases (hS a').mpr ha'
      exact (hT b).mpr hb

/-- An answer in `S` is the answer. -/
theorem answers {q : Query α} (h : Gives inv q S) {a : α} (ha : S a) : Answers inv q (.ok a) := by
  obtain ⟨x, hx, hS⟩ := h
  rw [← (hS a).mpr ha]
  exact hx

theorem ask_eq_ok_iff {q : Query α} (h : Gives inv q S) {c : Cache} (hc : inv c) {a : α} :
    (q.ask c).1 = .ok a ↔ S a := by
  obtain ⟨x, hx, hS⟩ := h
  rw [(hx c hc).1]
  exact hS a

end Gives

/-! ## What holds of every answer -/

variable {P : β → Prop}

/-- Every answer satisfies `P`. -/
def Returns (P : α → Prop) (q : Query α) : Prop := ∀ (c : Cache) (a : α), (q.ask c).1 = .ok a → P a

namespace Returns

theorem pure {b : β} (h : P b) : Returns P (Pure.pure b) := by
  intro c a ha
  cases ha
  exact h

theorem throw (e : Error) : Returns P (MonadExcept.throw e : Query β) := by
  intro c a ha
  cases ha

theorem bind {q : Query α} {f : α → Query β} {S : α → Prop} (hq : Returns S q)
    (hf : ∀ a, S a → Returns P (f a)) : Returns P (q >>= f) := by
  intro c b hb
  rw [ask_bind] at hb
  have h := hq c
  rcases hqc : q.ask c with ⟨x, c'⟩
  rw [hqc] at hb h
  cases x with
  | error e => cases hb
  | ok a => exact hf a (h a rfl) c' b hb

theorem ite (p : Prop) [Decidable p] {q q' : Query β} (h : Returns P q) (h' : Returns P q') :
    Returns P (if p then q else q') := by
  by_cases hp : p
  · rw [if_pos hp]; exact h
  · rw [if_neg hp]; exact h'

theorem any (q : Query α) : Returns (fun _ => True) q := fun _ _ _ => trivial

theorem lift (x : Except Error α) : Returns (x = .ok ·) (liftM x) := by
  intro c a ha
  rw [ask_lift] at ha
  exact ha

theorem mapM {R : α → β → Prop} {q : α → Query β} (h : ∀ a, Returns (R a) (q a)) (as : List α) :
    Returns (List.Forall₂ R as) (as.mapM q) := by
  induction as with
  | nil => exact pure .nil
  | cons a as ih =>
    rw [List.mapM_cons]
    exact (h a).bind fun b hb => ih.bind fun bs hbs => pure (.cons hb hbs)

end Returns

end Query
end MetadataProjection
