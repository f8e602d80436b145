import Mathlib.Data.List.Forall2
import MetadataProjection.Error

/-!
# MetadataProjection.Proofs.Outcome

When a computation that may fail succeeds.

* `Except.bind_eq_ok_iff`: a sequence succeeds if both of its parts do.
* `Except.mapM_eq_ok_iff`: a list of computations succeeds if each of them does, and then the results
  stand in the order of the list.
* `Except.FailsFirst`, `Except.mapM_eq_error_iff`: it fails as the first of them that does.
* `Except.mapM_eq_ite`: computations that fail in one way only, for the same reason.
* `Except.findSomeM?_eq_some_iff` and its siblings: a search comes to the first element with something,
  to nothing, or to a failure. `Except.findM?_eq_some_iff`: it finds the first element that passes.
* `Except.Carries`: the second of two outcomes is the first, if the first counts. Values always count, and
  of the failures some.
-/

namespace MetadataProjection

theorem exists_of_mem_of_forall₂ {α β : Type} {R : α → β → Prop} {as : List α} {bs : List β}
    (h : List.Forall₂ R as bs) :
    (∀ a ∈ as, ∃ b ∈ bs, R a b) ∧ ∀ b ∈ bs, ∃ a ∈ as, R a b := by
  induction h with
  | nil => exact ⟨fun a ha => absurd ha List.not_mem_nil, fun b hb => absurd hb List.not_mem_nil⟩
  | @cons a b as bs hab hrest ih =>
    obtain ⟨ihl, ihr⟩ := ih
    refine ⟨fun x hx => ?_, fun y hy => ?_⟩
    · rcases List.mem_cons.mp hx with rfl | hx
      · exact ⟨b, List.mem_cons_self, hab⟩
      · obtain ⟨y, hy, hxy⟩ := ihl x hx
        exact ⟨y, List.mem_cons_of_mem b hy, hxy⟩
    · rcases List.mem_cons.mp hy with rfl | hy
      · exact ⟨a, List.mem_cons_self, hab⟩
      · obtain ⟨x, hx, hxy⟩ := ihr y hy
        exact ⟨x, List.mem_cons_of_mem a hx, hxy⟩

/-- Where two lists correspond and counterparts both pass or both fail a test, what is left of them
corresponds. -/
theorem forall₂_filter {α β : Type} {R : α → β → Prop} {p : α → Bool} {q : β → Bool} {as : List α}
    {bs : List β} (h : List.Forall₂ R as bs) (hpq : ∀ a b, R a b → p a = q b) :
    List.Forall₂ R (as.filter p) (bs.filter q) := by
  induction h with
  | nil => exact .nil
  | @cons a b as bs hab _ ih =>
    rw [List.filter_cons, List.filter_cons, hpq a b hab]
    split
    · exact .cons hab ih
    · exact ih

theorem map_eq_of_forall₂ {α β γ : Type} {R : α → β → Prop} {f : α → γ} {g : β → γ} {as : List α}
    {bs : List β} (h : List.Forall₂ R as bs) (hfg : ∀ a b, R a b → g b = f a) :
    bs.map g = as.map f := by
  induction h with
  | nil => rfl
  | @cons a b as bs hab _ ih => rw [List.map_cons, List.map_cons, hfg a b hab, ih]

namespace Except

variable {ε α β γ : Type}

@[simp] theorem ok_bind (a : α) (f : α → Except ε β) : Except.ok a >>= f = f a := rfl

theorem pure_eq_ok_iff {a b : α} : (pure a : Except ε α) = .ok b ↔ a = b := by
  constructor
  · intro h; cases h; rfl
  · rintro rfl; rfl

theorem pure_ne_error {a : α} {e : ε} : (pure a : Except ε α) ≠ .error e := nofun

theorem bind_eq_ok_iff {x : Except ε α} {f : α → Except ε β} {b : β} :
    x >>= f = .ok b ↔ ∃ a, x = .ok a ∧ f a = .ok b := by
  cases x with
  | error e =>
    constructor
    · intro h; cases h
    · rintro ⟨_, h, _⟩; cases h
  | ok a =>
    constructor
    · intro h; exact ⟨a, rfl, h⟩
    · rintro ⟨_, h, hf⟩; cases h; exact hf

theorem bind_eq_error_iff {x : Except ε α} {f : α → Except ε β} {e : ε} :
    x >>= f = .error e ↔ x = .error e ∨ ∃ a, x = .ok a ∧ f a = .error e := by
  cases x with
  | error e' =>
    constructor
    · intro h; cases h; exact .inl rfl
    · rintro (h | ⟨_, h, _⟩)
      · cases h; rfl
      · cases h
  | ok a =>
    constructor
    · intro h; exact .inr ⟨a, rfl, h⟩
    · rintro (h | ⟨_, h, hf⟩)
      · cases h
      · cases h; exact hf

theorem mapM_cons_eq_ok_iff {f : α → Except ε β} {a : α} {as : List α} {bs : List β} :
    (a :: as).mapM f = .ok bs ↔ ∃ b, f a = .ok b ∧ ∃ bs', as.mapM f = .ok bs' ∧ b :: bs' = bs := by
  simp only [List.mapM_cons, bind_eq_ok_iff, pure_eq_ok_iff]

theorem mapM_eq_ok_iff {f : α → Except ε β} {as : List α} {bs : List β} :
    as.mapM f = .ok bs ↔ List.Forall₂ (fun a b => f a = .ok b) as bs := by
  induction as generalizing bs with
  | nil =>
    constructor
    · intro h; cases h; exact .nil
    · intro h; cases h; rfl
  | cons a as ih =>
    rw [mapM_cons_eq_ok_iff]
    constructor
    · rintro ⟨b, hb, bs', hbs, rfl⟩
      exact .cons hb (ih.mp hbs)
    · intro h
      cases h with
      | cons hb hbs => exact ⟨_, hb, _, ih.mpr hbs, rfl⟩

theorem exists_mapM_eq_ok {f : α → Except ε β} {as : List α} (h : ∀ a ∈ as, ∃ b, f a = .ok b) :
    ∃ bs, as.mapM f = .ok bs := by
  induction as with
  | nil => exact ⟨[], rfl⟩
  | cons a as ih =>
    obtain ⟨b, hb⟩ := h a List.mem_cons_self
    obtain ⟨bs, hbs⟩ := ih fun x hx => h x (List.mem_cons_of_mem a hx)
    exact ⟨b :: bs, mapM_cons_eq_ok_iff.mpr ⟨b, hb, bs, hbs, rfl⟩⟩

theorem exists_mapM_eq_ok_iff {f : α → Except ε β} {as : List α} :
    (∃ bs, as.mapM f = .ok bs) ↔ ∀ a ∈ as, ∃ b, f a = .ok b := by
  refine ⟨fun ⟨bs, h⟩ a ha => ?_, exists_mapM_eq_ok⟩
  obtain ⟨b, -, hb⟩ := (exists_of_mem_of_forall₂ (mapM_eq_ok_iff.mp h)).1 a ha
  exact ⟨b, hb⟩

/-- The list has a first element that fails, and this is how it does. -/
def FailsFirst (f : α → Except ε β) (as : List α) (e : ε) : Prop :=
  ∃ before a after, as = before ++ a :: after ∧ (∀ x ∈ before, ∃ b, f x = .ok b) ∧ f a = .error e

theorem mapM_eq_error_iff {f : α → Except ε β} {as : List α} {e : ε} :
    as.mapM f = .error e ↔ FailsFirst f as e := by
  induction as with
  | nil => simp [FailsFirst, pure_ne_error]
  | cons a as ih =>
    rw [List.mapM_cons, bind_eq_error_iff]
    constructor
    · rintro (ha | ⟨b, hb, h⟩)
      · exact ⟨[], a, as, rfl, nofun, ha⟩
      · rcases bind_eq_error_iff.mp h with has | ⟨_, _, hpure⟩
        · obtain ⟨before, x, after, rfl, hbefore, hx⟩ := ih.mp has
          exact ⟨a :: before, x, after, rfl, List.forall_mem_cons.mpr ⟨⟨b, hb⟩, hbefore⟩, hx⟩
        · exact absurd hpure pure_ne_error
    · rintro ⟨before, x, after, e', hbefore, hx⟩
      cases before with
      | nil =>
        cases e'
        exact .inl hx
      | cons y before =>
        cases e'
        obtain ⟨⟨b, hb⟩, hbefore⟩ := List.forall_mem_cons.mp hbefore
        exact .inr ⟨b, hb, bind_eq_error_iff.mpr (.inl (ih.mpr ⟨before, x, after, rfl, hbefore, hx⟩))⟩

/-- A list of computations succeeds if each does by what is known of its counterpart, and then the
results have what is known of each. -/
theorem exists_mapM_of_forall₂ {f : β → Except ε γ} {R : α → β → Prop} {Q : α → γ → Prop}
    {as : List α} {bs : List β} (h : List.Forall₂ R as bs)
    (hf : ∀ a ∈ as, ∀ b, R a b → ∃ c, f b = .ok c ∧ Q a c) :
    ∃ cs, bs.mapM f = .ok cs ∧ List.Forall₂ Q as cs := by
  induction h with
  | nil => exact ⟨[], rfl, .nil⟩
  | @cons a b as bs hab _ ih =>
    obtain ⟨c, hc, hQ⟩ := hf a List.mem_cons_self b hab
    obtain ⟨cs, hcs, hQs⟩ := ih fun x hx => hf x (List.mem_cons_of_mem a hx)
    exact ⟨c :: cs, mapM_cons_eq_ok_iff.mpr ⟨c, hc, cs, hcs, rfl⟩, .cons hQ hQs⟩

theorem exists_of_mem_of_mapM {f : α → Except ε β} {as : List α} {bs : List β}
    (h : as.mapM f = .ok bs) :
    (∀ a ∈ as, ∃ b ∈ bs, f a = .ok b) ∧ ∀ b ∈ bs, ∃ a ∈ as, f a = .ok b :=
  exists_of_mem_of_forall₂ (mapM_eq_ok_iff.mp h)

theorem mapM_reverse_eq_ok_iff {f : α → Except ε β} {as : List α} {bs : List β} :
    as.reverse.mapM f = .ok bs ↔ as.mapM f = .ok bs.reverse := by
  rw [mapM_eq_ok_iff, mapM_eq_ok_iff, ← List.forall₂_reverse_iff, List.reverse_reverse]

/-- What is done with each result can be done with all of them in the end. -/
theorem mapM_bind_pure (f : α → Except ε β) (g : β → γ) (as : List α) :
    (as.mapM fun a => do return g (← f a)) = (do return (← as.mapM f).map g) := by
  induction as with
  | nil => rfl
  | cons a as ih =>
    rw [List.mapM_cons, List.mapM_cons, ih]
    cases f a with
    | error e => rfl
    | ok b => cases as.mapM f <;> rfl

/-- Where every element either has its result or fails with the same error, so does the list. -/
theorem mapM_eq_ite {f : α → Except ε β} {e : ε} {p : β → Prop} [DecidablePred p] {as : List α}
    {bs : List β} (h : List.Forall₂ (fun a b => f a = if p b then .ok b else .error e) as bs) :
    as.mapM f = if ∀ b ∈ bs, p b then .ok bs else .error e := by
  induction h with
  | nil => rfl
  | @cons a b as bs hab _ ih =>
    rw [List.mapM_cons, hab, ih]
    by_cases hb : p b
    · rw [if_pos hb]
      by_cases hbs : ∀ b ∈ bs, p b
      · rw [if_pos hbs, if_pos (List.forall_mem_cons.mpr ⟨hb, hbs⟩)]; rfl
      · rw [if_neg hbs, if_neg fun h => hbs (List.forall_mem_cons.mp h).2]; rfl
    · rw [if_neg hb, if_neg fun h => hb (List.forall_mem_cons.mp h).1]; rfl

theorem findSomeM?_eq_some_iff {f : α → Except ε (Option β)} {as : List α} {b : β} :
    as.findSomeM? f = .ok (some b) ↔ ∃ before a after, as = before ++ a :: after ∧
      (∀ x ∈ before, f x = .ok none) ∧ f a = .ok (some b) := by
  induction as with
  | nil => simp [List.findSomeM?, pure_eq_ok_iff]
  | cons a as ih =>
    rw [List.findSomeM?, bind_eq_ok_iff]
    constructor
    · rintro ⟨found, ha, h⟩
      cases found with
      | some b' =>
        cases h
        exact ⟨[], a, as, rfl, nofun, ha⟩
      | none =>
        obtain ⟨before, x, after, rfl, hbefore, hx⟩ := ih.mp h
        exact ⟨a :: before, x, after, rfl, List.forall_mem_cons.mpr ⟨ha, hbefore⟩, hx⟩
    · rintro ⟨before, x, after, e, hbefore, hx⟩
      cases before with
      | nil =>
        cases e
        exact ⟨some b, hx, rfl⟩
      | cons y before =>
        cases e
        obtain ⟨ha, hbefore⟩ := List.forall_mem_cons.mp hbefore
        exact ⟨none, ha, ih.mpr ⟨before, x, after, rfl, hbefore, hx⟩⟩

theorem findSomeM?_eq_none_iff {f : α → Except ε (Option β)} {as : List α} :
    as.findSomeM? f = .ok none ↔ ∀ a ∈ as, f a = .ok none := by
  induction as with
  | nil => exact iff_of_true rfl nofun
  | cons a as ih =>
    rw [List.findSomeM?, bind_eq_ok_iff, List.forall_mem_cons, ← ih]
    constructor
    · rintro ⟨found, ha, h⟩
      cases found with
      | some b => cases h
      | none => exact ⟨ha, h⟩
    · rintro ⟨ha, h⟩
      exact ⟨none, ha, h⟩

/-- A search fails at the first element that fails, if none before it has anything. -/
theorem findSomeM?_eq_error_iff {f : α → Except ε (Option β)} {as : List α} {e : ε} :
    as.findSomeM? f = .error e ↔ ∃ before a after, as = before ++ a :: after ∧
      (∀ x ∈ before, f x = .ok none) ∧ f a = .error e := by
  induction as with
  | nil => simp [List.findSomeM?, pure_ne_error]
  | cons a as ih =>
    rw [List.findSomeM?]
    constructor
    · intro h
      cases ha : f a with
      | error e' =>
        rw [ha] at h
        cases h
        exact ⟨[], a, as, rfl, nofun, ha⟩
      | ok found =>
        rw [ha] at h
        cases found with
        | some b => cases h
        | none =>
          obtain ⟨before, x, after, rfl, hbefore, hx⟩ := ih.mp h
          exact ⟨a :: before, x, after, rfl, List.forall_mem_cons.mpr ⟨ha, hbefore⟩, hx⟩
    · rintro ⟨before, x, after, e, hbefore, hx⟩
      cases before with
      | nil =>
        cases e
        rw [hx]
        rfl
      | cons y before =>
        cases e
        obtain ⟨ha, hbefore⟩ := List.forall_mem_cons.mp hbefore
        rw [ha]
        exact ih.mpr ⟨before, x, after, rfl, hbefore, hx⟩

/-- What comes after an element that has something, or fails, does not matter. -/
theorem findSomeM?_append_cons {f : α → Except ε (Option β)} {a : α} (ha : f a ≠ .ok none)
    (before after after' : List α) :
    (before ++ a :: after).findSomeM? f = (before ++ a :: after').findSomeM? f := by
  induction before with
  | nil =>
    simp only [List.nil_append, List.findSomeM?]
    cases hfa : f a with
    | error e => rfl
    | ok found =>
      cases found with
      | some b => rfl
      | none => exact absurd hfa ha
  | cons b before ih => simp only [List.cons_append, List.findSomeM?, ih]

theorem findM?_eq_some_iff {p : α → Except ε Bool} {as : List α} {a : α} :
    as.findM? p = .ok (some a) ↔ ∃ before after, as = before ++ a :: after ∧
      (∀ b ∈ before, p b = .ok false) ∧ p a = .ok true := by
  have hnone (b : α) : (do return if ← p b then some b else none) = Except.ok none ↔
      p b = .ok false := by
    rw [bind_eq_ok_iff]
    simp [pure_eq_ok_iff]
  have hsome (b : α) : (do return if ← p b then some b else none) = Except.ok (some a) ↔
      b = a ∧ p b = .ok true := by
    rw [bind_eq_ok_iff]
    simp [pure_eq_ok_iff, and_comm]
  simp only [List.findM?_eq_findSomeM?, findSomeM?_eq_some_iff, hnone, hsome]
  constructor
  · rintro ⟨before, _, after, e, hbefore, rfl, ha⟩
    exact ⟨before, after, e, hbefore, ha⟩
  · rintro ⟨before, after, e, hbefore, ha⟩
    exact ⟨before, a, after, e, hbefore, rfl, ha⟩

theorem eq_ok_of_mapError {ε' : Type} {f : ε → ε'} {x : Except ε α} {a : α}
    (h : x.mapError f = .ok a) : x = .ok a := by
  cases x with
  | error e => cases h
  | ok b => cases h; rfl

/-! ## One outcome beside another -/

section

variable {F : Error → Prop}

def Counts (F : Error → Prop) (x : Except Error α) : Prop := ∀ e, x = .error e → F e

/-- If `x` counts, `y` is the same. -/
def Carries (F : Error → Prop) (x y : Except Error α) : Prop := Counts F x → y = x

theorem counts_ok (a : α) : Counts F (.ok a : Except Error α) := nofun

theorem carries_of_ok {x y : Except Error α} (h : ∀ a, x = .ok a → y = .ok a) :
    Carries (fun _ => False) x y := by
  intro hc
  cases x with
  | error e => exact (hc e rfl).elim
  | ok a => exact h a rfl

theorem counts_error_iff {e : Error} : Counts F (.error e : Except Error α) ↔ F e := by
  constructor
  · intro h; exact h e rfl
  · intro h e' he; cases he; exact h

theorem Counts.error {e : Error} (h : Counts F (.error e : Except Error α)) :
    Counts F (.error e : Except Error β) :=
  counts_error_iff.mpr (counts_error_iff.mp h)

namespace Carries

theorem refl (x : Except Error α) : Carries F x x := fun _ => rfl

theorem bind {x y : Except Error α} {f g : α → Except Error β} (h : Carries F x y)
    (hf : ∀ a, Carries F (f a) (g a)) : Carries F (x >>= f) (y >>= g) := by
  intro hc
  cases x with
  | error e => rw [h hc.error]; rfl
  | ok a => rw [h (counts_ok a)]; exact hf a hc

theorem map {x y : Except Error α} (h : Carries F x y) (f : α → β) :
    Carries F (f <$> x) (f <$> y) := by
  rw [map_eq_pure_bind, map_eq_pure_bind]
  exact h.bind fun a => refl _

theorem mapM {f g : α → Except Error β} (h : ∀ a, Carries F (f a) (g a)) (as : List α) :
    Carries F (as.mapM f) (as.mapM g) := by
  induction as with
  | nil => exact refl _
  | cons a as ih =>
    rw [List.mapM_cons, List.mapM_cons]
    exact (h a).bind fun b => ih.bind fun bs => refl _

theorem ite (p : Prop) [Decidable p] {x y x' y' : Except Error α} (h : Carries F x y)
    (h' : Carries F x' y') : Carries F (if p then x else x') (if p then y else y') := by
  by_cases hp : p
  · rw [if_pos hp, if_pos hp]; exact h
  · rw [if_neg hp, if_neg hp]; exact h'

end Carries

end

end Except
end MetadataProjection
