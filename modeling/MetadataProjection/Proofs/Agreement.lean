import MetadataProjection.Proofs.Following
import MetadataProjection.Proofs.Session

/-!
# MetadataProjection.Proofs.Agreement

A resolver that remembers and one that does not answer alike, whatever is asked of them.

* `Query.Agree`: two questions with one answer, each wherever its own invariant holds of what is
  remembered.
* `Resolver.extends_uncached`: the resolver that remembers nothing reads and finds what the other
  one does, failures included. So they agree on closures, on names of slots (`agree_abiName`), on
  shapes, and on whole projections (`agree_project`).
-/

namespace MetadataProjection

/-! ## Agreement -/

namespace Query

variable {α : Type} {inv inv' : Cache → Prop}

/-- Both have the same answer wherever their invariants hold. -/
def Agree (inv inv' : Cache → Prop) (q q' : Query α) : Prop :=
  ∃ x, Answers inv q x ∧ Answers inv' q' x

/-- Where all failures count, to follow is to agree. -/
theorem Follows.agree {q q' : Query α} (h : Follows (fun _ => True) inv inv' q q') :
    Agree inv inv' q q' := by
  obtain ⟨x, hx, hx'⟩ := h
  exact ⟨x, hx, hx' fun _ _ => trivial⟩

namespace Agree

/-- What the second answers at one moment, the first answers at any. -/
theorem answers {q q' : Query α} (h : Agree inv inv' q q') {c : Cache} (hc : inv' c) :
    Answers inv q (q'.ask c).1 := by
  obtain ⟨x, hx, hx'⟩ := h
  rw [(hx' c hc).1]
  exact hx

theorem answers_self {q q' : Query α} (h : Agree inv inv' q q') {c : Cache} (hc : inv c) :
    Answers inv q (q.ask c).1 := by
  obtain ⟨x, hx, _⟩ := h
  rw [(hx c hc).1]
  exact hx

end Agree
end Query

namespace Resolver

/-- The resolver and the one that remembers nothing agree, from memories that hold meanings. -/
abbrev Agree (r : Resolver) {α : Type} (q q' : Query α) : Prop :=
  Query.Agree (r.Keeps .none) (r.uncached.Keeps .none) q q'

variable {σ : Type} (r : Resolver)

theorem extends_uncached : r.Extends (fun _ => True) r.uncached :=
  .of_rules r.view r.config r.uncached.config rfl (Nat.le_refl _) fun _ => rfl

theorem agree_enumerate (visit : σ → Semantics → TypeRow → Except Error σ) (state : σ)
    (d : TypeDef) : r.Agree (r.enumerate visit state d) (r.uncached.enumerate visit state d) :=
  (r.extends_uncached.follows_enumerate (fun _ _ _ => .refl _) state d).agree

theorem agree_requiredInterfaces (d : TypeDef) :
    r.Agree (r.requiredInterfaces d) (r.uncached.requiredInterfaces d) :=
  (r.extends_uncached.follows_requiredInterfaces d).agree

theorem agree_overloads (d : TypeDef) : r.Agree (r.overloads d) (r.uncached.overloads d) :=
  (r.extends_uncached.follows_overloads d).agree

theorem agree_implements (d : TypeDef) (space name : String) :
    r.Agree (r.implements d space name) (r.uncached.implements d space name) :=
  (r.extends_uncached.follows_implements d space name).agree

theorem agree_factoryMethod (m : MethodRow) :
    r.Agree (r.factoryMethod m) (r.uncached.factoryMethod m) :=
  (r.extends_uncached.follows_factoryMethod m).agree

theorem agree_abiNameWithin (steps : Nat) (m : MethodRow) :
    r.Agree (r.abiNameWithin steps m) (r.uncached.abiNameWithin steps m) :=
  (r.extends_uncached.follows_abiNameWithin steps steps m (Nat.le_refl _) fun _ _ => rfl).agree

theorem agree_abiName (m : MethodRow) : r.Agree (r.abiName m) (r.uncached.abiName m) :=
  (r.extends_uncached.follows_abiName m).agree

theorem agree_fieldMeaning (f : FieldRow) (storage : Bool) :
    r.Agree (r.fieldMeaning f storage) (r.uncached.fieldMeaning f storage) :=
  (r.extends_uncached.follows_fieldMeaning f storage).agree

theorem agree_shape (m : MethodRow) : r.Agree (r.shape m) (r.uncached.shape m) :=
  (r.extends_uncached.follows_shape m).agree

theorem agree_project (d : TypeDef) : r.Agree (r.project d) (r.uncached.project d) :=
  (r.extends_uncached.follows_project d).agree

end Resolver
end MetadataProjection
