import Mathlib.Data.List.Chain
import Mathlib.Data.List.Nodup
import Mathlib.Logic.Relation
import MetadataProjection.Proofs.Agreement
import MetadataProjection.Proofs.Coherence

/-!
# MetadataProjection.Proofs.ActivationChain

The search for the name of a slot goes from constructor to factory method, and on from there if that
is a constructor again. It is cut off after as many steps as there are methods; where no chain of
constructors leads back to its start, this is no limit.

* `Resolver.Activates`: one step of the search. Each leads to a method of the store
  (`stored_of_activates`).
* `Resolver.length_le_of_isChain`: without a circle, no chain is longer than there are methods.
* `Resolver.slotName_eq`: then the name of a slot satisfies the recursion without a limit.
-/

namespace MetadataProjection

def View.Stored (v : View) (m : MethodRow) : Prop := ∃ h : MethodDef, v.row h = .ok m

def View.Offers (v : View) (slots : List Slot) (m : MethodRow) : Prop :=
  v.Stored m ∧ m.signature.params.length = slots.length

namespace Resolver

variable {r : Resolver}

/-! ## Factory methods -/

theorem returns_matchByTypes (slots : List Slot) (ms : List MethodRow) :
    Query.Returns (fun found => ∀ m, found = some m → m ∈ ms) (r.matchByTypes slots ms) := by
  induction ms with
  | nil => exact .pure nofun
  | cons m ms ih =>
    refine (Query.Returns.any _).bind fun same _ => ?_
    cases same with
    | true =>
      refine .pure fun x e => ?_
      cases e
      exact List.mem_cons_self
    | false =>
      intro c found hfound x hx
      exact List.mem_cons_of_mem m (ih c found hfound x hx)

theorem returns_matchFactory (slots : List Slot) (factory : TypeRow) :
    Query.Returns (fun found => ∀ m, found = some m → r.view.Offers slots m)
      (r.matchFactory slots factory) := by
  refine (Query.Returns.lift _).bind fun methods hmethods => ?_
  have hoffers : ∀ m ∈ methods.filter (·.signature.params.length == slots.length),
      r.view.Offers slots m := by
    intro m hm
    obtain ⟨hm, hlength⟩ := List.mem_filter.mp hm
    obtain ⟨h, _, hrow⟩ := (Except.exists_of_mem_of_mapM hmethods).2 m hm
    exact ⟨⟨h, hrow⟩, beq_iff_eq.mp hlength⟩
  cases r.config.matching with
  | parameterCount => exact .pure fun m hm => hoffers m (List.mem_of_head? hm)
  | parameterTypes =>
    intro c found hfound m hm
    exact hoffers m (returns_matchByTypes slots _ c found hfound m hm)

theorem returns_searchFactories (slots : List Slot) (hs : List CustomAttribute) :
    Query.Returns (fun found => ∀ m, found = some m → r.view.Offers slots m)
      (r.searchFactories slots hs) := by
  induction hs with
  | nil => exact .pure nofun
  | cons h hs ih =>
    refine (Query.Returns.any _).bind fun a _ => ?_
    cases a.factory? with
    | none => exact ih
    | some name =>
      refine (Query.Returns.any _).bind fun d _ => (Query.Returns.any _).bind fun factory _ => ?_
      refine (returns_matchFactory slots factory).bind fun found hfound => ?_
      cases found with
      | some m => exact .pure hfound
      | none => exact ih

theorem returns_factoryMethod (m : MethodRow) :
    Query.Returns (r.view.Offers m.signature.params) (r.factoryMethod m) := by
  unfold factoryMethod
  cases m.parent with
  | none => exact .throw _
  | some parent =>
    refine (Query.Returns.any _).bind fun owner _ => ?_
    refine (returns_searchFactories _ owner.attributes).bind fun found hfound => ?_
    cases found with
    | some m' => exact .pure (hfound m' rfl)
    | none => exact .throw _

/-! ## The search -/

/-- The factory method that a resolver finds that remembers nothing yet. -/
def factoryOf (r : Resolver) (m : MethodRow) : Except Error MethodRow :=
  ((r.factoryMethod m).ask ∅).1

def slotNameWithin (r : Resolver) (steps : Nat) (m : MethodRow) : Except Error String :=
  ((r.abiNameWithin steps m).ask ∅).1

def slotName (r : Resolver) (m : MethodRow) : Except Error String := ((r.abiName m).ask ∅).1

/-- The constructor has parameters, and its search goes on at `m'`. -/
def Activates (r : Resolver) (m m' : MethodRow) : Prop :=
  m.isConstructor = true ∧ m.signature.params.isEmpty = false ∧ r.factoryOf m = .ok m'

/-- No constructor's search leads back to it. -/
def ActivationEnds (r : Resolver) : Prop := ∀ m, ¬ Relation.TransGen r.Activates m m

theorem stored_of_activates {m m' : MethodRow} (h : r.Activates m m') : r.view.Stored m' :=
  (returns_factoryMethod m ∅ m' h.2.2).1

theorem activationEnds_of_forall
    (h : ∀ m m', r.view.Stored m → r.Activates m m' → m'.isConstructor = false) :
    r.ActivationEnds := by
  intro m hm
  obtain ⟨y, _, hym⟩ := Relation.TransGen.tail'_iff.mp hm
  obtain ⟨x, hmx, hxm⟩ := Relation.TransGen.head'_iff.mp hm
  have hx := h m x (stored_of_activates hym) hmx
  rcases hxm.cases_head with rfl | ⟨z, hxz, _⟩
  · rw [hmx.1] at hx; cases hx
  · rw [hxz.1] at hx; cases hx

theorem slotNameWithin_succ (r : Resolver) (steps : Nat) (m : MethodRow) :
    r.slotNameWithin (steps + 1) m =
      if !m.isConstructor then r.view.memberName m
      else if m.signature.params.isEmpty then .ok defaultConstructorName
      else r.factoryOf m >>= r.slotNameWithin steps := by
  rw [slotNameWithin, abiNameWithin]
  by_cases hc : (!m.isConstructor) = true
  · rw [if_pos hc, if_pos hc, Query.ask_lift]
  · rw [if_neg hc, if_neg hc]
    by_cases hp : m.signature.params.isEmpty = true
    · rw [if_pos hp, if_pos hp, Query.ask_pure]
    · rw [if_neg hp, if_neg hp]
      have hfactory := (r.agree_factoryMethod m).answers_self r.keeps_empty
      have hnext := fun m' => (r.agree_abiNameWithin steps m').answers_self r.keeps_empty
      exact ((hfactory.bind fun m' _ => hnext m') ∅ r.keeps_empty).1

/-! ## Chains -/

/-- Where one more step changes what is found, the search has not ended: there is a chain of so many
factory methods. -/
theorem exists_isChain_of_ne {n : Nat} {m : MethodRow}
    (h : r.slotNameWithin (n + 1) m ≠ r.slotNameWithin n m) :
    ∃ ms, ms.length = n ∧ (m :: ms).IsChain r.Activates := by
  -- one step more shows only if the search goes on, and shows again where it goes on
  induction n generalizing m with
  | zero => exact ⟨[], rfl, .singleton m⟩
  | succ n ih =>
    rw [slotNameWithin_succ, slotNameWithin_succ] at h
    cases hc : m.isConstructor with
    | false => simp [hc] at h
    | true =>
      cases hp : m.signature.params.isEmpty with
      | true => simp [hp] at h
      | false =>
        cases hf : r.factoryOf m with
        | error e =>
          simp only [hc, hp, hf] at h
          exact absurd rfl h
        | ok m' =>
          have hne : r.slotNameWithin (n + 1) m' ≠ r.slotNameWithin n m' := by
            intro e
            simp [hf, e] at h
          obtain ⟨ms, hlength, hchain⟩ := ih hne
          refine ⟨m' :: ms, ?_, List.isChain_cons_cons.mpr ⟨⟨hc, hp, hf⟩, hchain⟩⟩
          rw [List.length_cons, hlength]

theorem stored_of_isChain {m : MethodRow} {ms : List MethodRow}
    (h : (m :: ms).IsChain r.Activates) : ∀ x ∈ ms, r.view.Stored x := by
  induction ms generalizing m with
  | nil => intro x hx; cases hx
  | cons m' ms ih =>
    obtain ⟨hstep, hrest⟩ := List.isChain_cons_cons.mp h
    exact List.forall_mem_cons.mpr ⟨stored_of_activates hstep, ih hrest⟩

theorem nodup_of_isChain (hends : r.ActivationEnds) {m : MethodRow} {ms : List MethodRow}
    (h : (m :: ms).IsChain r.Activates) : ms.Nodup := by
  have hpairs : (m :: ms).Pairwise (Relation.TransGen r.Activates) :=
    (h.imp fun _ _ => .single).pairwise
  refine (List.pairwise_cons.mp hpairs).2.imp fun {a b} hab e => ?_
  rw [e] at hab
  exact hends b hab

theorem length_le_of_isChain (hv : r.view.Labelled) (hends : r.ActivationEnds) {m : MethodRow}
    {ms : List MethodRow} (h : (m :: ms).IsChain r.Activates) :
    ms.length ≤ r.view.store.methods.byNumber.size := by
  have hrow : ∀ x ∈ ms, r.view.store.methods.byNumber[x.handle.row]? = some x := by
    intro x hx
    obtain ⟨y, hy⟩ := stored_of_isChain h x hx
    have hrow := (View.row_eq_ok_iff.mp hy).2
    rw [← hv.method hy] at hrow
    exact hrow
  have hnodup : (ms.map fun x => x.handle.row).Nodup := by
    refine List.Nodup.map_on (fun x hx y hy e => ?_) (nodup_of_isChain hends h)
    have hx' := hrow x hx
    rw [e, hrow y hy] at hx'
    exact (Option.some.inj hx').symm
  have hle := r.view.store.methods.length_le_size hnodup fun n hn => by
    obtain ⟨x, hx, rfl⟩ := List.mem_map.mp hn
    exact Option.isSome_of_mem (hrow x hx)
  rwa [List.length_map] at hle

/-- Where searches end, they end before they are cut off. -/
theorem slotNameWithin_eq (hv : r.view.Labelled) (hends : r.ActivationEnds) (m : MethodRow) {n : Nat}
    (hn : r.view.store.methods.byNumber.size < n) : r.slotNameWithin n m = r.slotName m := by
  induction n with
  | zero => cases hn
  | succ n ih =>
    rcases Nat.lt_or_eq_of_le (Nat.le_of_lt_succ hn) with hlt | rfl
    · rw [← ih hlt]
      by_contra hne
      obtain ⟨ms, hlength, hchain⟩ := exists_isChain_of_ne hne
      have hle := length_le_of_isChain hv hends hchain
      omega
    · rfl

theorem slotName_eq (hv : r.view.Labelled) (hends : r.ActivationEnds) (m : MethodRow) :
    r.slotName m =
      if !m.isConstructor then r.view.memberName m
      else if m.signature.params.isEmpty then .ok defaultConstructorName
      else r.factoryOf m >>= r.slotName := by
  have hlimit := Nat.lt_succ_self r.view.store.methods.byNumber.size
  have hnext : r.slotNameWithin (r.view.store.methods.byNumber.size + 1) = r.slotName :=
    funext fun m' => slotNameWithin_eq hv hends m' hlimit
  rw [← slotNameWithin_eq hv hends m (Nat.lt_succ_of_lt hlimit), slotNameWithin_succ, hnext]

end Resolver
end MetadataProjection
