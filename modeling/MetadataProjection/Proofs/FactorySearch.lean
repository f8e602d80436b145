import MetadataProjection.Proofs.Batch
import MetadataProjection.Proofs.MemberGroups

/-!
# MetadataProjection.Proofs.FactorySearch

The search for a factory method, as a resolver makes it that remembers nothing. Any other resolver
comes to the same end, whatever it was asked before.

* `Resolver.meaningOf`: what a signature means to a resolver that remembers nothing.
* `Resolver.suitsFrom`, `Resolver.offerFrom`, `Resolver.factoryFrom`: the search without a memory, for
  both rules of matching. `Resolver.answers_factoryMethod`: it has the answers of the other one.
* `View.Names`: a factory that the attributes of a class name. `Resolver.exists_names_of_factoryFrom`:
  a method that is found is the first to suit in one of these.
* `Resolver.Suits`: what suits when types are matched. Whether a slot is an array does not count.
* `Session.Lived.factoryMethod_suits`: which method is found for a constructor by its types.
-/

namespace MetadataProjection

theorem Except.mem_of_findM? {ε α : Type} {p : α → Except ε Bool} {as : List α} {a : α}
    (h : as.findM? p = .ok (some a)) : a ∈ as ∧ p a = .ok true := by
  obtain ⟨before, after, rfl, -, ha⟩ := Except.findM?_eq_some_iff.mp h
  exact ⟨List.mem_append_right before List.mem_cons_self, ha⟩

theorem Except.findM?_append_cons {ε α : Type} {p : α → Except ε Bool} {before after : List α}
    {x a : α} (hx : p x = .ok true) (h : (before ++ x :: after).findM? p = .ok (some a)) :
    (a ∈ before ∧ p a = .ok true) ∨ (a = x ∧ ∀ b ∈ before, p b = .ok false) := by
  obtain ⟨first, rest, e, hfirst, ha⟩ := Except.findM?_eq_some_iff.mp h
  rcases List.append_eq_append_iff.mp e with ⟨l, rfl, hl⟩ | ⟨l, rfl, hl⟩
  · cases l with
    | nil =>
      cases hl
      rw [List.append_nil] at hfirst
      exact .inr ⟨rfl, hfirst⟩
    | cons y l =>
      cases hl
      have hfalse := hfirst x (List.mem_append_right before List.mem_cons_self)
      rw [hx] at hfalse
      cases hfalse
  · cases l with
    | nil =>
      cases hl
      rw [List.append_nil]
      exact .inr ⟨rfl, hfirst⟩
    | cons y l =>
      cases hl
      exact .inl ⟨List.mem_append_right first List.mem_cons_self, ha⟩

/-- The type is a factory that an attribute of the constructor's class names. -/
def View.Names (v : View) (c : MethodRow) (factory : TypeRow) : Prop :=
  ∃ (parent : TypeDef) (owner : TypeRow) (x : CustomAttribute) (a : AttributeRow) (name : String)
    (d : TypeDef), c.parent = some parent ∧ v.row parent = .ok owner ∧ x ∈ owner.attributes ∧
      v.row x = .ok a ∧ a.factory? = some name ∧ v.findFullName name = .ok d ∧
      v.row d = .ok factory

namespace Resolver

variable {r : Resolver}

/-! ## The search without a memory -/

/-- The meaning that a resolver finds that remembers nothing yet. -/
def meaningOf (r : Resolver) (s : Signature) : Except Error Semantics := ((r.resolve s).ask ∅).1

def sameSlotFrom (r : Resolver) (a b : Slot) : Except Error Bool :=
  if a.byRef != b.byRef then return false
  else do
    let x ← r.meaningOf a.type
    let y ← r.meaningOf b.type
    return x == y

def sameSlotsFrom (r : Resolver) : List Slot → List Slot → Except Error Bool
  | a :: as, b :: bs => do
    if ← r.sameSlotFrom a b then r.sameSlotsFrom as bs else return false
  | _, _ => return true

def suitsFrom (r : Resolver) (slots : List Slot) (m : MethodRow) : Except Error Bool :=
  match r.config.matching with
  | .parameterCount => return true
  | .parameterTypes => r.sameSlotsFrom slots m.signature.params

def candidates (slots : List Slot) (methods : List MethodRow) : List MethodRow :=
  methods.filter (·.signature.params.length == slots.length)

def matchFrom (r : Resolver) (slots : List Slot) (factory : TypeRow) :
    Except Error (Option MethodRow) := do
  let methods ← r.view.methodRows factory.methods
  (candidates slots methods).findM? (r.suitsFrom slots)

def offerFrom (r : Resolver) (slots : List Slot) (x : CustomAttribute) :
    Except Error (Option MethodRow) := do
  let a : AttributeRow ← r.view.row x
  match a.factory? with
  | none => return none
  | some name =>
    let d ← r.view.findFullName name
    r.view.row d >>= r.matchFrom slots

def factoryFrom (r : Resolver) (c : MethodRow) : Except Error MethodRow :=
  match c.parent with
  | none => throw (.invalidMetadata (.orphanConstructor c.token))
  | some parent => do
    let owner : TypeRow ← r.view.row parent
    match ← owner.attributes.findSomeM? (r.offerFrom c.signature.params) with
    | some m => return m
    | none => throw (.factoryMethodNotFound owner.fullName)

theorem answers_resolve_meaningOf (r : Resolver) (s : Signature) :
    Query.Answers (r.Keeps .none) (r.resolve s) (r.meaningOf s) := by
  have h := r.answers_resolve .none s
  rwa [meaningOf, (h ∅ r.keeps_empty).1]

theorem answers_sameSlot (a b : Slot) :
    Query.Answers (r.Keeps .none) (r.sameSlot a b) (r.sameSlotFrom a b) := by
  unfold sameSlot sameSlotFrom
  split
  · exact .pure false
  · exact (r.answers_resolve_meaningOf a.type).bind fun x _ =>
      (r.answers_resolve_meaningOf b.type).bind_pure fun y => x == y

theorem answers_sameSlots (as : List Slot) : ∀ bs : List Slot,
    Query.Answers (r.Keeps .none) (r.sameSlots as bs) (r.sameSlotsFrom as bs) := by
  induction as with
  | nil => intro bs; exact .pure true
  | cons a as ih =>
    intro bs
    cases bs with
    | nil => exact .pure true
    | cons b bs =>
      refine (answers_sameSlot a b).bind fun same _ => ?_
      cases same with
      | true => exact ih bs
      | false => exact .pure false

theorem answers_matchByTypes (slots : List Slot) (ms : List MethodRow) :
    Query.Answers (r.Keeps .none) (r.matchByTypes slots ms)
      (ms.findM? fun m => r.sameSlotsFrom slots m.signature.params) := by
  induction ms with
  | nil => exact .pure none
  | cons m ms ih =>
    refine (answers_sameSlots slots m.signature.params).bind fun same _ => ?_
    cases same with
    | true => exact .pure (some m)
    | false => exact ih

theorem findM?_suitsFrom (hm : r.config.matching = .parameterCount) (slots : List Slot)
    (ms : List MethodRow) : ms.findM? (r.suitsFrom slots) = .ok ms.head? := by
  cases ms with
  | nil => rfl
  | cons m ms =>
    rw [List.findM?, suitsFrom, hm]
    rfl

theorem answers_matchFactory (slots : List Slot) (factory : TypeRow) :
    Query.Answers (r.Keeps .none) (r.matchFactory slots factory) (r.matchFrom slots factory) := by
  refine (Query.Answers.lift _).bind fun methods _ => ?_
  cases hm : r.config.matching with
  | parameterCount =>
    rw [findM?_suitsFrom hm]
    exact .pure _
  | parameterTypes =>
    have hsuits : r.suitsFrom slots = fun m => r.sameSlotsFrom slots m.signature.params := by
      funext m
      rw [suitsFrom, hm]
    rw [hsuits]
    exact answers_matchByTypes slots _

theorem answers_searchFactories (slots : List Slot) (xs : List CustomAttribute) :
    Query.Answers (r.Keeps .none) (r.searchFactories slots xs)
      (xs.findSomeM? (r.offerFrom slots)) := by
  induction xs with
  | nil => exact .pure none
  | cons x xs ih =>
    rw [searchFactories, List.findSomeM?, offerFrom, bind_assoc]
    refine (Query.Answers.lift _).bind fun a _ => ?_
    cases AttributeRow.factory? a with
    | none => exact ih
    | some name =>
      dsimp only
      rw [bind_assoc]
      refine (Query.Answers.lift _).bind fun d _ => ?_
      rw [bind_assoc]
      refine (Query.Answers.lift _).bind fun factory _ => ?_
      refine (answers_matchFactory slots factory).bind fun found _ => ?_
      cases found with
      | some m => exact .pure (some m)
      | none => exact ih

/-- Whatever a resolver remembers of meanings, it finds this method, or fails in this way. -/
theorem answers_factoryMethod (r : Resolver) (c : MethodRow) :
    Query.Answers (r.Keeps .none) (r.factoryMethod c) (r.factoryFrom c) := by
  unfold factoryMethod factoryFrom
  cases c.parent with
  | none => exact .throw _
  | some parent =>
    refine (Query.Answers.lift _).bind fun owner _ => ?_
    refine (answers_searchFactories _ (TypeRow.attributes owner)).bind fun found _ => ?_
    cases found with
    | some m => exact .pure m
    | none => exact .throw _

theorem exists_names_of_factoryFrom {c m : MethodRow} (h : r.factoryFrom c = .ok m) :
    ∃ (factory : TypeRow) (methods : List MethodRow), r.view.Names c factory ∧
      r.view.methodRows factory.methods = .ok methods ∧
      (candidates c.signature.params methods).findM? (r.suitsFrom c.signature.params) =
        .ok (some m) := by
  unfold factoryFrom at h
  split at h
  · cases h
  · next parent hparent =>
    obtain ⟨owner, howner, h⟩ := Except.bind_eq_ok_iff.mp h
    obtain ⟨found, hfound, h⟩ := Except.bind_eq_ok_iff.mp h
    cases found with
    | none => cases h
    | some m' =>
      cases h
      obtain ⟨before, x, after, hattributes, -, hoffer⟩ := Except.findSomeM?_eq_some_iff.mp hfound
      have hx : x ∈ TypeRow.attributes owner := by
        rw [hattributes]
        exact List.mem_append_right before List.mem_cons_self
      obtain ⟨a, ha, hoffer⟩ := Except.bind_eq_ok_iff.mp hoffer
      split at hoffer
      · cases hoffer
      · next name hname =>
        obtain ⟨d, hd, hoffer⟩ := Except.bind_eq_ok_iff.mp hoffer
        obtain ⟨factory, hfactory, hoffer⟩ := Except.bind_eq_ok_iff.mp hoffer
        obtain ⟨methods, hmethods, hmatch⟩ := Except.bind_eq_ok_iff.mp hoffer
        exact ⟨factory, methods, ⟨parent, owner, x, a, name, d, hparent, howner, hx, ha, hname, hd,
          hfactory⟩, hmethods, hmatch⟩

/-! ## Matching by types -/

/-- The slots are passed alike and mean the same. -/
def Alike (r : Resolver) (a b : Slot) : Prop :=
  a.byRef = b.byRef ∧ ∃ t, r.meaningOf a.type = .ok t ∧ r.meaningOf b.type = .ok t

def Suits (r : Resolver) (c m : MethodRow) : Prop :=
  List.Forall₂ r.Alike c.signature.params m.signature.params

theorem sameSlotFrom_eq_true_iff {a b : Slot} : r.sameSlotFrom a b = .ok true ↔ r.Alike a b := by
  unfold sameSlotFrom Alike
  by_cases href : a.byRef = b.byRef
  · simp only [href, bne_self_eq_false, Bool.false_eq_true, if_false, true_and,
      Except.bind_eq_ok_iff, Except.pure_eq_ok_iff, beq_iff_eq]
    constructor
    · rintro ⟨x, hx, y, hy, rfl⟩
      exact ⟨x, hx, hy⟩
    · rintro ⟨t, ha, hb⟩
      exact ⟨t, ha, t, hb, rfl⟩
  · simp [href, Except.pure_eq_ok_iff]

theorem sameSlotsFrom_eq_true_iff {as bs : List Slot} (hlength : as.length = bs.length) :
    r.sameSlotsFrom as bs = .ok true ↔ List.Forall₂ r.Alike as bs := by
  induction as generalizing bs with
  | nil =>
    obtain rfl : bs = [] := List.length_eq_zero_iff.mp hlength.symm
    exact ⟨fun _ => .nil, fun _ => rfl⟩
  | cons a as ih =>
    cases bs with
    | nil => cases hlength
    | cons b bs =>
      rw [sameSlotsFrom, Except.bind_eq_ok_iff, List.forall₂_cons, ← sameSlotFrom_eq_true_iff,
        ← ih (Nat.succ.inj hlength)]
      constructor
      · rintro ⟨same, hsame, h⟩
        cases same with
        | true => exact ⟨hsame, h⟩
        | false => cases h
      · rintro ⟨hsame, h⟩
        exact ⟨true, hsame, h⟩

theorem mem_candidates_iff {slots : List Slot} {methods : List MethodRow} {m : MethodRow} :
    m ∈ candidates slots methods ↔ m ∈ methods ∧ m.signature.params.length = slots.length := by
  rw [candidates, List.mem_filter, beq_iff_eq]

theorem suitsFrom_eq_true_iff (hm : r.config.matching = .parameterTypes) {c m : MethodRow}
    {methods : List MethodRow} (h : m ∈ candidates c.signature.params methods) :
    r.suitsFrom c.signature.params m = .ok true ↔ r.Suits c m := by
  rw [suitsFrom, hm]
  exact sameSlotsFrom_eq_true_iff (mem_candidates_iff.mp h).2.symm

/-- What suits anything suits itself: its types have meanings. -/
theorem Suits.of_params_eq {c m x : MethodRow} (h : r.Suits c m)
    (hx : x.signature.params = c.signature.params) : r.Suits c x := by
  unfold Suits at h ⊢
  rw [hx]
  refine List.forall₂_same.mpr fun a ha => ?_
  obtain ⟨b, -, -, t, ht, -⟩ := (exists_of_mem_of_forall₂ h).1 a ha
  exact ⟨rfl, t, ht, ht⟩

/-- A method with the very parameters of the constructor is found just if none before it suits. -/
theorem eq_iff_forall_not_suits (hmatching : r.config.matching = .parameterTypes) {c m x : MethodRow}
    {before after : List MethodRow} (hnodup : (before ++ x :: after).Nodup)
    (hx : x.signature.params = c.signature.params)
    (h : (candidates c.signature.params (before ++ x :: after)).findM?
      (r.suitsFrom c.signature.params) = .ok (some m)) (hm : r.Suits c m) :
    m = x ↔ ∀ b ∈ before, ¬ r.Suits c b := by
  have hcandidates : candidates c.signature.params (before ++ x :: after) =
      candidates c.signature.params before ++ x :: candidates c.signature.params after := by
    simp [candidates, hx]
  have hx' : x ∈ candidates c.signature.params (before ++ x :: after) := by
    rw [hcandidates]
    exact List.mem_append_right _ List.mem_cons_self
  have hself := (suitsFrom_eq_true_iff hmatching hx').mpr (hm.of_params_eq hx)
  rw [hcandidates] at h
  rcases Except.findM?_append_cons hself h with ⟨hbefore, -⟩ | ⟨rfl, hfalse⟩
  · obtain ⟨hbefore, -⟩ := mem_candidates_iff.mp hbefore
    refine iff_of_false ?_ fun hnone => hnone m hbefore hm
    rintro rfl
    exact (List.nodup_append.mp hnodup).2.2 m hbefore m List.mem_cons_self rfl
  · refine iff_of_true rfl fun b hb hsuits => ?_
    have hb' := mem_candidates_iff.mpr ⟨hb, hsuits.length_eq.symm⟩
    have htrue := (suitsFrom_eq_true_iff hmatching hb').mpr hsuits
    rw [hfalse b hb'] at htrue
    cases htrue

/-! ### Slots that are not told apart -/

/-- The slots cannot be told apart, be they arrays or not. -/
def Confused (r : Resolver) (a b : Slot) : Prop :=
  a.byRef = b.byRef ∧ r.meaningOf a.type = r.meaningOf b.type

theorem sameSlotsFrom_congr {as as' : List Slot} (h : List.Forall₂ r.Confused as as') :
    ∀ bs : List Slot, r.sameSlotsFrom as bs = r.sameSlotsFrom as' bs := by
  induction h with
  | nil => intro bs; rfl
  | @cons a a' as as' ha _ ih =>
    intro bs
    cases bs with
    | nil => rfl
    | cons b bs => simp only [sameSlotsFrom, sameSlotFrom, ha.1, ha.2, ih bs]

theorem suitsFrom_congr {as as' : List Slot} (h : List.Forall₂ r.Confused as as') :
    r.suitsFrom as = r.suitsFrom as' := by
  funext m
  simp only [suitsFrom, sameSlotsFrom_congr h]

theorem offerFrom_congr {as as' : List Slot} (h : List.Forall₂ r.Confused as as') :
    r.offerFrom as = r.offerFrom as' := by
  have hmatch : r.matchFrom as = r.matchFrom as' := by
    funext factory
    simp only [matchFrom, candidates, suitsFrom_congr h, h.length_eq]
  funext x
  simp only [offerFrom, hmatch]

/-- Constructors of one class whose slots cannot be told apart have the same factory method. -/
theorem factoryFrom_congr {c c' m : MethodRow} (hparent : c'.parent = c.parent)
    (h : List.Forall₂ r.Confused c.signature.params c'.signature.params)
    (hm : r.factoryFrom c = .ok m) : r.factoryFrom c' = .ok m := by
  unfold factoryFrom at hm ⊢
  rw [hparent]
  cases hc : c.parent with
  | none =>
    rw [hc] at hm
    cases hm
  | some parent =>
    rw [hc] at hm
    rw [← offerFrom_congr h]
    exact hm

end Resolver

theorem Store.Coherent.nodup_methodRows {s : Store} (h : s.Coherent) {d : TypeDef} {row : TypeRow}
    {methods : List MethodRow} (hrow : s.view.row d = .ok row)
    (hmethods : s.view.methodRows row.methods = .ok methods) : methods.Nodup := by
  have hlists := h.lists d row (View.row_eq_ok_iff.mp hrow).2
  have hnodup : row.methods.Nodup := hlists.2.imp fun hlt e =>
    Fin.ne_of_lt hlt (congrArg Handle.row e)
  rw [← View.map_handle_methodRows h.view hmethods] at hnodup
  exact hnodup.of_map _

/-! ## Sessions -/

namespace Session

variable {cfg : Config} {σ : Session} {c m : MethodRow}

theorem Lived.factoryFrom_eq (h : σ.Lived cfg) (c : MethodRow) :
    (((σ.resolver cfg).factoryMethod c).ask σ.memory).1 = (σ.resolver cfg).factoryFrom c :=
  ((σ.resolver cfg).answers_factoryMethod c σ.memory h.sound.keeps).1

/-- The method that is found for a constructor by types is one of a factory that the class names. It
has as many parameters; at each position both are passed alike, by reference or not, and mean the
same. Where the class names a single factory, a method with the very parameters of the constructor is
found just if none before it suits. Whether a slot is an array is not looked at: the same method is
found for any constructor of the class whose slots are passed alike and have the same meanings. -/
theorem Lived.factoryMethod_suits (h : σ.Lived cfg) (hmatching : cfg.matching = .parameterTypes)
    (hfound : (((σ.resolver cfg).factoryMethod c).ask σ.memory).1 = .ok m) :
    let r := σ.resolver cfg
    r.Suits c m ∧
    (∃ (factory : TypeRow) (methods : List MethodRow), r.view.Names c factory ∧
      r.view.methodRows factory.methods = .ok methods ∧ m ∈ methods) ∧
    (∀ (factory : TypeRow) (before after : List MethodRow) (x : MethodRow),
      (∀ f, r.view.Names c f → f = factory) →
      r.view.methodRows factory.methods = .ok (before ++ x :: after) →
      x.signature.params = c.signature.params → (m = x ↔ ∀ b ∈ before, ¬ r.Suits c b)) ∧
    ∀ c' : MethodRow, c'.parent = c.parent →
      List.Forall₂ r.Confused c.signature.params c'.signature.params →
      ((r.factoryMethod c').ask σ.memory).1 = .ok m := by
  intro r
  rw [h.factoryFrom_eq] at hfound
  obtain ⟨factory, methods, hnames, hmethods, hfirst⟩ := Resolver.exists_names_of_factoryFrom hfound
  obtain ⟨hmem, htrue⟩ := Except.mem_of_findM? hfirst
  have hm : r.Suits c m := (Resolver.suitsFrom_eq_true_iff hmatching hmem).mp htrue
  refine ⟨hm, ⟨factory, methods, hnames, hmethods, (Resolver.mem_candidates_iff.mp hmem).1⟩,
    fun factory' before after x hsingle hmethods' hx => ?_, fun c' hparent hconfused => ?_⟩
  · obtain rfl := hsingle factory hnames
    rw [hmethods] at hmethods'
    cases hmethods'
    obtain ⟨parent, owner, y, a, name, d, -, -, -, -, -, -, hfactory⟩ := hnames
    have hnodup := h.sound.coherent.nodup_methodRows hfactory hmethods
    exact Resolver.eq_iff_forall_not_suits hmatching hnodup hx hfirst hm
  · rw [h.factoryFrom_eq]
    exact Resolver.factoryFrom_congr hparent hconfused hfound

/-- A factory that makes colors of a number and of something else, and the class that it activates. -/
def colors (other wanted : Signature) : List Action :=
  let activatable : TypeClause := .attribute ⟨Platform.metadataNamespace,
    Platform.activatableAttribute, { fixed := [.type "Demo.IColorFactory"] }⟩
  [.define (.ofClauses "Demo" "IColorFactory" [.category .interface,
      .method "Create" [.param "x" (.fundamental .int32)], .method "CreateFrom" [.param "x" other]]),
    .define (.ofClauses "Demo" "Color" [activatable, .constructor [.param "x" wanted]])]

def methodAt (σ : Session) (n : RowNumber) : MethodRow :=
  (σ.store.row? (⟨n⟩ : MethodDef)).getD default

def namedColors : Session :=
  { store := (run .strict (colors (.fundamental .string) (.fundamental .string))).store }

theorem Lived.factoryMethod_suits_namedColors :
    namedColors.store.view.row (⟨3⟩ : MethodDef) = .ok (namedColors.methodAt 3) ∧
      (((namedColors.resolver .strict).factoryMethod (namedColors.methodAt 3)).ask
        namedColors.memory).1 = .ok (namedColors.methodAt 2) ∧
      (namedColors.resolver .strict).Suits (namedColors.methodAt 3) (namedColors.methodAt 2) := by
  have hlived : namedColors.Lived .strict := .start _
  have hfound : (((namedColors.resolver .strict).factoryMethod (namedColors.methodAt 3)).ask
      namedColors.memory).1 = .ok (namedColors.methodAt 2) := by decide +kernel
  exact ⟨by decide +kernel, hfound, (hlived.factoryMethod_suits rfl hfound).1⟩

/-- The class wants a color of many numbers, and the factory has a method for just that. -/
def mixedColors : Session :=
  let many : Signature := .szArray (.fundamental .int32)
  { store := (run .strict (colors many many)).store }

/-- What is found is the method before it, which takes one number. -/
theorem factoryMethod_mixedColors :
    mixedColors.store.view.row (⟨3⟩ : MethodDef) = .ok (mixedColors.methodAt 3) ∧
      mixedColors.store.view.row (⟨2⟩ : MethodDef) = .ok (mixedColors.methodAt 2) ∧
      (mixedColors.methodAt 2).isConstructor = false ∧
      (mixedColors.methodAt 2).signature.params = (mixedColors.methodAt 3).signature.params ∧
      (((mixedColors.resolver .strict).factoryMethod (mixedColors.methodAt 3)).ask
        mixedColors.memory).1 = .ok (mixedColors.methodAt 1) ∧
      (mixedColors.methodAt 1).name = "Create" ∧
      (mixedColors.methodAt 1).signature.params.map (·.type.isSzArray) = [false] ∧
      (mixedColors.methodAt 3).signature.params.map (·.type.isSzArray) = [true] := by
  decide +kernel

end Session
end MetadataProjection
