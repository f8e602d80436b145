import MetadataProjection.Closure.Implements
import MetadataProjection.Projection
import MetadataProjection.Proofs.Answers
import MetadataProjection.Proofs.Knowledge

/-!
# MetadataProjection.Proofs.Following

Two resolvers side by side. What the first answers, the second answers too, as long as this is so of
the rows and names they read and of the meanings they find. Values always count; of the failures,
`F` says which count.

* `View.Extends`: so it is with all that can be read from two views, and then with all that is put
  together from it (`Extends.carries_members`, `Extends.carries_signatureOf`).
* `Query.Follows`: so it is with two questions, each wherever its own invariant holds of what is
  remembered.
* `Resolver.Extends`: so it is with all that two resolvers find, as under other rules
  (`Extends.of_rules`), and then with closures (`follows_walk`), names of slots (`follows_abiName`),
  shapes, and whole projections (`follows_project`).
-/

namespace MetadataProjection

open MetadataProjection.Except (Carries)

/-! ## Views -/

/-- What is read from `v` is read from `v'` too. -/
structure View.Extends (F : Error → Prop) (v v' : View) : Prop where
  row : ∀ {t : Table} (h : Handle t), Carries F (v.row h) (v'.row h)
  name : ∀ space name : String, Carries F (v.findRequired space name) (v'.findRequired space name)
  methods : v.store.methods.byNumber.size ≤ v'.store.methods.byNumber.size
  /-- A search for the name of a slot that runs in a circle is cut off at the same step, if this
  failure counts. -/
  circular : ∀ k : Token, F (.invalidMetadata (.circularActivation k)) →
    v.store.methods.byNumber.size = v'.store.methods.byNumber.size

namespace View.Extends

variable {F : Error → Prop} {v v' : View} (h : v.Extends F v')

theorem refl (F : Error → Prop) (v : View) : v.Extends F v :=
  ⟨fun _ => .refl _, fun _ _ => .refl _, Nat.le_refl _, fun _ _ => rfl⟩

include h

theorem carries_findFullName (fullName : String) :
    Carries F (v.findFullName fullName) (v'.findFullName fullName) :=
  h.name _ _

theorem carries_categoryOf (row : TypeRow) : Carries F (v.categoryOf row) (v'.categoryOf row) := by
  refine .ite _ (.refl _) ?_
  cases row.base with
  | none => exact .refl _
  | some base =>
    cases base with
    | typeDef x => exact (h.row x).map _
    | typeRef x => exact (h.row x).map _
    | typeSpec x => exact .refl _

theorem carries_category (d : TypeDef) : Carries F (v.category d) (v'.category d) :=
  (h.row d).bind h.carries_categoryOf

theorem carries_findAttribute (space name : String) (hs : List CustomAttribute) :
    Carries F (v.findAttribute space name hs) (v'.findAttribute space name hs) := by
  induction hs with
  | nil => exact .refl _
  | cons x hs ih => exact (h.row x).bind fun row => .ite _ (.refl _) ih

theorem carries_isFlagsEnum (d : TypeDef) : Carries F (v.isFlagsEnum d) (v'.isFlagsEnum d) := by
  refine (h.row d).bind fun row => (h.carries_categoryOf row).bind fun k => .ite _ ?_ (.refl _)
  exact (h.carries_findAttribute _ _ _).bind fun a => .refl _

theorem carries_enumStorage (d : TypeDef) : Carries F (v.enumStorage d) (v'.enumStorage d) :=
  (h.carries_isFlagsEnum d).bind fun _ => .refl _

theorem carries_memberName (m : MethodRow) : Carries F (v.memberName m) (v'.memberName m) :=
  (h.carries_findAttribute _ _ _).bind fun _ => .refl _

/-! ### Members and parameters -/

theorem carries_propertyAccessors (x : Property) :
    Carries F (v.propertyAccessors x) (v'.propertyAccessors x) := by
  refine (h.row x).bind fun row => Carries.bind (.refl _) fun pair => ?_
  refine (h.row pair.1).bind fun getter => ?_
  cases pair.2 with
  | none => exact .refl _
  | some setter => exact (h.row setter).bind fun _ => .refl _

theorem carries_eventAccessors (x : Event) :
    Carries F (v.eventAccessors x) (v'.eventAccessors x) := by
  refine (h.row x).bind fun row => Carries.bind (.refl _) fun pair => ?_
  refine (h.row pair.1).bind fun adder => ?_
  cases pair.2 with
  | none => exact .refl _
  | some remover => exact (h.row remover).bind fun _ => .refl _

theorem carries_methodRows (hs : List MethodDef) : Carries F (v.methodRows hs) (v'.methodRows hs) :=
  .mapM (fun x => h.row x) hs

theorem carries_members (d : TypeDef) : Carries F (v.members d) (v'.members d) := by
  refine (h.row d).bind fun row => ?_
  refine (Carries.mapM h.carries_propertyAccessors _).bind fun properties => ?_
  refine (Carries.mapM h.carries_eventAccessors _).bind fun events => ?_
  refine (h.carries_methodRows _).bind fun methods => ?_
  exact (Carries.mapM (fun x => h.row x) _).bind fun fields => .refl _

theorem carries_returnRow? (m : MethodRow) : Carries F (v.returnRow? m) (v'.returnRow? m) := by
  refine .ite _ (.refl _) ?_
  cases m.params with
  | nil => exact .refl _
  | cons x _ => exact (h.row x).bind fun _ => .refl _

theorem carries_pairParams (m : MethodRow) (slots : List Slot) :
    ∀ hs : List Param, Carries F (v.pairParams m slots hs) (v'.pairParams m slots hs) := by
  induction slots with
  | nil => intro hs; exact .refl _
  | cons slot slots ih =>
    intro hs
    cases hs with
    | nil => exact .refl _
    | cons x hs => exact (h.row x).bind fun row => (ih hs).bind fun _ => .refl _

theorem carries_signatureOf (m : MethodRow) : Carries F (v.signatureOf m) (v'.signatureOf m) :=
  (h.carries_returnRow? m).bind fun _ => (h.carries_pairParams m _ _).bind fun _ => .refl _

theorem carries_addMethods (arguments : List Semantics) (hs : List MethodDef) :
    ∀ ms : OverloadMap, Carries F (OverloadMap.addMethods v arguments ms hs)
      (OverloadMap.addMethods v' arguments ms hs) := by
  induction hs with
  | nil => intro ms; exact .refl _
  | cons x hs ih =>
    intro ms
    exact (h.row x).bind fun m => .ite _ (Carries.bind (.refl _) ih) (Carries.bind (.refl _) ih)

theorem carries_renderDefinition (d : TypeDef) :
    Carries F (Semantics.renderDefinition v d) (Semantics.renderDefinition v' d) :=
  (h.row d).bind fun _ => .refl _

end View.Extends

namespace Semantics

variable {F : Error → Prop} {v v' : View}

mutual

theorem carries_render (h : v.Extends F v') (params : List String) :
    ∀ m : Semantics, Carries F (m.render v params) (m.render v' params)
  | .fundamental _ => .refl _
  | .object => .refl _
  | .guid => .refl _
  | .index _ => .refl _
  | .definition d => h.carries_renderDefinition d
  | .inst d as => (h.carries_renderDefinition d).bind fun _ =>
      (carries_renderArgs h params as).bind fun _ => .refl _

theorem carries_renderArgs (h : v.Extends F v') (params : List String) :
    ∀ ms : List Semantics, Carries F (renderArgs v params ms) (renderArgs v' params ms)
  | [] => .refl _
  | m :: ms => (carries_render h params m).bind fun _ =>
      (carries_renderArgs h params ms).bind fun _ => .refl _

end

end Semantics

/-! ## Questions -/

namespace Query

variable {α β : Type} {F : Error → Prop} {inv inv' : Cache → Prop}

/-- Each has one answer wherever its invariant holds, and if that of the first counts, the second
has the same. -/
def Follows (F : Error → Prop) (inv inv' : Cache → Prop) (q q' : Query α) : Prop :=
  ∃ x, Answers inv q x ∧ (Except.Counts F x → Answers inv' q' x)

namespace Follows

theorem pure (a : α) : Follows F inv inv' (Pure.pure a) (Pure.pure a) :=
  ⟨.ok a, .pure a, fun _ => .pure a⟩

theorem throw (e : Error) :
    Follows F inv inv' (MonadExcept.throw e : Query α) (MonadExcept.throw e) :=
  ⟨.error e, .throw e, fun _ => .throw e⟩

theorem of_answers {q q' : Query α} {x y : Except Error α} (hq : Answers inv q x)
    (hq' : Answers inv' q' y) (h : Carries F x y) : Follows F inv inv' q q' := by
  refine ⟨x, hq, fun hc => ?_⟩
  rw [← h hc]
  exact hq'

theorem lift {x y : Except Error α} (h : Carries F x y) : Follows F inv inv' (liftM x) (liftM y) :=
  of_answers (.lift x) (.lift y) h

theorem bind {q q' : Query α} {f f' : α → Query β} (hq : Follows F inv inv' q q')
    (hf : ∀ a, Follows F inv inv' (f a) (f' a)) : Follows F inv inv' (q >>= f) (q' >>= f') := by
  obtain ⟨x, hx, hx'⟩ := hq
  cases x with
  | error e =>
    refine ⟨.error e, hx.bind_error f, fun hc => ?_⟩
    exact (hx' hc.error).bind_error f'
  | ok a =>
    obtain ⟨y, hy, hy'⟩ := hf a
    exact ⟨y, hx.bind_ok hy, fun hc => (hx' (Except.counts_ok a)).bind_ok (hy' hc)⟩

theorem lift_bind {x y : Except Error α} {f f' : α → Query β} (h : Carries F x y)
    (hf : ∀ a, x = .ok a → Follows F inv inv' (f a) (f' a)) :
    Follows F inv inv' (liftM x >>= f) (liftM y >>= f') := by
  cases x with
  | error e =>
    refine ⟨.error e, (Answers.lift _).bind_error f, fun hc => ?_⟩
    rw [h hc.error]
    exact (Answers.lift _).bind_error f'
  | ok a =>
    obtain ⟨z, hz, hz'⟩ := hf a rfl
    rw [h (Except.counts_ok a)]
    exact ⟨z, (Answers.lift _).bind_ok hz, fun hc => (Answers.lift _).bind_ok (hz' hc)⟩

theorem bind_pure {q q' : Query α} (hq : Follows F inv inv' q q') (f : α → β) :
    Follows F inv inv' (q >>= fun a => Pure.pure (f a)) (q' >>= fun a => Pure.pure (f a)) :=
  hq.bind fun a => pure (f a)

theorem mapM {q q' : α → Query β} (h : ∀ a, Follows F inv inv' (q a) (q' a)) (as : List α) :
    Follows F inv inv' (as.mapM q) (as.mapM q') := by
  induction as with
  | nil => exact pure []
  | cons a as ih =>
    rw [List.mapM_cons, List.mapM_cons]
    exact (h a).bind fun b => ih.bind fun bs => pure (b :: bs)

theorem ite (p : Prop) [Decidable p] {q₁ q₂ q₁' q₂' : Query α} (h : Follows F inv inv' q₁ q₁')
    (h' : Follows F inv inv' q₂ q₂') :
    Follows F inv inv' (if p then q₁ else q₂) (if p then q₁' else q₂') := by
  by_cases hp : p
  · rw [if_pos hp, if_pos hp]; exact h
  · rw [if_neg hp, if_neg hp]; exact h'

/-- An answer of the first, at any moment, is the answer of the second at every moment. -/
theorem ask_eq_ok {q q' : Query α} (h : Follows F inv inv' q q') {c c' : Cache} (hc : inv c)
    (hc' : inv' c') {a : α} (ha : (q.ask c).1 = .ok a) : (q'.ask c').1 = .ok a := by
  obtain ⟨x, hx, hx'⟩ := h
  rw [(hx c hc).1] at ha
  subst ha
  exact (hx' (Except.counts_ok a) c' hc').1

/-- If all failures count but one, either the first ends with that one, or both end alike. -/
theorem ask_eq_or {q q' : Query α} {e : Error} (h : Follows (· ≠ e) inv inv' q q') {c c' : Cache}
    (hc : inv c) (hc' : inv' c') : (q.ask c).1 = .error e ∨ (q'.ask c').1 = (q.ask c).1 := by
  obtain ⟨x, hx, hx'⟩ := h
  rw [(hx c hc).1]
  by_cases he : x = .error e
  · exact .inl he
  · refine .inr (hx' (fun e' hxe => ?_) c' hc').1
    rintro rfl
    exact he hxe

end Follows

/-- Traversals follow one another if their visits do. -/
theorem follows_traverse {σ ν : Type} {v v' : View} (hv : v.Extends F v')
    (typeOf : ν → Except Error TypeDef) {visit visit' : σ → ν → TypeRow → Query (Visit σ ν)}
    (h : ∀ state node row, Follows F inv inv' (visit state node row) (visit' state node row))
    (n : Nat) (tour : Tour σ) (stack : List ν) (hn : v.unvisited tour.visited = n) :
    Follows F inv inv' (v.traverse typeOf visit tour stack)
      (v'.traverse typeOf visit' tour stack) := by
  -- on what is left to visit and, as long as nothing is visited, on the stack
  induction n using Nat.strongRecOn generalizing tour stack with
  | ind n ihn =>
    induction stack with
    | nil =>
      rw [View.traverse_nil, View.traverse_nil]
      exact .pure tour
    | cons node rest ih =>
      rw [View.traverse_cons, View.traverse_cons]
      refine Follows.bind (.lift (.refl _)) fun d => ?_
      by_cases hd : d ∈ tour.visited
      · rw [if_pos hd, if_pos hd]
        exact ih
      · rw [if_neg hd, if_neg hd]
        refine Follows.lift_bind (hv.row d) fun row hrow => ?_
        have hlt := View.unvisited_cons_lt hrow hd
        refine (h tour.state node row).bind fun w => ?_
        cases w with
        | stop state => exact .pure _
        | next state nodes => exact ihn _ (hn ▸ hlt) _ _ rfl

end Query

namespace Resolver

/-- The second resolver answers the second question as the first one answers the first, both from
memories that hold meanings. -/
abbrev Follows (F : Error → Prop) (r r' : Resolver) {α : Type} (q q' : Query α) : Prop :=
  Query.Follows F (r.Keeps .none) (r'.Keeps .none) q q'

/-- The second resolver reads and finds what the first one does. -/
structure Extends (F : Error → Prop) (r r' : Resolver) : Prop where
  view : r.view.Extends F r'.view
  matching : r'.config.matching = r.config.matching
  resolve : ∀ s : Signature, Follows F r r' (r.resolve s) (r'.resolve s)
  resolveReference : ∀ ref : TypeDefOrRef,
    Follows F r r' (r.resolveReference ref) (r'.resolveReference ref)

namespace Extends

/-- It is enough to compare what the two find with nothing remembered. -/
theorem of_carries {F : Error → Prop} {r r' : Resolver} (hview : r.view.Extends F r'.view)
    (hmatching : r'.config.matching = r.config.matching)
    (hs : ∀ s, Carries F (r.resolveFrom .none s) (r'.resolveFrom .none s))
    (href : ∀ ref, Carries F (r.resolveReferenceFrom .none ref)
      (r'.resolveReferenceFrom .none ref)) : r.Extends F r' := by
  refine ⟨hview, hmatching, fun s => ?_, fun ref => ?_⟩
  · exact .of_answers (r.answers_resolve .none s) (r'.answers_resolve .none s) (hs s)
  · exact .of_answers (r.answers_resolveReference .none ref)
      (r'.answers_resolveReference .none ref) (href ref)

/-- Over one store, the rules differ in their limit at most, and if the failure at the limit counts, not
even in that. -/
theorem of_rules {F : Error → Prop} (v : View) (cfg cfg' : Config)
    (hmatching : cfg'.matching = cfg.matching) (hle : cfg.maxDepth ≤ cfg'.maxDepth)
    (hlimit : F (.recursionLimit cfg.maxDepth) → cfg.maxDepth = cfg'.maxDepth) :
    Extends F ⟨v, cfg⟩ ⟨v, cfg'⟩ :=
  of_carries (.refl F v) hmatching (carries_resolveFrom v cfg cfg' hle hlimit .none)
    (carries_resolveReferenceFrom v cfg cfg' hle hlimit .none)

variable {F : Error → Prop} {σ : Type} {r r' : Resolver} (h : r.Extends F r')
include h

theorem follows_definitionOf (ref : TypeDefOrRef) :
    Follows F r r' (r.definitionOf ref) (r'.definitionOf ref) :=
  (h.resolveReference ref).bind fun _ => .lift (.refl _)

/-! ### Closures -/

theorem follows_requiredBy (node : Semantics) (row : TypeRow) :
    Follows F r r' (r.requiredBy node row) (r'.requiredBy node row) :=
  (Query.Follows.mapM h.resolveReference _).bind fun _ => .pure _

section Walk

variable {visit visit' : σ → Semantics → TypeRow → Except Error σ}
  (hvisit : ∀ state node row, Carries F (visit state node row) (visit' state node row))
include hvisit

theorem follows_walk (tour : Tour σ) (nodes : List Semantics) :
    Follows F r r' (r.walk visit tour nodes) (r'.walk visit' tour nodes) :=
  Query.follows_traverse h.view _ (fun state node row =>
    Query.Follows.bind (.lift (hvisit state node row)) fun _ =>
      Query.Follows.bind (.lift (h.view.carries_categoryOf row)) fun _ =>
        .ite _ ((h.follows_requiredBy node row).bind_pure _) (.pure _)) _ tour nodes rfl

theorem follows_enumerate (state : σ) (d : TypeDef) :
    Follows F r r' (r.enumerate visit state d) (r'.enumerate visit' state d) :=
  (h.follows_walk hvisit _ _).bind_pure _

theorem follows_walkDeclared (refs : List TypeDefOrRef) : ∀ tour : Tour σ,
    Follows F r r' (r.walkDeclared visit tour refs) (r'.walkDeclared visit' tour refs) := by
  induction refs with
  | nil => intro tour; exact .pure tour
  | cons ref refs ih =>
    intro tour
    refine (h.resolveReference ref).bind fun node => ?_
    exact (h.follows_walk hvisit tour [node]).bind ih

theorem follows_enumerateRequired (state : σ) (d : TypeDef) (row : TypeRow) :
    Follows F r r' (r.enumerateRequired visit state d row)
      (r'.enumerateRequired visit' state d row) := by
  refine Query.Follows.bind (.lift (h.view.carries_categoryOf row)) fun k => .ite _ ?_ ?_
  · exact (h.follows_walk hvisit _ _).bind_pure _
  · exact (h.follows_walkDeclared hvisit _ _).bind_pure _

end Walk

theorem carries_recordInterface (params : List String) (infos : List InterfaceInfo)
    (node : Semantics) (row : TypeRow) : Carries F (r.recordInterface params infos node row)
      (r'.recordInterface params infos node row) := by
  refine Carries.bind ?_ fun arguments => .refl _
  cases node with
  | definition d => exact .refl _
  | inst d args => exact .mapM (Semantics.carries_render h.view params) _
  | fundamental _ | object | guid | index _ => exact .refl _

theorem follows_requiredInterfaces (d : TypeDef) :
    Follows F r r' (r.requiredInterfaces d) (r'.requiredInterfaces d) :=
  Query.Follows.bind (.lift (h.view.row d)) fun row =>
    h.follows_enumerateRequired (h.carries_recordInterface (TypeRow.genericParams row)) _ d row

theorem follows_overloads (d : TypeDef) : Follows F r r' (r.overloads d) (r'.overloads d) :=
  h.follows_enumerate (fun ms node row => h.view.carries_addMethods node.args row.methods ms) _ d

theorem follows_implements (d : TypeDef) (space name : String) :
    Follows F r r' (r.implements d space name) (r'.implements d space name) := by
  refine Query.Follows.bind (Query.follows_traverse h.view _ (fun found _ row => ?_) _ _ _ rfl)
    fun _ => .pure _
  have hnamed :
      Carries F (r.isInterfaceNamed space name row) (r'.isInterfaceNamed space name row) :=
    .ite _ ((h.view.carries_categoryOf row).bind fun _ => .refl _) (.refl _)
  refine Query.Follows.bind (.lift hnamed) fun isNamed => .ite _ (.pure _) ?_
  exact (Query.Follows.mapM h.follows_definitionOf _).bind fun _ => .pure _

/-! ### Names of slots -/

theorem follows_sameSlot (a b : Slot) : Follows F r r' (r.sameSlot a b) (r'.sameSlot a b) := by
  refine .ite _ (.pure _) ?_
  exact (h.resolve a.type).bind fun x => (h.resolve b.type).bind fun y => .pure _

theorem follows_sameSlots (as : List Slot) :
    ∀ bs : List Slot, Follows F r r' (r.sameSlots as bs) (r'.sameSlots as bs) := by
  induction as with
  | nil => intro bs; exact .pure true
  | cons a as ih =>
    intro bs
    cases bs with
    | nil => exact .pure true
    | cons b bs => exact (h.follows_sameSlot a b).bind fun same => .ite _ (ih bs) (.pure _)

theorem follows_matchByTypes (slots : List Slot) (ms : List MethodRow) :
    Follows F r r' (r.matchByTypes slots ms) (r'.matchByTypes slots ms) := by
  induction ms with
  | nil => exact .pure none
  | cons m ms ih => exact (h.follows_sameSlots slots _).bind fun same => .ite _ (.pure _) ih

theorem follows_matchFactory (slots : List Slot) (factory : TypeRow) :
    Follows F r r' (r.matchFactory slots factory) (r'.matchFactory slots factory) := by
  refine Query.Follows.bind (.lift (h.view.carries_methodRows _)) fun methods => ?_
  rw [h.matching]
  cases r.config.matching with
  | parameterCount => exact .pure _
  | parameterTypes => exact h.follows_matchByTypes slots _

theorem follows_searchFactories (slots : List Slot) (hs : List CustomAttribute) :
    Follows F r r' (r.searchFactories slots hs) (r'.searchFactories slots hs) := by
  induction hs with
  | nil => exact .pure none
  | cons x hs ih =>
    refine Query.Follows.bind (.lift (h.view.row x)) fun a => ?_
    cases AttributeRow.factory? a with
    | none => exact ih
    | some name =>
      refine Query.Follows.bind (.lift (h.view.carries_findFullName name)) fun d => ?_
      refine Query.Follows.bind (.lift (h.view.row d)) fun factory => ?_
      refine (h.follows_matchFactory slots factory).bind fun found => ?_
      cases found with
      | some m => exact .pure _
      | none => exact ih

theorem follows_factoryMethod (m : MethodRow) :
    Follows F r r' (r.factoryMethod m) (r'.factoryMethod m) := by
  unfold factoryMethod
  cases m.parent with
  | none => exact .throw _
  | some parent =>
    refine Query.Follows.bind (.lift (h.view.row parent)) fun owner => ?_
    refine (h.follows_searchFactories _ (TypeRow.attributes owner)).bind fun found => ?_
    cases found with
    | some m => exact .pure m
    | none => exact .throw _

/-- A search that does not run in a circle ends no later if it may take more steps. -/
theorem follows_abiNameWithin (steps : Nat) : ∀ (steps' : Nat) (m : MethodRow), steps ≤ steps' →
    (∀ k, F (.invalidMetadata (.circularActivation k)) → steps = steps') →
      Follows F r r' (r.abiNameWithin steps m) (r'.abiNameWithin steps' m) := by
  induction steps with
  | zero =>
    intro steps' m _ hcircular
    refine ⟨_, .throw _, fun hc => ?_⟩
    rw [← hcircular m.token (Except.counts_error_iff.mp hc)]
    exact .throw _
  | succ steps ih =>
    intro steps' m hle hcircular
    cases steps' with
    | zero => omega
    | succ steps' =>
      refine .ite _ (.lift (h.view.carries_memberName m)) (.ite _ (.pure _) ?_)
      refine (h.follows_factoryMethod m).bind fun m' => ih steps' m' (by omega) fun k hk => ?_
      exact Nat.succ_inj.mp (hcircular k hk)

theorem follows_abiName (m : MethodRow) : Follows F r r' (r.abiName m) (r'.abiName m) :=
  h.follows_abiNameWithin _ _ m (Nat.succ_le_succ h.view.methods)
    fun k hk => congrArg Nat.succ (h.view.circular k hk)

/-! ### Projections -/

theorem follows_fieldMeaning (f : FieldRow) (storage : Bool) :
    Follows F r r' (r.fieldMeaning f storage) (r'.fieldMeaning f storage) := by
  refine (h.resolve f.signature).bind fun meaning => ?_
  cases meaning with
  | definition d =>
    refine Query.Follows.bind (.lift (h.view.carries_category d)) fun category => ?_
    cases category with
    | enum => exact .ite _ (.lift (h.view.carries_enumStorage d)) (.pure _)
    | struct => exact .pure _
    | interface | runtimeClass | delegate =>
      exact Query.Follows.bind (.lift (h.view.row d)) fun row => .throw _
  | inst d args =>
    refine Query.Follows.bind (.lift (h.view.row d)) fun row => .ite _ ?_ (.pure _)
    match args with
    | [] => exact .throw _
    | [a] => exact .pure a
    | _ :: _ :: _ => exact .throw _
  | fundamental _ | object | guid | index _ => exact .pure _

theorem follows_shape (m : MethodRow) : Follows F r r' (r.shape m) (r'.shape m) := by
  refine (h.follows_abiName m).bind fun name => ?_
  refine Query.Follows.bind (.lift (h.view.carries_signatureOf m)) fun s => ?_
  exact Query.Follows.bind (.lift (.refl _)) fun inputs =>
    Query.Follows.bind (.lift (.refl _)) fun outputs => .pure _

theorem follows_shapes (category : Category) (hs : List MethodDef) :
    Follows F r r' (r.shapes category hs) (r'.shapes category hs) := by
  induction hs with
  | nil => exact .pure []
  | cons x hs ih =>
    refine Query.Follows.bind (.lift (h.view.row x)) fun m => .ite _ ih ?_
    exact (h.follows_shape m).bind fun s => ih.bind fun ss => .pure _

theorem follows_fieldShapes (fs : List FieldRow) :
    Follows F r r' (r.fieldShapes fs) (r'.fieldShapes fs) :=
  .mapM (fun f => (h.follows_fieldMeaning f true).bind_pure _) fs

theorem follows_project (d : TypeDef) : Follows F r r' (r.project d) (r'.project d) := by
  refine Query.Follows.bind (.lift (h.view.row d)) fun row => ?_
  refine Query.Follows.bind (.lift (h.view.carries_categoryOf row)) fun category => ?_
  refine Query.Follows.bind (.lift (h.view.carries_members d)) fun members => ?_
  refine (h.follows_requiredInterfaces d).bind fun interfaces => ?_
  refine (h.follows_overloads d).bind fun overloads => ?_
  refine (h.follows_shapes category (TypeRow.methods row)).bind fun shapes => .ite _ ?_ ?_
  · exact (h.follows_fieldShapes members.fields).bind_pure _
  · exact .pure _

end Extends
end Resolver
end MetadataProjection
