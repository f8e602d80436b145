import MetadataProjection.Proofs.FactorySearch
import MetadataProjection.Proofs.Reuse

/-!
# MetadataProjection.Proofs.FactoryOrder

The order in which factories and their methods are tried, and what either rule of matching makes of it.

* `Query.Narrows`: a question that is answered only where another one is, and otherwise comes to the
  same end as that one.
* `Resolver.factoryMethod_under`: so it is with matching by types beside matching by counts.
* `Store.Attributed`: the attributes of types have rows, also where the row numbers have run out.
* `View.factoryNames`, `View.Lacks`: the factories that the attributes of a class name, and those
  among them that have no method with the right number of parameters.
* `Resolver.findSomeM?_offerFrom`: by counts, nothing else about the attributes shows in the search.
* `Session.Lived.factoryMethod_firstNamed`: by counts, the first factory decides that does not lack
  such a method.
-/

namespace MetadataProjection

/-! ## One rule beside the other -/

namespace Query

variable {α β : Type} {P : α → Prop} {Q : β → Prop}

/-- Whatever each of them remembers, the second has an answer in `P`, or both come to the same end. -/
def Narrows (P : α → Prop) (q q' : Query α) : Prop :=
  ∀ c c', (∃ a, P a ∧ (q'.ask c').1 = .ok a) ∨ (q.ask c).1 = (q'.ask c').1

namespace Narrows

theorem lift (x : Except Error α) : Narrows P (liftM x) (liftM x) := by
  intro c c'
  rw [ask_lift, ask_lift]
  exact .inr rfl

theorem throw (e : Error) : Narrows P (MonadExcept.throw e : Query α) (MonadExcept.throw e) :=
  fun _ _ => .inr rfl

theorem of_pure {q : Query α} {a : α} (h : P a) : Narrows P q (Pure.pure a) :=
  fun _ _ => .inl ⟨a, h, rfl⟩

/-- The next questions are asked where both came to the same end; an answer in `P` is the second's
alone. -/
theorem bind {q q' : Query α} {f f' : α → Query β} (h : Narrows P q q')
    (hfound : ∀ a, P a → ∀ c', ∃ b, Q b ∧ ((f' a).ask c').1 = .ok b)
    (hsame : ∀ a, Narrows Q (f a) (f' a)) : Narrows Q (q >>= f) (q' >>= f') := by
  intro c c'
  have h := h c c'
  rw [ask_bind, ask_bind]
  rcases hq : q.ask c with ⟨x, c₁⟩
  rcases hq' : q'.ask c' with ⟨x', c₁'⟩
  rw [hq, hq'] at h
  rcases h with ⟨a, ha, rfl⟩ | rfl
  · exact .inl (hfound a ha c₁')
  · cases x with
    | error e => exact .inr rfl
    | ok a => exact hsame a c₁ c₁'

theorem lift_bind {x : Except Error α} {f f' : α → Query β} (h : ∀ a, Narrows Q (f a) (f' a)) :
    Narrows Q (liftM x >>= f) (liftM x >>= f') :=
  (lift (P := fun _ => False) x).bind (fun _ ha => ha.elim) h

end Narrows
end Query

namespace Resolver

def under (r : Resolver) (rule : FactoryMatching) : Resolver :=
  { r with config := { r.config with matching := rule } }

/-- A factory without candidates is left by either rule; in one that has some, counts find the first. -/
theorem narrows_searchFactories (r : Resolver) (slots : List Slot) (xs : List CustomAttribute) :
    Query.Narrows (fun found => found.isSome = true)
      ((r.under .parameterTypes).searchFactories slots xs)
      ((r.under .parameterCount).searchFactories slots xs) := by
  induction xs with
  | nil => exact fun _ _ => .inr rfl
  | cons x xs ih =>
    refine .lift_bind fun a => ?_
    cases AttributeRow.factory? a with
    | none => exact ih
    | some name =>
      refine .lift_bind fun d => .lift_bind fun factory => ?_
      unfold matchFactory
      rw [bind_assoc, bind_assoc]
      refine .lift_bind fun methods => ?_
      dsimp only [under]
      cases methods.filter (·.signature.params.length == slots.length) with
      | nil => exact ih
      | cons m ms => exact .of_pure rfl

theorem narrows_factoryMethod (r : Resolver) (c : MethodRow) :
    Query.Narrows (fun _ => True) ((r.under .parameterTypes).factoryMethod c)
      ((r.under .parameterCount).factoryMethod c) := by
  unfold factoryMethod
  cases c.parent with
  | none => exact .throw _
  | some parent =>
    refine .lift_bind fun owner => (r.narrows_searchFactories _ owner.attributes).bind ?_ ?_
    · intro found hfound c'
      obtain ⟨m, rfl⟩ := Option.isSome_iff_exists.mp hfound
      exact ⟨m, trivial, rfl⟩
    · intro found
      cases found with
      | some m => exact .of_pure trivial
      | none => exact .throw _

/-- Matching by types narrows matching by counts: it finds a method only where the other rule finds
one, and where the other one fails it fails in the same way. Both find methods with as many parameters
as the constructor has. This does not depend on what either resolver remembers. -/
theorem factoryMethod_under (r : Resolver) (c : MethodRow) (memory memory' : Cache) :
    let byTypes := (((r.under .parameterTypes).factoryMethod c).ask memory).1
    let byCount := (((r.under .parameterCount).factoryMethod c).ask memory').1
    (∀ m, byTypes = .ok m → m.signature.params.length = c.signature.params.length ∧
      ∃ m', byCount = .ok m' ∧ m'.signature.params.length = c.signature.params.length) ∧
    ∀ e, byCount = .error e → byTypes = .error e := by
  intro byTypes byCount
  have hlength : ∀ m', byCount = .ok m' →
      m'.signature.params.length = c.signature.params.length := fun m' hm' =>
    (returns_factoryMethod c memory' m' hm').2
  have hnarrows : (∃ m', True ∧ byCount = .ok m') ∨ byTypes = byCount :=
    r.narrows_factoryMethod c memory memory'
  refine ⟨fun m hm => ⟨(returns_factoryMethod c memory m hm).2, ?_⟩, fun e he => ?_⟩
  · rcases hnarrows with ⟨m', -, hm'⟩ | e
    · exact ⟨m', hm', hlength m' hm'⟩
    · rw [e] at hm
      exact ⟨m, hm, hlength m hm⟩
  · rcases hnarrows with ⟨m', -, hm'⟩ | e'
    · rw [he] at hm'
      cases hm'
    · rw [e', he]

theorem factoryMethod_under_namedColors :
    let r := Session.namedColors.resolver .strict
    let c := Session.namedColors.methodAt 3
    let r' := Session.usedFactories.resolver {}
    let c' := Session.usedFactories.methodAt 3
    (((r.under .parameterTypes).factoryMethod c).ask ∅).1 = .ok (Session.namedColors.methodAt 2) ∧
      (∃ m, (((r.under .parameterCount).factoryMethod c).ask ∅).1 = .ok m ∧
        m.signature.params.length = 1) ∧
      (((r.under .parameterCount).factoryMethod c).ask ∅).1 =
        .ok (Session.namedColors.methodAt 1) ∧
      (((r'.under .parameterCount).factoryMethod c').ask ∅).1 = .error (.factoryMethodNotFound "L") ∧
      (((r'.under .parameterTypes).factoryMethod c').ask ∅).1 =
        .error (.factoryMethodNotFound "L") := by
  intro r c r' c'
  have hfound : (((r.under .parameterTypes).factoryMethod c).ask ∅).1 =
      .ok (Session.namedColors.methodAt 2) := by decide +kernel
  have hnone : (((r'.under .parameterCount).factoryMethod c').ask ∅).1 =
      .error (.factoryMethodNotFound "L") := by decide +kernel
  exact ⟨hfound, ((r.factoryMethod_under c ∅ ∅).1 _ hfound).2, by decide +kernel, hnone,
    (r'.factoryMethod_under c' ∅ ∅).2 _ hnone⟩

end Resolver

/-! ## Attributes have rows -/

namespace Store

variable {s s' : Store}

def Present (xs : List CustomAttribute) (s : Store) : Prop := ∀ x ∈ xs, (s.row? x).isSome

def Attributed (s : Store) : Prop :=
  ∀ (d : TypeDef) (row : TypeRow), s.row? d = some row → s.Present row.attributes

theorem Present.moves {xs : List CustomAttribute} {ts : List Table} (h : s.Present xs)
    (hm : s.Moves ts s') : s'.Present xs :=
  fun x hx => hm.persists (h x hx)

theorem attributed_empty : Attributed .empty := by
  intro d row hrow
  rw [row?_empty] at hrow
  cases hrow

theorem Attributed.moves {ts : List Table} (h : s.Attributed) (hm : s.Moves ts s')
    (ht : .typeDef ∉ ts) : s'.Attributed := by
  intro d row hrow
  rw [hm.row?_eq ht] at hrow
  exact (h d row hrow).moves hm

theorem Attributed.reserve (h : s.Attributed) (t : Table) : (s.reserve t).2.Attributed := by
  intro d row hrow
  rw [row?_reserve] at hrow
  exact (h d row hrow).moves (s.moves_reserve t)

end Store

theorem AttributeDecl.present_of_write {parent : Token} {ds : List AttributeDecl}
    {xs : List CustomAttribute} {s s' : Store}
    (h : (ds.mapM (AttributeDecl.write parent)).perform s = (.ok xs, s')) : s'.Present xs := by
  induction ds generalizing s xs with
  | nil =>
    cases h
    exact fun x hx => absurd hx List.not_mem_nil
  | cons d ds ih =>
    rw [List.mapM_cons] at h
    obtain ⟨x, s₁, hx, hrest⟩ := Edit.perform_bind_eq_ok_iff.mp h
    obtain ⟨xs', s₂, hxs, hpure⟩ := Edit.perform_bind_eq_ok_iff.mp hrest
    cases hpure
    have hmoves := Edit.Moves.mapM (fun d => AttributeDecl.moves_write d parent) ds s₁
    rw [hxs] at hmoves
    refine List.forall_mem_cons.mpr ⟨hmoves.persists ?_, ih hxs⟩
    cases hx
    rw [Store.row?_put_self]
    rfl

theorem TypeDecl.ends_gather_attributes (d : TypeDecl) (h : TypeDef) :
    Edit.Ends Store.Attributed (d.gather h) (fun row s => s.Attributed ∧ s.Present row.attributes)
      Store.Attributed := by
  have keeps {ts : List Table} (ht : .typeDef ∉ ts) (xs : List CustomAttribute) (s s' : Store)
      (hs : s.Attributed ∧ s.Present xs) (hm : s.Moves ts s') : s'.Attributed ∧ s'.Present xs :=
    ⟨hs.1.moves hm ht, hs.2.moves hm⟩
  refine ends_gather h (Q := fun xs s => s.Attributed ∧ s.Present xs) (fun _ _ => And.left)
    (.of_along d.moves_writeBase (fun _ _ hs hm => hs.moves hm (by decide)) fun _ => id)
    (fun k s hs => ?_)
    (fun k xs => .of_along (Edit.Moves.mapM (MethodDecl.moves_write k) _) (keeps (by decide) xs)
      fun _ => And.left)
    (keeps (by decide))
  have hmoves := Edit.Moves.mapM (fun a => AttributeDecl.moves_write a k) d.attributes s
  rcases hes : (d.attributes.mapM (AttributeDecl.write k)).perform s with ⟨x, s'⟩
  rw [hes] at hmoves
  have hs' := hs.moves hmoves (by decide)
  cases x with
  | error x => exact hs'
  | ok xs => exact ⟨hs', AttributeDecl.present_of_write hes⟩

theorem Store.Attributed.define {s : Store} (h : s.Attributed) (d : TypeDecl) :
    (s.define d).2.Attributed := by
  refine define_of_ends (h.reserve .typeDef) (d.ends_gather_attributes _) (fun _ _ h => h.1)
    fun row s₁ ⟨h₁, hpresent⟩ x row' hrow a ha => ?_
  rw [row?_published_of_ne s₁ _ row (by decide)]
  rw [row?_published] at hrow
  split at hrow
  · cases hrow
    exact hpresent a ha
  · exact h₁ x row' hrow a ha

/-! ## The first factory that does not lack a method -/

/-- The factory that the attribute names once it is written. -/
def AttributeDecl.factory? (d : AttributeDecl) : Option String := (d.row .null ⟨0⟩).factory?

namespace View

variable {v : View} {n : Nat} {fullName : String}

def factoryNames (v : View) (xs : List CustomAttribute) : Except Error (List String) := do
  let rows ← xs.mapM (v.row (t := .customAttribute))
  return rows.filterMap AttributeRow.factory?

def methodsNamed (v : View) (fullName : String) : Except Error (List MethodRow) := do
  let d ← v.findFullName fullName
  let factory : TypeRow ← v.row d
  v.methodRows factory.methods

/-- No type has this full name, cut at its last dot. -/
def Unnamed (v : View) (fullName : String) : Prop :=
  v.findType? (splitFullName fullName).1 (splitFullName fullName).2 = none

/-- The type of this full name has no method with `n` parameters. -/
def Lacks (v : View) (n : Nat) (fullName : String) : Prop :=
  ∃ methods, v.methodsNamed fullName = .ok methods ∧
    ∀ m ∈ methods, m.signature.params.length ≠ n

/-- Of the factories `names`, those before this one lack a method with `n` parameters. -/
def Reaches (v : View) (n : Nat) (names : List String) (fullName : String) : Prop :=
  ∃ before after, names = before ++ fullName :: after ∧ ∀ x ∈ before, v.Lacks n x

def firstNamed (v : View) (n : Nat) (fullName : String) : Except Error (Option MethodRow) := do
  let methods ← v.methodsNamed fullName
  return methods.find? (·.signature.params.length == n)

theorem firstNamed_eq_ok_iff {o : Option MethodRow} : v.firstNamed n fullName = .ok o ↔
    ∃ methods, v.methodsNamed fullName = .ok methods ∧
      methods.find? (·.signature.params.length == n) = o := by
  simp only [firstNamed, Except.bind_eq_ok_iff, Except.pure_eq_ok_iff]

theorem firstNamed_eq_none_iff : v.firstNamed n fullName = .ok none ↔ v.Lacks n fullName := by
  simp only [firstNamed_eq_ok_iff, List.find?_eq_none, Lacks, beq_iff_eq]

theorem findFullName_of_unnamed (h : v.Unnamed fullName) : v.findFullName fullName =
    .error (.unresolvedTypeReference
      (qualifiedName (splitFullName fullName).1 (splitFullName fullName).2)) := by
  unfold Unnamed at h
  simp only [findFullName, findRequired, h]

theorem exists_reaches_iff {names : List String} {P : String → Prop} :
    (∃ name, v.Reaches n names name ∧ P name) ↔ ∃ before name after,
      names = before ++ name :: after ∧ (∀ x ∈ before, v.firstNamed n x = .ok none) ∧ P name := by
  simp only [firstNamed_eq_none_iff]
  constructor
  · rintro ⟨name, ⟨before, after, e, hbefore⟩, hname⟩
    exact ⟨before, name, after, e, hbefore, hname⟩
  · rintro ⟨before, name, after, e, hbefore, hname⟩
    exact ⟨name, ⟨before, after, e, hbefore⟩, hname⟩

theorem findSomeM?_firstNamed_eq_some_iff {names : List String} {m : MethodRow} :
    names.findSomeM? (v.firstNamed n) = .ok (some m) ↔ ∃ name, v.Reaches n names name ∧
      ∃ methods, v.methodsNamed name = .ok methods ∧
        methods.find? (·.signature.params.length == n) = some m := by
  rw [exists_reaches_iff, Except.findSomeM?_eq_some_iff]
  simp only [firstNamed_eq_ok_iff (o := some m)]

theorem findSomeM?_firstNamed_eq_none_iff {names : List String} :
    names.findSomeM? (v.firstNamed n) = .ok none ↔ ∀ name ∈ names, v.Lacks n name := by
  simp only [Except.findSomeM?_eq_none_iff, firstNamed_eq_none_iff]

theorem firstNamed_eq_error_iff
    (h : v.Unnamed fullName ∨ ∃ methods, v.methodsNamed fullName = .ok methods) {e : Error} :
    v.firstNamed n fullName = .error e ↔ v.Unnamed fullName ∧ e = .unresolvedTypeReference
      (qualifiedName (splitFullName fullName).1 (splitFullName fullName).2) := by
  rcases h with hunnamed | ⟨methods, hmethods⟩
  · simp only [firstNamed, methodsNamed, findFullName_of_unnamed hunnamed, hunnamed, true_and]
    exact ⟨fun h => by cases h; rfl, fun h => by rw [h]; rfl⟩
  · rw [firstNamed, hmethods]
    refine iff_of_false Except.pure_ne_error ?_
    rintro ⟨hunnamed, -⟩
    rw [methodsNamed, findFullName_of_unnamed hunnamed] at hmethods
    cases hmethods

theorem findSomeM?_firstNamed_eq_error_iff
    (h : ∀ name, v.Unnamed name ∨ ∃ methods, v.methodsNamed name = .ok methods)
    {names : List String} {e : Error} : names.findSomeM? (v.firstNamed n) = .error e ↔
      ∃ name, v.Reaches n names name ∧ v.Unnamed name ∧ e = .unresolvedTypeReference
        (qualifiedName (splitFullName name).1 (splitFullName name).2) := by
  rw [exists_reaches_iff, Except.findSomeM?_eq_error_iff]
  simp only [firstNamed_eq_error_iff (h _)]

theorem factoryNames_cons {x : CustomAttribute} {xs : List CustomAttribute} {names : List String}
    (h : v.factoryNames (x :: xs) = .ok names) : ∃ (a : AttributeRow) (rest : List String),
      v.row x = .ok a ∧ v.factoryNames xs = .ok rest ∧ names = a.factory?.toList ++ rest := by
  obtain ⟨rows, hrows, hnames⟩ := Except.bind_eq_ok_iff.mp h
  obtain ⟨a, ha, as, has, rfl⟩ := Except.mapM_cons_eq_ok_iff.mp hrows
  rw [Except.pure_eq_ok_iff] at hnames
  refine ⟨a, as.filterMap AttributeRow.factory?, ha, Except.bind_eq_ok_iff.mpr ⟨as, has, rfl⟩, ?_⟩
  rw [← hnames]
  cases hname : AttributeRow.factory? a with
  | none => rw [List.filterMap_cons_none hname]; rfl
  | some name => rw [List.filterMap_cons_some hname]; rfl

end View

theorem TypeDecl.Stands.factoryNames_eq {s : Store} {d : TypeDecl} {h : TypeDef} {row : TypeRow}
    (hd : d.Stands s h row) : s.view.factoryNames row.attributes =
      .ok (d.attributes.filterMap AttributeDecl.factory?) := by
  obtain ⟨rows, hrows, hsame⟩ := Except.exists_mapM_of_forall₂
    (f := s.view.row (t := .customAttribute)) (Q := fun a r => r.factory? = a.factory?)
    hd.attributes fun a _ x hx => ⟨_, View.row_eq_ok_iff.mpr ⟨List.not_mem_nil, hx⟩, rfl⟩
  have hmap := map_eq_of_forall₂ hsame fun _ _ e => e
  have hnames := congrArg (List.filterMap id) hmap
  rw [List.filterMap_map, List.filterMap_map] at hnames
  exact Except.bind_eq_ok_iff.mpr ⟨rows, hrows, Except.pure_eq_ok_iff.mpr hnames⟩

namespace Resolver

variable {r : Resolver}

/-- By counts, the search sees of the attributes only the factories that they name. -/
theorem findSomeM?_offerFrom (hmatching : r.config.matching = .parameterCount) (slots : List Slot)
    {xs : List CustomAttribute} {names : List String} (h : r.view.factoryNames xs = .ok names) :
    xs.findSomeM? (r.offerFrom slots) = names.findSomeM? (r.view.firstNamed slots.length) := by
  induction xs generalizing names with
  | nil =>
    cases h
    rfl
  | cons x xs ih =>
    obtain ⟨a, rest, ha, hrest, rfl⟩ := View.factoryNames_cons h
    rw [List.findSomeM?, offerFrom, ha, Except.ok_bind, ih hrest]
    cases AttributeRow.factory? a with
    | none => rfl
    | some name =>
      have hmatch (d : TypeDef) : (r.view.row d >>= r.matchFrom slots) =
          (do
            let factory : TypeRow ← r.view.row d
            let methods ← r.view.methodRows factory.methods
            return methods.find? (·.signature.params.length == slots.length)) := by
        refine congrArg _ (funext fun factory => ?_)
        unfold matchFrom candidates
        simp only [findM?_suitsFrom hmatching, List.head?_filter]
        rfl
      simp only [hmatch, Option.toList_some, List.singleton_append, List.findSomeM?,
        View.firstNamed, View.methodsNamed, bind_assoc]

section ByCount

variable {c m : MethodRow} {parent : TypeDef} {owner : TypeRow} {names : List String}

theorem factoryFrom_eq_ok_iff (hmatching : r.config.matching = .parameterCount)
    (hparent : c.parent = some parent) (howner : r.view.row parent = .ok owner)
    (hnames : r.view.factoryNames owner.attributes = .ok names) :
    r.factoryFrom c = .ok m ↔
      names.findSomeM? (r.view.firstNamed c.signature.params.length) = .ok (some m) := by
  simp only [factoryFrom, hparent, howner, Except.ok_bind, findSomeM?_offerFrom hmatching _ hnames]
  rcases names.findSomeM? (r.view.firstNamed c.signature.params.length) with e | _ | m'
  · exact iff_of_false nofun nofun
  · exact iff_of_false nofun nofun
  · exact Except.pure_eq_ok_iff.trans (by simp)

theorem factoryFrom_eq_error_iff (hmatching : r.config.matching = .parameterCount)
    (hparent : c.parent = some parent) (howner : r.view.row parent = .ok owner)
    (hnames : r.view.factoryNames owner.attributes = .ok names) {e : Error} :
    r.factoryFrom c = .error e ↔
      names.findSomeM? (r.view.firstNamed c.signature.params.length) = .error e ∨
      names.findSomeM? (r.view.firstNamed c.signature.params.length) = .ok none ∧
        e = .factoryMethodNotFound owner.fullName := by
  simp only [factoryFrom, hparent, howner, Except.ok_bind, findSomeM?_offerFrom hmatching _ hnames]
  rcases names.findSomeM? (r.view.firstNamed c.signature.params.length) with e' | _ | m
  · simp only [reduceCtorEq, false_and, or_false]
    exact ⟨fun h => by cases h; rfl, fun h => by cases h; rfl⟩
  · simp only [reduceCtorEq, true_and, false_or]
    exact ⟨fun h => by cases h; rfl, fun h => by rw [h]; rfl⟩
  · simp only [reduceCtorEq, Except.ok.injEq, false_and, or_false, iff_false]
    exact Except.pure_ne_error

/-- What comes after the factory that decides does not matter, nor which other attributes there are:
any constructor with as many parameters comes to the same, whose class names the same factories so
far. -/
theorem factoryFrom_eq_of_not_lacks (hmatching : r.config.matching = .parameterCount)
    (hparent : c.parent = some parent) (howner : r.view.row parent = .ok owner) {c' : MethodRow}
    {parent' : TypeDef} {owner' : TypeRow} (hparent' : c'.parent = some parent')
    (howner' : r.view.row parent' = .ok owner') {before after after' : List String} {name : String}
    (hnames : r.view.factoryNames owner.attributes = .ok (before ++ name :: after))
    (hnames' : r.view.factoryNames owner'.attributes = .ok (before ++ name :: after'))
    (hlength : c'.signature.params.length = c.signature.params.length)
    (hname : ¬ r.view.Lacks c.signature.params.length name) :
    r.factoryFrom c' = r.factoryFrom c := by
  have hsame : (before ++ name :: after').findSomeM?
      (r.view.firstNamed c'.signature.params.length) =
      (before ++ name :: after).findSomeM? (r.view.firstNamed c.signature.params.length) := by
    rw [hlength]
    exact Except.findSomeM?_append_cons (mt View.firstNamed_eq_none_iff.mp hname) before _ _
  cases hx : r.factoryFrom c with
  | ok m =>
    rw [factoryFrom_eq_ok_iff hmatching hparent howner hnames] at hx
    exact (factoryFrom_eq_ok_iff hmatching hparent' howner' hnames').mpr (hsame.trans hx)
  | error e =>
    refine (factoryFrom_eq_error_iff hmatching hparent' howner' hnames').mpr (.inl ?_)
    rcases (factoryFrom_eq_error_iff hmatching hparent howner hnames).mp hx with he | ⟨hnone, -⟩
    · exact hsame.trans he
    · refine absurd (View.findSomeM?_firstNamed_eq_none_iff.mp hnone name ?_) hname
      exact List.mem_append_right before List.mem_cons_self

end ByCount

end Resolver

namespace Session

variable {cfg : Config} {σ : Session} {c : MethodRow} {parent : TypeDef} {owner : TypeRow}

theorem attributed_step (cfg : Config) (h : σ.store.Attributed) (a : Action) :
    (σ.step cfg a).store.Attributed := by
  cases a with
  | define d => exact h.define d
  | _ => exact h.moves (moves_step cfg σ _ rfl) (by decide)

theorem attributed_run (cfg : Config) (history : List Action) :
    (run cfg history).store.Attributed :=
  List.foldlRecOn (motive := fun σ : Session => σ.store.Attributed) history (step cfg)
    Store.attributed_empty fun _ h a _ => attributed_step cfg h a

theorem Lived.attributed (h : σ.Lived cfg) : σ.store.Attributed := by
  induction h with
  | start building => exact attributed_run cfg building
  | serve q _ ih => exact ih
  | step a _ _ ih => exact attributed_step cfg ih a

theorem Lived.indexedTypes (h : σ.Lived cfg) :
    Indexed TypeRow.fullName (σ.store.typeNames[·]?) σ.store.row? := by
  induction h with
  | start building => exact indexedTypes_run cfg building
  | serve q _ ih => exact ih
  | @step σ a _ _ ih => exact (renewsTypes_step cfg σ a).indexed ih

theorem Lived.exists_factoryNames (h : σ.Lived cfg) (howner : σ.store.view.row parent = .ok owner) :
    ∃ names, σ.store.view.factoryNames owner.attributes = .ok names := by
  obtain ⟨rows, hrows⟩ := View.exists_mapM_row
    (h.attributed parent owner (View.row_eq_ok_iff.mp howner).2)
  exact ⟨_, Except.bind_eq_ok_iff.mpr ⟨rows, hrows, rfl⟩⟩

theorem Lived.methodsNamed_cases (h : σ.Lived cfg) (fullName : String) :
    σ.store.view.Unnamed fullName ∨
      ∃ methods, σ.store.view.methodsNamed fullName = .ok methods := by
  cases hd : σ.store.view.findType? (splitFullName fullName).1 (splitFullName fullName).2 with
  | none => exact .inl hd
  | some d =>
    obtain ⟨factory, hfactory⟩ := Option.isSome_iff_exists.mp (h.indexedTypes.written _ d hd)
    have hrow : σ.store.view.row d = .ok factory :=
      View.row_eq_ok_iff.mpr ⟨List.not_mem_nil, hfactory⟩
    obtain ⟨methods, hmethods⟩ := h.sound.coherent.exists_methodRows hrow
    have hfound : σ.store.view.findFullName fullName = .ok d := by
      simp only [View.findFullName, View.findRequired, hd]
    exact .inr ⟨methods, by rw [View.methodsNamed, hfound, Except.ok_bind, hrow]; exact hmethods⟩

/-- By counts, the first factory decides that does not lack a method with as many parameters as the
constructor. If it has one, its first one is found; if no type has its name, that is the failure; and
if there is no such factory, the failure is that the class has none. Only the factories that the
attributes of the class name matter, up to the one that decides. -/
theorem Lived.factoryMethod_firstNamed (h : σ.Lived cfg) (hmatching : cfg.matching = .parameterCount)
    (hparent : c.parent = some parent) (howner : σ.store.view.row parent = .ok owner) :
    let r := σ.resolver cfg
    let v := σ.store.view
    let n := c.signature.params.length
    let answer := ((r.factoryMethod c).ask σ.memory).1
    ∃ names, v.factoryNames owner.attributes = .ok names ∧
    (∀ d : TypeDecl, d.Stands σ.store parent owner →
      names = d.attributes.filterMap AttributeDecl.factory?) ∧
    (∀ m, answer = .ok m ↔ ∃ name, v.Reaches n names name ∧
      ∃ methods, v.methodsNamed name = .ok methods ∧
        methods.find? (·.signature.params.length == n) = some m) ∧
    (∀ text, answer = .error (.unresolvedTypeReference text) ↔ ∃ name, v.Reaches n names name ∧
      v.Unnamed name ∧
      text = qualifiedName (splitFullName name).1 (splitFullName name).2) ∧
    (answer = .error (.factoryMethodNotFound owner.fullName) ↔ ∀ name ∈ names, v.Lacks n name) ∧
    ((∃ m, answer = .ok m) ∨ (∃ text, answer = .error (.unresolvedTypeReference text)) ∨
      answer = .error (.factoryMethodNotFound owner.fullName)) ∧
    ∀ (c' : MethodRow) (parent' : TypeDef) (owner' : TypeRow) (before after after' : List String)
      (name : String), c'.parent = some parent' → v.row parent' = .ok owner' →
      c'.signature.params.length = n → names = before ++ name :: after →
      v.factoryNames owner'.attributes = .ok (before ++ name :: after') → ¬ v.Lacks n name →
      ((r.factoryMethod c').ask σ.memory).1 = answer := by
  intro r v n answer
  obtain ⟨names, hnames⟩ := h.exists_factoryNames howner
  have hanswer : answer = r.factoryFrom c := h.factoryFrom_eq c
  have hok (m : MethodRow) : answer = .ok m ↔
      names.findSomeM? (v.firstNamed n) = .ok (some m) :=
    hanswer ▸ Resolver.factoryFrom_eq_ok_iff hmatching hparent howner hnames
  have hfails (e : Error) : answer = .error e ↔ names.findSomeM? (v.firstNamed n) = .error e ∨
      names.findSomeM? (v.firstNamed n) = .ok none ∧ e = .factoryMethodNotFound owner.fullName :=
    hanswer ▸ Resolver.factoryFrom_eq_error_iff hmatching hparent howner hnames
  have hread : ∀ name, v.Unnamed name ∨ ∃ methods, v.methodsNamed name = .ok methods :=
    h.methodsNamed_cases
  refine ⟨names, hnames, fun d hd => ?_, fun m => ?_, fun text => ?_, ?_, ?_, ?_⟩
  · rw [hd.factoryNames_eq] at hnames
    exact (Except.ok.inj hnames).symm
  · rw [hok, View.findSomeM?_firstNamed_eq_some_iff]
  · simp only [hfails, View.findSomeM?_firstNamed_eq_error_iff hread, reduceCtorEq, and_false,
      or_false, Error.unresolvedTypeReference.injEq]
  · simp only [hfails, View.findSomeM?_firstNamed_eq_error_iff hread, reduceCtorEq, and_false,
      exists_false, false_or, and_true, View.findSomeM?_firstNamed_eq_none_iff]
  · simp only [hok, hfails]
    rcases hfound : names.findSomeM? (v.firstNamed n) with e | _ | m
    · obtain ⟨name, -, -, rfl⟩ := (View.findSomeM?_firstNamed_eq_error_iff hread).mp hfound
      exact .inr (.inl ⟨_, .inl rfl⟩)
    · exact .inr (.inr (.inr ⟨rfl, trivial⟩))
    · exact .inl ⟨m, rfl⟩
  · intro c' parent' owner' before after after' name hparent' howner' hlength e hnames' hname
    rw [h.factoryFrom_eq, hanswer]
    rw [e] at hnames
    exact Resolver.factoryFrom_eq_of_not_lacks hmatching hparent howner hparent' howner' hnames
      hnames' hlength hname

/-- A class with two factories and the name of one that does not exist, among other attributes. -/
def supplies : List Action :=
  let size (name : String) : MethodClause := .param name (.fundamental .int32)
  let activatable (arguments : List AttributeArgument) : TypeClause := .attribute
    ⟨Platform.metadataNamespace, Platform.activatableAttribute, { fixed := arguments }⟩
  [.define (.ofClauses "" "A" [.category .interface, .method "Make" [size "x", size "y"]]),
    .define (.ofClauses "" "B" [.category .interface, .method "From" [size "x"],
      .method "Of" [size "x"]]),
    .define (.ofClauses "" "C" [activatable [.uint32 1],
      .attribute ⟨"", Platform.activatableAttribute, { fixed := [.type "Z"] }⟩,
      activatable [.type "A"], activatable [.type "B"], activatable [.type "Z"],
      .constructor [size "x"], .constructor [size "x", size "y", size "z"]])]

def supplied : Session := { store := (run {} supplies).store }

/-- For one parameter it is the first method of the second factory; for three, no factory before the
one that does not exist has a method. -/
theorem Lived.factoryMethod_firstNamed_supplied :
    let r := supplied.resolver {}
    let v := supplied.store.view
    let names := ["A", "B", "Z"]
    ((r.factoryMethod (supplied.methodAt 4)).ask ∅).1 = .ok (supplied.methodAt 2) ∧
      (∃ name, v.Reaches 1 names name ∧ ∃ methods, v.methodsNamed name = .ok methods ∧
        methods.find? (·.signature.params.length == 1) = some (supplied.methodAt 2)) ∧
      ((r.factoryMethod (supplied.methodAt 5)).ask ∅).1 = .error (.unresolvedTypeReference "Z") ∧
      ∃ name, v.Reaches 3 names name ∧ v.Unnamed name := by
  intro r v names
  have hlived : supplied.Lived {} := .start supplies
  have hfound : ((r.factoryMethod (supplied.methodAt 4)).ask ∅).1 = .ok (supplied.methodAt 2) := by
    decide +kernel
  have hmissing : ((r.factoryMethod (supplied.methodAt 5)).ask ∅).1 =
      .error (.unresolvedTypeReference "Z") := by
    decide +kernel
  have hnamed : (v.row (⟨3⟩ : TypeDef) >>= fun owner : TypeRow =>
      v.factoryNames owner.attributes) = .ok names := by
    decide +kernel
  obtain ⟨owner, howner, hnames⟩ := Except.bind_eq_ok_iff.mp hnamed
  obtain ⟨names₁, hnames₁, -, hok, -⟩ := hlived.factoryMethod_firstNamed
    (c := supplied.methodAt 4) rfl (by decide +kernel) howner
  obtain ⟨names₃, hnames₃, -, -, herror, -⟩ := hlived.factoryMethod_firstNamed
    (c := supplied.methodAt 5) rfl (by decide +kernel) howner
  obtain rfl : names₁ = names := Except.ok.inj (hnames₁.symm.trans hnames)
  obtain rfl : names₃ = names := Except.ok.inj (hnames₃.symm.trans hnames)
  obtain ⟨name, hname, hunnamed, -⟩ := (herror "Z").mp hmissing
  have hone : (supplied.methodAt 4).signature.params.length = 1 := by decide +kernel
  have hthree : (supplied.methodAt 5).signature.params.length = 3 := by decide +kernel
  rw [hthree] at hname
  have hfirst := (hok (supplied.methodAt 2)).mp hfound
  rw [hone] at hfirst
  exact ⟨hfound, hfirst, hmissing, name, hname, hunnamed⟩

end Session
end MetadataProjection
