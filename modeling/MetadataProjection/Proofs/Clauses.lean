import Mathlib.Data.List.Perm.Basic
import MetadataProjection.Store.Declaration

/-!
# MetadataProjection.Proofs.Clauses

What a list of clauses declares.

* `SimpleProperty`, `SimpleEvent`: members that are declared together with their accessors.
* `TypeClause.constructor?`, `method?`, `simpleProperty?`, `simpleEvent?`, `field?`: the member that
  a clause declares. `TypeDecl.methods_ofClauses` and its siblings read the members of a declaration
  off its clauses.
* `TypeClause.categories`: the categories that clauses name. The last of them is declared
  (`TypeDecl.category_ofClauses`), but a type that was once called an interface stays flagged as one
  (`TypeDecl.isInterface_ofClauses`).
* `TypeClause.isPlain`: clauses by which each method keeps its role.
* `TypeClause.Distinct`: no other method has the name of an accessor. `filter_isConstructor` and
  `filter_isOwn` then tell the methods of a declaration by role.
-/

namespace MetadataProjection

/-! ## Methods -/

/-- The clause sets all flags anew. -/
def MethodClause.isFlags : MethodClause → Bool
  | .flags _ => true
  | _ => false

namespace MethodDecl

def isConstructor (d : MethodDecl) : Bool :=
  Modifier.rtSpecialName.isIn d.flags && d.name == constructorName

theorem name_apply (d : MethodDecl) (c : MethodClause) : (d.apply c).name = d.name := by
  cases c <;> rfl

/-- The clauses that add a flag do not add this one. -/
theorem isRtSpecialName_apply (d : MethodDecl) {c : MethodClause} (hc : c.isFlags = false) :
    Modifier.rtSpecialName.isIn (d.apply c).flags = Modifier.rtSpecialName.isIn d.flags := by
  have hadd : ∀ m : Modifier, m = .static ∨ m = .specialName →
      Modifier.rtSpecialName.isIn (d.flags ||| m.flag) = Modifier.rtSpecialName.isIn d.flags := by
    rintro m (rfl | rfl) <;> exact (hasFlag_or _ _ _).trans (Bool.or_false _)
  cases c with
  | flags f => cases hc
  | static => exact hadd .static (.inl rfl)
  | specialName => exact hadd .specialName (.inr rfl)
  | _ => rfl

theorem isConstructor_foldl (clauses : List MethodClause) :
    ∀ d : MethodDecl, (∀ c ∈ clauses, c.isFlags = false) →
      (clauses.foldl apply d).isConstructor = d.isConstructor := by
  induction clauses with
  | nil => intro d h; rfl
  | cons c clauses ih =>
    intro d h
    rw [List.foldl_cons, ih _ fun c' hc' => h c' (List.mem_cons_of_mem c hc'), isConstructor,
      isRtSpecialName_apply d (h c List.mem_cons_self), name_apply]
    rfl

theorem isConstructor_ofClauses {name : String} {clauses : List MethodClause}
    (h : ∀ c ∈ clauses, c.isFlags = false) : (ofClauses name clauses).isConstructor = false := by
  have hflag : Modifier.rtSpecialName.isIn defaultFlags = false := by decide
  rw [ofClauses, isConstructor_foldl clauses _ h, isConstructor, hflag, Bool.false_and]

theorem isConstructor_constructorOfClauses {clauses : List MethodClause}
    (h : ∀ c ∈ clauses, c.isFlags = false) :
    (constructorOfClauses clauses).isConstructor = true := by
  rw [constructorOfClauses, isConstructor_foldl clauses _ h]
  decide

end MethodDecl

/-! ## Members with their accessors -/

/-- A property that is declared together with its getter and, if it is writable, its setter. -/
structure SimpleProperty where
  name : String
  type : Signature
  writable : Bool

namespace SimpleProperty

variable (p : SimpleProperty)

def getter : MethodDecl := .ofClauses ("get_" ++ p.name) [.specialName, .returns p.type]

def setter : MethodDecl := .ofClauses ("put_" ++ p.name) [.specialName, .param "value" p.type]

def setter? : Option MethodDecl := if p.writable then some p.setter else none

def methods : List MethodDecl := p.getter :: p.setter?.toList

def decl : AccessorDecl where
  name := p.name
  links := ⟨LinkFlag.getter, p.getter.name⟩ ::
    (p.setter?.map fun m => ⟨LinkFlag.setter, m.name⟩).toList

variable {p}

theorem eq_setter {m : MethodDecl} (h : p.setter? = some m) : m = p.setter := by
  unfold setter? at h
  split at h
  · exact (Option.some.inj h).symm
  · cases h

theorem isConstructor_of_mem {m : MethodDecl}
    (h : m ∈ p.methods) : m.isConstructor = false := by
  rcases List.mem_cons.mp h with rfl | hm
  · exact MethodDecl.isConstructor_ofClauses (by simp [MethodClause.isFlags])
  · rw [eq_setter (Option.mem_toList.mp hm)]
    exact MethodDecl.isConstructor_ofClauses (by simp [MethodClause.isFlags])

end SimpleProperty

/-- An event that is declared together with its adder and its remover. -/
structure SimpleEvent where
  name : String
  handler : TypeDefOrRef

namespace SimpleEvent

variable (e : SimpleEvent)

def adder : MethodDecl :=
  .ofClauses ("add_" ++ e.name) [.specialName, .param "handler" (.classType e.handler.token),
    .returns (.fundamental .int64)]

def remover : MethodDecl :=
  .ofClauses ("remove_" ++ e.name) [.specialName, .param "token" (.fundamental .int64)]

def methods : List MethodDecl := [e.adder, e.remover]

def decl : AccessorDecl where
  name := e.name
  handlerType := some e.handler
  links := [⟨LinkFlag.adder, e.adder.name⟩, ⟨LinkFlag.remover, e.remover.name⟩]

theorem isConstructor_of_mem {e : SimpleEvent} {m : MethodDecl} (h : m ∈ e.methods) :
    m.isConstructor = false := by
  rcases List.mem_pair.mp h with rfl | rfl
  · exact MethodDecl.isConstructor_ofClauses (by simp [MethodClause.isFlags])
  · exact MethodDecl.isConstructor_ofClauses (by simp [MethodClause.isFlags])

end SimpleEvent

/-! ## Types -/

namespace TypeClause

def constructor? : TypeClause → Option MethodDecl
  | .constructor clauses => some (.constructorOfClauses clauses)
  | _ => none

def method? : TypeClause → Option MethodDecl
  | .method name clauses => some (.ofClauses name clauses)
  | _ => none

def simpleProperty? : TypeClause → Option SimpleProperty
  | .simpleProperty name type writable => some ⟨name, type, writable⟩
  | _ => none

def simpleEvent? : TypeClause → Option SimpleEvent
  | .simpleEvent name handler => some ⟨name, handler⟩
  | _ => none

def field? : TypeClause → Option FieldDecl
  | .field name type => some ⟨name, FieldFlag.publicAccess, type⟩
  | .fieldWith name flags type => some ⟨name, flags, type⟩
  | _ => none

/-- The methods a clause declares, accessors included. -/
def methods : TypeClause → List MethodDecl
  | .method name clauses => [.ofClauses name clauses]
  | .constructor clauses => [.constructorOfClauses clauses]
  | .simpleProperty name type writable => SimpleProperty.methods ⟨name, type, writable⟩
  | .simpleEvent name handler => SimpleEvent.methods ⟨name, handler⟩
  | _ => []

def properties : TypeClause → List AccessorDecl
  | .property name clauses => [.ofClauses name clauses]
  | .simpleProperty name type writable => [SimpleProperty.decl ⟨name, type, writable⟩]
  | _ => []

def events : TypeClause → List AccessorDecl
  | .event name clauses => [.ofClauses name clauses]
  | .simpleEvent name handler => [SimpleEvent.decl ⟨name, handler⟩]
  | _ => []

/-- Properties and events are declared together with their accessors, and no method is made a
constructor, or unmade one, by its flags. -/
def isPlain : TypeClause → Bool
  | .property _ _ | .event _ _ => false
  | .method _ clauses | .constructor clauses => clauses.all (!·.isFlags)
  | _ => true

end TypeClause

namespace TypeDecl

/-- What each clause adds at the end is added by all of them in order. -/
theorem foldl_apply {α : Type} {get : TypeDecl → List α} {new : TypeClause → List α}
    (h : ∀ d c, get (apply d c) = get d ++ new c) (clauses : List TypeClause) :
    ∀ d : TypeDecl, get (clauses.foldl apply d) = get d ++ clauses.flatMap new := by
  induction clauses with
  | nil => intro d; exact (List.append_nil _).symm
  | cons c clauses ih =>
    intro d
    rw [List.foldl_cons, ih, h, List.flatMap_cons, List.append_assoc]

theorem methods_apply (d : TypeDecl) (c : TypeClause) :
    (apply d c).methods = d.methods ++ c.methods := by
  cases c with
  | simpleProperty name type writable =>
    cases writable with
    | true => exact List.append_assoc _ _ _
    | false => rfl
  | simpleEvent name handler => exact List.append_assoc _ _ _
  | method name clauses => rfl
  | constructor clauses => rfl
  | _ => exact (List.append_nil _).symm

theorem properties_apply (d : TypeDecl) (c : TypeClause) :
    (apply d c).properties = d.properties ++ c.properties := by
  cases c with
  | simpleProperty name type writable => cases writable <;> rfl
  | property name clauses => rfl
  | _ => exact (List.append_nil _).symm

theorem events_apply (d : TypeDecl) (c : TypeClause) :
    (apply d c).events = d.events ++ c.events := by
  cases c with
  | simpleProperty name type writable => cases writable <;> exact (List.append_nil _).symm
  | simpleEvent name handler => rfl
  | event name clauses => rfl
  | _ => exact (List.append_nil _).symm

theorem fields_apply (d : TypeDecl) (c : TypeClause) :
    (apply d c).fields = d.fields ++ c.field?.toList := by
  cases c with
  | simpleProperty name type writable => cases writable <;> exact (List.append_nil _).symm
  | field name type => rfl
  | fieldWith name flags type => rfl
  | _ => exact (List.append_nil _).symm

variable (space name : String) (clauses : List TypeClause)

theorem methods_ofClauses :
    (ofClauses space name clauses).methods = clauses.flatMap (·.methods) :=
  foldl_apply methods_apply clauses _

theorem fields_ofClauses :
    (ofClauses space name clauses).fields = clauses.filterMap (·.field?) := by
  rw [List.filterMap_eq_flatMap_toList]
  exact foldl_apply fields_apply clauses _

variable {clauses}

theorem properties_ofClauses (h : ∀ c ∈ clauses, c.isPlain = true) :
    (ofClauses space name clauses).properties =
      (clauses.filterMap (·.simpleProperty?)).map (·.decl) := by
  have hnew : ∀ c ∈ clauses, c.properties = (c.simpleProperty?.map (·.decl)).toList := by
    intro c hc
    cases c with
    | property name clauses => cases h _ hc
    | _ => rfl
  rw [List.map_filterMap, List.filterMap_eq_flatMap_toList, ← List.flatMap_congr hnew]
  exact foldl_apply properties_apply clauses _

theorem events_ofClauses (h : ∀ c ∈ clauses, c.isPlain = true) :
    (ofClauses space name clauses).events =
      (clauses.filterMap (·.simpleEvent?)).map (·.decl) := by
  have hnew : ∀ c ∈ clauses, c.events = (c.simpleEvent?.map (·.decl)).toList := by
    intro c hc
    cases c with
    | event name clauses => cases h _ hc
    | _ => rfl
  rw [List.map_filterMap, List.filterMap_eq_flatMap_toList, ← List.flatMap_congr hnew]
  exact foldl_apply events_apply clauses _

end TypeDecl

/-! ## Category and base -/

namespace TypeClause

def category? : TypeClause → Option Category
  | .category c => some c
  | _ => none

def base? : TypeClause → Option TypeDefOrRef
  | .base type => some type
  | _ => none

/-- The categories that clauses name, in order. -/
def categories (clauses : List TypeClause) : List Category := clauses.filterMap (·.category?)

/-- The category that is named last, or else that of a class. -/
def declared (clauses : List TypeClause) : Category := (categories clauses).getLastD .runtimeClass

theorem declared_mem {clauses : List TypeClause} (h : declared clauses ≠ .runtimeClass) :
    declared clauses ∈ categories clauses := by
  unfold declared at h ⊢
  cases hc : categories clauses with
  | nil => rw [hc] at h; exact absurd rfl h
  | cons c cs => rw [List.getLastD_cons]; exact List.getLastD_mem_cons

end TypeClause

namespace TypeDecl

variable (d : TypeDecl) (c : TypeClause) (clauses : List TypeClause)

theorem category_apply : (d.apply c).category = c.category?.getD d.category := by
  cases c with
  | simpleProperty name type writable => cases writable <;> rfl
  | _ => rfl

theorem base_apply : (d.apply c).base = c.base?.or d.base := by
  cases c with
  | simpleProperty name type writable => cases writable <;> rfl
  | _ => rfl

/-- No clause takes a flag back. -/
theorem isInterface_apply : hasFlag TypeFlag.interface (d.apply c).flags =
    (hasFlag TypeFlag.interface d.flags || c.category? == some .interface) := by
  cases c with
  | category c =>
    refine (hasFlag_or _ _ _).trans (congrArg _ ?_)
    cases c <;> rfl
  | abstract => exact hasFlag_or _ _ _
  | «sealed» => exact hasFlag_or _ _ _
  | simpleProperty name type writable => cases writable <;> exact (Bool.or_false _).symm
  | _ => exact (Bool.or_false _).symm

theorem category_foldl : (clauses.foldl apply d).category =
    (TypeClause.categories clauses).getLastD d.category := by
  induction clauses generalizing d with
  | nil => rfl
  | cons c clauses ih =>
    rw [List.foldl_cons, ih, category_apply, TypeClause.categories, TypeClause.categories,
      List.filterMap_cons]
    cases c.category? with
    | none => rfl
    | some c => exact (List.getLastD_cons ..).symm

theorem base_foldl (h : ∀ c ∈ clauses, c.base? = none) :
    (clauses.foldl apply d).base = d.base := by
  induction clauses generalizing d with
  | nil => rfl
  | cons c clauses ih =>
    obtain ⟨hc, hclauses⟩ := List.forall_mem_cons.mp h
    rw [List.foldl_cons, ih _ hclauses, base_apply, hc]
    rfl

theorem isInterface_foldl : hasFlag TypeFlag.interface (clauses.foldl apply d).flags =
    (hasFlag TypeFlag.interface d.flags || (TypeClause.categories clauses).contains .interface) := by
  induction clauses generalizing d with
  | nil => exact (Bool.or_false _).symm
  | cons c clauses ih =>
    rw [List.foldl_cons, ih, isInterface_apply, Bool.or_assoc, TypeClause.categories,
      TypeClause.categories, List.filterMap_cons]
    cases c.category? with
    | none => rfl
    | some c =>
      rw [List.contains_cons]
      cases c <;> rfl

variable (space name : String) {clauses}

theorem category_ofClauses :
    (ofClauses space name clauses).category = TypeClause.declared clauses :=
  category_foldl _ clauses

theorem isInterface_ofClauses : hasFlag TypeFlag.interface (ofClauses space name clauses).flags = true ↔
    .interface ∈ TypeClause.categories clauses := by
  have hnew : hasFlag TypeFlag.interface (TypeFlag.publicVisibility ||| TypeFlag.windowsRuntime) =
      false := by decide
  rw [ofClauses, isInterface_foldl, hnew, Bool.false_or, List.contains_iff_mem]

end TypeDecl

/-! ## Methods by role -/

namespace TypeClause

/-- The methods that serve simple properties and events, those of properties first. -/
def accessors (clauses : List TypeClause) : List MethodDecl :=
  (clauses.filterMap (·.simpleProperty?)).flatMap (·.methods) ++
    (clauses.filterMap (·.simpleEvent?)).flatMap (·.methods)

def accessorNames (clauses : List TypeClause) : List String := (accessors clauses).map (·.name)

/-- No method but the accessor itself has the name of an accessor. -/
def Distinct (clauses : List TypeClause) : Prop :=
  ∀ n ∈ accessorNames clauses, ((clauses.flatMap (·.methods)).map (·.name)).count n = 1

instance (clauses : List TypeClause) : Decidable (Distinct clauses) :=
  inferInstanceAs (Decidable (∀ n ∈ accessorNames clauses, _))

theorem methods_eq (c : TypeClause) : c.methods =
    (c.constructor?.toList ++ c.method?.toList) ++
      (c.simpleProperty?.toList.flatMap (·.methods) ++
        c.simpleEvent?.toList.flatMap (·.methods)) := by
  cases c <;> simp [methods, constructor?, method?, simpleProperty?, simpleEvent?]

/-- Every method is a constructor, a method of its own, or an accessor. -/
theorem perm_methods (clauses : List TypeClause) :
    (clauses.flatMap (·.methods)).Perm
      ((clauses.filterMap (·.constructor?) ++ clauses.filterMap (·.method?)) ++
        accessors clauses) := by
  simp only [methods_eq, accessors, List.filterMap_eq_flatMap_toList, List.flatMap_assoc]
  have hroles := List.flatMap_append_perm clauses (·.constructor?.toList) (·.method?.toList)
  have haccessors := List.flatMap_append_perm clauses
    (·.simpleProperty?.toList.flatMap (·.methods)) (·.simpleEvent?.toList.flatMap (·.methods))
  exact (List.flatMap_append_perm clauses _ _).symm.trans (hroles.symm.append haccessors.symm)

/-- So a method of its own does not have the name of an accessor. -/
theorem Distinct.not_mem {clauses : List TypeClause} (h : Distinct clauses) {m : MethodDecl}
    (hm : m ∈ clauses.filterMap (·.method?)) : m.name ∉ accessorNames clauses := by
  intro hmem
  have hcount := h m.name hmem
  rw [((perm_methods clauses).map (·.name)).count_eq, List.map_append, List.map_append,
    List.count_append, List.count_append] at hcount
  have hown := List.count_pos_iff.mpr (List.mem_map_of_mem (f := (·.name)) hm)
  have haccessor := List.count_pos_iff.mpr hmem
  rw [accessorNames] at haccessor
  omega

/-- Each clause leaves at most one method after a filter. -/
theorem filter_methods {clauses : List TypeClause} {p : MethodDecl → Bool}
    {f : TypeClause → Option MethodDecl}
    (h : ∀ c ∈ clauses, c.methods.filter p = (f c).toList) :
    (clauses.flatMap (·.methods)).filter p = clauses.filterMap f := by
  rw [List.filter_flatMap, List.filterMap_eq_flatMap_toList]
  exact List.flatMap_congr h

variable {clauses : List TypeClause}

theorem mem_accessors_of_property {p : SimpleProperty} {m : MethodDecl}
    (hp : p ∈ clauses.filterMap (·.simpleProperty?)) (hm : m ∈ p.methods) : m ∈ accessors clauses :=
  List.mem_append_left _ (List.mem_flatMap.mpr ⟨p, hp, hm⟩)

theorem mem_accessors_of_event {e : SimpleEvent} {m : MethodDecl}
    (he : e ∈ clauses.filterMap (·.simpleEvent?)) (hm : m ∈ e.methods) : m ∈ accessors clauses :=
  List.mem_append_right _ (List.mem_flatMap.mpr ⟨e, he, hm⟩)

/-- The method keeps the role it is declared in. -/
theorem isConstructor_of_isPlain {c : TypeClause} (h : c.isPlain = true) :
    (∀ m ∈ c.constructor?, m.isConstructor = true) ∧ ∀ m ∈ c.method?, m.isConstructor = false := by
  cases c with
  | method name clauses =>
    simp only [isPlain, List.all_eq_true, Bool.not_eq_true'] at h
    exact ⟨nofun, fun m hm => Option.some.inj hm ▸ MethodDecl.isConstructor_ofClauses h⟩
  | constructor clauses =>
    simp only [isPlain, List.all_eq_true, Bool.not_eq_true'] at h
    exact ⟨fun m hm => Option.some.inj hm ▸ MethodDecl.isConstructor_constructorOfClauses h, nofun⟩
  | _ => exact ⟨nofun, nofun⟩

theorem filter_isConstructor (h : ∀ c ∈ clauses, c.isPlain = true) :
    (clauses.flatMap (·.methods)).filter (·.isConstructor) =
      clauses.filterMap (·.constructor?) := by
  refine filter_methods fun c hc => ?_
  obtain ⟨hconstructor, hmethod⟩ := isConstructor_of_isPlain (h c hc)
  cases c with
  | method name clauses =>
    rw [methods, List.filter_singleton, hmethod _ rfl]
    rfl
  | constructor clauses =>
    rw [methods, List.filter_singleton, hconstructor _ rfl]
    rfl
  | simpleProperty name type writable =>
    exact List.filter_eq_nil_iff.mpr fun m hm =>
      Bool.not_eq_true _ ▸ SimpleProperty.isConstructor_of_mem hm
  | simpleEvent name handler =>
    exact List.filter_eq_nil_iff.mpr fun m hm =>
      Bool.not_eq_true _ ▸ SimpleEvent.isConstructor_of_mem hm
  | _ => rfl

/-- A method that is neither a constructor nor has the name of an accessor. -/
def isOwn (clauses : List TypeClause) (m : MethodDecl) : Bool :=
  !m.isConstructor && !(accessorNames clauses).contains m.name

theorem filter_isOwn (h : ∀ c ∈ clauses, c.isPlain = true) (hd : Distinct clauses) :
    (clauses.flatMap (·.methods)).filter (isOwn clauses) = clauses.filterMap (·.method?) := by
  have hdrop : ∀ m ∈ accessors clauses, ¬ isOwn clauses m = true := by
    intro m hm
    have hname : (accessorNames clauses).contains m.name = true :=
      List.contains_iff_mem.mpr (List.mem_map_of_mem hm)
    rw [isOwn, hname, Bool.not_true, Bool.and_false]
    exact Bool.false_ne_true
  refine filter_methods fun c hc => ?_
  obtain ⟨hconstructor, hmethod⟩ := isConstructor_of_isPlain (h c hc)
  cases c with
  | method name cs =>
    have hmem : .ofClauses name cs ∈ clauses.filterMap (·.method?) :=
      List.mem_filterMap.mpr ⟨_, hc, rfl⟩
    have hname : (accessorNames clauses).contains (MethodDecl.ofClauses name cs).name = false := by
      rw [← Bool.not_eq_true, List.contains_iff_mem]
      exact hd.not_mem hmem
    rw [methods, List.filter_singleton, isOwn, hmethod _ rfl, hname]
    rfl
  | constructor cs =>
    rw [methods, List.filter_singleton, isOwn, hconstructor _ rfl]
    rfl
  | simpleProperty name type writable =>
    have hmem : ⟨name, type, writable⟩ ∈ clauses.filterMap (·.simpleProperty?) :=
      List.mem_filterMap.mpr ⟨_, hc, rfl⟩
    exact List.filter_eq_nil_iff.mpr fun m hm => hdrop m (mem_accessors_of_property hmem hm)
  | simpleEvent name handler =>
    have hmem : ⟨name, handler⟩ ∈ clauses.filterMap (·.simpleEvent?) :=
      List.mem_filterMap.mpr ⟨_, hc, rfl⟩
    exact List.filter_eq_nil_iff.mpr fun m hm => hdrop m (mem_accessors_of_event hmem hm)
  | _ => rfl

end TypeClause

end MetadataProjection
