import Mathlib.Data.List.Nodup
import Mathlib.Data.List.Perm.Basic
import MetadataProjection.Members
import MetadataProjection.Proofs.Coherence

/-!
# MetadataProjection.Proofs.MemberGroups

How often a method occurs among the members of its type.

* `AccessorPair.perm_of_foldlM`: the slots of a property or an event hold what its links name, each
  link once.
* `View.linked`: the methods that the properties and events of a type name.
* `View.rowsOf_accessors`: the rows of all slots of a type are the rows of these.
* `Session.count_handles_members`: a constructor occurs once more than it is linked, and any other
  method as often as it is linked, but at least once.
* `Session.count_handles_linkedConstructor`: so a constructor that is a getter occurs twice.
-/

namespace MetadataProjection

/-! ## Links and slots -/

namespace AccessorPair

def handles (p : AccessorPair) : List MethodDef := p.first.toList ++ p.second.toList

variable {p p' : AccessorPair} {l : Link}

theorem perm_fill_first (h : ¬ p.first.isSome) (m : MethodDef) :
    ({ p with first := some m } : AccessorPair).handles.Perm (m :: p.handles) := by
  obtain ⟨first, second⟩ := p
  cases first with
  | none => exact .refl _
  | some _ => exact absurd rfl h

theorem perm_fill_second (h : ¬ p.second.isSome) (m : MethodDef) :
    ({ p with second := some m } : AccessorPair).handles.Perm (m :: p.handles) := by
  obtain ⟨first, second⟩ := p
  cases second with
  | none =>
    rw [handles, handles, Option.toList_none, List.append_nil]
    exact List.perm_append_singleton m first.toList
  | some _ => exact absurd rfl h

theorem perm_of_addPropertyLink (h : p.addPropertyLink l = .ok p') :
    p'.handles.Perm (l.method :: p.handles) := by
  unfold addPropertyLink at h
  split_ifs at h with _ hfirst _ hsecond
  · cases h; exact perm_fill_first hfirst _
  · cases h; exact perm_fill_second hsecond _

theorem perm_of_addEventLink (h : p.addEventLink l = .ok p') :
    p'.handles.Perm (l.method :: p.handles) := by
  unfold addEventLink at h
  split_ifs at h with _ hfirst _ hsecond
  · cases h; exact perm_fill_first hfirst _
  · cases h; exact perm_fill_second hsecond _

theorem perm_of_foldlM {ε : Type} {add : AccessorPair → Link → Except ε AccessorPair}
    (hadd : ∀ {p p' : AccessorPair} {l : Link}, add p l = .ok p' →
      p'.handles.Perm (l.method :: p.handles))
    {links : List Link} (h : links.foldlM add p = .ok p') :
    p'.handles.Perm (links.map (·.method) ++ p.handles) := by
  induction links generalizing p with
  | nil => cases h; exact .refl _
  | cons l links ih =>
    obtain ⟨p₁, hp₁, h⟩ := Except.bind_eq_ok_iff.mp h
    exact ((ih h).trans ((hadd hp₁).append_left _)).trans List.perm_middle

theorem perm_of_first {ε : Type} {add : AccessorPair → Link → Except ε AccessorPair}
    (hadd : ∀ {p p' : AccessorPair} {l : Link}, add p l = .ok p' →
      p'.handles.Perm (l.method :: p.handles))
    {links : List Link} {m : MethodDef} (h : links.foldlM add {} = .ok p')
    (hm : p'.first = some m) : (m :: p'.second.toList).Perm (links.map (·.method)) := by
  have hperm := perm_of_foldlM hadd h
  rw [handles, hm] at hperm
  exact hperm.trans (.of_eq (List.append_nil _))

end AccessorPair

theorem perm_of_propertyPair {links : List Link} {getter : MethodDef} {setter : Option MethodDef}
    (h : propertyPair links = .ok (getter, setter)) :
    (getter :: setter.toList).Perm (links.map (·.method)) := by
  obtain ⟨p, hp, h⟩ := Except.bind_eq_ok_iff.mp h
  split at h
  · next hfirst =>
    cases h
    exact AccessorPair.perm_of_first AccessorPair.perm_of_addPropertyLink hp hfirst
  · cases h

theorem perm_of_eventPair {links : List Link} {adder : MethodDef} {remover : Option MethodDef}
    (h : eventPair links = .ok (adder, remover)) :
    (adder :: remover.toList).Perm (links.map (·.method)) := by
  obtain ⟨p, hp, h⟩ := Except.bind_eq_ok_iff.mp h
  split at h
  · next hfirst =>
    cases h
    exact AccessorPair.perm_of_first AccessorPair.perm_of_addEventLink hp hfirst
  · cases h

namespace View

/-- What the properties and events of a type link, each link once. -/
def linked (v : View) (row : TypeRow) : Except Error (List MethodDef) := do
  let properties ← row.properties.mapM (v.row (t := .property))
  let events ← row.events.mapM (v.row (t := .event))
  return properties.flatMap (·.links.map (·.method)) ++ events.flatMap (·.links.map (·.method))

variable {v : View} {hs hs' : List MethodDef} {ms ms' : List MethodRow}

theorem map_handle_methodRows (hv : v.Labelled) (h : v.methodRows hs = .ok ms) :
    ms.map (·.handle) = hs := by
  rw [map_eq_of_forall₂ (f := id) (Except.mapM_eq_ok_iff.mp h) fun _ _ hm => hv.method hm,
    List.map_id]

/-- These are the rows of the handles, in some order. -/
def RowsOf (v : View) (hs : List MethodDef) (ms : List MethodRow) : Prop :=
  ∃ xs : List MethodDef, xs.Perm hs ∧ List.Forall₂ (fun x m => v.row x = .ok m) xs ms

theorem RowsOf.append (h : v.RowsOf hs ms) (h' : v.RowsOf hs' ms') :
    v.RowsOf (hs ++ hs') (ms ++ ms') := by
  obtain ⟨xs, hxs, hms⟩ := h
  obtain ⟨xs', hxs', hms'⟩ := h'
  exact ⟨xs ++ xs', hxs.append hxs', List.rel_append hms hms'⟩

theorem rowsOf_flatMap {α β : Type} {F : α → List MethodDef} {G : β → List MethodRow}
    {as : List α} {bs : List β} (h : List.Forall₂ (fun b a => v.RowsOf (F a) (G b)) bs as) :
    v.RowsOf (as.flatMap F) (bs.flatMap G) := by
  induction h with
  | nil => exact ⟨[], .refl _, .nil⟩
  | cons hab _ ih => exact hab.append ih

theorem RowsOf.exists_methodRows (h : v.RowsOf hs ms) :
    ∃ rows, v.methodRows hs = .ok rows ∧ rows.Perm ms := by
  obtain ⟨xs, hxs, hms⟩ := h
  obtain ⟨rows, hrows, hperm⟩ := List.perm_comp_forall₂ hxs.symm hms
  exact ⟨rows, Except.mapM_eq_ok_iff.mpr hrows, hperm⟩

theorem RowsOf.perm_handles (hv : v.Labelled) (h : v.RowsOf hs ms) :
    (ms.map (·.handle)).Perm hs := by
  obtain ⟨rows, hrows, hperm⟩ := h.exists_methodRows
  rw [← map_handle_methodRows hv hrows]
  exact (hperm.map _).symm

theorem rowsOf_propertyAccessors {x : Property} {p : PropertyAccessors}
    (h : v.propertyAccessors x = .ok p) : ∃ row : PropertyRow, v.row x = .ok row ∧
      v.RowsOf (row.links.map (·.method)) (p.getter :: p.setter.toList) := by
  obtain ⟨row, hrow, h⟩ := Except.bind_eq_ok_iff.mp h
  obtain ⟨⟨getter, setter⟩, hpair, h⟩ := Except.bind_eq_ok_iff.mp h
  obtain ⟨g, hg, h⟩ := Except.bind_eq_ok_iff.mp h
  refine ⟨row, hrow, _, perm_of_propertyPair (Except.eq_ok_of_mapError hpair), ?_⟩
  cases setter with
  | none =>
    cases h
    exact .cons hg .nil
  | some setter =>
    obtain ⟨s, hs, h⟩ := Except.bind_eq_ok_iff.mp h
    split_ifs at h
    cases h
    exact .cons hg (.cons hs .nil)

theorem rowsOf_eventAccessors {x : Event} {e : EventAccessors}
    (h : v.eventAccessors x = .ok e) : ∃ row : EventRow, v.row x = .ok row ∧
      v.RowsOf (row.links.map (·.method)) [e.adder, e.remover] := by
  obtain ⟨row, hrow, h⟩ := Except.bind_eq_ok_iff.mp h
  obtain ⟨⟨adder, remover⟩, hpair, h⟩ := Except.bind_eq_ok_iff.mp h
  obtain ⟨a, ha, h⟩ := Except.bind_eq_ok_iff.mp h
  refine ⟨row, hrow, _, perm_of_eventPair (Except.eq_ok_of_mapError hpair), ?_⟩
  cases remover with
  | none => cases h
  | some remover =>
    obtain ⟨m, hm, h⟩ := Except.bind_eq_ok_iff.mp h
    split_ifs at h
    cases h
    exact .cons ha (.cons hm .nil)

end View

def accessorRows (ps : List PropertyAccessors) (es : List EventAccessors) : List MethodRow :=
  ps.flatMap (fun p => p.getter :: p.setter.toList) ++ es.flatMap (fun e => [e.adder, e.remover])

theorem map_handle_accessorRows (ps : List PropertyAccessors) (es : List EventAccessors) :
    (accessorRows ps es).map (·.handle) = accessorHandles ps es := by
  have hslots (p : PropertyAccessors) : (p.getter :: p.setter.toList).map (·.handle) =
      p.getter.handle :: (p.setter.map (·.handle)).toList := by
    cases p.setter <;> rfl
  simp only [accessorRows, accessorHandles, List.map_append, List.map_flatMap, hslots, List.map_cons,
    List.map_nil]

/-- The slots of properties and events hold the rows of what is linked, each link once. -/
theorem View.rowsOf_accessors {v : View} {row : TypeRow} {ps : List PropertyAccessors}
    {es : List EventAccessors} (hp : row.properties.mapM v.propertyAccessors = .ok ps)
    (he : row.events.mapM v.eventAccessors = .ok es) :
    ∃ links, v.linked row = .ok links ∧ v.RowsOf links (accessorRows ps es) := by
  obtain ⟨properties, hproperties, hps⟩ := Except.exists_mapM_of_forall₂
    (f := v.row (t := .property)) (Except.mapM_eq_ok_iff.mp hp).flip
    fun p _ x h => rowsOf_propertyAccessors h
  obtain ⟨events, hevents, hes⟩ := Except.exists_mapM_of_forall₂
    (f := v.row (t := .event)) (Except.mapM_eq_ok_iff.mp he).flip
    fun e _ x h => rowsOf_eventAccessors h
  refine ⟨_, ?_, (rowsOf_flatMap hps).append (rowsOf_flatMap hes)⟩
  exact Except.bind_eq_ok_iff.mpr ⟨properties, hproperties,
    Except.bind_eq_ok_iff.mpr ⟨events, hevents, rfl⟩⟩

theorem View.perm_of_accessors {v : View} (hv : v.Labelled) {row : TypeRow}
    {ps : List PropertyAccessors} {es : List EventAccessors}
    (hp : row.properties.mapM v.propertyAccessors = .ok ps)
    (he : row.events.mapM v.eventAccessors = .ok es) :
    ∃ links, v.linked row = .ok links ∧ (accessorHandles ps es).Perm links := by
  obtain ⟨links, hlinks, h⟩ := rowsOf_accessors hp he
  refine ⟨links, hlinks, ?_⟩
  rw [← map_handle_accessorRows]
  exact h.perm_handles hv

/-! ## The groups -/

/-- The methods in the groups: constructors, plain methods, and the slots of properties and events. -/
def Members.handles (ms : Members) : List MethodDef :=
  ms.constructors.map (·.handle) ++ ms.methods.map (·.handle) ++
    accessorHandles ms.properties ms.events

/-- A filter keeps a row once or not at all, where no handle is listed twice. -/
theorem count_handles_filter {rows : List MethodRow} (hnodup : (rows.map (·.handle)).Nodup)
    {m : MethodRow} (hm : m ∈ rows) (p : MethodRow → Bool) :
    ((rows.filter p).map (·.handle)).count m.handle = if p m then 1 else 0 := by
  by_cases hp : p m
  · rw [if_pos hp]
    refine List.count_eq_one_of_mem ?_ (List.mem_map_of_mem (List.mem_filter.mpr ⟨hm, hp⟩))
    exact hnodup.sublist (List.filter_sublist.map _)
  · rw [if_neg hp]
    refine List.count_eq_zero.mpr fun hmem => ?_
    obtain ⟨x, hx, e⟩ := List.mem_map.mp hmem
    obtain ⟨hx, hpx⟩ := List.mem_filter.mp hx
    rw [List.inj_on_of_nodup_map hnodup hx hm e] at hpx
    exact hp hpx

namespace View

variable {v : View}

theorem count_members (hv : v.Labelled) {d : TypeDef} {row : TypeRow} {ms : Members}
    (hrow : v.row d = .ok row) (hnodup : row.methods.Nodup) (h : v.members d = .ok ms) :
    ∃ links, v.linked row = .ok links ∧ ∀ x ∈ row.methods, ∃ m : MethodRow, v.row x = .ok m ∧
      ms.handles.count x =
        if m.isConstructor then 1 + links.count x else max 1 (links.count x) := by
  obtain ⟨row', hrow', h⟩ := Except.bind_eq_ok_iff.mp h
  rw [hrow] at hrow'; cases hrow'
  obtain ⟨properties, hp, h⟩ := Except.bind_eq_ok_iff.mp h
  obtain ⟨events, he, h⟩ := Except.bind_eq_ok_iff.mp h
  obtain ⟨rows, hrows, h⟩ := Except.bind_eq_ok_iff.mp h
  obtain ⟨fields, _, h⟩ := Except.bind_eq_ok_iff.mp h
  cases h
  obtain ⟨links, hlinks, hperm⟩ := perm_of_accessors hv hp he
  refine ⟨links, hlinks, fun x hx => ?_⟩
  obtain ⟨m, hm, hxm⟩ := (Except.exists_of_mem_of_mapM hrows).1 x hx
  refine ⟨m, hxm, ?_⟩
  have hmap := map_handle_methodRows hv hrows
  rw [← hmap] at hnodup
  have hcount := fun p => count_handles_filter hnodup hm p
  have hlinked : (accessorHandles properties events).contains x = true ↔ 0 < links.count x := by
    rw [List.contains_iff_mem, hperm.mem_iff, List.count_pos_iff]
  -- every method is counted as a constructor, as a plain method, and once for each link
  rw [hv.method hxm] at hcount
  rw [Members.handles, List.count_append, List.count_append, hcount, hcount, hperm.count_eq x]
  cases hc : m.isConstructor with
  | true => simp
  | false =>
    rw [hv.method hxm]
    cases hl : (accessorHandles properties events).contains x with
    | true =>
      have hpos : 1 ≤ links.count x := hlinked.mp hl
      simp [Nat.max_eq_right hpos]
    | false =>
      have hzero : links.count x = 0 := by
        rw [List.count_eq_zero, ← hperm.mem_iff, ← List.contains_iff_mem, hl]
        exact Bool.false_ne_true
      simp [hzero]

end View

/-! ## Sessions -/

namespace Session

/-- Of the methods that a type declares, a constructor occurs among its members once more than
properties and events link it; any other method occurs as often as it is linked, but at least once. So
all occur exactly once just if no constructor is linked, and no other method twice. -/
theorem count_handles_members (cfg : Config) (history : List Action) (d : TypeDef) (row : TypeRow)
    (ms : Members) (hrow : (run cfg history).store.view.row d = .ok row)
    (hms : (run cfg history).store.view.members d = .ok ms) :
    ∃ links, (run cfg history).store.view.linked row = .ok links ∧ ∀ x ∈ row.methods,
      ∃ m : MethodRow, (run cfg history).store.view.row x = .ok m ∧
        ms.handles.count x =
          (if m.isConstructor then 1 + links.count x else max 1 (links.count x)) ∧
        (ms.handles.count x = 1 ↔ if m.isConstructor then x ∉ links else links.count x ≤ 1) := by
  have hlists := (coherent_run cfg history).lists d row (View.row_eq_ok_iff.mp hrow).2
  have hnodup : row.methods.Nodup := hlists.2.imp fun h e => Fin.ne_of_lt h (congrArg Handle.row e)
  obtain ⟨links, hlinks, h⟩ :=
    View.count_members (coherent_run cfg history).view hrow hnodup hms
  refine ⟨links, hlinks, fun x hx => ?_⟩
  obtain ⟨m, hm, hcount⟩ := h x hx
  refine ⟨m, hm, hcount, ?_⟩
  rw [hcount]
  cases m.isConstructor with
  | true =>
    rw [if_pos rfl, if_pos rfl, ← List.count_eq_zero]
    omega
  | false =>
    rw [if_neg Bool.false_ne_true, if_neg Bool.false_ne_true]
    omega

/-- A class with a constructor, a method, and a property that the next method serves. -/
def widget : List Action :=
  [.define (.ofClauses "Demo" "Widget" [.constructor [], .method "Draw" [],
    .method "get_P" [.specialName], .property "P" [.getter "get_P"]])]

theorem count_handles_members_widget :
    ∃ (row : TypeRow) (ms : Members),
      (run {} widget).store.view.row (⟨1⟩ : TypeDef) = .ok row ∧
      (run {} widget).store.view.members ⟨1⟩ = .ok ms ∧
      row.methods = [⟨1⟩, ⟨2⟩, ⟨3⟩] ∧ ∀ x ∈ row.methods, ms.handles.count x = 1 := by
  obtain ⟨row, hrow, hmethods, hlinked⟩ : ∃ row : TypeRow,
      (run {} widget).store.view.row (⟨1⟩ : TypeDef) = .ok row ∧
      row.methods = [⟨1⟩, ⟨2⟩, ⟨3⟩] ∧
      (run {} widget).store.view.linked row = .ok [⟨3⟩] := ⟨_, rfl, rfl, rfl⟩
  obtain ⟨ms, hms⟩ : ∃ ms, (run {} widget).store.view.members ⟨1⟩ = .ok ms := ⟨_, rfl⟩
  obtain ⟨links, hlinks, h⟩ := count_handles_members {} widget ⟨1⟩ row ms hrow hms
  rw [hlinked] at hlinks; cases hlinks
  refine ⟨row, ms, hrow, hms, hmethods, fun x hx => ?_⟩
  have key : ∀ x ∈ [(⟨1⟩ : MethodDef), ⟨2⟩, ⟨3⟩],
      ∀ m ∈ ((run {} widget).store.view.row x).toOption, if MethodRow.isConstructor m then
        x ∉ [(⟨3⟩ : MethodDef)] else [(⟨3⟩ : MethodDef)].count x ≤ 1 := by decide
  obtain ⟨m, hm, -, hiff⟩ := h x hx
  refine hiff.mpr (key x (hmethods ▸ hx) m ?_)
  rw [hm]; rfl

/-- A class whose constructor is linked as the getter of a property. -/
def linkedConstructor : List Action :=
  [.define (.ofClauses "Demo" "Widget" [.constructor [],
    .property "P" [.getter constructorName]])]

theorem count_handles_linkedConstructor :
    ∃ (row : TypeRow) (ms : Members),
      (run {} linkedConstructor).store.view.row (⟨1⟩ : TypeDef) = .ok row ∧
      (run {} linkedConstructor).store.view.members ⟨1⟩ = .ok ms ∧
      ⟨1⟩ ∈ row.methods ∧ ms.handles.count ⟨1⟩ = 2 :=
  ⟨_, _, rfl, rfl, by decide, by decide⟩

end Session
end MetadataProjection
