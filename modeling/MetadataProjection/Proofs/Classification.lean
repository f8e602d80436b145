import MetadataProjection.Proofs.MemberGroups

/-!
# MetadataProjection.Proofs.Classification

No method of a type is lost when its members are sorted, whatever methods properties and events share
and in whatever order they are linked.

* `View.members_eq`: once its own rows are read, a type's members depend on its properties and events only.
* `View.Sorted`: what the groups hold, each in the order of declaration.
* `View.Sorted.covers`: a method is a constructor, a plain method, or serves a property or an event.
* `View.members_sorted`: sorting succeeds just if every property and every event has its accessors, and
  fails as the first of these that has not, properties first.
-/

namespace MetadataProjection

def Members.Serves (ms : Members) (a : MethodRow) : Prop :=
  (∃ p ∈ ms.properties, a = p.getter ∨ a ∈ p.setter) ∨ ∃ e ∈ ms.events, a = e.adder ∨ a = e.remover

theorem Members.serves_iff {ms : Members} {a : MethodRow} :
    ms.Serves a ↔ a ∈ accessorRows ms.properties ms.events := by
  simp only [Serves, accessorRows, List.mem_append, List.mem_flatMap, List.mem_cons,
    Option.mem_toList, Option.mem_def, List.not_mem_nil, or_false]

namespace View

variable {v : View} {d : TypeDef} {row : TypeRow} {methods : List MethodRow}
  {fields : List FieldRow} {ms : Members}

/-! ## What is linked -/

def linkedRows (v : View) (row : TypeRow) : Except Error (List MethodRow) := do
  v.methodRows (← v.linked row)

theorem exists_linkedRows {ps : List PropertyAccessors} {es : List EventAccessors}
    (hps : row.properties.mapM v.propertyAccessors = .ok ps)
    (hes : row.events.mapM v.eventAccessors = .ok es) :
    ∃ accessors, v.linkedRows row = .ok accessors ∧ accessors.Perm (accessorRows ps es) := by
  obtain ⟨links, hlinks, h⟩ := rowsOf_accessors hps hes
  obtain ⟨accessors, haccessors, hperm⟩ := h.exists_methodRows
  exact ⟨accessors, Except.bind_eq_ok_iff.mpr ⟨links, hlinks, haccessors⟩, hperm⟩

theorem map_handle_linkedRows (hv : v.Labelled) {links : List MethodDef}
    {accessors : List MethodRow} (hlinks : v.linked row = .ok links)
    (haccessors : v.linkedRows row = .ok accessors) : accessors.map (·.handle) = links := by
  rw [linkedRows, hlinks] at haccessors
  exact map_handle_methodRows hv haccessors

theorem eq_of_handle_eq (hv : v.Labelled) {hs hs' : List MethodDef} {rows rows' : List MethodRow}
    (h : v.methodRows hs = .ok rows) (h' : v.methodRows hs' = .ok rows') {m m' : MethodRow}
    (hm : m ∈ rows) (hm' : m' ∈ rows') (e : m.handle = m'.handle) : m = m' := by
  obtain ⟨x, -, hx⟩ := (Except.exists_of_mem_of_mapM h).2 m hm
  obtain ⟨x', -, hx'⟩ := (Except.exists_of_mem_of_mapM h').2 m' hm'
  rw [hv.method hx, hv.method hx'] at e
  rw [e, hx'] at hx
  cases hx
  rfl

/-! ## The groups -/

def group (methods : List MethodRow) (fields : List FieldRow) (ps : List PropertyAccessors)
    (es : List EventAccessors) : Members where
  constructors := methods.filter (·.isConstructor)
  methods := methods.filter fun m => !m.isConstructor && !(accessorHandles ps es).contains m.handle
  properties := ps
  events := es
  fields := fields

theorem members_eq (hrow : v.row d = .ok row) (hmethods : v.methodRows row.methods = .ok methods)
    (hfields : row.fields.mapM (v.row (t := .field)) = .ok fields) :
    v.members d = do
      let ps ← row.properties.mapM v.propertyAccessors
      let es ← row.events.mapM v.eventAccessors
      return group methods fields ps es := by
  unfold members
  rw [hrow, Except.ok_bind, hmethods, hfields]
  rfl

/-- These groups hold the members of the type: every property and every event with its accessors, the
constructors, and of the other methods those that no property or event links. -/
structure Sorted (v : View) (row : TypeRow) (methods : List MethodRow) (fields : List FieldRow)
    (ms : Members) : Prop where
  constructors : ms.constructors = methods.filter (·.isConstructor)
  methods : ∃ accessors, v.linkedRows row = .ok accessors ∧
    ms.methods = methods.filter fun m =>
      !m.isConstructor && !(accessors.map (·.handle)).contains m.handle
  properties : List.Forall₂ (fun x p => v.propertyAccessors x = .ok p) row.properties ms.properties
  events : List.Forall₂ (fun x e => v.eventAccessors x = .ok e) row.events ms.events
  fields : ms.fields = fields

theorem sorted_group {ps : List PropertyAccessors} {es : List EventAccessors}
    (hps : row.properties.mapM v.propertyAccessors = .ok ps)
    (hes : row.events.mapM v.eventAccessors = .ok es) :
    v.Sorted row methods fields (group methods fields ps es) where
  constructors := rfl
  methods := by
    obtain ⟨accessors, haccessors, hperm⟩ := exists_linkedRows hps hes
    refine ⟨accessors, haccessors, ?_⟩
    -- the slots are the linked rows in another order, which a test of membership does not see
    have hcontains (x : MethodDef) : (accessorHandles ps es).contains x =
        (accessors.map (·.handle)).contains x := by
      rw [Bool.eq_iff_iff, List.contains_iff_mem, List.contains_iff_mem, ← map_handle_accessorRows]
      exact (hperm.map _).mem_iff.symm
    simp only [group, hcontains]
  properties := Except.mapM_eq_ok_iff.mp hps
  events := Except.mapM_eq_ok_iff.mp hes
  fields := rfl

namespace Sorted

/-- A method that is left out of both groups has the handle of one that is linked, and what is linked
is in some slot. -/
theorem covers (h : v.Sorted row methods fields ms) {m : MethodRow} (hm : m ∈ methods) :
    m ∈ ms.constructors ∨ m ∈ ms.methods ∨ ∃ accessors, v.linkedRows row = .ok accessors ∧
      ∃ a ∈ accessors, ms.Serves a ∧ a.handle = m.handle := by
  by_cases hc : m.isConstructor
  · rw [h.constructors]
    exact .inl (List.mem_filter.mpr ⟨hm, hc⟩)
  obtain ⟨accessors, haccessors, hmethods⟩ := h.methods
  by_cases hl : m.handle ∈ accessors.map (·.handle)
  · obtain ⟨a, ha, e⟩ := List.mem_map.mp hl
    obtain ⟨accessors', haccessors', hperm⟩ := exists_linkedRows
      (Except.mapM_eq_ok_iff.mpr h.properties) (Except.mapM_eq_ok_iff.mpr h.events)
    rw [haccessors] at haccessors'
    cases haccessors'
    exact .inr (.inr ⟨accessors, haccessors, a, ha, Members.serves_iff.mpr (hperm.mem_iff.mp ha), e⟩)
  · rw [hmethods]
    exact .inr (.inl (List.mem_filter.mpr ⟨hm, by simp [hc, hl]⟩))

theorem methods_eq (hv : v.Labelled) (h : v.Sorted row methods fields ms) {links : List MethodDef}
    (hlinks : v.linked row = .ok links) :
    ms.methods = methods.filter fun m => !m.isConstructor && !links.contains m.handle := by
  obtain ⟨accessors, haccessors, hmethods⟩ := h.methods
  rw [map_handle_linkedRows hv hlinks haccessors] at hmethods
  exact hmethods

theorem serves (hv : v.Labelled) (h : v.Sorted row methods fields ms)
    (hmethods : v.methodRows row.methods = .ok methods) {m : MethodRow} (hm : m ∈ methods) :
    m ∈ ms.constructors ∨ m ∈ ms.methods ∨ ms.Serves m := by
  obtain hm' | hm' | ⟨accessors, haccessors, a, ha, hserves, e⟩ := h.covers hm
  · exact .inl hm'
  · exact .inr (.inl hm')
  · obtain ⟨links, -, haccessors⟩ := Except.bind_eq_ok_iff.mp haccessors
    rw [eq_of_handle_eq hv haccessors hmethods ha hm e] at hserves
    exact .inr (.inr hserves)

end Sorted

/-- Members whose rows all exist are sorted just if every property and every event has its accessors;
otherwise the failure is that of the first property that has not, or else of the first event. Then the
groups hold them in order, and every method is in one of the groups or serves a property or an event.
Where rows carry the handles they are found under, as in every store that was built, a plain method is
one whose own handle is not linked, and what is linked serves itself. -/
theorem members_sorted (hrow : v.row d = .ok row)
    (hmethods : v.methodRows row.methods = .ok methods)
    (hfields : row.fields.mapM (v.row (t := .field)) = .ok fields) :
    ((∃ ms, v.members d = .ok ms) ↔
      (∀ x ∈ row.properties, ∃ p, v.propertyAccessors x = .ok p) ∧
        ∀ x ∈ row.events, ∃ e, v.eventAccessors x = .ok e) ∧
    (∀ e, v.members d = .error e ↔
      Except.FailsFirst v.propertyAccessors row.properties e ∨
        (∀ x ∈ row.properties, ∃ p, v.propertyAccessors x = .ok p) ∧
          Except.FailsFirst v.eventAccessors row.events e) ∧
    ∀ ms, v.members d = .ok ms → v.Sorted row methods fields ms ∧
      (∀ m ∈ methods, m ∈ ms.constructors ∨ m ∈ ms.methods ∨
        ∃ a, ms.Serves a ∧ a.handle = m.handle) ∧
      (v.Labelled →
        (∀ links, v.linked row = .ok links →
          ms.methods = methods.filter fun m => !m.isConstructor && !links.contains m.handle) ∧
        ∀ m ∈ methods, m ∈ ms.constructors ∨ m ∈ ms.methods ∨ ms.Serves m) := by
  have heq := members_eq hrow hmethods hfields
  refine ⟨?_, fun e => ?_, fun ms hms => ?_⟩
  · rw [heq, ← Except.exists_mapM_eq_ok_iff, ← Except.exists_mapM_eq_ok_iff]
    simp only [Except.bind_eq_ok_iff, Except.pure_eq_ok_iff]
    constructor
    · rintro ⟨_, ps, hps, es, hes, -⟩
      exact ⟨⟨ps, hps⟩, es, hes⟩
    · rintro ⟨⟨ps, hps⟩, es, hes⟩
      exact ⟨_, ps, hps, es, hes, rfl⟩
  · rw [heq, ← Except.exists_mapM_eq_ok_iff, ← Except.mapM_eq_error_iff, ← Except.mapM_eq_error_iff]
    simp only [Except.bind_eq_error_iff, Except.pure_ne_error, and_false, exists_false, or_false,
      ← exists_and_right]
  · rw [heq] at hms
    obtain ⟨ps, hps, hms⟩ := Except.bind_eq_ok_iff.mp hms
    obtain ⟨es, hes, hms⟩ := Except.bind_eq_ok_iff.mp hms
    cases hms
    have hsorted : v.Sorted row methods fields (group methods fields ps es) := sorted_group hps hes
    refine ⟨hsorted, fun m hm => ?_, fun hv => ⟨fun links hlinks => ?_, fun m hm => ?_⟩⟩
    · obtain hm' | hm' | ⟨_, -, a, -, hserves, e⟩ := hsorted.covers hm
      · exact .inl hm'
      · exact .inr (.inl hm')
      · exact .inr (.inr ⟨a, hserves, e⟩)
    · exact hsorted.methods_eq hv hlinks
    · exact hsorted.serves hv hmethods hm

end View

namespace Session

/-- A class with a constructor, a method, and two properties with the same getter. -/
def gauge : List Action :=
  [.define (.ofClauses "Demo" "Gauge" [.constructor [], .method "Draw" [],
    .method "get_P" [.specialName], .method "put_P" [.specialName],
    .property "Q" [.getter "get_P"],
    .property "P" [.setter "put_P", .getter "get_P"]])]

theorem members_sorted_gauge :
    let v := (run {} gauge).store.view
    ∃ (row : TypeRow) (methods : List MethodRow) (ms : Members),
      v.row (⟨1⟩ : TypeDef) = .ok row ∧ v.methodRows row.methods = .ok methods ∧
      row.fields.mapM (v.row (t := .field)) = .ok [] ∧ v.members ⟨1⟩ = .ok ms ∧
      v.Sorted row methods [] ms ∧ ms.methods.map (·.name) = ["Draw"] ∧
      ms.properties.map (·.getter.name) = ["get_P", "get_P"] ∧
      ∀ m ∈ methods, m ∈ ms.constructors ∨ m ∈ ms.methods ∨ ms.Serves m := by
  intro v
  have hread : (do
      let row : TypeRow ← v.row (⟨1⟩ : TypeDef)
      let _ ← v.methodRows row.methods
      let fields : List FieldRow ← row.fields.mapM (v.row (t := .field))
      let ms ← v.members ⟨1⟩
      return (fields, ms.methods.map (·.name), ms.properties.map (·.getter.name))) =
      Except.ok (([] : List FieldRow), ["Draw"], ["get_P", "get_P"]) := by decide +kernel
  obtain ⟨row, hrow, hread⟩ := Except.bind_eq_ok_iff.mp hread
  obtain ⟨methods, hmethods, hread⟩ := Except.bind_eq_ok_iff.mp hread
  obtain ⟨fields, hfields, hread⟩ := Except.bind_eq_ok_iff.mp hread
  obtain ⟨ms, hms, hread⟩ := Except.bind_eq_ok_iff.mp hread
  obtain ⟨rfl, hnames⟩ := Prod.mk.inj (Except.ok.inj hread)
  obtain ⟨hplain, hgetters⟩ := Prod.mk.inj hnames
  obtain ⟨-, -, hsorted⟩ := View.members_sorted hrow hmethods hfields
  obtain ⟨hsorted, -, hlabelled⟩ := hsorted ms hms
  obtain ⟨-, hcovered⟩ := hlabelled (coherent_run {} gauge).view
  exact ⟨row, methods, ms, hrow, hmethods, hfields, hms, hsorted, hplain, hgetters, hcovered⟩

end Session
end MetadataProjection
