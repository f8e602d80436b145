import MetadataProjection.Accessors
import MetadataProjection.Proofs.Session

/-!
# MetadataProjection.Proofs.AccessorRoles

Which link of a property or an event serves as which accessor. The mask of a link may give it both
roles; it is then read as a getter or an adder only, and goes unnoticed as a setter or a remover.

* `AccessorPair.Reads`: how links are read into two slots, each into a free slot of its role.
  `AccessorPair.foldlM_eq_ok_iff`: what the slots hold in the end.
* `View.Serve`: the methods behind the links of a role. `View.Filled`: the accessors that links name.
* `View.propertyAccessors_eq_ok_iff`, `View.eventAccessors_eq_ok_iff`: when accessors are found, and
  which. `View.accessors_serve`: how often each role occurs among the links.
-/

namespace MetadataProjection

/-! ## Links and slots -/

def Link.rest (first second : Link → Bool) (l : Link) : Bool := !first l && second l

namespace AccessorPair

variable {ε : Type} {first second : Link → Bool} {add : AccessorPair → Link → Except ε AccessorPair}
  {p p' : AccessorPair} {links : List Link}

/-- A link of the first role goes to the first slot, one that has only the second role to the
second, and the slot must be free. -/
def Reads (first second : Link → Bool) (add : AccessorPair → Link → Except ε AccessorPair) : Prop :=
  ∀ (p p' : AccessorPair) (l : Link), add p l = .ok p' ↔
    (first l = true ∧ p.first = none ∧ p' = { p with first := some l.method }) ∨
    (Link.rest first second l = true ∧ p.second = none ∧ p' = { p with second := some l.method })

theorem reads_addPropertyLink : Reads Link.isGetter Link.isSetter addPropertyLink := by
  intro p p' l
  unfold addPropertyLink Link.rest
  cases l.isGetter <;> cases l.isSetter <;> cases p.first <;> cases p.second <;>
    simp [eq_comm (a := p')]

theorem reads_addEventLink : Reads Link.isAdder Link.isRemover addEventLink := by
  intro p p' l
  unfold addEventLink Link.rest
  cases l.isAdder <;> cases l.isRemover <;> cases p.first <;> cases p.second <;>
    simp [eq_comm (a := p')]

theorem eq_iff_toList_eq : p' = p ↔
    p'.first.toList = p.first.toList ∧ p'.second.toList = p.second.toList := by
  obtain ⟨a, b⟩ := p
  obtain ⟨a', b'⟩ := p'
  cases a <;> cases b <;> cases a' <;> cases b' <;> simp

theorem toList_eq_append_cons_iff {α : Type} {a b : Option α} {x : α} {xs : List α} :
    a.toList = b.toList ++ x :: xs ↔ b = none ∧ a.toList = x :: xs := by
  cases a <;> cases b <;> simp

theorem foldlM_eq_ok_iff (hadd : Reads first second add) : links.foldlM add p = .ok p' ↔
    (∀ l ∈ links, first l = true ∨ second l = true) ∧
    p'.first.toList = p.first.toList ++ (links.filter first).map (·.method) ∧
    p'.second.toList = p.second.toList ++
      (links.filter (Link.rest first second)).map (·.method) := by
  induction links generalizing p with
  | nil =>
    simp only [List.foldlM_nil, Except.pure_eq_ok_iff, List.not_mem_nil, false_imp_iff, implies_true,
      true_and, List.filter_nil, List.map_nil, List.append_nil, eq_comm (a := p)]
    exact eq_iff_toList_eq
  | cons l links ih =>
    simp only [List.foldlM_cons, Except.bind_eq_ok_iff, ih, hadd p _ l, List.forall_mem_cons]
    cases hf : first l with
    | true =>
      have hrest : Link.rest first second l = false := by simp [Link.rest, hf]
      simp [hf, hrest, toList_eq_append_cons_iff, and_assoc, and_left_comm]
    | false =>
      cases hs : second l with
      | true =>
        have hrest : Link.rest first second l = true := by simp [Link.rest, hf, hs]
        simp [hf, hrest, toList_eq_append_cons_iff, and_left_comm]
      | false =>
        have hrest : Link.rest first second l = false := by simp [Link.rest, hs]
        simp [hf, hrest]

theorem foldlM_empty_iff (hadd : Reads first second add) (links : List Link) (a : MethodDef)
    (b : Option MethodDef) :
    links.foldlM add {} = .ok { first := some a, second := b } ↔
    (∀ l ∈ links, first l = true ∨ second l = true) ∧
    (links.filter first).map (·.method) = [a] ∧
    (links.filter (Link.rest first second)).map (·.method) = b.toList := by
  rw [foldlM_eq_ok_iff hadd]
  simp only [Option.toList_some, Option.toList_none, List.nil_append]
  exact and_congr_right fun _ => and_congr eq_comm eq_comm

theorem exists_first_iff {x : Except ε AccessorPair} {e : ε} {a : MethodDef}
    {b : Option MethodDef} :
    (do
      let p ← x
      match p.first with
      | some a => return (a, p.second)
      | none => throw e) = Except.ok (a, b) ↔ x = .ok { first := some a, second := b } := by
  cases x with
  | error e => simp [bind, Except.bind]
  | ok p =>
    obtain ⟨first, second⟩ := p
    cases first with
    | none => simp [bind, Except.bind, throw, throwThe, MonadExceptOf.throw]
    | some a => simp [bind, Except.bind, pure, Except.pure]

end AccessorPair

theorem propertyPair_eq_ok_iff {links : List Link} {getter : MethodDef} {setter : Option MethodDef} :
    propertyPair links = .ok (getter, setter) ↔
      links.foldlM AccessorPair.addPropertyLink {} =
        .ok { first := some getter, second := setter } :=
  AccessorPair.exists_first_iff

theorem eventPair_eq_ok_iff {links : List Link} {adder : MethodDef} {remover : Option MethodDef} :
    eventPair links = .ok (adder, remover) ↔
      links.foldlM AccessorPair.addEventLink {} =
        .ok { first := some adder, second := remover } :=
  AccessorPair.exists_first_iff

/-! ## Accessors -/

namespace View

variable {v : View} {first second role : Link → Bool} {links : List Link} {ms : List MethodRow}
  {a : MethodRow} {b : Option MethodRow}

/-- The methods behind the links that have this role, link by link. -/
def Serve (v : View) (role : Link → Bool) (links : List Link) (ms : List MethodRow) : Prop :=
  List.Forall₂ (fun (l : Link) (m : MethodRow) => v.row l.method = .ok m) (links.filter role) ms

/-- Each link has one of two roles. One link has the first, and at most one has the second role
without the first; their methods are these and agree on being static. -/
structure Filled (v : View) (first second : Link → Bool) (links : List Link) (a : MethodRow)
    (b : Option MethodRow) : Prop where
  covered : ∀ l ∈ links, first l = true ∨ second l = true
  servesFirst : v.Serve first links [a]
  servesRest : v.Serve (Link.rest first second) links b.toList
  static : ∀ m ∈ b, m.isStatic = a.isStatic

theorem serve_iff : v.Serve role links ms ↔
    List.Forall₂ (fun (x : MethodDef) (m : MethodRow) => v.row x = .ok m)
      ((links.filter role).map (·.method)) ms := by
  rw [Serve, List.forall₂_map_left_iff]

/-- The second role is filled as well, unless it is hidden behind the first. -/
theorem Filled.serve_second_iff (h : v.Filled first second links a b) :
    v.Serve second links b.toList ↔ ∀ l ∈ links, ¬ (first l = true ∧ second l = true) := by
  have hfilter : links.filter (Link.rest first second) =
      (links.filter second).filter fun l => !first l := by
    rw [List.filter_filter]
    rfl
  have hone : (∀ l ∈ links.filter second, (!first l) = true) ↔
      ∀ l ∈ links, ¬ (first l = true ∧ second l = true) := by
    simp only [List.mem_filter, Bool.not_eq_true', and_imp, not_and, Bool.not_eq_true]
    grind
  rw [← hone]
  constructor
  · intro hserve
    have hlength := h.servesRest.length_eq.trans hserve.length_eq.symm
    rw [hfilter] at hlength
    exact List.length_filter_eq_length_iff.mp hlength
  · intro hnone
    rw [Serve, ← List.filter_eq_self.mpr hnone, ← hfilter]
    exact h.servesRest

theorem filled_iff {ε : Type} {add : AccessorPair → Link → Except ε AccessorPair}
    (hadd : AccessorPair.Reads first second add) : v.Filled first second links a b ↔
    ∃ x y, links.foldlM add {} = .ok { first := some x, second := y } ∧ v.row x = .ok a ∧
      Option.Rel (fun (x : MethodDef) (m : MethodRow) => v.row x = .ok m) y b ∧
      ∀ m ∈ b, m.isStatic = a.isStatic := by
  constructor
  · rintro ⟨hcovered, hfirst, hrest, hstatic⟩
    rw [serve_iff] at hfirst hrest
    obtain ⟨x, xs, hx, hxs, hfirst⟩ := List.forall₂_cons_right_iff.mp hfirst
    rw [List.forall₂_nil_right_iff.mp hxs] at hfirst
    have hread := fun y => (AccessorPair.foldlM_empty_iff hadd links x y).mpr
    cases b with
    | none =>
      rw [Option.toList_none, List.forall₂_nil_right_iff] at hrest
      exact ⟨x, none, hread none ⟨hcovered, hfirst, hrest⟩, hx, .none, hstatic⟩
    | some m =>
      obtain ⟨y, ys, hy, hys, hrest⟩ := List.forall₂_cons_right_iff.mp hrest
      rw [List.forall₂_nil_right_iff.mp hys] at hrest
      exact ⟨x, some y, hread (some y) ⟨hcovered, hfirst, hrest⟩, hx, .some hy, hstatic⟩
  · rintro ⟨x, y, hread, hx, hy, hstatic⟩
    obtain ⟨hcovered, hfirst, hrest⟩ := (AccessorPair.foldlM_empty_iff hadd links x y).mp hread
    refine ⟨hcovered, serve_iff.mpr ?_, serve_iff.mpr ?_, hstatic⟩
    · rw [hfirst]
      exact .cons hx .nil
    · rw [hrest]
      cases hy with
      | none => exact .nil
      | some hy => exact .cons hy .nil

theorem propertyAccessors_eq_ok_iff {x : Property} {p : PropertyAccessors} :
    v.propertyAccessors x = .ok p ↔ ∃ row : PropertyRow, v.row x = .ok row ∧ p.property = x ∧
      p.name = row.name ∧ v.Filled Link.isGetter Link.isSetter row.links p.getter p.setter := by
  have hadd := AccessorPair.reads_addPropertyLink
  constructor
  · intro h
    obtain ⟨row, hrow, h⟩ := Except.bind_eq_ok_iff.mp h
    obtain ⟨⟨getter, setter⟩, hpair, h⟩ := Except.bind_eq_ok_iff.mp h
    obtain ⟨g, hg, h⟩ := Except.bind_eq_ok_iff.mp h
    have hread := propertyPair_eq_ok_iff.mp (Except.eq_ok_of_mapError hpair)
    cases setter with
    | none =>
      cases h
      exact ⟨row, hrow, rfl, rfl, (filled_iff hadd).mpr ⟨getter, none, hread, hg, .none, nofun⟩⟩
    | some setter =>
      obtain ⟨s, hs, h⟩ := Except.bind_eq_ok_iff.mp h
      split_ifs at h with hstatic
      cases h
      refine ⟨row, hrow, rfl, rfl,
        (filled_iff hadd).mpr ⟨getter, some setter, hread, hg, .some hs, ?_⟩⟩
      simpa using hstatic
  · obtain ⟨x, name, g, s⟩ := p
    rintro ⟨row, hrow, rfl, rfl, h⟩
    obtain ⟨getter, setter, hread, hg, hs, hstatic⟩ := (filled_iff hadd).mp h
    have hpair : (propertyPair row.links).mapError (Error.malformedProperty row.name) =
        .ok (getter, setter) := by
      rw [propertyPair_eq_ok_iff.mpr hread]
      rfl
    simp only [propertyAccessors, hrow, hpair, hg, Except.ok_bind]
    cases hs with
    | none => rfl
    | some hs =>
      simp only [hs, hstatic _ rfl, bne_self_eq_false, Except.ok_bind]
      rfl

theorem eventAccessors_eq_ok_iff {x : Event} {e : EventAccessors} :
    v.eventAccessors x = .ok e ↔ ∃ row : EventRow, v.row x = .ok row ∧ e.event = x ∧
      e.name = row.name ∧ v.Filled Link.isAdder Link.isRemover row.links e.adder (some e.remover) := by
  have hadd := AccessorPair.reads_addEventLink
  constructor
  · intro h
    obtain ⟨row, hrow, h⟩ := Except.bind_eq_ok_iff.mp h
    obtain ⟨⟨adder, remover⟩, hpair, h⟩ := Except.bind_eq_ok_iff.mp h
    obtain ⟨a, ha, h⟩ := Except.bind_eq_ok_iff.mp h
    have hread := eventPair_eq_ok_iff.mp (Except.eq_ok_of_mapError hpair)
    cases remover with
    | none => cases h
    | some remover =>
      obtain ⟨m, hm, h⟩ := Except.bind_eq_ok_iff.mp h
      split_ifs at h with hstatic
      cases h
      have hstatic : a.isStatic = m.isStatic := by simpa using hstatic
      refine ⟨row, hrow, rfl, rfl,
        (filled_iff hadd).mpr ⟨adder, some remover, hread, ha, .some hm, ?_⟩⟩
      simp [hstatic]
  · obtain ⟨x, name, a, m⟩ := e
    rintro ⟨row, hrow, rfl, rfl, h⟩
    obtain ⟨adder, remover, hread, ha, hm, hstatic⟩ := (filled_iff hadd).mp h
    have hpair : (eventPair row.links).mapError (Error.malformedEvent row.name) =
        .ok (adder, remover) := by
      rw [eventPair_eq_ok_iff.mpr hread]
      rfl
    simp only [eventAccessors, hrow, hpair, ha, Except.ok_bind]
    cases hm with
    | some hm =>
      simp only [hm, hstatic _ rfl, bne_self_eq_false, Except.ok_bind]
      rfl

/-- Accessors that are found serve their links. Just one link is a getter, or an adder, and it leads
to the first accessor; every link has one of the two roles, and both accessors agree on being static.
The second accessor serves the links that have the second role only, which are all that have it just
if no link has both roles. -/
theorem accessors_serve (v : View) :
    (∀ (x : Property) (p : PropertyAccessors), v.propertyAccessors x = .ok p →
      ∃ row : PropertyRow, v.row x = .ok row ∧
        v.Filled Link.isGetter Link.isSetter row.links p.getter p.setter ∧
        (v.Serve Link.isSetter row.links p.setter.toList ↔
          ∀ l ∈ row.links, ¬ (l.isGetter = true ∧ l.isSetter = true))) ∧
    ∀ (x : Event) (e : EventAccessors), v.eventAccessors x = .ok e →
      ∃ row : EventRow, v.row x = .ok row ∧
        v.Filled Link.isAdder Link.isRemover row.links e.adder (some e.remover) ∧
        (v.Serve Link.isRemover row.links [e.remover] ↔
          ∀ l ∈ row.links, ¬ (l.isAdder = true ∧ l.isRemover = true)) := by
  refine ⟨fun x p h => ?_, fun x e h => ?_⟩
  · obtain ⟨row, hrow, -, -, hfilled⟩ := propertyAccessors_eq_ok_iff.mp h
    exact ⟨row, hrow, hfilled, hfilled.serve_second_iff⟩
  · obtain ⟨row, hrow, -, -, hfilled⟩ := eventAccessors_eq_ok_iff.mp h
    exact ⟨row, hrow, hfilled, hfilled.serve_second_iff⟩

end View

namespace Session

/-- An interface with a property and an event, whose links have these masks. -/
def shapes (first second adder remover : UInt32) : List Action :=
  [.define (.ofClauses "Demo" "IShapes" [.category .interface,
    .method "get_X" [.specialName], .method "put_X" [.specialName],
    .method "add_E" [.specialName], .method "remove_E" [.specialName],
    .property "X" [.link first "get_X", .link second "put_X"],
    .event "E" [.link adder "add_E", .link remover "remove_E"]])]

def singleRoles : View := (run {} (shapes 2 1 8 16)).store.view

def doubleRoles : View := (run {} (shapes 3 1 24 16)).store.view

theorem accessors_serve_singleRoles :
    ∃ (row : PropertyRow) (p : PropertyAccessors) (row' : EventRow) (e : EventAccessors),
      singleRoles.row (⟨1⟩ : Property) = .ok row ∧
      singleRoles.propertyAccessors ⟨1⟩ = .ok p ∧
      singleRoles.Serve Link.isGetter row.links [p.getter] ∧
      singleRoles.Serve Link.isSetter row.links p.setter.toList ∧
      singleRoles.row (⟨1⟩ : Event) = .ok row' ∧
      singleRoles.eventAccessors ⟨1⟩ = .ok e ∧
      singleRoles.Serve Link.isAdder row'.links [e.adder] ∧
      singleRoles.Serve Link.isRemover row'.links [e.remover] := by
  obtain ⟨p, hp⟩ : ∃ p, singleRoles.propertyAccessors ⟨1⟩ = .ok p := ⟨_, rfl⟩
  obtain ⟨e, he⟩ : ∃ e, singleRoles.eventAccessors ⟨1⟩ = .ok e := ⟨_, rfl⟩
  obtain ⟨hproperty, hevent⟩ := View.accessors_serve singleRoles
  obtain ⟨row, hrow, hfilled, hsetter⟩ := hproperty ⟨1⟩ p hp
  obtain ⟨row', hrow', hfilled', hremover⟩ := hevent ⟨1⟩ e he
  have hlinks : row.links = [⟨2, ⟨1⟩⟩, ⟨1, ⟨2⟩⟩] := by cases hrow; rfl
  have hlinks' : row'.links = [⟨8, ⟨3⟩⟩, ⟨16, ⟨4⟩⟩] := by cases hrow'; rfl
  refine ⟨row, p, row', e, hrow, hp, hfilled.servesFirst, hsetter.mpr ?_, hrow', he,
    hfilled'.servesFirst, hremover.mpr ?_⟩
  · rw [hlinks]
    decide
  · rw [hlinks']
    decide

/-- Two links are setters and two are removers, yet the accessors are found. -/
theorem accessors_doubleRoles :
    ∃ (row : PropertyRow) (p : PropertyAccessors) (row' : EventRow) (e : EventAccessors),
      doubleRoles.row (⟨1⟩ : Property) = .ok row ∧
      doubleRoles.propertyAccessors ⟨1⟩ = .ok p ∧ p.setter.map (·.name) = some "put_X" ∧
      (row.links.filter Link.isSetter).map (·.method) = [⟨1⟩, ⟨2⟩] ∧
      doubleRoles.row (⟨1⟩ : Event) = .ok row' ∧
      doubleRoles.eventAccessors ⟨1⟩ = .ok e ∧ e.remover.name = "remove_E" ∧
      (row'.links.filter Link.isRemover).map (·.method) = [⟨3⟩, ⟨4⟩] :=
  ⟨_, _, _, _, rfl, rfl, rfl, rfl, rfl, rfl, rfl, rfl⟩

end Session
end MetadataProjection
