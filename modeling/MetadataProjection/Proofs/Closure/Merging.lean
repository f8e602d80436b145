import MetadataProjection.Closure.Overloads
import MetadataProjection.Members
import MetadataProjection.Proofs.Closure.Reachability
import MetadataProjection.Proofs.Coherence

/-!
# MetadataProjection.Proofs.Closure.Merging

The methods of a closure, merged by name.

* `Agreeing`: no two methods of a name differ in being static.
* `OverloadMap.Groups`: the invariant. Under each name stand the methods of that name, in their order.
  `Groups.add` and `Groups.add_eq_error` say what one more method does to it, and `Groups.addAll` what
  any number of them do.
* `Resolver.closure`: the nodes of a closure. `Resolver.declared`: the methods they declare.
* `Session.overloads_iff_agreeing`: the methods of a closure are merged just if they agree, and then
  none is lost or listed twice.
-/

namespace MetadataProjection

/-! ## Groups -/

/-- Methods of one name are all static, or none of them is. -/
def Agreeing (infos : List MethodInfo) : Prop :=
  ∀ m ∈ infos, ∀ m' ∈ infos, m.method.name = m'.method.name →
    m.method.isStatic = m'.method.isStatic

def named (infos : List MethodInfo) (name : String) : List MethodInfo :=
  infos.filter (·.method.name == name)

theorem mem_named_iff {infos : List MethodInfo} {name : String} {m : MethodInfo} :
    m ∈ named infos name ↔ m ∈ infos ∧ m.method.name = name := by
  rw [named, List.mem_filter, beq_iff_eq]

theorem named_append_self (infos : List MethodInfo) (m : MethodInfo) :
    named (infos ++ [m]) m.method.name = named infos m.method.name ++ [m] := by
  simp [named]

theorem named_append_of_ne {infos : List MethodInfo} {m : MethodInfo} {name : String}
    (h : m.method.name ≠ name) : named (infos ++ [m]) name = named infos name := by
  simp [named, h]

theorem agreeing_append_iff {infos : List MethodInfo} {m : MethodInfo} :
    Agreeing (infos ++ [m]) ↔ Agreeing infos ∧
      ∀ o ∈ named infos m.method.name, o.method.isStatic = m.method.isStatic := by
  constructor
  · intro h
    refine ⟨fun o ho o' ho' => ?_, fun o ho => ?_⟩
    · exact h o (List.mem_append_left _ ho) o' (List.mem_append_left _ ho')
    · obtain ⟨ho, hname⟩ := mem_named_iff.mp ho
      exact h o (List.mem_append_left _ ho) m (List.mem_append_right _ List.mem_cons_self) hname
  · rintro ⟨h, hm⟩ o ho o' ho' hname
    rw [List.mem_append, List.mem_singleton] at ho ho'
    rcases ho with ho | rfl <;> rcases ho' with ho' | rfl
    · exact h o ho o' ho' hname
    · exact hm o (mem_named_iff.mpr ⟨ho, hname⟩)
    · exact (hm o' (mem_named_iff.mpr ⟨ho', hname.symm⟩)).symm
    · rfl

theorem isStaticGroup_named {infos : List MethodInfo} (h : Agreeing infos) {name : String}
    {m : MethodInfo} (hm : m ∈ named infos name) :
    isStaticGroup (named infos name) = m.method.isStatic := by
  obtain ⟨o, group, hgroup⟩ := List.exists_cons_of_ne_nil (List.ne_nil_of_mem hm)
  have ho : o ∈ named infos name := by rw [hgroup]; exact List.mem_cons_self
  obtain ⟨ho, honame⟩ := mem_named_iff.mp ho
  obtain ⟨hm, hmname⟩ := mem_named_iff.mp hm
  rw [hgroup, isStaticGroup, List.head?_cons, Option.any_some]
  exact h o ho m hm (honame.trans hmname.symm)

namespace OverloadMap

/-- Under each name stand the methods of that name, and nothing where there is none. -/
def Groups (map : OverloadMap) (infos : List MethodInfo) : Prop :=
  ∀ name, map[name]? = if named infos name = [] then none else some (named infos name)

theorem groups_empty : Groups ∅ [] := by
  intro name
  exact Std.TreeMap.getElem?_emptyc

variable {map map' : OverloadMap} {infos : List MethodInfo}

theorem Groups.getD_eq (h : map.Groups infos) (name : String) :
    map.getD name [] = named infos name := by
  rw [Std.TreeMap.getD_eq_getD_getElem?, h name]
  split
  · next hnil => rw [hnil]; rfl
  · rfl

theorem Groups.add (h : map.Groups infos) {m : MethodInfo}
    (hm : ∀ o ∈ named infos m.method.name, o.method.isStatic = m.method.isStatic) :
    ∃ map' : OverloadMap, map.add m = .ok map' ∧ map'.Groups (infos ++ [m]) := by
  have hany : (named infos m.method.name).any (fun o => o.method.isStatic != m.method.isStatic) =
      false := by
    rw [List.any_eq_false]
    intro o ho
    rw [hm o ho, bne_self_eq_false]
    exact Bool.false_ne_true
  refine ⟨map.insert m.method.name (named infos m.method.name ++ [m]), ?_, fun name => ?_⟩
  · simp only [OverloadMap.add, h.getD_eq, hany]
    rfl
  · rw [Std.TreeMap.getElem?_insert]
    by_cases hname : m.method.name = name
    · subst hname
      rw [named_append_self]
      simp
    · rw [named_append_of_ne hname, ← h name]
      simp [hname]

theorem Groups.add_eq_error (h : map.Groups infos) {m o : MethodInfo}
    (ho : o ∈ named infos m.method.name) (hne : o.method.isStatic ≠ m.method.isStatic) :
    map.add m = .error (.inconsistentMemberKind m.method.name) := by
  have hany : (named infos m.method.name).any (fun o => o.method.isStatic != m.method.isStatic) =
      true := List.any_eq_true.mpr ⟨o, ho, bne_iff_ne.mpr hne⟩
  simp only [OverloadMap.add, h.getD_eq, hany]
  rfl

/-- Methods are added one after the other: all of them if they agree, and otherwise up to one that
differs from an earlier one. -/
theorem Groups.addAll (h : map.Groups infos) (hagree : Agreeing infos) (ms : List MethodInfo) :
    (Agreeing (infos ++ ms) ∧ ∃ map', ms.foldlM OverloadMap.add map = .ok map' ∧
      map'.Groups (infos ++ ms)) ∨
    ∃ o ∈ infos ++ ms, ∃ m ∈ infos ++ ms, o.method.name = m.method.name ∧
      o.method.isStatic ≠ m.method.isStatic ∧
      ms.foldlM OverloadMap.add map = .error (.inconsistentMemberKind m.method.name) := by
  -- what was added so far agrees, so the next method need only agree with its own group
  induction ms generalizing map infos with
  | nil =>
    rw [List.append_nil]
    exact .inl ⟨hagree, map, rfl, h⟩
  | cons m ms ih =>
    rw [List.foldlM_cons]
    by_cases hm : ∀ o ∈ named infos m.method.name, o.method.isStatic = m.method.isStatic
    · obtain ⟨map₁, hadd, h₁⟩ := h.add hm
      rw [hadd, List.append_cons]
      exact ih h₁ (agreeing_append_iff.mpr ⟨hagree, hm⟩)
    · simp only [not_forall] at hm
      obtain ⟨o, ho, hne⟩ := hm
      obtain ⟨hmem, hname⟩ := mem_named_iff.mp ho
      refine .inr ⟨o, List.mem_append_left _ hmem, m, ?_, hname, hne, ?_⟩
      · exact List.mem_append_right _ List.mem_cons_self
      · rw [h.add_eq_error ho hne]; rfl

end OverloadMap

/-! ## What a closure declares -/

/-- The methods of a type that are not constructors, with the arguments it is reached with. -/
def View.declaredBy (v : View) (node : Semantics) (row : TypeRow) :
    Except Error (List MethodInfo) := do
  let methods ← v.methodRows row.methods
  return (methods.filter (!·.isConstructor)).map (⟨·, node.args⟩)

def View.declared (v : View) (nodes : List (Semantics × TypeRow)) :
    Except Error (List MethodInfo) := do
  return (← nodes.mapM fun x => v.declaredBy x.1 x.2).flatten

theorem OverloadMap.addMethods_eq {v : View} {hs : List MethodDef} {methods : List MethodRow}
    (h : v.methodRows hs = .ok methods) (arguments : List Semantics) (map : OverloadMap) :
    addMethods v arguments map hs =
      ((methods.filter (!·.isConstructor)).map (⟨·, arguments⟩)).foldlM OverloadMap.add map := by
  induction hs generalizing methods map with
  | nil => cases h; rfl
  | cons x hs ih =>
    obtain ⟨m, hm, methods', hms, rfl⟩ := Except.mapM_cons_eq_ok_iff.mp h
    rw [addMethods, hm, Except.ok_bind]
    cases hc : m.isConstructor with
    | true =>
      rw [if_pos rfl, pure_bind, List.filter_cons_of_neg (by simp [hc])]
      exact ih hms map
    | false =>
      rw [if_neg Bool.false_ne_true, List.filter_cons_of_pos (by simp [hc]), List.map_cons,
        List.foldlM_cons]
      exact bind_congr fun map' => ih hms map'

namespace Resolver

variable {r : Resolver} {c : Cache}

/-- The nodes of a closure, in the order of visits. -/
def closure (r : Resolver) (d : TypeDef) : Query (List (Semantics × TypeRow)) :=
  r.enumerate (fun nodes node row => .ok (nodes ++ [(node, row)])) [] d

theorem makeVisits_addMethods {out : List Stop} {infos : List MethodInfo}
    (h : r.view.declared (out.map fun x => (x.meaning, x.row)) = .ok infos) (map : OverloadMap) :
    makeVisits (fun ms node row => OverloadMap.addMethods r.view node.args ms row.methods) map out =
      infos.foldlM OverloadMap.add map := by
  obtain ⟨groups, hgroups, hinfos⟩ := Except.bind_eq_ok_iff.mp h
  cases hinfos
  clear h
  induction out generalizing groups map with
  | nil => cases hgroups; rfl
  | cons x out ih =>
    obtain ⟨group, hgroup, groups', hgroups', rfl⟩ := Except.mapM_cons_eq_ok_iff.mp hgroups
    obtain ⟨methods, hmethods, hgroup⟩ := Except.bind_eq_ok_iff.mp hgroup
    cases hgroup
    rw [makeVisits, List.foldlM_cons, OverloadMap.addMethods_eq hmethods, List.flatten_cons,
      List.foldlM_append]
    exact bind_congr fun map' => ih map' groups' hgroups'

theorem closure_eq_ok_iff {d : TypeDef} {nodes : List (Semantics × TypeRow)} :
    ((r.closure d).ask c).1 = .ok nodes ↔ ∃ out, r.Visits c [] [.definition d] out ∧
      out.map (fun x => (x.meaning, x.row)) = nodes := by
  have hfold : ∀ (out : List Stop) (start : List (Semantics × TypeRow)),
      out.foldl (fun nodes x => nodes ++ [(x.meaning, x.row)]) start =
        start ++ out.map fun x => (x.meaning, x.row) := by
    intro out
    induction out with
    | nil => intro start; exact (List.append_nil start).symm
    | cons x out ih => intro start; rw [List.foldl_cons, ih, List.append_assoc]; rfl
  refine ((r.gives_enumerate _ c [] d).ask_eq_ok_iff (r.keeps_self c)).trans ?_
  refine exists_congr fun out => and_congr_right fun _ => ?_
  rw [makeVisits_ok (fun nodes node row => nodes ++ [(node, row)]), Except.ok.injEq, hfold,
    List.nil_append]

end Resolver

/-! ## Sessions -/

namespace Session

theorem exists_declared (cfg : Config) (history : List Action) {nodes : List (Semantics × TypeRow)}
    (h : ∀ x ∈ nodes, ∃ d : TypeDef, (run cfg history).store.view.row d = .ok x.2) :
    ∃ infos, (run cfg history).store.view.declared nodes = .ok infos := by
  have hgroups : ∃ groups, nodes.mapM (fun x => (run cfg history).store.view.declaredBy x.1 x.2) =
      .ok groups := by
    refine Except.exists_mapM_eq_ok fun x hx => ?_
    obtain ⟨d, hrow⟩ := h x hx
    obtain ⟨methods, hmethods⟩ := (coherent_run cfg history).exists_methodRows hrow
    exact ⟨_, Except.bind_eq_ok_iff.mpr ⟨methods, hmethods, rfl⟩⟩
  obtain ⟨groups, hgroups⟩ := hgroups
  exact ⟨groups.flatten, Except.bind_eq_ok_iff.mpr ⟨groups, hgroups, rfl⟩⟩

/-- Where the walk over a closure succeeds, the methods of the closure are known, and they are merged
just if those of one name agree on being static. Then under each name stand all methods of that name,
in the order of visits and of declaration, each with the arguments of its node; the group is static if
they are. Otherwise two methods of the name in the failure differ. -/
theorem overloads_iff_agreeing (cfg : Config) (history : List Action) (d : TypeDef)
    (nodes : List (Semantics × TypeRow)) :
    let c := (run cfg history).memory
    let r := (run cfg history).resolver cfg
    ((r.closure d).ask c).1 = .ok nodes →
    ∃ infos, r.view.declared nodes = .ok infos ∧
      ((∃ map, ((r.overloads d).ask c).1 = .ok map) ↔ Agreeing infos) ∧
      (∀ map, ((r.overloads d).ask c).1 = .ok map → ∀ name,
        map[name]? = (if named infos name = [] then none else some (named infos name)) ∧
          ∀ m ∈ named infos name, isStaticGroup (named infos name) = m.method.isStatic) ∧
      (∀ e, ((r.overloads d).ask c).1 = .error e → ∃ m ∈ infos, ∃ m' ∈ infos,
        m.method.name = m'.method.name ∧ m.method.isStatic ≠ m'.method.isStatic ∧
          e = .inconsistentMemberKind m.method.name) := by
  intro c r hok
  obtain ⟨out, hv, rfl⟩ := Resolver.closure_eq_ok_iff.mp hok
  have hrows : ∀ x ∈ out.map fun x => (x.meaning, x.row), ∃ d' : TypeDef,
      r.view.row d' = .ok x.2 := by
    intro x hx
    obtain ⟨stop, hstop, rfl⟩ := List.mem_map.mp hx
    exact ⟨stop.type, (hv.stops stop hstop).2⟩
  obtain ⟨infos, hinfos⟩ := exists_declared cfg history hrows
  have hanswer : ((r.overloads d).ask c).1 = infos.foldlM OverloadMap.add ∅ :=
    (r.answers_enumerate _ c ∅ d hv c (r.keeps_self c)).1.trans
      (Resolver.makeVisits_addMethods hinfos ∅)
  refine ⟨infos, hinfos, ?_⟩
  rw [hanswer]
  have hnil : Agreeing [] := fun m hm => absurd hm List.not_mem_nil
  rcases OverloadMap.groups_empty.addAll hnil infos with ⟨hagree, map, hmap, hgroups⟩ |
    ⟨m, hm, m', hm', hname, hne, herror⟩
  · rw [hmap]
    refine ⟨⟨fun _ => hagree, fun _ => ⟨map, rfl⟩⟩, ?_, ?_⟩
    · intro map' e name
      cases e
      exact ⟨hgroups name, fun m hm => isStaticGroup_named hagree hm⟩
    · intro e h
      cases h
  · rw [herror]
    refine ⟨⟨?_, fun h => absurd (h m hm m' hm' hname) hne⟩, ?_, ?_⟩
    · rintro ⟨map, h⟩
      cases h
    · intro map h
      cases h
    · intro e h
      cases h
      exact ⟨m', hm', m, hm, hname.symm, hne.symm, rfl⟩

/-- A generic interface, and an interface that requires it over strings and overloads its method. -/
def overloading : List Action :=
  let run : TypeClause := .method "Run" []
  [.define (.ofClauses "" "J" [.category .interface, .genericParam "T", run]),
    .addTypeSpec (.genericInst (.classType ⟨Table.typeDef.number, 1⟩) [.fundamental .string]),
    .define (.ofClauses "" "I" [.category .interface, .implements (.typeSpec ⟨1⟩), run, run])]

theorem overloads_iff_agreeing_overloading :
    let r := (run {} overloading).resolver {}
    let c := (run {} overloading).memory
    ∃ nodes infos map, ((r.closure ⟨2⟩).ask c).1 = .ok nodes ∧
      nodes.map (·.1) = [.definition ⟨2⟩, .inst ⟨1⟩ [.fundamental .string]] ∧
      r.view.declared nodes = .ok infos ∧ Agreeing infos ∧
      ((r.overloads ⟨2⟩).ask c).1 = .ok map ∧ map["Run"]? = some (named infos "Run") ∧
      (named infos "Run").map (·.arguments) = [[], [], [.fundamental .string]] := by
  intro r c
  obtain ⟨nodes, hok, hnodes, hargs⟩ : ∃ nodes, ((r.closure ⟨2⟩).ask c).1 = .ok nodes ∧
      nodes.map (·.1) = [.definition ⟨2⟩, .inst ⟨1⟩ [.fundamental .string]] ∧
      ((r.view.declared nodes).map fun infos => (named infos "Run").map (·.arguments)) =
        .ok [[], [], [.fundamental .string]] := ⟨_, rfl, rfl, rfl⟩
  obtain ⟨map, hmap⟩ : ∃ map, ((r.overloads ⟨2⟩).ask c).1 = .ok map := ⟨_, rfl⟩
  obtain ⟨infos, hinfos, hiff, hgroups, -⟩ := overloads_iff_agreeing {} overloading ⟨2⟩ nodes hok
  rw [hinfos] at hargs
  have hargs : (named infos "Run").map (·.arguments) = [[], [], [.fundamental .string]] :=
    Except.ok.inj hargs
  have hne : named infos "Run" ≠ [] := by
    intro e
    rw [e] at hargs
    cases hargs
  refine ⟨nodes, infos, map, hok, hnodes, hinfos, hiff.mp ⟨map, hmap⟩, hmap, ?_, hargs⟩
  rw [(hgroups map hmap "Run").1, if_neg hne]

end Session
end MetadataProjection
