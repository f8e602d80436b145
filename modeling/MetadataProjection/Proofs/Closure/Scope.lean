import MetadataProjection.Proofs.Closure.Reachability
import MetadataProjection.Proofs.Coherence
import MetadataProjection.Proofs.Positions

/-!
# MetadataProjection.Proofs.Closure.Scope

Where open positions belong. A declared interface speaks of the parameters of the type that declares
it; on the way down from a root they are filled, level by level, until only the parameters of the
root are left.

* `View.Fits`: what a type with a number of parameters may declare. Arguments put into it make it
  fit the type that they fit (`Fits.substitute`).
* `Resolver.WellScoped`: whatever an interface is declared as fits the type that declares it.
* `Visits.fits`: the invariant. Every node of a pre-order fits the root.
* `Session.requiredInterfaces_wellScoped`: so the arguments of a required interface are as many as
  its parameters, and speak of the root's parameters by their names.
-/

namespace MetadataProjection

namespace View

/-- What a type with `n` parameters may declare: a definition without parameters, or an instance
with an argument for each parameter, in which at most these `n` are open. -/
def Fits (v : View) (n : Nat) : Semantics → Prop
  | .definition d => ∀ row : TypeRow, v.row d = .ok row → row.genericParams = []
  | .inst d args =>
    (∀ row : TypeRow, v.row d = .ok row → args.length = row.genericParams.length) ∧
      ∀ a ∈ args, a.Within n
  | _ => False

variable {v : View} {n k : Nat} {m : Semantics}

theorem Fits.within (h : v.Fits n m) : m.Within n := by
  cases m with
  | definition d => intro i hi; cases hi
  | inst d args => exact Semantics.within_inst_iff.mpr h.2
  | fundamental _ | object | guid | index _ => exact h.elim

theorem Fits.args_within (h : v.Fits n m) : ∀ a ∈ m.args, a.Within n := by
  cases m with
  | inst d args => exact h.2
  | definition _ => intro a ha; cases ha
  | fundamental _ | object | guid | index _ => exact h.elim

theorem Fits.args_length (h : v.Fits n m) {d : TypeDef} {row : TypeRow}
    (hd : m.definitionOf = .ok d) (hrow : v.row d = .ok row) :
    m.args.length = row.genericParams.length := by
  cases m with
  | definition _ =>
    cases hd
    rw [h row hrow]; rfl
  | inst _ args =>
    cases hd
    exact h.1 row hrow
  | fundamental _ | object | guid | index _ => exact h.elim

theorem Fits.substitute {actuals : List Semantics} (h : v.Fits actuals.length m)
    (ha : ∀ a ∈ actuals, a.Within n) : v.Fits n (m.substitute actuals) := by
  cases m with
  | definition d => exact h
  | inst d args =>
    rw [Semantics.substitute, Semantics.substituteList_eq_map]
    refine ⟨fun row hrow => ?_, fun b hb => ?_⟩
    · rw [List.length_map]; exact h.1 row hrow
    · obtain ⟨a, hmem, rfl⟩ := List.mem_map.mp hb
      exact (h.2 a hmem).substitute ha
  | fundamental _ | object | guid | index _ => exact h.elim

end View

namespace Resolver

/-- Whatever a type declares as an interface fits it. -/
def WellScoped (r : Resolver) (c : Cache) : Prop :=
  ∀ (d : TypeDef) (row : TypeRow), r.view.row d = .ok row → ∀ ref ∈ row.interfaces,
    ∀ m, r.answer c ref = .ok m → r.view.Fits row.genericParams.length m

/-- The nodes a walk comes upon, visited or not: its roots, and all below the nodes it visits. -/
def ComesUpon (r : Resolver) (c : Cache) (roots : List Semantics) (out : List Stop)
    (node : Semantics) : Prop :=
  node ∈ roots ∨ ∃ x ∈ out, ∃ children, r.childrenOf c x.meaning x.row = .ok children ∧
    node ∈ children

variable {r : Resolver} {c : Cache} {root d : TypeDef} {rootRow : TypeRow}

/-! ## Every node fits the root -/

/-- A node that is the root itself, or fits it. A generic root does not fit itself: as a node it
stands for its own parameters, without arguments. -/
def FitsRoot (r : Resolver) (root : TypeDef) (rootRow : TypeRow) (node : Semantics) : Prop :=
  node = .definition root ∨ r.view.Fits rootRow.genericParams.length node

theorem FitsRoot.args_within {node : Semantics} (h : r.FitsRoot root rootRow node) :
    ∀ a ∈ node.args, a.Within rootRow.genericParams.length := by
  rcases h with rfl | h
  · intro a ha; cases ha
  · exact h.args_within

theorem children_fit (hs : r.WellScoped c) (hroot : r.view.row root = .ok rootRow)
    {node : Semantics} {row : TypeRow} {children : List Semantics}
    (hd : node.definitionOf = .ok d) (hrow : r.view.row d = .ok row)
    (hc : r.childrenOf c node row = .ok children) (h : r.FitsRoot root rootRow node) :
    ∀ child ∈ children, r.view.Fits rootRow.genericParams.length child := by
  intro child hchild
  obtain ⟨k, _, hc⟩ := childrenOf_eq_ok_iff.mp hc
  by_cases hk : k = .interface
  · rw [if_pos hk] at hc
    obtain ⟨ms, hms, rfl⟩ := hc
    obtain ⟨m, hm, rfl⟩ := List.mem_map.mp hchild
    obtain ⟨ref, href, hans⟩ := (Except.exists_of_mem_of_mapM hms).2 m hm
    have hfits := hs d row hrow ref href m hans
    rcases h with rfl | h
    · -- a generic root stands for its own parameters: nothing is put in
      cases hd
      rw [hroot] at hrow; cases hrow
      have hargs : (Semantics.definition root).args = [] := rfl
      rw [hargs, Semantics.substitute_nil]
      exact hfits
    · rw [← h.args_length hd hrow] at hfits
      exact hfits.substitute h.args_within
  · rw [if_neg hk] at hc
    rw [← hc] at hchild
    cases hchild

theorem Visits.fits (hs : r.WellScoped c) (hroot : r.view.row root = .ok rootRow)
    {seen : List TypeDef} {nodes : List Semantics} {out : List Stop}
    (h : r.Visits c seen nodes out) (hn : ∀ node ∈ nodes, r.FitsRoot root rootRow node) :
    ∀ x ∈ out, r.FitsRoot root rootRow x.meaning := by
  induction h with
  | done seen => intro x hx; cases hx
  | skip _ _ _ ih => exact ih fun x hx => hn x (List.mem_cons_of_mem _ hx)
  | visit hd _ hrow hc _ _ ihbelow ihbeside =>
    have hnode := hn _ List.mem_cons_self
    have hchildren := children_fit hs hroot hd hrow hc hnode
    intro x hx
    rw [List.mem_cons, List.mem_append] at hx
    rcases hx with rfl | hx | hx
    · exact hnode
    · exact ihbelow (fun child h => .inr (hchildren child h)) x hx
    · exact ihbeside (fun y hy => hn y (List.mem_cons_of_mem _ hy)) x hx

theorem rootsOf_fit (hs : r.WellScoped c) (hroot : r.view.row root = .ok rootRow)
    {roots : List Semantics} (h : r.rootsOf c root rootRow = .ok roots) :
    ∀ node ∈ roots, r.FitsRoot root rootRow node := by
  obtain ⟨k, _, h⟩ := rootsOf_eq_ok_iff.mp h
  intro node hnode
  by_cases hk : k = .interface
  · rw [if_pos hk] at h
    cases h
    exact .inl (List.mem_singleton.mp hnode)
  · rw [if_neg hk] at h
    obtain ⟨ref, href, hans⟩ := (Except.exists_of_mem_of_mapM h).2 node hnode
    exact .inr (hs root rootRow hroot ref href node hans)

theorem Visits.args_within (hs : r.WellScoped c) (hroot : r.view.row root = .ok rootRow)
    {roots : List Semantics} {out : List Stop} (hroots : r.rootsOf c root rootRow = .ok roots)
    (h : r.Visits c [] roots out) {node : Semantics} (hnode : r.ComesUpon c roots out node) :
    ∀ a ∈ node.args, a.Within rootRow.genericParams.length := by
  have hfits := rootsOf_fit hs hroot hroots
  rcases hnode with hnode | ⟨x, hx, children, hc, hnode⟩
  · exact (hfits node hnode).args_within
  · obtain ⟨hd, hrow⟩ := h.stops x hx
    have hchildren := children_fit hs hroot hd hrow hc (h.fits hs hroot hfits x hx)
    exact (hchildren node hnode).args_within

/-! ## What is recorded -/

theorem Recorded.spelled {x : Stop} {info : InterfaceInfo} (hroot : r.view.row root = .ok rootRow)
    (hd : x.meaning.definitionOf = .ok x.type) (hrow : r.view.row x.type = .ok x.row)
    (hfits : r.FitsRoot root rootRow x.meaning) (h : r.Recorded rootRow.genericParams x info) :
    info.arguments.length = x.row.genericParams.length ∧
      (x.meaning = .definition root ∧ info.arguments = rootRow.genericParams ∨
        List.Forall₂ (Semantics.Spelled r.view rootRow.genericParams) x.meaning.args
          info.arguments) := by
  obtain ⟨meaning, d, row⟩ := x
  obtain ⟨-, hargs⟩ := h
  cases meaning with
  | definition d' =>
    obtain rfl : d' = d := Except.ok.inj hd
    have hargs : info.arguments = row.genericParams := hargs
    rw [hargs]
    refine ⟨rfl, ?_⟩
    rcases hfits with h | h
    · cases h
      rw [hroot] at hrow; cases hrow
      exact .inl ⟨rfl, rfl⟩
    · rw [h row hrow]
      exact .inr .nil
  | inst d' args =>
    obtain rfl : d' = d := Except.ok.inj hd
    have hfits : r.view.Fits rootRow.genericParams.length (.inst d' args) :=
      hfits.resolve_left nofun
    have hargs : Semantics.renderArgs r.view rootRow.genericParams args = .ok info.arguments :=
      (Semantics.renderArgs_eq_mapM _ _ _).trans (Except.mapM_eq_ok_iff.mpr hargs)
    have hspelled := Semantics.spelled_of_renderArgs hfits.args_within hargs
    refine ⟨?_, .inr hspelled⟩
    rw [← hspelled.length_eq]
    exact hfits.args_length rfl hrow
  | fundamental _ | object | guid | index _ => cases hd

end Resolver

/-! ## Sessions -/

namespace Session

/-- Where declared interfaces fit the types that declare them, the required interfaces of any type
have as many arguments as parameters. Whatever the walk comes upon speaks of the parameters of the
root alone, and of none if the root has none; every declared interface speaks of parameters for which
its node has arguments; and in the text of an argument each open position bears the name of that
parameter of the root. -/
theorem requiredInterfaces_wellScoped (cfg : Config) (history : List Action) (d : TypeDef)
    (infos : List InterfaceInfo) :
    let c := (run cfg history).memory
    let r := (run cfg history).resolver cfg
    r.WellScoped c → ((r.requiredInterfaces d).ask c).1 = .ok infos →
    ∃ (row : TypeRow) (roots : List Semantics) (out : List Resolver.Stop),
      r.view.row d = .ok row ∧ r.rootsOf c d row = .ok roots ∧ r.Visits c [] roots out ∧
      (∀ node, r.ComesUpon c roots out node →
        ∀ a ∈ node.args, a.Within row.genericParams.length) ∧
      (row.genericParams = [] → ∀ node, r.ComesUpon c roots out node →
        ∀ a ∈ node.args, a.hasIndex = false) ∧
      (∀ x ∈ out, x.meaning = .definition d ∨ ∀ ref ∈ x.row.interfaces, ∀ m,
        r.answer c ref = .ok m → m.Within x.meaning.args.length) ∧
      List.Forall₂ (fun x info => info.type = x.type ∧ r.view.row info.type = .ok x.row ∧
        info.arguments.length = x.row.genericParams.length ∧
        (x.meaning = .definition d ∧ info.arguments = row.genericParams ∨
          List.Forall₂ (Semantics.Spelled r.view row.genericParams) x.meaning.args
            info.arguments)) out infos := by
  intro c r hs hok
  obtain ⟨row, hrow, roots, hroots, out, hv, hinfos⟩ :=
    (Resolver.requiredInterfaces_eq_ok_iff (coherent_run cfg history).view).mp hok
  have hvisited := hv.fits hs hrow (Resolver.rootsOf_fit hs hrow hroots)
  have hwithin := fun node (hnode : r.ComesUpon c roots out node) =>
    hv.args_within hs hrow hroots hnode
  refine ⟨row, roots, out, hrow, hroots, hv, hwithin, ?_, ?_, ?_⟩
  · intro hclosed node hnode a ha
    have h := hwithin node hnode a ha
    rw [hclosed] at h
    exact Semantics.within_zero_iff.mp h
  · intro x hx
    obtain ⟨hd, hxrow⟩ := hv.stops x hx
    rcases hvisited x hx with h | h
    · exact .inl h
    · refine .inr fun ref href m hans => ?_
      rw [h.args_length hd hxrow]
      exact (hs x.type x.row hxrow ref href m hans).within
  · refine ((List.forall₂_and_left _ _).mpr ⟨fun x hx => hx, hinfos⟩).imp ?_
    rintro x info ⟨hx, hinfo⟩
    obtain ⟨hd, hxrow⟩ := hv.stops x hx
    rw [hinfo.1]
    exact ⟨rfl, hxrow, hinfo.spelled hrow hd hxrow (hvisited x hx)⟩

/-- An iterable, a vector that requires it, and an interface that requires a vector of vectors of its
own parameter. -/
def nestedVectors : List Action :=
  let instanceOf (generic : RowNumber) (arg : Signature) : Signature :=
    .genericInst (.classType ⟨Table.typeDef.number, generic⟩) [arg]
  let requiring (name param : String) (refs : List TypeDefOrRef) : TypeDecl :=
    { space := "", name, flags := TypeFlag.interface, genericParams := [param],
      interfaces := refs }
  [.define (requiring "I" "T" []), .addTypeSpec (instanceOf 1 (.genericParamType 0)),
    .define (requiring "V" "E" [.typeSpec ⟨1⟩]),
    .addTypeSpec (instanceOf 2 (instanceOf 2 (.genericParamType 0))),
    .define (requiring "R" "K" [.typeSpec ⟨2⟩])]

theorem wellScoped_nestedVectors :
    ((run {} nestedVectors).resolver {}).WellScoped (run {} nestedVectors).memory := by
  intro d row hrow ref href m hm
  have hd : d ∈ [(⟨1⟩ : TypeDef), ⟨2⟩, ⟨3⟩] := View.mem_definitions_of_row hrow
  simp only [List.mem_cons, List.not_mem_nil, or_false] at hd
  rcases hd with rfl | rfl | rfl
  · cases hrow
    cases href
  all_goals
    cases hrow
    cases List.mem_singleton.mp href
    cases hm
    refine ⟨fun row hrow => by cases hrow; rfl, fun a ha i hi => ?_⟩
    cases List.mem_singleton.mp ha
    cases List.mem_singleton.mp hi
    decide

theorem requiredInterfaces_wellScoped_nestedVectors :
    let r := (run {} nestedVectors).resolver {}
    let c := (run {} nestedVectors).memory
    ((r.requiredInterfaces ⟨3⟩).ask c).1 =
        .ok [⟨⟨3⟩, ["K"]⟩, ⟨⟨2⟩, ["V<K>"]⟩, ⟨⟨1⟩, ["V<K>"]⟩] ∧
      ∃ roots out, r.Visits c [] roots out ∧ out.length = 3 ∧
        ∀ node, r.ComesUpon c roots out node → ∀ a ∈ node.args, a.Within 1 := by
  intro r c
  have hok : ((r.requiredInterfaces ⟨3⟩).ask c).1 =
    .ok [⟨⟨3⟩, ["K"]⟩, ⟨⟨2⟩, ["V<K>"]⟩, ⟨⟨1⟩, ["V<K>"]⟩] := rfl
  obtain ⟨row, roots, out, hrow, _, hv, hwithin, _, _, hinfos⟩ :=
    requiredInterfaces_wellScoped {} nestedVectors ⟨3⟩ _ wellScoped_nestedVectors hok
  cases hrow
  exact ⟨hok, roots, out, hv, hinfos.length_eq, hwithin⟩

end Session
end MetadataProjection
