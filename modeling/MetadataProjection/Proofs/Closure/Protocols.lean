import MetadataProjection.Closure.Implements
import MetadataProjection.Proofs.Closure.Scope

/-!
# MetadataProjection.Proofs.Closure.Protocols

Whether a type implements an interface is decided by a search of its own, which does not look at
what a node is before it goes on below it. Where all that is declared are interfaces, the search and
the closure go the same ways.

* `Resolver.Declares`, `Resolver.Inherits`: what a type declares, and what it leads to whether or
  not interfaces lie in between. `Resolver.DeclaresInterfaces`: nothing but interfaces is declared.
* `Resolver.Searching`: the invariant of the search. Nothing visited is what is looked for, and
  whatever it declares was visited or waits. `answers_search`: so the search finds what can be
  found.
* `Session.implements_iff_required`: a type implements an interface if the interface is among those
  that are required of the type.
-/

namespace MetadataProjection
namespace Resolver

variable {r : Resolver} {c : Cache} {d d' d₀ root : TypeDef} {row : TypeRow} {space name : String}

/-! ## What is declared -/

/-- The type `d`, of whatever category, declares a reference to `d'`. -/
def Declares (r : Resolver) (c : Cache) (d d' : TypeDef) : Prop :=
  ∃ row : TypeRow, r.view.row d = .ok row ∧
    ∃ ref ∈ row.interfaces, ∃ m, r.answer c ref = .ok m ∧ m.definitionOf = .ok d'

def Inherits (r : Resolver) (c : Cache) : TypeDef → TypeDef → Prop :=
  Relation.ReflTransGen (r.Declares c)

/-- Whatever the type declares, or whatever it leads to, is an interface. -/
def DeclaresInterfaces (r : Resolver) (c : Cache) (d : TypeDef) : Prop :=
  ∀ d', r.Inherits c d d' → ∀ row : TypeRow, r.view.row d' = .ok row → ∀ ref ∈ row.interfaces,
    ∃ m k, r.answer c ref = .ok m ∧ m.definitionOf = .ok k ∧ r.view.category k = .ok .interface

theorem requires_iff_declares :
    r.Requires c d d' ↔ r.view.category d = .ok .interface ∧ r.Declares c d d' := by
  constructor
  · rintro ⟨row, hrow, hcat, h⟩
    exact ⟨Except.bind_eq_ok_iff.mpr ⟨row, hrow, hcat⟩, row, hrow, h⟩
  · rintro ⟨hcat, row, hrow, h⟩
    obtain ⟨row', hrow', hcat⟩ := Except.bind_eq_ok_iff.mp hcat
    rw [hrow] at hrow'; cases hrow'
    exact ⟨row, hrow, hcat, h⟩

theorem DeclaresInterfaces.of_inherits (h : r.DeclaresInterfaces c d) (hd : r.Inherits c d d') :
    r.DeclaresInterfaces c d' :=
  fun x hx => h x (hd.trans hx)

theorem DeclaresInterfaces.interface (h : r.DeclaresInterfaces c d) (hd : r.Declares c d d') :
    r.view.category d' = .ok .interface := by
  obtain ⟨row, hrow, ref, href, m, hm, hd'⟩ := hd
  obtain ⟨m', k, hm', hk, hcat⟩ := h d .refl row hrow ref href
  rw [hm] at hm'; cases hm'
  rw [hd'] at hk; cases hk
  exact hcat

theorem DeclaresInterfaces.category (h : r.DeclaresInterfaces c d)
    (hcat : r.view.category d = .ok .interface) (hd : r.Inherits c d d') :
    r.view.category d' = .ok .interface := by
  cases hd with
  | refl => exact hcat
  | tail hd hdecl => exact (h.of_inherits hd).interface hdecl

/-- Where nothing but interfaces is declared, the closure goes wherever declarations lead. -/
theorem DeclaresInterfaces.reachable_iff (h : r.DeclaresInterfaces c d)
    (hcat : r.view.category d = .ok .interface) :
    r.Reachable c d d' ↔ r.Inherits c d d' := by
  constructor
  · intro hreach
    exact hreach.lift id fun _ _ hreq => (requires_iff_declares.mp hreq).2
  · intro hd
    induction hd with
    | refl => exact .refl
    | tail hd hdecl ih => exact ih.tail (requires_iff_declares.mpr ⟨h.category hcat hd, hdecl⟩)

/-! ## The search -/

def IsInterface (r : Resolver) (space name : String) (d : TypeDef) : Prop :=
  ∃ row : TypeRow, r.view.row d = .ok row ∧ row.isNamed space name = true ∧
    r.view.categoryOf row = .ok .interface

def Searchable (r : Resolver) (c : Cache) (d : TypeDef) : Prop :=
  ∃ (row : TypeRow) (k : Category), r.view.row d = .ok row ∧ r.view.categoryOf row = .ok k ∧
    ∀ ref ∈ row.interfaces, ∃ m d', r.answer c ref = .ok m ∧ m.definitionOf = .ok d'

/-- What is below a type that is no interface is below the interfaces it declares. -/
theorem DeclaresInterfaces.exists_reachable_iff (h : r.DeclaresInterfaces c root) {k : Category}
    (hcat : r.view.category root = .ok k) (hk : k ≠ .interface) :
    (∃ d₀, r.Declares c root d₀ ∧ r.Reachable c d₀ d) ↔
      r.Inherits c root d ∧ r.view.category d = .ok .interface := by
  constructor
  · rintro ⟨d₀, hdecl, hreach⟩
    have hbelow := h.of_inherits (.single hdecl)
    have hd := (hbelow.reachable_iff (h.interface hdecl)).mp hreach
    exact ⟨.head hdecl hd, hbelow.category (h.interface hdecl) hd⟩
  · rintro ⟨hd, hdcat⟩
    rcases hd.cases_head with rfl | ⟨d₀, hdecl, hd⟩
    · rw [hcat] at hdcat
      exact absurd (Except.ok.inj hdcat) hk
    · have hbelow := h.of_inherits (.single hdecl)
      exact ⟨d₀, hdecl, (hbelow.reachable_iff (h.interface hdecl)).mpr hd⟩

theorem declares_iff_mem {row : TypeRow} (hrow : r.view.row d = .ok row) {nodes : List Semantics}
    (hnodes : row.interfaces.mapM (r.answer c) = .ok nodes) :
    r.Declares c d d' ↔ ∃ node ∈ nodes, node.definitionOf = .ok d' := by
  obtain ⟨hmeant, hnamed⟩ := Except.exists_of_mem_of_mapM hnodes
  constructor
  · rintro ⟨row', hrow', ref, href, m, hm, hd'⟩
    rw [hrow] at hrow'; cases hrow'
    obtain ⟨node, hnode, hans⟩ := hmeant ref href
    rw [hm] at hans; cases hans
    exact ⟨m, hnode, hd'⟩
  · rintro ⟨node, hnode, hd'⟩
    obtain ⟨ref, href, hans⟩ := hnamed node hnode
    exact ⟨row, hrow, ref, href, node, hans, hd'⟩

theorem DeclaresInterfaces.searchable (h : r.DeclaresInterfaces c root) {k : Category}
    (hk : r.view.category root = .ok k) (hd : r.Inherits c root d) : r.Searchable c d := by
  obtain ⟨k, hk⟩ : ∃ k, r.view.category d = .ok k := by
    cases hd with
    | refl => exact ⟨k, hk⟩
    | tail hd hdecl => exact ⟨_, (h.of_inherits hd).interface hdecl⟩
  obtain ⟨row, hrow, hcat⟩ := Except.bind_eq_ok_iff.mp hk
  refine ⟨row, k, hrow, hcat, fun ref href => ?_⟩
  obtain ⟨m, d', hm, hd', -⟩ := h d hd row hrow ref href
  exact ⟨m, d', hm, hd'⟩

def lookAt (r : Resolver) (space name : String) (found : Bool) (_ : TypeDef) (row : TypeRow) :
    Query (Visit Bool TypeDef) := do
  if ← r.isInterfaceNamed space name row then return .stop true
  else
    let declared ← row.interfaces.mapM r.definitionOf
    return .next found declared.reverse

theorem isInterfaceNamed_of_category {k : Category} (hk : r.view.categoryOf row = .ok k) :
    r.isInterfaceNamed space name row = .ok (row.isNamed space name && k = .interface) := by
  unfold isInterfaceNamed
  cases row.isNamed space name with
  | false => rfl
  | true => rw [hk]; rfl

theorem answers_definitionOf (r : Resolver) (c : Cache) (ref : TypeDefOrRef) :
    Query.Answers (r.Keeps (r.recalls c)) (r.definitionOf ref)
      (r.answer c ref >>= Semantics.definitionOf) :=
  (r.answers_answer c ref).bind fun _ _ => .lift _

theorem mem_iff_declares (hrow : r.view.row d = .ok row) {ds : List TypeDef}
    (hds : (row.interfaces.mapM fun ref => r.answer c ref >>= Semantics.definitionOf) = .ok ds) :
    d' ∈ ds ↔ r.Declares c d d' := by
  constructor
  · intro hd'
    obtain ⟨ref, href, h⟩ := (Except.exists_of_mem_of_mapM hds).2 d' hd'
    obtain ⟨m, hm, hd'⟩ := Except.bind_eq_ok_iff.mp h
    exact ⟨row, hrow, ref, href, m, hm, hd'⟩
  · rintro ⟨row', hrow', ref, href, m, hm, hd'⟩
    rw [hrow] at hrow'; cases hrow'
    obtain ⟨k, hmem, h⟩ := (Except.exists_of_mem_of_mapM hds).1 ref href
    rw [Except.bind_eq_ok_iff.mpr ⟨m, hm, hd'⟩] at h
    cases h
    exact hmem

theorem Searchable.answers_lookAt (h : r.Searchable c d) (space name : String) :
    ∃ row : TypeRow, r.view.row d = .ok row ∧
      (r.IsInterface space name d ∧ Query.Answers (r.Keeps (r.recalls c))
          (r.lookAt space name false d row) (.ok (.stop true)) ∨
        ¬ r.IsInterface space name d ∧ ∃ ds, (∀ d', d' ∈ ds ↔ r.Declares c d d') ∧
          Query.Answers (r.Keeps (r.recalls c)) (r.lookAt space name false d row)
            (.ok (.next false ds))) := by
  obtain ⟨row, k, hrow, hk, hrefs⟩ := h
  have hnamed : r.isInterfaceNamed space name row =
      .ok (row.isNamed space name && k = .interface) := isInterfaceNamed_of_category hk
  refine ⟨row, hrow, ?_⟩
  cases hfound : row.isNamed space name && k = .interface with
  | true =>
    rw [hfound] at hnamed
    obtain ⟨hname, hi⟩ := Bool.and_eq_true_iff.mp hfound
    refine .inl ⟨⟨row, hrow, hname, of_decide_eq_true hi ▸ hk⟩, ?_⟩
    rw [lookAt, hnamed]
    exact (Query.Answers.lift (.ok true)).bind_ok (.pure _)
  | false =>
    rw [hfound] at hnamed
    have hnone : ¬ r.IsInterface space name d := by
      rintro ⟨row', hrow', hname, hi⟩
      rw [hrow] at hrow'; cases hrow'
      rw [hk] at hi; cases hi
      rw [hname] at hfound
      cases hfound
    have hmeant : ∀ ref ∈ row.interfaces,
        ∃ d', r.answer c ref >>= Semantics.definitionOf = .ok d' := by
      intro ref href
      obtain ⟨m, d', hm, hd'⟩ := hrefs ref href
      exact ⟨d', Except.bind_eq_ok_iff.mpr ⟨m, hm, hd'⟩⟩
    obtain ⟨ds, hds⟩ := Except.exists_mapM_eq_ok hmeant
    refine .inr ⟨hnone, ds.reverse, fun d' => ?_, ?_⟩
    · rw [List.mem_reverse]
      exact mem_iff_declares hrow hds
    · have hanswers := Query.Answers.mapM (r.answers_definitionOf c) row.interfaces
      rw [hds] at hanswers
      rw [lookAt, hnamed]
      exact (Query.Answers.lift (.ok false)).bind_ok (hanswers.bind_ok (.pure _))

/-- What a search has visited, and what waits, when it is not over. -/
structure Searching (r : Resolver) (c : Cache) (space name : String) (root : TypeDef)
    (visited stack : List TypeDef) : Prop where
  start : root ∈ visited ∨ root ∈ stack
  inherited : ∀ d ∈ stack, r.Inherits c root d
  missed : ∀ d ∈ visited, ¬ r.IsInterface space name d
  closed : ∀ d ∈ visited, ∀ d', r.Declares c d d' → d' ∈ visited ∨ d' ∈ stack

namespace Searching

variable {visited rest ds : List TypeDef}

theorem init : r.Searching c space name root [] [root] :=
  ⟨.inr List.mem_cons_self, fun _ hd => List.mem_singleton.mp hd ▸ .refl,
    fun _ hd => absurd hd List.not_mem_nil, fun _ hd => absurd hd List.not_mem_nil⟩

theorem skip (h : r.Searching c space name root visited (d :: rest)) (hd : d ∈ visited) :
    r.Searching c space name root visited rest := by
  have hdrop : ∀ {x : TypeDef}, x ∈ visited ∨ x ∈ d :: rest → x ∈ visited ∨ x ∈ rest := by
    rintro x (hx | hx)
    · exact .inl hx
    · rcases List.mem_cons.mp hx with rfl | hx
      · exact .inl hd
      · exact .inr hx
  exact ⟨hdrop h.start, fun x hx => h.inherited x (List.mem_cons_of_mem d hx), h.missed,
    fun x hx y hy => hdrop (h.closed x hx y hy)⟩

theorem visit (h : r.Searching c space name root visited (d :: rest))
    (hmissed : ¬ r.IsInterface space name d) (hds : ∀ d', d' ∈ ds ↔ r.Declares c d d') :
    r.Searching c space name root (d :: visited) (ds ++ rest) := by
  have hmove : ∀ {x : TypeDef}, x ∈ visited ∨ x ∈ d :: rest →
      x ∈ d :: visited ∨ x ∈ ds ++ rest := by
    intro x hx
    simp only [List.mem_cons, List.mem_append] at hx ⊢
    tauto
  refine ⟨hmove h.start, fun x hx => ?_, ?_, fun x hx y hy => ?_⟩
  · rcases List.mem_append.mp hx with hx | hx
    · exact (h.inherited d List.mem_cons_self).tail ((hds x).mp hx)
    · exact h.inherited x (List.mem_cons_of_mem d hx)
  · exact List.forall_mem_cons.mpr ⟨hmissed, h.missed⟩
  · rcases List.mem_cons.mp hx with rfl | hx
    · exact .inr (List.mem_append_left rest ((hds y).mpr hy))
    · exact hmove (h.closed x hx y hy)

theorem none (h : r.Searching c space name root visited []) :
    ¬ ∃ d, r.Inherits c root d ∧ r.IsInterface space name d := by
  have hempty : ∀ {x : TypeDef}, x ∈ visited ∨ x ∈ [] → x ∈ visited :=
    fun h => h.elim id fun h => absurd h List.not_mem_nil
  have hall : ∀ {x : TypeDef}, r.Inherits c root x → x ∈ visited := by
    intro x hx
    induction hx with
    | refl => exact hempty h.start
    | tail _ hdecl ih => exact hempty (h.closed _ ih _ hdecl)
  rintro ⟨x, hx, hfound⟩
  exact h.missed x (hall hx) hfound

end Searching

theorem answers_search (hs : ∀ d, r.Inherits c root d → r.Searchable c d) (n : Nat)
    (visited stack : List TypeDef) (hn : r.view.unvisited visited = n)
    (h : r.Searching c space name root visited stack) :
    ∃ tour : Tour Bool, Query.Answers (r.Keeps (r.recalls c))
        (r.view.traverse pure (r.lookAt space name) { visited, state := false } stack) (.ok tour) ∧
      (tour.state = true ↔ ∃ d, r.Inherits c root d ∧ r.IsInterface space name d) := by
  -- on what is left to visit and, as long as nothing is visited, on the stack
  induction n using Nat.strongRecOn generalizing visited stack with
  | ind n ihn =>
    induction stack with
    | nil =>
      rw [View.traverse_nil]
      exact ⟨_, .pure _, iff_of_false Bool.false_ne_true h.none⟩
    | cons d rest ih =>
      rw [View.traverse_cons]
      by_cases hd : d ∈ visited
      · obtain ⟨tour, htour, hfound⟩ := ih (h.skip hd)
        refine ⟨tour, (Query.Answers.lift (.ok d)).bind_ok ?_, hfound⟩
        rw [if_pos hd]
        exact htour
      · have hinherits := h.inherited d List.mem_cons_self
        obtain ⟨row, hrow, hcases⟩ := (hs d hinherits).answers_lookAt space name
        have hlt := View.unvisited_cons_lt hrow hd
        rcases hcases with ⟨hfound, hlook⟩ | ⟨hmissed, ds, hds, hlook⟩
        · refine ⟨⟨d :: visited, true⟩, (Query.Answers.lift (.ok d)).bind_ok ?_,
            iff_of_true rfl ⟨d, hinherits, hfound⟩⟩
          rw [if_neg hd, hrow]
          exact (Query.Answers.lift (.ok row)).bind_ok (hlook.bind_ok (.pure _))
        · obtain ⟨tour, htour, hfound⟩ := ihn _ (hn ▸ hlt) _ _ rfl (h.visit hmissed hds)
          refine ⟨tour, (Query.Answers.lift (.ok d)).bind_ok ?_, hfound⟩
          rw [if_neg hd, hrow]
          exact (Query.Answers.lift (.ok row)).bind_ok (hlook.bind_ok htour)

/-- The search answers where nothing that it can come to stops it, and finds what it looks for if it
can come to it. -/
theorem answers_implements (hs : ∀ d, r.Inherits c root d → r.Searchable c d)
    (space name : String) :
    ∃ b, Query.Answers (r.Keeps (r.recalls c)) (r.implements root space name) (.ok b) ∧
      (b = true ↔ ∃ d, r.Inherits c root d ∧ r.IsInterface space name d) := by
  have hinit : r.Searching c space name root [] [root] := .init
  obtain ⟨tour, htour, hfound⟩ := answers_search hs _ [] [root] rfl hinit
  exact ⟨tour.state, htour.bind_ok (.pure tour.state), hfound⟩

/-! ## The closure and the search -/

theorem visits_iff_inherits (hk : (r.recalls c).Definite) {row : TypeRow} {roots : List Semantics}
    {out : List Stop} (h : r.DeclaresInterfaces c root) (hrow : r.view.row root = .ok row)
    (hroots : r.rootsOf c root row = .ok roots) (hv : r.Visits c [] roots out) {d : TypeDef} :
    d ∈ out.map (·.type) ↔ r.Inherits c root d ∧ r.view.category d = .ok .interface := by
  rw [hv.mem_iff hk]
  obtain ⟨k, hcat, hroots⟩ := rootsOf_eq_ok_iff.mp hroots
  have hrootcat : r.view.category root = .ok k := Except.bind_eq_ok_iff.mpr ⟨row, hrow, hcat⟩
  by_cases hi : k = .interface
  · subst hi
    rw [if_pos rfl] at hroots
    cases hroots
    constructor
    · rintro ⟨node, hnode, d₀, hd₀, hreach⟩
      cases List.mem_singleton.mp hnode
      cases hd₀
      have hd := (h.reachable_iff hrootcat).mp hreach
      exact ⟨hd, h.category hrootcat hd⟩
    · rintro ⟨hd, -⟩
      exact ⟨_, List.mem_cons_self, root, rfl, (h.reachable_iff hrootcat).mpr hd⟩
  · rw [if_neg hi] at hroots
    rw [← h.exists_reachable_iff hrootcat hi]
    simp only [declares_iff_mem hrow hroots]
    constructor
    · rintro ⟨node, hnode, d₀, hd₀, hreach⟩
      exact ⟨d₀, ⟨node, hnode, hd₀⟩, hreach⟩
    · rintro ⟨d₀, ⟨node, hnode, hd₀⟩, hreach⟩
      exact ⟨node, hnode, d₀, hd₀, hreach⟩

theorem isInterface_iff : r.IsInterface space name d ↔
    r.view.category d = .ok .interface ∧
      ∃ row : TypeRow, r.view.row d = .ok row ∧ row.isNamed space name = true := by
  constructor
  · rintro ⟨row, hrow, hname, hcat⟩
    exact ⟨Except.bind_eq_ok_iff.mpr ⟨row, hrow, hcat⟩, row, hrow, hname⟩
  · rintro ⟨hcat, row, hrow, hname⟩
    obtain ⟨row', hrow', hcat⟩ := Except.bind_eq_ok_iff.mp hcat
    rw [hrow] at hrow'; cases hrow'
    exact ⟨row, hrow, hname, hcat⟩

theorem answers_implements_of_required (hk : (r.recalls c).Definite) (hl : r.view.Labelled)
    (h : r.DeclaresInterfaces c root) {infos : List InterfaceInfo}
    (hinfos : ((r.requiredInterfaces root).ask c).1 = .ok infos) (space name : String) :
    ∃ b, Query.Answers (r.Keeps (r.recalls c)) (r.implements root space name) (.ok b) ∧
      (b = true ↔ ∃ info ∈ infos, ∃ row : TypeRow, r.view.row info.type = .ok row ∧
        row.isNamed space name = true) := by
  obtain ⟨row, hrow, roots, hroots, out, hv, hlisted⟩ :=
    (requiredInterfaces_eq_ok_iff hl).mp hinfos
  obtain ⟨k, hcat, -⟩ := rootsOf_eq_ok_iff.mp hroots
  have hrootcat : r.view.category root = .ok k := Except.bind_eq_ok_iff.mpr ⟨row, hrow, hcat⟩
  obtain ⟨b, hb, hfound⟩ := answers_implements (fun d hd => h.searchable hrootcat hd) space name
  refine ⟨b, hb, hfound.trans ?_⟩
  constructor
  · rintro ⟨d, hd, hnamed⟩
    obtain ⟨hdcat, drow, hdrow, hname⟩ := isInterface_iff.mp hnamed
    obtain ⟨x, hx, rfl⟩ :=
      List.mem_map.mp ((visits_iff_inherits hk h hrow hroots hv).mpr ⟨hd, hdcat⟩)
    obtain ⟨info, hinfo, htype, -⟩ := (exists_of_mem_of_forall₂ hlisted).1 x hx
    exact ⟨info, hinfo, drow, htype ▸ hdrow, hname⟩
  · rintro ⟨info, hinfo, drow, hdrow, hname⟩
    obtain ⟨x, hx, htype, -⟩ := (exists_of_mem_of_forall₂ hlisted).2 info hinfo
    obtain ⟨hd, hdcat⟩ :=
      (visits_iff_inherits hk h hrow hroots hv).mp (List.mem_map_of_mem (f := (·.type)) hx)
    rw [htype] at hdrow
    exact ⟨x.type, hd, isInterface_iff.mpr ⟨hdcat, drow, hdrow, hname⟩⟩

end Resolver

/-! ## Sessions -/

namespace Session

/-- At any moment of a session, and whatever rows are withheld: where a type and all that it leads
to declare nothing but interfaces, and the interfaces required of the type are found, the search for
an interface by its name answers, before and after, and finds it just if it is among those. -/
theorem implements_iff_required (cfg : Config) (history : List Action) (hidden : List Token)
    (d : TypeDef) (infos : List InterfaceInfo) (space name : String) :
    let c := (run cfg history).memory
    let r : Resolver := { view := { store := (run cfg history).store, hidden }, config := cfg }
    ((r.requiredInterfaces d).ask c).1 = .ok infos → r.DeclaresInterfaces c d →
      ∃ b, ((r.implements d space name).ask c).1 = .ok b ∧
        ((r.implements d space name).ask ((r.requiredInterfaces d).ask c).2).1 = .ok b ∧
        (b = true ↔ ∃ info ∈ infos, ∃ row : TypeRow, r.view.row info.type = .ok row ∧
          row.isNamed space name = true) := by
  intro c r hinfos h
  have hk : (r.recalls c).Definite := run_definite cfg history
  have hl : r.view.Labelled := (coherent_run cfg history).withheld hidden
  obtain ⟨b, hb, hfound⟩ := Resolver.answers_implements_of_required hk hl h hinfos space name
  obtain ⟨x, hx, -⟩ := r.gives_requiredInterfaces c d
  have hkeeps := (hx c (r.keeps_self c)).2
  exact ⟨b, (hb c (r.keeps_self c)).1, (hb _ hkeeps).1, hfound⟩

/-- A class with two interfaces that require one and the same, which requires the first of them. -/
def diamond : List Action :=
  [.addTypeRef "Demo" "IBase", .addTypeRef "Demo" "ILeft",
    .define (.ofClauses "Demo" "IBase" [.category .interface, .implements (.typeRef ⟨2⟩)]),
    .define (.ofClauses "Demo" "ILeft" [.category .interface, .implements (.typeRef ⟨1⟩)]),
    .define (.ofClauses "Demo" "IRight" [.category .interface, .implements (.typeRef ⟨1⟩)]),
    .define (.ofClauses "Demo" "Widget" [.implements (.typeDef ⟨2⟩), .implements (.typeDef ⟨3⟩)])]

theorem declaresInterfaces_diamond :
    ((run {} diamond).resolver {}).DeclaresInterfaces (run {} diamond).memory ⟨4⟩ := by
  intro d _ row hrow ref href
  have hd : d ∈ [(⟨1⟩ : TypeDef), ⟨2⟩, ⟨3⟩, ⟨4⟩] := View.mem_definitions_of_row hrow
  have key : ∀ d ∈ [(⟨1⟩ : TypeDef), ⟨2⟩, ⟨3⟩, ⟨4⟩],
      ∀ row ∈ ((run {} diamond).store.view.row d).toOption, ∀ ref ∈ TypeRow.interfaces row,
        (((run {} diamond).resolver {}).answer (run {} diamond).memory ref >>= fun m =>
          m.definitionOf >>= (run {} diamond).store.view.category) = .ok .interface := by
    decide +kernel
  have hrow' : row ∈ ((run {} diamond).store.view.row d).toOption := congrArg Except.toOption hrow
  obtain ⟨m, hm, h⟩ := Except.bind_eq_ok_iff.mp (key d hd row hrow' ref href)
  obtain ⟨k, hk, hcat⟩ := Except.bind_eq_ok_iff.mp h
  exact ⟨m, k, hm, hk, hcat⟩

theorem implements_iff_required_diamond :
    let c := (run {} diamond).memory
    let r := (run {} diamond).resolver {}
    ((r.requiredInterfaces ⟨4⟩).ask c).1 = .ok [⟨⟨2⟩, []⟩, ⟨⟨1⟩, []⟩, ⟨⟨3⟩, []⟩] ∧
      r.DeclaresInterfaces c ⟨4⟩ ∧ ((r.implements ⟨4⟩ "Demo" "IBase").ask c).1 = .ok true ∧
      ((r.implements ⟨4⟩ "Demo" "Widget").ask c).1 = .ok false := by
  intro c r
  have hinfos : ((r.requiredInterfaces ⟨4⟩).ask c).1 = .ok [⟨⟨2⟩, []⟩, ⟨⟨1⟩, []⟩, ⟨⟨3⟩, []⟩] := rfl
  have h := declaresInterfaces_diamond
  refine ⟨hinfos, h, ?_, ?_⟩
  · obtain ⟨b, hb, -, hfound⟩ :=
      implements_iff_required {} diamond [] ⟨4⟩ _ "Demo" "IBase" hinfos h
    have hmem : (⟨⟨1⟩, []⟩ : InterfaceInfo) ∈
        [(⟨⟨2⟩, []⟩ : InterfaceInfo), ⟨⟨1⟩, []⟩, ⟨⟨3⟩, []⟩] := by
      decide
    rw [← hfound.mpr ⟨_, hmem, _, rfl, rfl⟩]
    exact hb
  · obtain ⟨b, hb, -, hfound⟩ :=
      implements_iff_required {} diamond [] ⟨4⟩ _ "Demo" "Widget" hinfos h
    have key : ∀ info ∈ [(⟨⟨2⟩, []⟩ : InterfaceInfo), ⟨⟨1⟩, []⟩, ⟨⟨3⟩, []⟩],
        ∀ row ∈ (r.view.row info.type).toOption, ¬ TypeRow.isNamed row "Demo" "Widget" = true := by
      decide +kernel
    have hmissed : b = false := by
      refine Bool.eq_false_iff.mpr fun hb => ?_
      obtain ⟨info, hinfo, row, hrow, hname⟩ := hfound.mp hb
      exact key info hinfo row (congrArg Except.toOption hrow) hname
    rw [← hmissed]
    exact hb

end Session
end MetadataProjection
