import Mathlib.Data.List.Nodup
import MetadataProjection.Closure.Interfaces
import MetadataProjection.Proofs.Coherence
import MetadataProjection.Proofs.Knowledge

/-!
# MetadataProjection.Proofs.Closure.Preorder

The closure of a type as a recursion: a node is skipped if its definition was visited, and otherwise
visited before everything below it, which comes before whatever stands beside it.

* `Resolver.Visits`: the recursion, as a relation between nodes and the order of visits.
* `visits_append_iff`: nodes that wait behind others are visited after all that these lead to. This
  is what lets one stack stand for the whole of a recursion.
* `gives_walk`: the walk with a stack ends well if the recursion does, and then makes its visits.
* `Recorded`: what is listed for a visit. `requiredInterfaces_eq_ok_iff`: where rows carry the tokens
  they are found under, the required interfaces are what is listed for the visits, one by one.
* `enumerate_eq_ok_iff_visits`: what is visited and what is recorded, so that each interface is listed
  once, with the arguments of the first path to it.
-/

namespace MetadataProjection
namespace Resolver

/-- The answer of a resolver that remembers `c`. -/
def answer (r : Resolver) (c : Cache) (ref : TypeDefOrRef) : Except Error Semantics :=
  ((r.resolveReference ref).ask c).1

/-- The nodes below a node: the interfaces that an interface declares, in their order, with the
arguments of the node put into them. -/
def childrenOf (r : Resolver) (c : Cache) (node : Semantics) (row : TypeRow) :
    Except Error (List Semantics) := do
  if (← r.view.categoryOf row) = .interface then
    row.interfaces.mapM fun ref => do return (← r.answer c ref).substitute node.args
  else return []

/-- A visit: what a definition was reached as, the definition, and its row. -/
structure Stop where
  meaning : Semantics
  type : TypeDef
  row : TypeRow

def seenAfter (seen : List TypeDef) (out : List Stop) : List TypeDef :=
  (out.map (·.type)).reverse ++ seen

/-- From these nodes on, with the definitions in `seen` visited before, the visits are `out`. -/
inductive Visits (r : Resolver) (c : Cache) : List TypeDef → List Semantics → List Stop → Prop where
  | done (seen : List TypeDef) : Visits r c seen [] []
  | skip {seen : List TypeDef} {node : Semantics} {rest : List Semantics} {d : TypeDef}
      {out : List Stop} : node.definitionOf = .ok d → d ∈ seen → Visits r c seen rest out →
      Visits r c seen (node :: rest) out
  | visit {seen : List TypeDef} {node : Semantics} {rest children : List Semantics} {d : TypeDef}
      {row : TypeRow} {below beside : List Stop} : node.definitionOf = .ok d → d ∉ seen →
      r.view.row d = .ok row → r.childrenOf c node row = .ok children →
      Visits r c (d :: seen) children below →
      Visits r c (seenAfter (d :: seen) below) rest beside →
      Visits r c seen (node :: rest) (⟨node, d, row⟩ :: (below ++ beside))

variable {r : Resolver} {c : Cache} {σ : Type}

/-! ## The recursion -/

theorem seenAfter_cons (seen : List TypeDef) (x : Stop) (out : List Stop) :
    seenAfter seen (x :: out) = seenAfter (x.type :: seen) out := by
  simp [seenAfter]

theorem seenAfter_append (seen : List TypeDef) (out out' : List Stop) :
    seenAfter seen (out ++ out') = seenAfter (seenAfter seen out) out' := by
  simp [seenAfter]

theorem mem_seenAfter {seen : List TypeDef} {out : List Stop} {d : TypeDef} :
    d ∈ seenAfter seen out ↔ d ∈ out.map (·.type) ∨ d ∈ seen := by
  rw [seenAfter, List.mem_append, List.mem_reverse]

theorem Visits.append {seen : List TypeDef} {xs ys : List Semantics} {out out' : List Stop}
    (hx : r.Visits c seen xs out) (hy : r.Visits c (seenAfter seen out) ys out') :
    r.Visits c seen (xs ++ ys) (out ++ out') := by
  induction hx with
  | done seen => exact hy
  | skip hd hm _ ih => exact .skip hd hm (ih hy)
  | @visit seen node rest children d row below beside hd hm hrow hc hbelow _ _ ih =>
    rw [seenAfter_cons, seenAfter_append] at hy
    rw [List.cons_append, List.cons_append, List.append_assoc]
    exact .visit hd hm hrow hc hbelow (ih hy)

theorem visits_append_iff {seen : List TypeDef} {xs ys : List Semantics} {out : List Stop} :
    r.Visits c seen (xs ++ ys) out ↔ ∃ out₁ out₂, r.Visits c seen xs out₁ ∧
      r.Visits c (seenAfter seen out₁) ys out₂ ∧ out = out₁ ++ out₂ := by
  constructor
  · intro h
    generalize hz : xs ++ ys = zs at h
    induction h generalizing xs with
    | done seen =>
      obtain ⟨rfl, rfl⟩ := List.append_eq_nil_iff.mp hz
      exact ⟨[], [], .done seen, .done seen, rfl⟩
    | @skip seen node rest d out hd hm hrest ih =>
      cases xs with
      | nil => cases hz; exact ⟨[], out, .done seen, .skip hd hm hrest, rfl⟩
      | cons x xs =>
        cases hz
        obtain ⟨out₁, out₂, h₁, h₂, e⟩ := ih rfl
        exact ⟨out₁, out₂, .skip hd hm h₁, h₂, e⟩
    | @visit seen node rest children d row below beside hd hm hrow hc hbelow hbeside _ ih =>
      cases xs with
      | nil => cases hz; exact ⟨[], _, .done seen, .visit hd hm hrow hc hbelow hbeside, rfl⟩
      | cons x xs =>
        cases hz
        obtain ⟨out₁, out₂, h₁, h₂, rfl⟩ := ih rfl
        refine ⟨_ :: (below ++ out₁), out₂, .visit hd hm hrow hc hbelow h₁, ?_, ?_⟩
        · rw [seenAfter_cons, seenAfter_append]
          exact h₂
        · rw [List.cons_append, List.append_assoc]
  · rintro ⟨out₁, out₂, h₁, h₂, rfl⟩
    exact h₁.append h₂

theorem Visits.unique {seen : List TypeDef} {nodes : List Semantics} {out out' : List Stop}
    (h : r.Visits c seen nodes out) (h' : r.Visits c seen nodes out') : out = out' := by
  induction h generalizing out' with
  | done seen => cases h'; rfl
  | skip hd hm _ ih =>
    cases h' with
    | skip _ _ hrest => exact ih hrest
    | visit hd' hm' =>
      rw [hd] at hd'; cases hd'
      exact absurd hm hm'
  | visit hd hm hrow hc _ _ ihbelow ihbeside =>
    cases h' with
    | skip hd' hm' =>
      rw [hd] at hd'; cases hd'
      exact absurd hm' hm
    | visit hd' _ hrow' hc' hbelow hbeside =>
      rw [hd] at hd'; cases hd'
      rw [hrow] at hrow'; cases hrow'
      rw [hc] at hc'; cases hc'
      cases ihbelow hbelow
      cases ihbeside hbeside
      rfl

theorem Visits.nodup {seen : List TypeDef} {nodes : List Semantics} {out : List Stop}
    (h : r.Visits c seen nodes out) (hseen : seen.Nodup) : (seenAfter seen out).Nodup := by
  induction h with
  | done seen => exact hseen
  | skip _ _ _ ih => exact ih hseen
  | visit _ hm _ _ _ _ ihbelow ihbeside =>
    rw [seenAfter_cons, seenAfter_append]
    exact ihbeside (ihbelow (List.nodup_cons.mpr ⟨hm, hseen⟩))

theorem Visits.types_nodup {nodes : List Semantics} {out : List Stop}
    (h : r.Visits c [] nodes out) : (out.map (·.type)).Nodup := by
  have hn := h.nodup List.nodup_nil
  rw [seenAfter, List.append_nil] at hn
  exact List.nodup_reverse.mp hn

theorem Visits.stops {seen : List TypeDef} {nodes : List Semantics} {out : List Stop}
    (h : r.Visits c seen nodes out) :
    ∀ x ∈ out, x.meaning.definitionOf = .ok x.type ∧ r.view.row x.type = .ok x.row := by
  induction h with
  | done seen => intro x hx; cases hx
  | skip _ _ _ ih => exact ih
  | visit hd _ hrow _ _ _ ihbelow ihbeside =>
    intro x hx
    rw [List.mem_cons, List.mem_append] at hx
    rcases hx with rfl | hx | hx
    · exact ⟨hd, hrow⟩
    · exact ihbelow x hx
    · exact ihbeside x hx

/-! ## The children of a node -/

theorem answer_eq (r : Resolver) (c : Cache) (ref : TypeDefOrRef) :
    r.answer c ref = r.resolveReferenceFrom (r.recalls c) ref :=
  (r.answers_resolveReference (r.recalls c) ref c (r.keeps_self c)).1

theorem answers_answer (r : Resolver) (c : Cache) (ref : TypeDefOrRef) :
    Query.Answers (r.Keeps (r.recalls c)) (r.resolveReference ref) (r.answer c ref) := by
  rw [answer_eq]
  exact r.answers_resolveReference (r.recalls c) ref

theorem childrenOf_eq_ok_iff {node : Semantics} {row : TypeRow} {children : List Semantics} :
    r.childrenOf c node row = .ok children ↔ ∃ k, r.view.categoryOf row = .ok k ∧
      if k = .interface then ∃ ms, row.interfaces.mapM (r.answer c) = .ok ms ∧
        ms.map (·.substitute node.args) = children
      else [] = children := by
  rw [childrenOf, Except.bind_eq_ok_iff]
  refine exists_congr fun k => and_congr_right fun _ => ?_
  by_cases hk : k = .interface
  · rw [if_pos hk, if_pos hk, Except.mapM_bind_pure, Except.bind_eq_ok_iff]
    exact exists_congr fun ms => and_congr_right fun _ => Except.pure_eq_ok_iff
  · rw [if_neg hk, if_neg hk]
    exact Except.pure_eq_ok_iff

def askChildren (r : Resolver) (node : Semantics) (row : TypeRow) : Query (List Semantics) := do
  if (← r.view.categoryOf row) = .interface then r.requiredBy node row else return []

/-- The interfaces are looked up from the last to the first. Where all of them are found this is of
no consequence. -/
theorem gives_requiredBy (r : Resolver) (c : Cache) (node : Semantics) (row : TypeRow) :
    Query.Gives (r.Keeps (r.recalls c)) (r.requiredBy node row) fun children =>
      ∃ ms, row.interfaces.mapM (r.answer c) = .ok ms ∧
        ms.map (·.substitute node.args) = children := by
  have hmap : Query.Answers (r.Keeps (r.recalls c)) (row.interfaces.reverse.mapM r.resolveReference)
      (row.interfaces.reverse.mapM (r.answer c)) := .mapM (r.answers_answer c) _
  refine ((Query.Gives.of_answers hmap).bind fun fromEnd _ => .pure _).congr fun children => ?_
  constructor
  · rintro ⟨fromEnd, hms, rfl⟩
    exact ⟨fromEnd.reverse, Except.mapM_reverse_eq_ok_iff.mp hms, List.map_reverse⟩
  · rintro ⟨ms, hms, rfl⟩
    refine ⟨ms.reverse, Except.mapM_reverse_eq_ok_iff.mpr ?_, ?_⟩
    · rw [List.reverse_reverse]; exact hms
    · rw [List.map_reverse, List.reverse_reverse]

theorem gives_askChildren (r : Resolver) (c : Cache) (node : Semantics) (row : TypeRow) :
    Query.Gives (r.Keeps (r.recalls c)) (r.askChildren node row) (r.childrenOf c node row = .ok ·) :=
  ((Query.Gives.lift _).bind fun _ _ =>
    .ite _ (fun _ => r.gives_requiredBy c node row) fun _ => .pure []).congr fun _ =>
      childrenOf_eq_ok_iff.symm

/-! ## The walk -/

section Walk

variable (visit : σ → Semantics → TypeRow → Except Error σ)

def makeVisits (state : σ) (out : List Stop) : Except Error σ :=
  out.foldlM (fun state x => visit state x.meaning x.row) state

/-- From `tour` on, with these nodes on the stack, the recursion leads to `tour'`. -/
def Leads (r : Resolver) (c : Cache) (tour : Tour σ) (stack : List Semantics) (tour' : Tour σ) :
    Prop :=
  ∃ out, r.Visits c tour.visited stack out ∧ makeVisits visit tour.state out = .ok tour'.state ∧
    tour'.visited = seenAfter tour.visited out

theorem leads_nil_iff {tour tour' : Tour σ} : Leads visit r c tour [] tour' ↔ tour = tour' := by
  constructor
  · obtain ⟨visited, state⟩ := tour
    obtain ⟨visited', state'⟩ := tour'
    rintro ⟨out, hv, hm, hs⟩
    cases hv
    cases hm
    cases hs
    rfl
  · rintro rfl
    exact ⟨[], .done _, rfl, rfl⟩

/-- What stands on top of the stack is skipped, or visited and replaced by what is below it. -/
theorem leads_cons_iff {tour tour' : Tour σ} {node : Semantics} {rest : List Semantics} :
    Leads visit r c tour (node :: rest) tour' ↔ ∃ d, node.definitionOf = .ok d ∧
      if d ∈ tour.visited then Leads visit r c tour rest tour'
      else ∃ row, r.view.row d = .ok row ∧ ∃ state, visit tour.state node row = .ok state ∧
        ∃ children, r.childrenOf c node row = .ok children ∧
          Leads visit r c { visited := d :: tour.visited, state } (children ++ rest) tour' := by
  constructor
  · rintro ⟨out, hv, hm, hs⟩
    cases hv with
    | @skip _ _ _ d _ hd hmem hrest =>
      refine ⟨d, hd, ?_⟩
      rw [if_pos hmem]
      exact ⟨out, hrest, hm, hs⟩
    | @visit _ _ _ children d row below beside hd hmem hrow hc hbelow hbeside =>
      obtain ⟨state, hstate, hm⟩ := Except.bind_eq_ok_iff.mp hm
      refine ⟨d, hd, ?_⟩
      rw [if_neg hmem]
      refine ⟨row, hrow, state, hstate, children, hc, below ++ beside, hbelow.append hbeside, hm, ?_⟩
      rw [hs, seenAfter_cons]
  · rintro ⟨d, hd, h⟩
    by_cases hmem : d ∈ tour.visited
    · rw [if_pos hmem] at h
      obtain ⟨out, hv, hm, hs⟩ := h
      exact ⟨out, .skip hd hmem hv, hm, hs⟩
    · rw [if_neg hmem] at h
      obtain ⟨row, hrow, state, hstate, children, hc, out, hv, hm, hs⟩ := h
      obtain ⟨below, beside, hbelow, hbeside, rfl⟩ := visits_append_iff.mp hv
      refine ⟨⟨node, d, row⟩ :: (below ++ beside), .visit hd hmem hrow hc hbelow hbeside, ?_, ?_⟩
      · exact Except.bind_eq_ok_iff.mpr ⟨state, hstate, hm⟩
      · rw [hs, seenAfter_cons]

theorem leads_append_iff {tour tour' : Tour σ} (xs ys : List Semantics) :
    Leads visit r c tour (xs ++ ys) tour' ↔
      ∃ tour₁, Leads visit r c tour xs tour₁ ∧ Leads visit r c tour₁ ys tour' := by
  constructor
  · rintro ⟨out, hv, hm, hs⟩
    obtain ⟨out₁, out₂, h₁, h₂, rfl⟩ := visits_append_iff.mp hv
    rw [makeVisits, List.foldlM_append] at hm
    obtain ⟨state₁, hm₁, hm₂⟩ := Except.bind_eq_ok_iff.mp hm
    rw [seenAfter_append] at hs
    exact ⟨⟨seenAfter tour.visited out₁, state₁⟩, ⟨out₁, h₁, hm₁, rfl⟩, ⟨out₂, h₂, hm₂, hs⟩⟩
  · rintro ⟨tour₁, ⟨out₁, h₁, hm₁, hs₁⟩, ⟨out₂, h₂, hm₂, hs₂⟩⟩
    rw [hs₁] at h₂ hs₂
    refine ⟨out₁ ++ out₂, h₁.append h₂, ?_, ?_⟩
    · rw [makeVisits, List.foldlM_append]
      exact Except.bind_eq_ok_iff.mpr ⟨_, hm₁, hm₂⟩
    · rw [hs₂, seenAfter_append]

theorem exists_leads_iff {state state' : σ} {nodes : List Semantics} :
    (∃ tour', Leads visit r c { state } nodes tour' ∧ tour'.state = state') ↔
      ∃ out, r.Visits c [] nodes out ∧ makeVisits visit state out = .ok state' := by
  constructor
  · rintro ⟨tour', ⟨out, hv, hm, _⟩, rfl⟩
    exact ⟨out, hv, hm⟩
  · rintro ⟨out, hv, hm⟩
    exact ⟨⟨seenAfter [] out, state'⟩, ⟨out, hv, hm, rfl⟩, rfl⟩

theorem walk_nil (r : Resolver) (tour : Tour σ) : r.walk visit tour [] = pure tour :=
  View.traverse_nil _ _ _ _

theorem walk_cons (r : Resolver) (tour : Tour σ) (node : Semantics) (rest : List Semantics) :
    r.walk visit tour (node :: rest) = (do
      let d ← node.definitionOf
      if d ∈ tour.visited then r.walk visit tour rest
      else
        let row : TypeRow ← r.view.row d
        let state ← visit tour.state node row
        let children ← r.askChildren node row
        r.walk visit { visited := d :: tour.visited, state } (children ++ rest)) := by
  rw [walk, View.traverse_cons]
  refine bind_congr fun d => ?_
  by_cases hd : d ∈ tour.visited
  · rw [if_pos hd, if_pos hd]; rfl
  · rw [if_neg hd, if_neg hd]
    refine bind_congr fun row => ?_
    rw [bind_assoc]
    refine bind_congr fun state => ?_
    rw [askChildren, bind_assoc, bind_assoc]
    refine bind_congr fun k => ?_
    by_cases hk : k = .interface
    · rw [if_pos hk, if_pos hk, bind_assoc]; rfl
    · rw [if_neg hk, if_neg hk]; rfl

theorem gives_walk (r : Resolver) (c : Cache) (n : Nat) (tour : Tour σ) (stack : List Semantics)
    (hn : r.view.unvisited tour.visited = n) :
    Query.Gives (r.Keeps (r.recalls c)) (r.walk visit tour stack) (Leads visit r c tour stack) := by
  -- on what is left to visit and, as long as nothing is visited, on the stack
  induction n using Nat.strongRecOn generalizing tour stack with
  | ind n ihn =>
    induction stack with
    | nil =>
      rw [walk_nil]
      exact (Query.Gives.pure tour).congr fun _ => (leads_nil_iff visit).symm
    | cons node rest ih =>
      rw [walk_cons]
      refine ((Query.Gives.lift _).bind fun d _ => ?_).congr fun _ => (leads_cons_iff visit).symm
      refine .ite _ (fun _ => ih) fun hd => ?_
      refine (Query.Gives.lift _).bind fun row hrow => ?_
      have hlt := View.unvisited_cons_lt hrow hd
      refine (Query.Gives.lift _).bind fun state _ => ?_
      exact (r.gives_askChildren c node row).bind fun children _ => ihn _ (hn ▸ hlt) _ _ rfl

theorem gives_walkDeclared (r : Resolver) (c : Cache) (tour : Tour σ) (refs : List TypeDefOrRef) :
    Query.Gives (r.Keeps (r.recalls c)) (r.walkDeclared visit tour refs) fun tour' =>
      ∃ roots, refs.mapM (r.answer c) = .ok roots ∧ Leads visit r c tour roots tour' := by
  induction refs generalizing tour with
  | nil =>
    refine (Query.Gives.pure tour).congr fun tour' => ?_
    constructor
    · intro h
      exact ⟨[], rfl, (leads_nil_iff visit).mpr h⟩
    · rintro ⟨roots, hroots, h⟩
      cases hroots
      exact (leads_nil_iff visit).mp h
  | cons ref refs ih =>
    have href := Query.Gives.of_answers (r.answers_answer c ref)
    refine (href.bind fun node _ =>
      (r.gives_walk visit c _ tour [node] rfl).bind fun tour₁ _ => ih tour₁).congr fun tour' => ?_
    constructor
    · rintro ⟨node, hnode, tour₁, h₁, roots, hroots, h₂⟩
      refine ⟨node :: roots, Except.mapM_cons_eq_ok_iff.mpr ⟨node, hnode, roots, hroots, rfl⟩, ?_⟩
      exact (leads_append_iff visit [node] roots).mpr ⟨tour₁, h₁, h₂⟩
    · rintro ⟨roots, hroots, h⟩
      obtain ⟨node, hnode, rest, hrest, rfl⟩ := Except.mapM_cons_eq_ok_iff.mp hroots
      obtain ⟨tour₁, h₁, h₂⟩ := (leads_append_iff visit [node] rest).mp h
      exact ⟨node, hnode, tour₁, h₁, rest, hrest, h₂⟩

theorem gives_enumerate (r : Resolver) (c : Cache) (state : σ) (d : TypeDef) :
    Query.Gives (r.Keeps (r.recalls c)) (r.enumerate visit state d) fun state' =>
      ∃ out, r.Visits c [] [.definition d] out ∧ makeVisits visit state out = .ok state' :=
  ((r.gives_walk visit c _ { state } _ rfl).bind fun tour _ => .pure tour.state).congr fun _ =>
    exists_leads_iff visit

/-- Where the recursion ends well, the answer of the walk is that of the visits, be it a failure. -/
theorem answers_walk (r : Resolver) (c : Cache) (n : Nat) (tour : Tour σ) (stack : List Semantics)
    (out : List Stop) (hn : r.view.unvisited tour.visited = n)
    (h : r.Visits c tour.visited stack out) :
    Query.Answers (r.Keeps (r.recalls c)) (r.walk visit tour stack) (do
      return ⟨seenAfter tour.visited out, ← makeVisits visit tour.state out⟩) := by
  -- the visits below a node and those beside it are one list, as the nodes are on the stack
  induction n using Nat.strongRecOn generalizing tour stack out with
  | ind n ihn =>
    induction stack generalizing out with
    | nil =>
      cases h
      rw [walk_nil]
      exact .pure tour
    | cons node rest ih =>
      rw [walk_cons]
      cases h with
      | skip hd hmem hrest =>
        rw [hd]
        refine (Query.Answers.lift (.ok _)).bind_ok ?_
        rw [if_pos hmem]
        exact ih out hrest
      | @visit _ _ _ children d row below beside hd hmem hrow hc hbelow hbeside =>
        rw [hd, seenAfter_cons, makeVisits, List.foldlM_cons, bind_assoc]
        refine (Query.Answers.lift (.ok _)).bind_ok ?_
        rw [if_neg hmem, hrow]
        refine (Query.Answers.lift (.ok _)).bind_ok ?_
        refine (Query.Answers.lift _).bind fun state _ => ?_
        refine ((r.gives_askChildren c node row).answers hc).bind_ok ?_
        have hlt := View.unvisited_cons_lt hrow hmem
        exact ihn _ (hn ▸ hlt) ⟨d :: tour.visited, state⟩ (children ++ rest) (below ++ beside) rfl
          (hbelow.append hbeside)

theorem answers_enumerate (r : Resolver) (c : Cache) (state : σ) (d : TypeDef) {out : List Stop}
    (h : r.Visits c [] [.definition d] out) :
    Query.Answers (r.Keeps (r.recalls c)) (r.enumerate visit state d)
      (makeVisits visit state out) := by
  have hwalk := r.answers_walk visit c _ { state } _ out rfl h
  have hanswers := hwalk.bind_pure (·.state)
  rw [bind_assoc] at hanswers
  rw [← bind_pure (makeVisits visit state out)]
  exact hanswers

/-- Where the required interfaces of a type start: at the type itself if it is an interface, and
otherwise at the interfaces it declares, in their order. -/
def rootsOf (r : Resolver) (c : Cache) (d : TypeDef) (row : TypeRow) :
    Except Error (List Semantics) := do
  if (← r.view.categoryOf row) = .interface then return [.definition d]
  else row.interfaces.mapM (r.answer c)

theorem rootsOf_eq_ok_iff {d : TypeDef} {row : TypeRow} {roots : List Semantics} :
    r.rootsOf c d row = .ok roots ↔ ∃ k, r.view.categoryOf row = .ok k ∧
      if k = .interface then [.definition d] = roots
      else row.interfaces.mapM (r.answer c) = .ok roots := by
  rw [rootsOf, Except.bind_eq_ok_iff]
  refine exists_congr fun k => and_congr_right fun _ => ?_
  by_cases hk : k = .interface
  · rw [if_pos hk, if_pos hk]
    exact Except.pure_eq_ok_iff
  · rw [if_neg hk, if_neg hk]

theorem gives_enumerateRequired (r : Resolver) (c : Cache) (state : σ) (d : TypeDef)
    (row : TypeRow) :
    Query.Gives (r.Keeps (r.recalls c)) (r.enumerateRequired visit state d row) fun state' =>
      ∃ roots, r.rootsOf c d row = .ok roots ∧
        ∃ out, r.Visits c [] roots out ∧ makeVisits visit state out = .ok state' := by
  refine ((Query.Gives.lift _).bind fun k _ => .ite _
    (fun _ => (r.gives_walk visit c _ _ _ rfl).bind fun tour _ => .pure tour.state)
    fun _ => (r.gives_walkDeclared visit c _ _).bind fun tour _ => .pure tour.state).congr
      fun state' => ?_
  constructor
  · rintro ⟨k, hk, h⟩
    by_cases hi : k = .interface
    · rw [if_pos hi] at h
      refine ⟨_, rootsOf_eq_ok_iff.mpr ⟨k, hk, ?_⟩, (exists_leads_iff visit).mp h⟩
      rw [if_pos hi]
    · rw [if_neg hi] at h
      obtain ⟨tour, ⟨roots, hroots, hleads⟩, hstate⟩ := h
      refine ⟨roots, rootsOf_eq_ok_iff.mpr ⟨k, hk, ?_⟩, ?_⟩
      · rw [if_neg hi]; exact hroots
      · exact (exists_leads_iff visit).mp ⟨tour, hleads, hstate⟩
  · rintro ⟨roots, hroots, h⟩
    obtain ⟨k, hk, hroots⟩ := rootsOf_eq_ok_iff.mp hroots
    obtain ⟨tour, hleads, hstate⟩ := (exists_leads_iff visit).mpr h
    refine ⟨k, hk, ?_⟩
    by_cases hi : k = .interface
    · rw [if_pos hi] at hroots ⊢
      cases hroots
      exact ⟨tour, hleads, hstate⟩
    · rw [if_neg hi] at hroots ⊢
      exact ⟨tour, ⟨roots, hroots, hleads⟩, hstate⟩

end Walk

theorem makeVisits_ok (f : σ → Semantics → TypeRow → σ) (state : σ) (out : List Stop) :
    makeVisits (fun state node row => .ok (f state node row)) state out =
      .ok (out.foldl (fun state x => f state x.meaning x.row) state) := by
  induction out generalizing state with
  | nil => rfl
  | cons x out ih => exact ih (f state x.meaning x.row)

/-! ## What is recorded -/

/-- The record of a visit. A definition as such has the names of its own parameters for arguments,
and an instance the texts of its arguments, in which the names `params` stand for open positions. -/
def Recorded (r : Resolver) (params : List String) (x : Stop) (info : InterfaceInfo) : Prop :=
  info.type = x.type ∧
    match x.meaning with
    | .definition _ => info.arguments = x.row.genericParams
    | node =>
      List.Forall₂ (fun a text => a.render r.view params = .ok text) node.args info.arguments

theorem describeArguments_eq_ok_iff {params : List String} {x : Stop} {info : InterfaceInfo}
    (htype : info.type = x.type) :
    r.describeArguments params x.meaning x.row = .ok info.arguments ↔ r.Recorded params x info := by
  rw [Recorded, and_iff_right htype]
  obtain ⟨meaning, d, row⟩ := x
  cases meaning with
  | definition _ => exact (iff_of_eq (Except.ok.injEq _ _)).trans eq_comm
  | inst _ _ | fundamental _ | object | guid | index _ => exact Except.mapM_eq_ok_iff

theorem addInterface_of_ne {infos : List InterfaceInfo} {info : InterfaceInfo}
    (h : ∀ i ∈ infos, i.type ≠ info.type) : (addInterface infos info).2 = infos ++ [info] := by
  have hlisted : infos.any (·.type == info.type) = false := by
    rw [List.any_eq_false]
    intro i hi
    rw [beq_iff_eq]
    exact h i hi
  rw [addInterface, hlisted]; rfl

theorem recordInterface_eq_ok_iff {params : List String} {infos infos' : List InterfaceInfo}
    {x : Stop} (hrow : x.row.handle = x.type) (hnew : ∀ info ∈ infos, info.type ≠ x.type) :
    r.recordInterface params infos x.meaning x.row = .ok infos' ↔
      ∃ info, r.Recorded params x info ∧ infos ++ [info] = infos' := by
  rw [recordInterface, Except.bind_eq_ok_iff, hrow]
  constructor
  · rintro ⟨arguments, hargs, h⟩
    rw [addInterface_of_ne hnew] at h
    exact ⟨⟨x.type, arguments⟩, (describeArguments_eq_ok_iff rfl).mp hargs,
      Except.pure_eq_ok_iff.mp h⟩
  · rintro ⟨⟨_, arguments⟩, hinfo, rfl⟩
    obtain rfl := hinfo.1
    refine ⟨arguments, (describeArguments_eq_ok_iff rfl).mpr hinfo, ?_⟩
    rw [addInterface_of_ne hnew]; rfl

/-- Where no definition is visited twice, none is dropped when it is recorded. -/
theorem makeVisits_record_eq_ok_iff {params : List String} {infos infos' : List InterfaceInfo}
    {out : List Stop} (hrow : ∀ x ∈ out, x.row.handle = x.type)
    (hnodup : (infos.map (·.type) ++ out.map (·.type)).Nodup) :
    makeVisits (r.recordInterface params) infos out = .ok infos' ↔
      ∃ new, List.Forall₂ (r.Recorded params) out new ∧ infos ++ new = infos' := by
  induction out generalizing infos with
  | nil =>
    constructor
    · intro h
      cases h
      exact ⟨[], .nil, List.append_nil _⟩
    · rintro ⟨new, hnew, rfl⟩
      cases hnew
      rw [List.append_nil]; rfl
  | cons x out ih =>
    have hfresh : ∀ i ∈ infos, i.type ≠ x.type := fun i hi =>
      (List.nodup_append.mp hnodup).2.2 i.type (List.mem_map_of_mem hi) x.type List.mem_cons_self
    have hx (infos₁ : List InterfaceInfo) :
        r.recordInterface params infos x.meaning x.row = .ok infos₁ ↔ _ :=
      recordInterface_eq_ok_iff (hrow x List.mem_cons_self) hfresh
    have ih (info : InterfaceInfo) (hinfo : r.Recorded params x info) :
        makeVisits (r.recordInterface params) (infos ++ [info]) out = .ok infos' ↔
          ∃ new, List.Forall₂ (r.Recorded params) out new ∧ infos ++ [info] ++ new = infos' := by
      refine ih (fun y hy => hrow y (List.mem_cons_of_mem x hy)) ?_
      rw [List.map_append, List.map_singleton, hinfo.1, List.append_assoc]
      exact hnodup
    rw [makeVisits, List.foldlM_cons, Except.bind_eq_ok_iff]
    constructor
    · rintro ⟨_, h₁, h⟩
      obtain ⟨info, hinfo, rfl⟩ := (hx _).mp h₁
      obtain ⟨new, hnew, rfl⟩ := (ih info hinfo).mp h
      exact ⟨info :: new, .cons hinfo hnew, List.append_cons _ _ _⟩
    · rintro ⟨_, hall, rfl⟩
      cases hall with
      | @cons _ info _ new hinfo hnew =>
        refine ⟨_, (hx _).mpr ⟨info, hinfo, rfl⟩, (ih info hinfo).mpr ⟨new, hnew, ?_⟩⟩
        exact (List.append_cons _ _ _).symm

theorem gives_requiredInterfaces (r : Resolver) (c : Cache) (d : TypeDef) :
    Query.Gives (r.Keeps (r.recalls c)) (r.requiredInterfaces d) fun infos =>
      ∃ row : TypeRow, r.view.row d = .ok row ∧ ∃ roots, r.rootsOf c d row = .ok roots ∧
        ∃ out, r.Visits c [] roots out ∧
          makeVisits (r.recordInterface row.genericParams) [] out = .ok infos :=
  (Query.Gives.lift _).bind fun row _ =>
    gives_enumerateRequired (r.recordInterface row.genericParams) r c [] d row

theorem requiredInterfaces_eq_ok_iff (hl : r.view.Labelled) {d : TypeDef}
    {infos : List InterfaceInfo} :
    ((r.requiredInterfaces d).ask c).1 = .ok infos ↔
      ∃ row : TypeRow, r.view.row d = .ok row ∧ ∃ roots, r.rootsOf c d row = .ok roots ∧
        ∃ out, r.Visits c [] roots out ∧
          List.Forall₂ (r.Recorded row.genericParams) out infos := by
  rw [(r.gives_requiredInterfaces c d).ask_eq_ok_iff (r.keeps_self c)]
  refine exists_congr fun row => and_congr_right fun _ => exists_congr fun roots =>
    and_congr_right fun _ => exists_congr fun out => and_congr_right fun hv => ?_
  have hrow : ∀ x ∈ out, x.row.handle = x.type := fun x hx => hl.type (hv.stops x hx).2
  rw [@makeVisits_record_eq_ok_iff r row.genericParams [] infos out hrow hv.types_nodup]
  simp only [List.nil_append, exists_eq_right]

/-- For every visitor that succeeds, the walk visits what the recursion visits, in its order; and the
recursion visits each definition once. For the required interfaces the recursion runs over the
roots one after the other, with one set of visited definitions. Where rows carry the tokens they are
found under, as in every store that was built, each visit is recorded, with the arguments it was
reached with, and so each interface once. -/
theorem enumerate_eq_ok_iff_visits (r : Resolver) (c : Cache) (d : TypeDef) :
    (∀ (visit : σ → Semantics → TypeRow → Except Error σ) (state state' : σ),
      ((r.enumerate visit state d).ask c).1 = .ok state' ↔
        ∃ out, r.Visits c [] [.definition d] out ∧ makeVisits visit state out = .ok state') ∧
    (∀ (visit : σ → Semantics → TypeRow → Except Error σ) (state state' : σ) (row : TypeRow),
      ((r.enumerateRequired visit state d row).ask c).1 = .ok state' ↔
        ∃ roots, r.rootsOf c d row = .ok roots ∧
          ∃ out, r.Visits c [] roots out ∧ makeVisits visit state out = .ok state') ∧
    (r.view.Labelled → ∀ infos,
      (((r.requiredInterfaces d).ask c).1 = .ok infos ↔
        ∃ row : TypeRow, r.view.row d = .ok row ∧ ∃ roots, r.rootsOf c d row = .ok roots ∧
          ∃ out, r.Visits c [] roots out ∧
            List.Forall₂ (r.Recorded row.genericParams) out infos) ∧
      (((r.requiredInterfaces d).ask c).1 = .ok infos → (infos.map (·.type)).Nodup)) ∧
    (∀ nodes out, r.Visits c [] nodes out →
      (out.map (·.type)).Nodup ∧ ∀ out', r.Visits c [] nodes out' → out' = out) := by
  refine ⟨fun visit state state' => ?_, fun visit state state' row => ?_, fun hl infos => ?_,
    fun nodes out h => ?_⟩
  · exact (r.gives_enumerate visit c state d).ask_eq_ok_iff (r.keeps_self c)
  · exact (r.gives_enumerateRequired visit c state d row).ask_eq_ok_iff (r.keeps_self c)
  · refine ⟨requiredInterfaces_eq_ok_iff hl, fun h => ?_⟩
    obtain ⟨row, -, roots, -, out, hv, hinfos⟩ := (requiredInterfaces_eq_ok_iff hl).mp h
    rw [map_eq_of_forall₂ hinfos fun _ _ hx => hx.1]
    exact hv.types_nodup
  · exact ⟨h.types_nodup, fun out' h' => h'.unique h⟩

/-- A vector is a sequence of its own elements. An interface and a class both want a vector of
strings and then a sequence of numbers. That one waits while its definition is reached through the
vector, with other arguments, and in the end it is skipped. -/
def overtaking : List Action :=
  let instanceOf (generic : RowNumber) (arg : Signature) : Action :=
    .addTypeSpec (.genericInst (.classType ⟨Table.typeDef.number, generic⟩) [arg])
  let declare (name : String) (clauses : List TypeClause) : Action :=
    .define (.ofClauses "Demo" name clauses)
  let wanted : List TypeClause := [.implements (.typeSpec ⟨2⟩), .implements (.typeSpec ⟨3⟩)]
  [declare "ISequence" [.category .interface, .genericParam "T"],
    instanceOf 1 (.genericParamType 0), instanceOf 2 (.fundamental .string),
    instanceOf 1 (.fundamental .int32),
    declare "IVector" [.category .interface, .genericParam "T", .implements (.typeSpec ⟨1⟩)],
    declare "INames" (.category .interface :: wanted), declare "Names" wanted]

theorem enumerate_eq_ok_iff_visits_overtaking :
    let r := (Session.run {} overtaking).resolver {}
    let c := (Session.run {} overtaking).memory
    (∃ out, r.Visits c [] [.definition ⟨3⟩] out ∧ (out.map (·.type)).Nodup ∧
      out.map (·.meaning) = [.definition ⟨3⟩, .inst ⟨2⟩ [.fundamental .string],
        .inst ⟨1⟩ [.fundamental .string]]) ∧
    ∃ out, r.Visits c [] [.inst ⟨2⟩ [.fundamental .string], .inst ⟨1⟩ [.fundamental .int32]] out ∧
      out.map (·.meaning) = [.inst ⟨2⟩ [.fundamental .string], .inst ⟨1⟩ [.fundamental .string]] ∧
      ((r.requiredInterfaces ⟨4⟩).ask c).1 = .ok [⟨⟨2⟩, ["String"]⟩, ⟨⟨1⟩, ["String"]⟩] ∧
      List.Forall₂ (r.Recorded []) out [⟨⟨2⟩, ["String"]⟩, ⟨⟨1⟩, ["String"]⟩] := by
  intro r c
  have collect (out : List Stop) (nodes : List Semantics)
      (h : makeVisits (fun seen x _ => .ok (x :: seen)) [] out = .ok nodes.reverse) :
      out.map (·.meaning) = nodes := by
    rw [makeVisits_ok (fun seen x _ => x :: seen), Except.ok.injEq, List.foldl_flip_cons_eq_append,
      List.append_nil, List.reverse_inj] at h
    exact h
  constructor
  · have h := @enumerate_eq_ok_iff_visits (List Semantics) r c ⟨3⟩
    obtain ⟨out, hout, hm⟩ := (h.1 (fun seen x _ => .ok (x :: seen)) [] _).mp rfl
    exact ⟨out, hout, (h.2.2.2 _ out hout).1, collect out _ hm⟩
  · have h := @enumerate_eq_ok_iff_visits (List Semantics) r c ⟨4⟩
    have hl : r.view.Labelled := (Session.coherent_run {} overtaking).view
    have hok : ((r.requiredInterfaces ⟨4⟩).ask c).1 =
      .ok [⟨⟨2⟩, ["String"]⟩, ⟨⟨1⟩, ["String"]⟩] := rfl
    obtain ⟨row, hrow, roots, hroots, out, hv, hinfos⟩ := (h.2.2.1 hl _).1.mp hok
    have hvisits : ((r.enumerateRequired (fun seen x _ => .ok (x :: seen)) [] ⟨4⟩ row).ask c).1 =
        .ok [.inst ⟨2⟩ [.fundamental .string], .inst ⟨1⟩ [.fundamental .string]].reverse := by
      cases hrow; rfl
    obtain ⟨_, hroots', out', hv', hm⟩ := (h.2.1 _ _ _ row).mp hvisits
    rw [hroots] at hroots'
    cases hroots'
    obtain rfl := (h.2.2.2 roots out hv).2 out' hv'
    cases hrow
    cases hroots
    exact ⟨out', hv, collect out' _ hm, hok, hinfos⟩

end Resolver
end MetadataProjection
