import Mathlib.Logic.Relation
import MetadataProjection.Proofs.Closure.Preorder
import MetadataProjection.Proofs.Session

/-!
# MetadataProjection.Proofs.Closure.Reachability

The closure of a type is what can be reached from it, and the walk over it ends on every store.

* `View.turns`: the loop of a traversal, cut off after a number of turns. Enough turns make up the
  traversal (`turns_eq_traverse`).
* `Resolver.Requires`, `Resolver.Reachable`: which definitions an interface leads to, in one step and
  in any number of steps.
* `Resolver.Walkable`: nothing about this definition stops a walk.
* `exists_visits_iff`, `Visits.mem_iff_reachable`: there is a pre-order just if all that is reachable is
  walkable, and it visits what is reachable.
* `Session.enumerate_iff_reachable`: so does the walk, at any moment of a session.
-/

namespace MetadataProjection

/-! ## The loop ends -/

namespace View

variable {σ ν : Type}

/-- Takes nodes from the stack until it is empty, but `n` of them at most. No tour is answered with
if nodes are left. -/
def turns (v : View) (typeOf : ν → Except Error TypeDef)
    (visit : σ → ν → TypeRow → Query (Visit σ ν)) :
    Nat → Tour σ → List ν → Query (Option (Tour σ))
  | _, tour, [] => return some tour
  | 0, _, _ :: _ => return none
  | n + 1, tour, node :: rest => do
    let d ← typeOf node
    if d ∈ tour.visited then v.turns typeOf visit n tour rest
    else
      let row : TypeRow ← v.row d
      match ← visit tour.state node row with
      | .stop state => return some { visited := d :: tour.visited, state }
      | .next state nodes =>
        v.turns typeOf visit n { visited := d :: tour.visited, state } (nodes ++ rest)

theorem eventually_of_succ {P : Nat → Prop} (h : ∃ N, ∀ n, N ≤ n → P (n + 1)) :
    ∃ N, ∀ n, N ≤ n → P n := by
  obtain ⟨N, hN⟩ := h
  refine ⟨N + 1, fun n hn => ?_⟩
  have hpos : n - 1 + 1 = n := by omega
  rw [← hpos]
  exact hN (n - 1) (by omega)

theorem eventually_ask_bind {α β : Type} {q : Query α} {f : Nat → α → Query β} {g : α → Query β}
    {c : Cache} (h : ∀ a c', q.ask c = (.ok a, c') →
      ∃ N, ∀ n, N ≤ n → (f n a).ask c' = (g a).ask c') :
    ∃ N, ∀ n, N ≤ n → (q >>= f n).ask c = (q >>= g).ask c := by
  simp only [Query.ask_bind]
  rcases hq : q.ask c with ⟨x, c'⟩
  cases x with
  | error e => exact ⟨0, fun _ _ => rfl⟩
  | ok a => exact h a c' hq

theorem turns_eq_traverse (v : View) (typeOf : ν → Except Error TypeDef)
    (visit : σ → ν → TypeRow → Query (Visit σ ν)) (m : Nat) (tour : Tour σ) (stack : List ν)
    (c : Cache) (hm : v.unvisited tour.visited = m) :
    ∃ N, ∀ n, N ≤ n → (v.turns typeOf visit n tour stack).ask c =
      (v.traverse typeOf visit tour stack >>= fun tour => pure (some tour)).ask c := by
  -- a turn that visits something leaves less to visit, even if the stack gets longer; any other
  -- turn shortens the stack
  induction m using Nat.strongRecOn generalizing tour stack c with
  | ind m ihm =>
    induction stack generalizing c with
    | nil =>
      refine ⟨0, fun n _ => ?_⟩
      rw [traverse_nil]
      cases n <;> rfl
    | cons node rest ih =>
      apply eventually_of_succ
      simp only [turns, traverse_cons, bind_assoc]
      refine eventually_ask_bind fun d c₁ _ => ?_
      by_cases hd : d ∈ tour.visited
      · simp only [if_pos hd]
        exact ih c₁
      · simp only [if_neg hd, bind_assoc]
        refine eventually_ask_bind fun row c₂ hrow => ?_
        rw [Query.ask_lift] at hrow
        have hlt := unvisited_cons_lt (congrArg Prod.fst hrow) hd
        refine eventually_ask_bind fun w c₃ _ => ?_
        cases w with
        | stop state => exact ⟨0, fun _ _ => rfl⟩
        | next state nodes => exact ihm _ (hm ▸ hlt) _ _ c₃ rfl

end View

/-! ## References never mean open positions -/

/-- No open position is known as the meaning of a reference. -/
def Knowledge.Definite (known : Knowledge) : Prop :=
  ∀ ref m, known ref = some m → m.meaning.isIndex = false

theorem Semantics.definitionOf_substitute {m : Semantics} (h : m.isIndex = false)
    (actuals : List Semantics) {d : TypeDef} :
    (m.substitute actuals).definitionOf = .ok d ↔ m.definitionOf = .ok d := by
  cases m with
  | index i => cases h
  | inst generic args => exact Iff.rfl
  | definition d' => exact Iff.rfl
  | fundamental k | object | guid => constructor <;> intro h <;> cases h

namespace Resolver

variable {r : Resolver} {c : Cache} {known : Knowledge}

theorem namedMeaning_definite {x : TypeRef} {m : Semantics} (h : r.namedMeaning x = .ok m) :
    m.isIndex = false := by
  obtain ⟨row, _, h⟩ := Except.bind_eq_ok_iff.mp h
  split at h
  · cases h; rfl
  · obtain ⟨d, _, h⟩ := Except.bind_eq_ok_iff.mp h
    cases h; rfl

theorem instantiationFrom_definite {n : Nat} {base : Signature} {args : List Signature} {m : Memo}
    (h : r.instantiationFrom known n base args = .ok m) : m.meaning.isIndex = false := by
  cases n with
  | zero => cases h
  | succ n =>
    obtain ⟨d, _, h⟩ := Except.bind_eq_ok_iff.mp h
    obtain ⟨memos, _, h⟩ := Except.bind_eq_ok_iff.mp h
    cases h; rfl

theorem referenceFrom_definite (hk : known.Definite) {n : Nat} {ref : TypeDefOrRef} {m : Memo}
    (h : r.referenceFrom known n ref = .ok m) : m.meaning.isIndex = false := by
  cases n with
  | zero => cases h
  | succ n =>
    cases hm : known ref with
    | some m' =>
      rw [referenceFrom_of_known hm] at h
      split at h
      · cases h; exact hk ref _ hm
      · cases h
    | none =>
      rw [referenceFrom_of_unknown hm] at h
      cases ref with
      | typeDef d => cases h; rfl
      | typeRef x =>
        obtain ⟨t, ht, h⟩ := Except.bind_eq_ok_iff.mp h
        cases h
        exact namedMeaning_definite ht
      | typeSpec x =>
        obtain ⟨row, _, h⟩ := Except.bind_eq_ok_iff.mp h
        split at h
        · obtain ⟨m', hm', h⟩ := Except.bind_eq_ok_iff.mp h
          cases h
          have hdef : m'.meaning.isIndex = false := instantiationFrom_definite hm'
          exact hdef
        · cases h

theorem answer_definite (hk : (r.recalls c).Definite) {ref : TypeDefOrRef} {m : Semantics}
    (h : r.answer c ref = .ok m) : m.isIndex = false := by
  rw [answer_eq] at h
  obtain ⟨memo, hmemo, h⟩ := Except.bind_eq_ok_iff.mp h
  cases h
  exact referenceFrom_definite hk hmemo

theorem Keeps.definite {c' : Cache} (h : r.Keeps known c') (hk : known.Definite) :
    (r.recalls c').Definite := by
  intro ref m hm
  have hs : r.referenceFrom known (m.height + 1) ref = _ := h.settles ref m hm (m.height + 1)
  rw [if_pos (Nat.lt_succ_self _)] at hs
  exact referenceFrom_definite hk hs

/-! ## Reachability -/

/-- The interface `d` declares a reference to `d'`. -/
def Requires (r : Resolver) (c : Cache) (d d' : TypeDef) : Prop :=
  ∃ row : TypeRow, r.view.row d = .ok row ∧ r.view.categoryOf row = .ok .interface ∧
    ∃ ref ∈ row.interfaces, ∃ m, r.answer c ref = .ok m ∧ m.definitionOf = .ok d'

def Reachable (r : Resolver) (c : Cache) : TypeDef → TypeDef → Prop :=
  Relation.ReflTransGen (r.Requires c)

/-- The definition has a row and a category, and if it is an interface, every reference it declares
means a definition or an instance. -/
def Walkable (r : Resolver) (c : Cache) (d : TypeDef) : Prop :=
  ∃ (row : TypeRow) (k : Category), r.view.row d = .ok row ∧ r.view.categoryOf row = .ok k ∧
    (k = .interface → ∀ ref ∈ row.interfaces, ∃ m d', r.answer c ref = .ok m ∧
      m.definitionOf = .ok d')

theorem walkable_of_children (hk : (r.recalls c).Definite) {node : Semantics} {d : TypeDef}
    {row : TypeRow} {children : List Semantics} (hrow : r.view.row d = .ok row)
    (hc : r.childrenOf c node row = .ok children)
    (hdef : ∀ child ∈ children, ∃ d', child.definitionOf = .ok d') :
    r.Walkable c d := by
  obtain ⟨k, hcat, h⟩ := childrenOf_eq_ok_iff.mp hc
  refine ⟨row, k, hrow, hcat, fun hi ref href => ?_⟩
  rw [if_pos hi] at h
  obtain ⟨ms, hms, rfl⟩ := h
  obtain ⟨m, hm, hans⟩ := (Except.exists_of_mem_of_mapM hms).1 ref href
  obtain ⟨d', hd'⟩ := hdef _ (List.mem_map_of_mem hm)
  exact ⟨m, d', hans, (Semantics.definitionOf_substitute (answer_definite hk hans) _).mp hd'⟩

theorem requires_iff_children (hk : (r.recalls c).Definite) {node : Semantics} {d d' : TypeDef}
    {row : TypeRow} {children : List Semantics} (hrow : r.view.row d = .ok row)
    (hc : r.childrenOf c node row = .ok children) :
    r.Requires c d d' ↔ ∃ child ∈ children, child.definitionOf = .ok d' := by
  obtain ⟨k, hcat, h⟩ := childrenOf_eq_ok_iff.mp hc
  constructor
  · rintro ⟨row', hrow', hcat', ref, href, m, hans, hd'⟩
    rw [hrow] at hrow'; cases hrow'
    rw [hcat] at hcat'; cases hcat'
    rw [if_pos rfl] at h
    obtain ⟨ms, hms, rfl⟩ := h
    obtain ⟨m', hm', hans'⟩ := (Except.exists_of_mem_of_mapM hms).1 ref href
    rw [hans] at hans'; cases hans'
    refine ⟨_, List.mem_map_of_mem hm', ?_⟩
    exact (Semantics.definitionOf_substitute (answer_definite hk hans) _).mpr hd'
  · rintro ⟨child, hchild, hd'⟩
    by_cases hi : k = .interface
    · rw [if_pos hi] at h
      obtain ⟨ms, hms, rfl⟩ := h
      obtain ⟨m, hm, rfl⟩ := List.mem_map.mp hchild
      obtain ⟨ref, href, hans⟩ := (Except.exists_of_mem_of_mapM hms).2 m hm
      refine ⟨row, hrow, hi ▸ hcat, ref, href, m, hans, ?_⟩
      exact (Semantics.definitionOf_substitute (answer_definite hk hans) _).mp hd'
    · rw [if_neg hi] at h
      rw [← h] at hchild
      exact absurd hchild List.not_mem_nil

theorem Walkable.exists_children (hk : (r.recalls c).Definite) {d : TypeDef}
    (h : r.Walkable c d) (node : Semantics) : ∃ (row : TypeRow) (children : List Semantics),
      r.view.row d = .ok row ∧ r.childrenOf c node row = .ok children ∧
        ∀ child ∈ children, ∃ d', child.definitionOf = .ok d' := by
  obtain ⟨row, k, hrow, hcat, h⟩ := h
  by_cases hi : k = .interface
  · have hex : ∀ ref ∈ row.interfaces, ∃ m, r.answer c ref = .ok m := fun ref href =>
      (h hi ref href).imp fun _ ⟨_, hm, _⟩ => hm
    obtain ⟨ms, hms⟩ := Except.exists_mapM_eq_ok hex
    refine ⟨row, ms.map (·.substitute node.args), hrow, ?_, ?_⟩
    · exact childrenOf_eq_ok_iff.mpr ⟨k, hcat, by rw [if_pos hi]; exact ⟨ms, hms, rfl⟩⟩
    · intro child hchild
      obtain ⟨m, hm, rfl⟩ := List.mem_map.mp hchild
      obtain ⟨ref, href, hans⟩ := (Except.exists_of_mem_of_mapM hms).2 m hm
      obtain ⟨m', d', hans', hd'⟩ := h hi ref href
      rw [hans] at hans'; cases hans'
      exact ⟨d', (Semantics.definitionOf_substitute (answer_definite hk hans) _).mpr hd'⟩
  · refine ⟨row, [], hrow, ?_, fun child hchild => absurd hchild List.not_mem_nil⟩
    exact childrenOf_eq_ok_iff.mpr ⟨k, hcat, by rw [if_neg hi]⟩

/-! ## The pre-order visits what is reachable -/

/-- Every node comes to be seen, and so does everything that a visited definition requires. -/
theorem Visits.closed (hk : (r.recalls c).Definite) {seen : List TypeDef} {nodes : List Semantics}
    {out : List Stop} (h : r.Visits c seen nodes out) :
    (∀ node ∈ nodes, ∃ d, node.definitionOf = .ok d ∧ d ∈ seenAfter seen out) ∧
    ∀ d ∈ out.map (·.type), r.Walkable c d ∧ ∀ d', r.Requires c d d' → d' ∈ seenAfter seen out := by
  induction h with
  | done seen =>
    exact ⟨fun node hnode => absurd hnode List.not_mem_nil, fun d hd => absurd hd List.not_mem_nil⟩
  | skip hd hmem _ ih =>
    refine ⟨fun x hx => ?_, ih.2⟩
    rcases List.mem_cons.mp hx with rfl | hx
    · exact ⟨_, hd, mem_seenAfter.mpr (.inr hmem)⟩
    · exact ih.1 x hx
  | @visit seen node rest children d row below beside hd _ hrow hc _ _ ihbelow ihbeside =>
    obtain ⟨hchildren, hbelow⟩ := ihbelow
    obtain ⟨hrest, hbeside⟩ := ihbeside
    rw [seenAfter_cons, seenAfter_append]
    have hlater : ∀ {x : TypeDef}, x ∈ seenAfter (d :: seen) below →
        x ∈ seenAfter (seenAfter (d :: seen) below) beside := fun h => mem_seenAfter.mpr (.inr h)
    have hseen : d ∈ seenAfter (d :: seen) below := mem_seenAfter.mpr (.inr List.mem_cons_self)
    refine ⟨fun x hx => ?_, fun x hx => ?_⟩
    · rcases List.mem_cons.mp hx with rfl | hx
      · exact ⟨d, hd, hlater hseen⟩
      · exact hrest x hx
    · rw [List.map_cons, List.map_append, List.mem_cons, List.mem_append] at hx
      rcases hx with rfl | hx | hx
      · refine ⟨walkable_of_children hk hrow hc fun child h => ?_, fun d' hreq => ?_⟩
        · exact (hchildren child h).imp fun _ h => h.1
        · obtain ⟨child, hchild, hd'⟩ := (requires_iff_children hk hrow hc).mp hreq
          obtain ⟨d'', hd'', hmem⟩ := hchildren child hchild
          rw [hd'] at hd''; cases hd''
          exact hlater hmem
      · exact ⟨(hbelow x hx).1, fun d' hreq => hlater ((hbelow x hx).2 d' hreq)⟩
      · exact hbeside x hx

theorem Visits.reachable (hk : (r.recalls c).Definite) {seen : List TypeDef}
    {nodes : List Semantics} {out : List Stop} (h : r.Visits c seen nodes out) :
    ∀ d ∈ out.map (·.type), ∃ node ∈ nodes, ∃ d₀, node.definitionOf = .ok d₀ ∧
      r.Reachable c d₀ d := by
  induction h with
  | done seen => intro d hd; cases hd
  | skip _ _ _ ih =>
    intro x hx
    obtain ⟨node, hnode, h⟩ := ih x hx
    exact ⟨node, List.mem_cons_of_mem _ hnode, h⟩
  | @visit seen node rest children d row below beside hd _ hrow hc _ _ ihbelow ihbeside =>
    intro x hx
    rw [List.map_cons, List.map_append, List.mem_cons, List.mem_append] at hx
    rcases hx with rfl | hx | hx
    · exact ⟨node, List.mem_cons_self, _, hd, .refl⟩
    · obtain ⟨child, hchild, d₁, hd₁, hreach⟩ := ihbelow x hx
      have hreq := (requires_iff_children (d := d) hk hrow hc).mpr ⟨child, hchild, hd₁⟩
      exact ⟨node, List.mem_cons_self, d, hd, .head hreq hreach⟩
    · obtain ⟨y, hy, h⟩ := ihbeside x hx
      exact ⟨y, List.mem_cons_of_mem _ hy, h⟩

theorem exists_visits (hk : (r.recalls c).Definite) (n : Nat) (seen : List TypeDef)
    (nodes : List Semantics) (hn : r.view.unvisited seen = n)
    (h : ∀ node ∈ nodes, ∃ d, node.definitionOf = .ok d ∧
      ∀ d', r.Reachable c d d' → r.Walkable c d') :
    ∃ out, r.Visits c seen nodes out := by
  -- on what is left to visit and, as long as nothing is visited, on the nodes
  induction n using Nat.strongRecOn generalizing seen nodes with
  | ind n ihn =>
    induction nodes with
    | nil => exact ⟨[], .done seen⟩
    | cons node rest ih =>
      obtain ⟨d, hd, hwalk⟩ := h node List.mem_cons_self
      have hrest := fun x hx => h x (List.mem_cons_of_mem node hx)
      by_cases hmem : d ∈ seen
      · obtain ⟨out, hout⟩ := ih hrest
        exact ⟨out, .skip hd hmem hout⟩
      · obtain ⟨row, children, hrow, hc, hdef⟩ := (hwalk d .refl).exists_children hk node
        have hlt := View.unvisited_cons_lt hrow hmem
        have hchildren : ∀ child ∈ children, ∃ d₁, child.definitionOf = .ok d₁ ∧
            ∀ d', r.Reachable c d₁ d' → r.Walkable c d' := by
          intro child hchild
          obtain ⟨d₁, hd₁⟩ := hdef child hchild
          have hreq := (requires_iff_children (d := d) hk hrow hc).mpr ⟨child, hchild, hd₁⟩
          exact ⟨d₁, hd₁, fun d' hreach => hwalk d' (.head hreq hreach)⟩
        obtain ⟨out, hout⟩ := ihn _ (hn ▸ hlt) (d :: seen) (children ++ rest) rfl fun x hx =>
          (List.mem_append.mp hx).elim (hchildren x) (hrest x)
        obtain ⟨below, beside, hbelow, hbeside, rfl⟩ := visits_append_iff.mp hout
        exact ⟨_, .visit hd hmem hrow hc hbelow hbeside⟩

theorem Visits.mem_iff (hk : (r.recalls c).Definite) {nodes : List Semantics} {d' : TypeDef}
    {out : List Stop} (h : r.Visits c [] nodes out) : d' ∈ out.map (·.type) ↔
      ∃ node ∈ nodes, ∃ d, node.definitionOf = .ok d ∧ r.Reachable c d d' := by
  have hmem : ∀ {x : TypeDef}, x ∈ seenAfter [] out ↔ x ∈ out.map (·.type) := by
    intro x
    rw [mem_seenAfter, or_iff_left List.not_mem_nil]
  refine ⟨h.reachable hk d', ?_⟩
  rintro ⟨node, hnode, d, hd, hreach⟩
  obtain ⟨hroot, hclosed⟩ := h.closed hk
  induction hreach with
  | refl =>
    obtain ⟨d₀, hd₀, hseen⟩ := hroot node hnode
    rw [hd] at hd₀; cases hd₀
    exact hmem.mp hseen
  | tail _ hreq ih => exact hmem.mp ((hclosed _ ih).2 _ hreq)

theorem Visits.mem_iff_reachable (hk : (r.recalls c).Definite) {d d' : TypeDef} {out : List Stop}
    (h : r.Visits c [] [.definition d] out) : d' ∈ out.map (·.type) ↔ r.Reachable c d d' := by
  rw [h.mem_iff hk]
  constructor
  · rintro ⟨node, hnode, d₀, hd₀, hreach⟩
    cases List.mem_singleton.mp hnode
    cases hd₀
    exact hreach
  · intro hreach
    exact ⟨_, List.mem_cons_self, d, rfl, hreach⟩

theorem exists_visits_iff (hk : (r.recalls c).Definite) {d : TypeDef} :
    (∃ out, r.Visits c [] [.definition d] out) ↔
      ∀ d', r.Reachable c d d' → r.Walkable c d' := by
  constructor
  · rintro ⟨out, h⟩ d' hreach
    exact ((h.closed hk).2 d' ((h.mem_iff_reachable hk).mpr hreach)).1
  · intro h
    refine exists_visits hk _ [] _ rfl fun node hnode => ?_
    cases List.mem_singleton.mp hnode
    exact ⟨d, rfl, h⟩

/-! ## The walk -/

variable {σ : Type}

def visitNode (r : Resolver) (visit : σ → Semantics → TypeRow → Except Error σ) (state : σ)
    (node : Semantics) (row : TypeRow) : Query (Visit σ Semantics) := do
  let state ← visit state node row
  if (← r.view.categoryOf row) = .interface then
    return .next state (← r.requiredBy node row)
  else return .next state []

theorem walk_eq_traverse (r : Resolver) (visit : σ → Semantics → TypeRow → Except Error σ) :
    r.walk visit = r.view.traverse Semantics.definitionOf (r.visitNode visit) := rfl

/-- `enumerate` with a loop that is cut off after `n` turns. -/
def enumerateWithin (r : Resolver) (visit : σ → Semantics → TypeRow → Except Error σ) (n : Nat)
    (state : σ) (d : TypeDef) : Query (Option σ) := do
  let tour ← r.view.turns Semantics.definitionOf (r.visitNode visit) n { state } [.definition d]
  return tour.map (·.state)

theorem enumerateWithin_eq_enumerate (r : Resolver)
    (visit : σ → Semantics → TypeRow → Except Error σ) (state : σ) (d : TypeDef) (c : Cache) :
    ∃ N, ∀ n, N ≤ n → (r.enumerateWithin visit n state d).ask c =
      (r.enumerate visit state d >>= fun state => pure (some state)).ask c := by
  obtain ⟨N, hN⟩ := r.view.turns_eq_traverse Semantics.definitionOf (r.visitNode visit) _ { state }
    [.definition d] c rfl
  refine ⟨N, fun n hn => ?_⟩
  rw [enumerateWithin, Query.ask_bind, hN n hn, ← Query.ask_bind]
  simp only [enumerate, walk_eq_traverse, bind_assoc, pure_bind, Option.map_some]

end Resolver

/-! ## Sessions -/

namespace Session

variable {cfg : Config} {σ : Session}

theorem definite_step (h : ((σ.resolver cfg).recalls σ.memory).Definite) (a : Action) :
    (((σ.step cfg a).resolver cfg).recalls (σ.step cfg a).memory).Definite := by
  cases a with
  | addTypeRef space name => exact h
  | addTypeSpec signature => exact h
  | define d => exact h
  | ask q => exact ((q.answers _ _ _ (Resolver.keeps_self _ _)).2).definite h
  | forget =>
    intro ref m hm
    rw [step, Resolver.recalls_empty] at hm
    cases hm

/-- No session comes to remember an open position, even if the rows it read are overwritten. -/
theorem run_definite (cfg : Config) (history : List Action) :
    (((run cfg history).resolver cfg).recalls (run cfg history).memory).Definite := by
  refine List.foldlRecOn (motive := fun σ : Session => ((σ.resolver cfg).recalls σ.memory).Definite)
    history (step cfg) ?_ fun _ h a _ => definite_step h a
  intro ref m hm
  rw [Resolver.recalls_empty] at hm
  cases hm

/-- At any moment of a session, and for a visitor that never fails: the loop ends; it ends well just
if everything that can be reached is walkable; and then it visits once each definition that can be
reached, and nothing else. -/
theorem enumerate_iff_reachable (cfg : Config) (history : List Action) (d : TypeDef) :
    let c := (run cfg history).memory
    let r := (run cfg history).resolver cfg
    (∀ {α : Type} (f : α → Semantics → TypeRow → α) (a : α),
      ∃ N, ∀ n, N ≤ n → (r.enumerateWithin (fun a x row => .ok (f a x row)) n a d).ask c =
        (r.enumerate (fun a x row => .ok (f a x row)) a d >>= fun a => pure (some a)).ask c) ∧
    (∀ {α : Type} (f : α → Semantics → TypeRow → α) (a : α),
      (∃ a', ((r.enumerate (fun a x row => .ok (f a x row)) a d).ask c).1 = .ok a') ↔
        ∀ d', r.Reachable c d d' → r.Walkable c d') ∧
    ((∀ d', r.Reachable c d d' → r.Walkable c d') → ∃ out : List Resolver.Stop,
      (∀ {α : Type} (f : α → Semantics → TypeRow → α) (a : α),
        ((r.enumerate (fun a x row => .ok (f a x row)) a d).ask c).1 =
          .ok (out.foldl (fun a x => f a x.meaning x.row) a)) ∧
      (∀ x ∈ out, x.meaning.definitionOf = .ok x.type ∧ r.view.row x.type = .ok x.row) ∧
      (∀ d', d' ∈ out.map (·.type) ↔ r.Reachable c d d') ∧ (out.map (·.type)).Nodup) := by
  intro c r
  have hk : (r.recalls c).Definite := run_definite cfg history
  refine ⟨fun f a => r.enumerateWithin_eq_enumerate _ a d c, fun f a => ?_, fun h => ?_⟩
  · rw [← Resolver.exists_visits_iff hk]
    constructor
    · rintro ⟨a', ha'⟩
      obtain ⟨out, hout, _⟩ := ((r.gives_enumerate _ c a d).ask_eq_ok_iff (r.keeps_self c)).mp ha'
      exact ⟨out, hout⟩
    · rintro ⟨out, hout⟩
      exact ⟨_, ((r.gives_enumerate _ c a d).ask_eq_ok_iff (r.keeps_self c)).mpr
        ⟨out, hout, Resolver.makeVisits_ok f a out⟩⟩
  · obtain ⟨out, hout⟩ := (Resolver.exists_visits_iff hk).mpr h
    refine ⟨out, fun f a => ?_, hout.stops, fun d' => hout.mem_iff_reachable hk, hout.types_nodup⟩
    exact ((r.gives_enumerate _ c a d).ask_eq_ok_iff (r.keeps_self c)).mpr
      ⟨out, hout, Resolver.makeVisits_ok f a out⟩

/-- An interface that requires an instance of itself over an instance of itself. -/
def selfExpanding : List Action :=
  let generic : Signature := .classType ⟨Table.typeDef.number, 1⟩
  [.addTypeSpec (.genericInst generic [.genericInst generic [.genericParamType 0]]),
    .define { space := "", name := "I", flags := TypeFlag.interface, genericParams := ["T"],
              interfaces := [.typeSpec ⟨1⟩] }]

theorem enumerate_iff_reachable_selfExpanding :
    let σ := run {} selfExpanding
    (∀ d', (σ.resolver {}).Reachable σ.memory ⟨1⟩ d' → (σ.resolver {}).Walkable σ.memory d') ∧
    (∀ d', (σ.resolver {}).Reachable σ.memory ⟨1⟩ d' ↔ d' = ⟨1⟩) := by
  intro σ
  have h := enumerate_iff_reachable {} selfExpanding ⟨1⟩
  have hok : (((σ.resolver {}).enumerate (fun seen x _ => .ok (x :: seen)) [] ⟨1⟩).ask
      σ.memory).1 = .ok [.definition ⟨1⟩] := rfl
  have hwalk := (h.2.1 (fun seen x _ => x :: seen) []).mp ⟨_, hok⟩
  obtain ⟨out, hout, hstops, hmem, _⟩ := h.2.2 hwalk
  have hseen := (hout (fun seen x _ => x :: seen) []).symm.trans hok
  rw [Except.ok.injEq, List.foldl_flip_cons_eq_append, List.append_nil, List.reverse_eq_iff] at hseen
  obtain ⟨x, rfl, hx⟩ := List.map_eq_singleton_iff.mp hseen
  obtain ⟨hx', -⟩ := hstops x List.mem_cons_self
  rw [hx] at hx'
  have htype : x.type = ⟨1⟩ := (Except.ok.inj hx').symm
  refine ⟨hwalk, fun d' => (hmem d').symm.trans ?_⟩
  rw [List.map_cons, List.map_nil, List.mem_singleton, htype]
end Session
end MetadataProjection
