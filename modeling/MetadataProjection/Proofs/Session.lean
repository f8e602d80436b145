import Mathlib.Data.List.Induction
import MetadataProjection.Proofs.Growth
import MetadataProjection.Proofs.Meaning

/-!
# MetadataProjection.Proofs.Session

A resolver in use. Rows are added to the store it reads while it is asked, and what it remembers is
thrown away now and then.

* `Question`: what a resolver can be asked, `Question.put` puts it to one.
* `Session`, `Session.step`, `Session.run`: a store and a resolver's memory, and what happens to them.
* `Session.foldl_induction`: what every step keeps, as long as the store stays in range.
* `Session.Faithful`: the invariant. Whatever is remembered is a meaning in the store as it stands,
  at the height it is remembered with (`run_faithful`).
* `ask_run_eq_ask_uncached`: what is remembered never shows in an answer.
-/

namespace MetadataProjection

/-! ## Meanings in a growing store -/

/-- What is read in `v` is read in `v'`, and the names lead where they did. -/
structure View.PartOf (v v' : View) : Prop where
  rows : ∀ {t : Table} (x : Handle t) (row : Row t), v.row x = .ok row → v'.row x = .ok row
  names : ∀ (space name : String) (d : TypeDef), v.findType? space name = some d →
    v'.findType? space name = some d

theorem Store.PartOf.view {s s' : Store} (h : s.PartOf s') : s.view.PartOf s'.view := by
  refine ⟨fun x row hr => ?_, fun space name d hd => h.names _ d hd⟩
  have hs := (View.row_eq_ok_iff.mp hr).2
  exact View.row_eq_ok_iff.mpr ⟨List.not_mem_nil, h.rows x row hs⟩

namespace View.PartOf

variable {v v' : View}

theorem tokenNames (h : v.PartOf v') {k : Token} {d : TypeDef} (hk : v.TokenNames k d) :
    v'.TokenNames k d := by
  cases hk with
  | typeDef hk => exact .typeDef hk
  | typeRef hk hrow hd => exact .typeRef hk (h.rows _ _ hrow) (h.names _ _ _ hd)

theorem baseNames (h : v.PartOf v') {base : Signature} {d : TypeDef}
    (hb : v.BaseNames base d) : v'.BaseNames base d := by
  cases hb with
  | classType hk => exact .classType (h.tokenNames hk)
  | valueType hk => exact .valueType (h.tokenNames hk)

mutual

theorem means (h : v.PartOf v') : ∀ {e : Signature} {m : Semantics} {n : Nat},
    v.Means e m n → v'.Means e m n
  | _, _, _, .fundamental k => .fundamental k
  | _, _, _, .object => .object
  | _, _, _, .index i => .index i
  | _, _, _, .array hm => .array (means h hm)
  | _, _, _, .classType hk hm => .classType hk (refMeans h hm)
  | _, _, _, .valueType hk hm => .valueType hk (refMeans h hm)
  | _, _, _, .inst hm => .inst (instMeans h hm)

theorem refMeans (h : v.PartOf v') : ∀ {ref : TypeDefOrRef} {m : Semantics} {n : Nat},
    v.RefMeans ref m n → v'.RefMeans ref m n
  | _, _, _, .typeDef d => .typeDef d
  | _, _, _, .guid hrow hn => .guid (h.rows _ _ hrow) hn
  | _, _, _, .named hrow hn hd => .named (h.rows _ _ hrow) hn (h.names _ _ _ hd)
  | _, _, _, .spec hrow hs hm => .spec (h.rows _ _ hrow) hs (instMeans h hm)

theorem instMeans (h : v.PartOf v') : ∀ {base : Signature} {args : List Signature} {m : Semantics}
    {n : Nat}, v.InstMeans base args m n → v'.InstMeans base args m n
  | _, _, _, _, .mk hb hms => .mk (h.baseNames hb) (argsMean h hms)

theorem argsMean (h : v.PartOf v') : ∀ {args : List Signature} {ms : List Semantics} {n : Nat},
    v.ArgsMean args ms n → v'.ArgsMean args ms n
  | _, _, _, .nil => .nil
  | _, _, _, .cons hm hms => .cons (means h hm) (argsMean h hms)

end

end View.PartOf

/-! ## Memories that hold meanings -/

namespace Resolver

variable {r : Resolver}

theorem settles_iff_refMeans {ref : TypeDefOrRef} {m : Memo} :
    r.Settles (r.referenceFrom .none · ref) m ↔ r.view.RefMeans ref m.meaning m.height := by
  constructor
  · intro h
    have hok : r.referenceFrom .none (m.height + 1) ref = _ := h (m.height + 1)
    rw [if_pos (Nat.lt_succ_self _)] at hok
    exact (means_of_ok r _).2.1 ref m hok
  · intro h
    exact RefMeans.settles h

/-- A memory has grown from nothing if all it holds are meanings, each with its exact height. -/
theorem keeps_none_iff {c : Cache} : r.Keeps .none c ↔
    ∀ ref m, r.recalls c ref = some m → r.view.RefMeans ref m.meaning m.height := by
  constructor
  · intro h ref m hm
    exact settles_iff_refMeans.mp (h.settles ref m hm)
  · intro h
    refine ⟨fun ref m hk => ?_, fun ref m hm => ?_⟩
    · cases hk
    · exact settles_iff_refMeans.mpr (h ref m hm)

def uncached (r : Resolver) : Resolver :=
  { r with config := { r.config with remember := false } }

theorem keeps_uncached (r : Resolver) (c : Cache) : r.uncached.Keeps .none c := by
  refine keeps_none_iff.mpr fun ref m hm => ?_
  rw [recalls, uncached, if_neg Bool.false_ne_true] at hm
  cases hm

/-- Over fixed knowledge it makes no difference whether anything is remembered. -/
theorem resolveFrom_uncached (r : Resolver) (known : Knowledge) :
    r.uncached.resolveFrom known = r.resolveFrom known := by
  funext s
  have h : Except.Carries (fun _ => True) (r.resolveFrom known s)
      (r.uncached.resolveFrom known s) :=
    carries_resolveFrom r.view r.config r.uncached.config (Nat.le_refl _) (fun _ => rfl) known s
  exact h fun _ _ => trivial

theorem resolveReferenceFrom_uncached (r : Resolver) (known : Knowledge) :
    r.uncached.resolveReferenceFrom known = r.resolveReferenceFrom known := by
  funext ref
  have h : Except.Carries (fun _ => True) (r.resolveReferenceFrom known ref)
      (r.uncached.resolveReferenceFrom known ref) :=
    carries_resolveReferenceFrom r.view r.config r.uncached.config (Nat.le_refl _) (fun _ => rfl)
      known ref
  exact h fun _ _ => trivial

end Resolver

/-! ## Questions -/

inductive Question where
  | signature (s : Signature)
  | reference (ref : TypeDefOrRef)
  | token (k : Token)
  | definition (ref : TypeDefOrRef)

inductive Reply where
  | meaning (m : Semantics)
  | definition (d : TypeDef)

namespace Question

def put (r : Resolver) : Question → Query Reply
  | .signature s => return .meaning (← r.resolve s)
  | .reference ref => return .meaning (← r.resolveReference ref)
  | .token k => return .meaning (← r.resolveToken k)
  | .definition ref => return .definition (← r.definitionOf ref)

def answerFrom (r : Resolver) (known : Knowledge) : Question → Except Error Reply
  | .signature s => return .meaning (← r.resolveFrom known s)
  | .reference ref => return .meaning (← r.resolveReferenceFrom known ref)
  | .token k => return .meaning (← TypeDefOrRef.ofToken k >>= r.resolveReferenceFrom known)
  | .definition ref =>
    return .definition (← r.resolveReferenceFrom known ref >>= Semantics.definitionOf)

theorem answers_of_guards {r : Resolver} {known : Knowledge} {inv : Cache → Prop}
    (h : r.Guards known inv) (q : Question) :
    Query.Answers inv (q.put r) (q.answerFrom r known) := by
  cases q with
  | signature s => exact (h.answers_resolve s).bind_pure _
  | reference ref => exact (h.answers_resolveReference ref).bind_pure _
  | token k =>
    have hk : Query.Answers inv (r.resolveToken k)
        (TypeDefOrRef.ofToken k >>= r.resolveReferenceFrom known) :=
      (Query.Answers.lift _).bind fun ref _ => h.answers_resolveReference ref
    exact hk.bind_pure _
  | definition ref =>
    have hd : Query.Answers inv (r.definitionOf ref)
        (r.resolveReferenceFrom known ref >>= Semantics.definitionOf) :=
      (h.answers_resolveReference ref).bind fun m _ => .lift _
    exact hd.bind_pure _

theorem answers (r : Resolver) (known : Knowledge) (q : Question) :
    Query.Answers (r.Keeps known) (q.put r) (q.answerFrom r known) :=
  q.answers_of_guards (r.keeps_guards known)

theorem answerFrom_uncached (r : Resolver) (known : Knowledge) (q : Question) :
    q.answerFrom r.uncached known = q.answerFrom r known := by
  have hs := r.resolveFrom_uncached known
  have href := r.resolveReferenceFrom_uncached known
  cases q <;> simp only [answerFrom, hs, href]

end Question

/-! ## Sessions -/

/-- What can happen to a resolver and to the store it reads. A declaration may fail. -/
inductive Action where
  | addTypeRef (space name : String)
  | addTypeSpec (signature : Signature)
  | define (d : TypeDecl)
  | ask (q : Question)
  | forget

/-- A store, and what the resolver that reads it remembers. -/
structure Session where
  store : Store := .empty
  memory : Cache := ∅

namespace Session

def resolver (σ : Session) (cfg : Config) : Resolver := { view := σ.store.view, config := cfg }

def step (cfg : Config) (σ : Session) : Action → Session
  | .addTypeRef space name => { σ with store := (σ.store.addTypeRef space name).2 }
  | .addTypeSpec signature => { σ with store := (σ.store.addTypeSpec signature).2 }
  | .define d => { σ with store := (σ.store.define d).2 }
  | .ask q => { σ with memory := ((q.put (σ.resolver cfg)).ask σ.memory).2 }
  | .forget => { σ with memory := ∅ }

def run (cfg : Config) (history : List Action) : Session := history.foldl (step cfg) {}

variable {cfg : Config} {σ : Session}

theorem grows_step (cfg : Config) (σ : Session) (a : Action) :
    σ.store.Grows (σ.step cfg a).store := by
  cases a with
  | addTypeRef space name => exact Store.grows_addTypeRef _ _ _
  | addTypeSpec signature => exact Store.grows_addTypeSpec _ _
  | define d => exact Store.grows_define _ _
  | ask q => exact .refl _
  | forget => exact .refl _

/-- The rows have numbers that were handed out, and the memory holds meanings in this store. -/
structure Faithful (cfg : Config) (σ : Session) : Prop where
  numbered : σ.store.Numbered
  keeps : (σ.resolver cfg).Keeps .none σ.memory

theorem faithful_init (cfg : Config) : Faithful cfg {} :=
  ⟨Store.numbered_empty, Resolver.keeps_empty _⟩

theorem Faithful.of_grows {store : Store} (h : σ.Faithful cfg) (hg : σ.store.Grows store)
    (hr : store.InRange) : Faithful cfg { σ with store := store } := by
  refine ⟨hg.numbered h.numbered hr, Resolver.keeps_none_iff.mpr fun ref m hm => ?_⟩
  have hm' := Resolver.keeps_none_iff.mp h.keeps ref m hm
  exact (hg.partOf h.numbered hr).view.refMeans hm'

theorem Faithful.step (h : σ.Faithful cfg) (a : Action) (hr : (σ.step cfg a).store.InRange) :
    (σ.step cfg a).Faithful cfg := by
  cases a with
  | addTypeRef space name => exact h.of_grows (Store.grows_addTypeRef _ _ _) hr
  | addTypeSpec signature => exact h.of_grows (Store.grows_addTypeSpec _ _) hr
  | define d => exact h.of_grows (Store.grows_define _ _) hr
  | ask q => exact ⟨h.numbered, ((q.answers _ .none) _ h.keeps).2⟩
  | forget => exact ⟨h.numbered, Resolver.keeps_empty _⟩

theorem grows_foldl (cfg : Config) (history : List Action) (σ : Session) :
    σ.store.Grows (history.foldl (step cfg) σ).store := by
  induction history generalizing σ with
  | nil => exact .refl _
  | cons a history ih => exact (grows_step cfg σ a).trans (ih (σ.step cfg a))

/-- What holds at first and is kept by each step that stays in range holds in the end, if that is in
range. What it says may depend on what has happened so far. -/
theorem foldl_induction {P : List Action → Session → Prop} {σ₀ : Session} (nil : P [] σ₀)
    (step : ∀ (history : List Action) (a : Action),
      P history (history.foldl (Session.step cfg) σ₀) →
      ((history.foldl (Session.step cfg) σ₀).step cfg a).store.InRange →
        P (history ++ [a]) ((history.foldl (Session.step cfg) σ₀).step cfg a))
    (history : List Action) (hr : (history.foldl (Session.step cfg) σ₀).store.InRange) :
    P history (history.foldl (Session.step cfg) σ₀) := by
  induction history using List.reverseRecOn with
  | nil => exact nil
  | append_singleton history a ih =>
    rw [List.foldl_concat] at hr ⊢
    -- the counters never fall, so a session that ends in range was in range all along
    exact step history a (ih ((grows_step cfg _ a).inRange hr)) hr

theorem run_faithful (cfg : Config) (history : List Action)
    (hr : (run cfg history).store.InRange) : (run cfg history).Faithful cfg :=
  foldl_induction (P := fun _ σ => σ.Faithful cfg) (faithful_init cfg)
    (fun _ a h hr => h.step a hr) history hr

/-- At any moment of a session, every question has the answer that a new resolver gives that
remembers nothing, be it a meaning or a failure. -/
theorem ask_run_eq_ask_uncached (cfg : Config) (history : List Action) (q : Question)
    (hr : (run cfg history).store.InRange) :
    ((q.put ((run cfg history).resolver cfg)).ask (run cfg history).memory).1 =
      ((q.put ((run cfg history).resolver { cfg with remember := false })).ask ∅).1 := by
  have h := (run_faithful cfg history hr).keeps
  calc ((q.put ((run cfg history).resolver cfg)).ask (run cfg history).memory).1
      = q.answerFrom ((run cfg history).resolver cfg) .none := (q.answers _ .none _ h).1
    _ = q.answerFrom ((run cfg history).resolver { cfg with remember := false }) .none :=
        (q.answerFrom_uncached ((run cfg history).resolver cfg) .none).symm
    _ = ((q.put ((run cfg history).resolver { cfg with remember := false })).ask ∅).1 :=
        ((q.answers _ .none _ (Resolver.keeps_empty _)).1).symm

/-- A vector of numbers is looked up and remembered, then a vector of such vectors is added. -/
def vectors : List Action :=
  let vector : Signature := .classType ⟨Table.typeDef.number, 1⟩
  [.addTypeSpec (.genericInst vector [.fundamental .int32]),
    .ask (.reference (.typeSpec ⟨1⟩)),
    .addTypeSpec (.genericInst vector [.classType ⟨Table.typeSpec.number, 1⟩])]

/-- The vector of vectors nests one level too deep for a limit of 5, also where its inner vector is
remembered. -/
theorem ask_run_eq_ask_uncached_vectors :
    (run { maxDepth := 5 } vectors).store.InRange ∧
      ((Question.put ((run { maxDepth := 5 } vectors).resolver { maxDepth := 5 })
        (.reference (.typeSpec ⟨2⟩))).ask (run { maxDepth := 5 } vectors).memory).1 =
          .error (.recursionLimit 5) ∧
      ((Question.put ((run { maxDepth := 5 } vectors).resolver { maxDepth := 5, remember := false })
        (.reference (.typeSpec ⟨2⟩))).ask ∅).1 = .error (.recursionLimit 5) := by
  have hr : (run { maxDepth := 5 } vectors).store.InRange := by decide
  have hask := ask_run_eq_ask_uncached { maxDepth := 5 } vectors (.reference (.typeSpec ⟨2⟩)) hr
  have hlimit : ((Question.put ((run { maxDepth := 5 } vectors).resolver { maxDepth := 5 })
      (.reference (.typeSpec ⟨2⟩))).ask (run { maxDepth := 5 } vectors).memory).1 =
        .error (.recursionLimit 5) := rfl
  exact ⟨hr, hlimit, hask.symm.trans hlimit⟩

end Session
end MetadataProjection
