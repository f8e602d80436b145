import MetadataProjection.Proofs.Answers
import MetadataProjection.Proofs.Outcome
import MetadataProjection.Resolver

/-!
# MetadataProjection.Proofs.Knowledge

Resolution against fixed knowledge of some references. Nothing is added to the knowledge, so no
state is passed on and the answer depends on the levels left only through the height of the meaning.

* `Knowledge`, `Resolver.signatureFrom`, `Resolver.referenceFrom`, `Resolver.instantiationFrom`: the
  rules of resolution over fixed knowledge.
* `Resolver.Settles`: a meaning that is found with more levels than its height, and with no fewer.
  Whatever is found once settles (`settles_of_ok`).
* `Resolver.Keeps`: a memory that has grown from the knowledge by settled meanings only.
* `Resolver.Guards`: an invariant of such memories that remembering keeps. Under it a resolver answers
  as over the knowledge, and its memory stays such (`Guards.answers`); `Keeps` is one (`keeps_guards`).
* `Resolver.carries_from`: resolution under two sets of rules, with fewer levels and with more.
-/

namespace MetadataProjection

open MetadataProjection.Except (Carries)

/-- The references whose meanings are known. -/
abbrev Knowledge := TypeDefOrRef → Option Memo

def Knowledge.none : Knowledge := fun _ => Option.none

namespace Resolver

/-! ## Resolution over fixed knowledge -/

/-- `lookUp`, without a memory. -/
def lookUpFrom (r : Resolver) (apply : Signature → List Signature → Except Error Memo) :
    TypeDefOrRef → Except Error Memo
  | .typeDef d => return ⟨.definition d, 0⟩
  | .typeRef h => do return ⟨← r.namedMeaning h, 0⟩
  | .typeSpec h => do
    let row : TypeSpecRow ← r.view.row h
    match row.signature with
    | .genericInst base args => return (← apply base args).raise
    | other => throw (.invalidMetadata (.specNotInstance row.token other))

mutual

/-- The meaning of a signature to who knows the meanings of some references. -/
def signatureFrom (r : Resolver) (known : Knowledge) : Nat → Signature → Except Error Memo
  | 0, _ => throw r.limitReached
  | _ + 1, .fundamental k => return ⟨.fundamental k, 0⟩
  | _ + 1, .object => return ⟨.object, 0⟩
  | n + 1, .classType k | n + 1, .valueType k => do
    return (← referenceFrom r known n (← TypeDefOrRef.ofToken k)).raise
  | _ + 1, .genericParamType i => return ⟨.index i, 0⟩
  | n + 1, .genericInst base args => do
    return (← instantiationFrom r known n base args).raise
  | n + 1, .szArray element => do
    return (← signatureFrom r known n element).raise
  | _ + 1, s => throw (.unsupportedElementType s.describe)

/-- The meaning of a reference: the known one, or else what a look-up finds. -/
def referenceFrom (r : Resolver) (known : Knowledge) : Nat → TypeDefOrRef → Except Error Memo
  | 0, _ => throw r.limitReached
  | n + 1, ref =>
    match known ref with
    | some m => if m.height ≤ n then return m else throw r.limitReached
    | none => r.lookUpFrom (instantiationFrom r known n) ref

def instantiationFrom (r : Resolver) (known : Knowledge) :
    Nat → Signature → List Signature → Except Error Memo
  | 0, _, _ => throw r.limitReached
  | n + 1, base, args => do
    let d ← r.genericBase base
    let memos ← args.mapM (signatureFrom r known n)
    return ⟨.inst d (memos.map (·.meaning)), instanceHeight memos⟩

end

/-! ## Heights -/

/-- With more levels than the height of `m` the answer is `m`, with fewer it is the failure at the
last level. -/
def Settles (r : Resolver) (f : Nat → Except Error Memo) (m : Memo) : Prop :=
  ∀ n, f n = if m.height < n then .ok m else .error r.limitReached

variable {r : Resolver} {known : Knowledge}

theorem Settles.eq_ok {f : Nat → Except Error Memo} {m m' : Memo} (h : r.Settles f m) {n : Nat}
    (hf : f n = .ok m') : m' = m ∧ m.height < n := by
  rw [h n] at hf
  split at hf
  · next hn => cases hf; exact ⟨rfl, hn⟩
  · cases hf

theorem Settles.unique {f : Nat → Except Error Memo} {m m' : Memo} (h : r.Settles f m)
    (h' : r.Settles f m') : m = m' := by
  have hf : f (m.height + 1) = .ok m := by rw [h, if_pos (Nat.lt_succ_self _)]
  exact (h'.eq_ok hf).1

theorem Settles.of_const {f : Nat → Except Error Memo} {m : Memo} (h0 : f 0 = .error r.limitReached)
    (hm : m.height = 0) (h : ∀ n, f (n + 1) = .ok m) : r.Settles f m := by
  intro n
  cases n with
  | zero => rw [h0, if_neg (Nat.not_lt_zero _)]
  | succ n => rw [h, if_pos (by omega)]

theorem Settles.raise {f g : Nat → Except Error Memo} {m : Memo} (hg : r.Settles g m)
    (h0 : f 0 = .error r.limitReached) (h : ∀ n, f (n + 1) = (do return (← g n).raise)) :
    r.Settles f m.raise := by
  intro n
  cases n with
  | zero => rw [h0, if_neg (Nat.not_lt_zero _)]
  | succ n =>
    rw [h, hg n]
    by_cases hn : m.height < n
    · rw [if_pos hn, if_pos (by simp only [Memo.raise]; omega)]; rfl
    · rw [if_neg hn, if_neg (by simp only [Memo.raise]; omega)]; rfl

theorem instanceHeight_le_iff {ms : List Memo} {n : Nat} :
    instanceHeight ms ≤ n ↔ ∀ m ∈ ms, m.height < n := by
  have key : ∀ (ms : List Memo) (k : Nat),
      ms.foldl (fun n m => max n (m.height + 1)) k ≤ n ↔ k ≤ n ∧ ∀ m ∈ ms, m.height < n := by
    intro ms
    induction ms with
    | nil => intro k; simp
    | cons m ms ih =>
      intro k
      simp only [List.foldl_cons, ih, List.forall_mem_cons, Nat.max_le, Nat.succ_le_iff, and_assoc]
  simp only [instanceHeight, key, Nat.zero_le, true_and]

theorem settles_instance {base : Signature} {args : List Signature} {d : TypeDef} {ms : List Memo}
    (hd : r.genericBase base = .ok d)
    (hms : List.Forall₂ (fun a m => r.Settles (r.signatureFrom known · a) m) args ms) :
    r.Settles (r.instantiationFrom known · base args)
      ⟨.inst d (ms.map (·.meaning)), instanceHeight ms⟩ := by
  intro n
  cases n with
  | zero => rfl
  | succ n =>
    have hargs : args.mapM (r.signatureFrom known n) =
        if ∀ m ∈ ms, m.height < n then .ok ms else .error r.limitReached :=
      Except.mapM_eq_ite (hms.imp fun _ _ h => h n)
    simp only [instantiationFrom, hd, hargs, ← instanceHeight_le_iff, Nat.lt_succ_iff]
    by_cases hn : instanceHeight ms ≤ n
    · rw [if_pos hn, if_pos hn]; rfl
    · rw [if_neg hn, if_neg hn]; rfl

theorem referenceFrom_of_known {ref : TypeDefOrRef} {m : Memo} (h : known ref = some m) (n : Nat) :
    r.referenceFrom known (n + 1) ref =
      if m.height ≤ n then .ok m else .error r.limitReached := by
  simp only [referenceFrom, h]; rfl

theorem referenceFrom_of_unknown {ref : TypeDefOrRef} (h : known ref = none) (n : Nat) :
    r.referenceFrom known (n + 1) ref = r.lookUpFrom (r.instantiationFrom known n) ref := by
  simp only [referenceFrom, h]

theorem settles_of_known {ref : TypeDefOrRef} {m : Memo} (h : known ref = some m) :
    r.Settles (r.referenceFrom known · ref) m := by
  intro n
  cases n with
  | zero => rfl
  | succ n => simp only [referenceFrom_of_known h, Nat.lt_succ_iff]

theorem settles_of_lookUp {ref : TypeDefOrRef} {m : Memo} {n : Nat} (hk : known ref = none)
    (h : r.lookUpFrom (r.instantiationFrom known n) ref = .ok m)
    (ih : ∀ base args m, r.instantiationFrom known n base args = .ok m →
      r.Settles (r.instantiationFrom known · base args) m) :
    r.Settles (r.referenceFrom known · ref) m := by
  cases ref with
  | typeDef d =>
    cases h
    exact .of_const rfl rfl fun n => referenceFrom_of_unknown hk n
  | typeRef x =>
    obtain ⟨t, ht, h⟩ := Except.bind_eq_ok_iff.mp h
    cases h
    refine .of_const rfl rfl fun n => ?_
    rw [referenceFrom_of_unknown hk, lookUpFrom, ht]; rfl
  | typeSpec x =>
    obtain ⟨row, hrow, h⟩ := Except.bind_eq_ok_iff.mp h
    split at h
    · next base args hs =>
      obtain ⟨m', hm', h⟩ := Except.bind_eq_ok_iff.mp h
      cases h
      refine (ih base args m' hm').raise rfl fun n => ?_
      rw [referenceFrom_of_unknown hk, lookUpFrom, hrow, Except.ok_bind, hs]
    · cases h

/-- Whatever is found once settles, by induction on the levels it was found with. -/
theorem settles_of_ok (r : Resolver) (known : Knowledge) (n : Nat) :
    (∀ s m, r.signatureFrom known n s = .ok m → r.Settles (r.signatureFrom known · s) m) ∧
    (∀ ref m, r.referenceFrom known n ref = .ok m → r.Settles (r.referenceFrom known · ref) m) ∧
    (∀ base args m, r.instantiationFrom known n base args = .ok m →
      r.Settles (r.instantiationFrom known · base args) m) := by
  induction n with
  | zero =>
    refine ⟨fun s m h => ?_, fun ref m h => ?_, fun base args m h => ?_⟩
    · cases h
    · cases h
    · cases h
  | succ n ih =>
    obtain ⟨ihs, ihr, ihi⟩ := ih
    refine ⟨fun s m h => ?_, fun ref m h => ?_, fun base args m h => ?_⟩
    · cases s with
      | fundamental k => cases h; exact .of_const rfl rfl fun _ => rfl
      | object => cases h; exact .of_const rfl rfl fun _ => rfl
      | genericParamType i => cases h; exact .of_const rfl rfl fun _ => rfl
      | classType k | valueType k =>
        obtain ⟨ref, href, h⟩ := Except.bind_eq_ok_iff.mp h
        obtain ⟨m', hm', h⟩ := Except.bind_eq_ok_iff.mp h
        cases h
        refine (ihr ref m' hm').raise rfl fun n => ?_
        simp only [signatureFrom, href]; rfl
      | genericInst base args =>
        obtain ⟨m', hm', h⟩ := Except.bind_eq_ok_iff.mp h
        cases h
        exact (ihi base args m' hm').raise rfl fun n => rfl
      | szArray e =>
        obtain ⟨m', hm', h⟩ := Except.bind_eq_ok_iff.mp h
        cases h
        exact (ihs e m' hm').raise rfl fun n => rfl
      | unknown | void | ptr _ | byRef _ | typedByRef | nativeInt | nativeUInt
      | genericParamMethod _ => cases h
    · cases hk : known ref with
      | some m' =>
        rw [referenceFrom_of_known hk] at h
        split at h
        · cases h; exact settles_of_known hk
        · cases h
      | none =>
        rw [referenceFrom_of_unknown hk] at h
        exact settles_of_lookUp hk h ihi
    · obtain ⟨d, hd, h⟩ := Except.bind_eq_ok_iff.mp h
      obtain ⟨ms, hms, h⟩ := Except.bind_eq_ok_iff.mp h
      cases h
      exact settles_instance hd ((Except.mapM_eq_ok_iff.mp hms).imp fun s m => ihs s m)

/-! ## A memory that grows from what is known -/

def recalls (r : Resolver) (memory : Cache) : Knowledge :=
  fun ref => if r.config.remember then memory[ref]? else none

/-- The memory holds what is known, and beyond that only meanings that settle. -/
structure Keeps (r : Resolver) (known : Knowledge) (c : Cache) : Prop where
  knows : ∀ ref m, known ref = some m → r.recalls c ref = some m
  settles : ∀ ref m, r.recalls c ref = some m → r.Settles (r.referenceFrom known · ref) m

theorem keeps_self (r : Resolver) (c : Cache) : r.Keeps (r.recalls c) c :=
  ⟨fun _ _ h => h, fun _ _ h => settles_of_known h⟩

theorem recalls_empty (r : Resolver) : r.recalls ∅ = Knowledge.none := by
  funext ref
  simp [recalls, Knowledge.none]

theorem keeps_empty (r : Resolver) : r.Keeps Knowledge.none ∅ :=
  r.recalls_empty ▸ r.keeps_self ∅

theorem ask_remembered? (r : Resolver) (ref : TypeDefOrRef) (c : Cache) :
    (r.remembered? ref).ask c = (.ok (r.recalls c ref), c) := by
  unfold remembered? recalls
  cases r.config.remember <;> rfl

theorem ask_reference_of_some {ref : TypeDefOrRef} {m : Memo} {c : Cache} {n : Nat}
    (h : r.recalls c ref = some m) :
    (r.reference (n + 1) ref).ask c =
      (if m.height ≤ n then .ok m else .error r.limitReached, c) := by
  rw [reference, Query.ask_bind, ask_remembered?, h]
  by_cases hn : m.height ≤ n
  · simp only [if_pos hn, Query.ask_pure]
  · simp only [if_neg hn, Query.ask_throw]

theorem ask_reference_of_none {ref : TypeDefOrRef} {c : Cache} {n : Nat}
    (h : r.recalls c ref = none) :
    (r.reference (n + 1) ref).ask c = Query.ask (do
      let m ← r.lookUp (r.instantiation n) ref
      r.commit ref m
      return m) c := by
  rw [reference, Query.ask_bind, ask_remembered?, h]

/-- Remembering always succeeds. -/
theorem ask_commit (r : Resolver) (ref : TypeDefOrRef) (m : Memo) (c : Cache) :
    (r.commit ref m).ask c = (.ok (), if r.config.remember then c.insertIfNew ref m else c) := by
  unfold commit
  cases r.config.remember <;> rfl

/-- What was remembered of any reference before stays, and only one entry can be new. -/
theorem recalls_commit (r : Resolver) (ref ref' : TypeDefOrRef) (m : Memo) (c : Cache) :
    r.recalls ((r.commit ref m).ask c).2 ref' =
      if r.config.remember ∧ ref = ref' ∧ r.recalls c ref = none then some m
      else r.recalls c ref' := by
  rw [ask_commit]
  cases hr : r.config.remember with
  | false => simp only [recalls, hr, Bool.false_eq_true, if_false, false_and]
  | true =>
    simp only [recalls, hr, if_true, true_and, Std.TreeMap.getElem?_insertIfNew,
      Std.compare_eq_iff_eq, Std.TreeMap.mem_iff_isSome_getElem?, Option.not_isSome_iff_eq_none]

theorem recalls_commit_of_some {ref ref' : TypeDefOrRef} {m m' : Memo} {c : Cache}
    (h : r.recalls c ref' = some m') :
    r.recalls ((r.commit ref m).ask c).2 ref' = some m' := by
  rw [recalls_commit, if_neg, h]
  rintro ⟨-, rfl, hnone⟩
  rw [h] at hnone
  cases hnone

theorem recalls_commit_cases {ref ref' : TypeDefOrRef} {m m' : Memo} {c : Cache}
    (h : r.recalls ((r.commit ref m).ask c).2 ref' = some m') :
    r.recalls c ref' = some m' ∨ ref' = ref ∧ m' = m := by
  rw [recalls_commit] at h
  split at h
  · next hnew => cases h; exact .inr ⟨hnew.2.1.symm, rfl⟩
  · exact .inl h

/-- An invariant of memories under which a resolver answers as over what is known: they keep to it,
and remembering what was found with the levels of a query keeps the invariant. -/
structure Guards (r : Resolver) (known : Knowledge) (inv : Cache → Prop) : Prop where
  keeps : ∀ c, inv c → r.Keeps known c
  commit : ∀ n < r.config.maxDepth, ∀ ref m, r.referenceFrom known (n + 1) ref = .ok m →
    ∀ c, inv c → inv ((r.commit ref m).ask c).2

theorem keeps_guards (r : Resolver) (known : Knowledge) : r.Guards known (r.Keeps known) := by
  refine ⟨fun _ hc => hc, fun n _ ref m hm c hc => ?_⟩
  refine ⟨fun ref' m' hk => recalls_commit_of_some (hc.knows ref' m' hk), fun ref' m' hm' => ?_⟩
  rcases recalls_commit_cases hm' with hold | ⟨rfl, rfl⟩
  · exact hc.settles ref' m' hold
  · exact (settles_of_ok r known (n + 1)).2.1 ref' m' hm

theorem answers_lookUp {inv : Cache → Prop} {apply : Signature → List Signature → Query Memo}
    {apply' : Signature → List Signature → Except Error Memo}
    (h : ∀ base args, Query.Answers inv (apply base args) (apply' base args))
    (ref : TypeDefOrRef) : Query.Answers inv (r.lookUp apply ref) (r.lookUpFrom apply' ref) := by
  cases ref with
  | typeDef d => exact .pure _
  | typeRef x => exact (Query.Answers.lift _).bind_pure _
  | typeSpec x =>
    refine (Query.Answers.lift _).bind fun row _ => ?_
    obtain ⟨token, signature⟩ := row
    cases signature with
    | genericInst base args => exact (h base args).bind_pure _
    | _ => exact .throw _

namespace Guards

variable {inv : Cache → Prop} (h : r.Guards known inv)
include h

theorem answers_commit {n : Nat} (hn : n < r.config.maxDepth) {ref : TypeDefOrRef} {m : Memo}
    (hm : r.referenceFrom known (n + 1) ref = .ok m) :
    Query.Answers inv (r.commit ref m) (.ok ()) := by
  intro c hc
  refine ⟨?_, h.commit n hn ref m hm c hc⟩
  rw [ask_commit]

/-- A resolver that keeps to what is known answers as over what is known. -/
theorem answers (n : Nat) (hn : n ≤ r.config.maxDepth) :
    (∀ s, Query.Answers inv (r.signature n s) (r.signatureFrom known n s)) ∧
    (∀ ref, Query.Answers inv (r.reference n ref) (r.referenceFrom known n ref)) ∧
    (∀ base args, Query.Answers inv (r.instantiation n base args)
      (r.instantiationFrom known n base args)) := by
  induction n with
  | zero =>
    refine ⟨fun s => ?_, fun ref => ?_, fun base args => ?_⟩
    · exact .throw _
    · exact .throw _
    · exact .throw _
  | succ n ih =>
    obtain ⟨ihs, ihr, ihi⟩ := ih (Nat.le_of_succ_le hn)
    refine ⟨fun s => ?_, fun ref => ?_, fun base args => ?_⟩
    · cases s with
      | fundamental k => exact .pure _
      | object => exact .pure _
      | genericParamType i => exact .pure _
      | classType k | valueType k =>
        exact (Query.Answers.lift _).bind fun ref _ => (ihr ref).bind_pure _
      | genericInst base args => exact (ihi base args).bind_pure _
      | szArray e => exact (ihs e).bind_pure _
      | unknown | void | ptr _ | byRef _ | typedByRef | nativeInt | nativeUInt
      | genericParamMethod _ => exact .throw _
    · intro c hc
      have hkeeps := h.keeps c hc
      cases hm : r.recalls c ref with
      | some m =>
        -- a hit counts at the height of the memo, where a look-up would end
        have hs : r.referenceFrom known (n + 1) ref = _ := hkeeps.settles ref m hm (n + 1)
        rw [ask_reference_of_some hm, hs]
        simp only [Nat.lt_succ_iff, true_and]
        exact hc
      | none =>
        have hk : known ref = none := by
          cases hk : known ref with
          | none => rfl
          | some m => rw [hkeeps.knows ref m hk] at hm; cases hm
        have hfrom : r.referenceFrom known (n + 1) ref = _ := referenceFrom_of_unknown hk n
        rw [ask_reference_of_none hm, hfrom, ← bind_pure (lookUpFrom _ _ _)]
        refine ((answers_lookUp ihi ref).bind fun m hm => ?_) c hc
        exact (h.answers_commit hn (hfrom.trans hm)).bind fun _ _ => .pure m
    · refine (Query.Answers.lift _).bind fun d _ => ?_
      exact (Query.Answers.mapM ihs args).bind_pure _

end Guards

def resolveFrom (r : Resolver) (known : Knowledge) (s : Signature) : Except Error Semantics := do
  return (← r.signatureFrom known r.config.maxDepth s).meaning

def resolveReferenceFrom (r : Resolver) (known : Knowledge) (ref : TypeDefOrRef) :
    Except Error Semantics := do
  return (← r.referenceFrom known r.config.maxDepth ref).meaning

/-! ## Other levels and other rules -/

section Rules

variable {F : Error → Prop} {v : View} {cfg cfg' : Config}

theorem carries_lookUpFrom {apply apply' : Signature → List Signature → Except Error Memo}
    (h : ∀ base args, Carries F (apply base args) (apply' base args)) (ref : TypeDefOrRef) :
    Carries F (lookUpFrom ⟨v, cfg⟩ apply ref) (lookUpFrom ⟨v, cfg'⟩ apply' ref) := by
  cases ref with
  | typeDef d => exact .refl _
  | typeRef x => exact .refl _
  | typeSpec x =>
    refine Carries.bind (.refl _) fun row => ?_
    obtain ⟨token, signature⟩ := row
    cases signature with
    | genericInst base args => exact (h base args).bind fun _ => .refl _
    | _ => exact .refl _

/-- The failure at the limit, beside what there is with `n` levels. -/
theorem carries_limitReached {n : Nat} {y : Except Error Memo}
    (hlimit : F (.recursionLimit cfg.maxDepth) → 0 = n ∧ cfg.maxDepth = cfg'.maxDepth)
    (hy : n = 0 → y = .error (.recursionLimit cfg'.maxDepth)) :
    Carries F (.error (.recursionLimit cfg.maxDepth)) y := by
  intro hc
  obtain ⟨hn, hsame⟩ := hlimit (hc _ rfl)
  rw [hy hn.symm, hsame]

/-- Of the rules, only the limit matters, and more levels lead on where fewer were enough. The failure
at the limit carries over, if it counts, to as many levels under the same limit. By induction on the
fewer levels. -/
theorem carries_from (known : Knowledge) (n : Nat) : ∀ n', n ≤ n' →
    (F (.recursionLimit cfg.maxDepth) → n = n' ∧ cfg.maxDepth = cfg'.maxDepth) →
    (∀ s, Carries F (signatureFrom ⟨v, cfg⟩ known n s) (signatureFrom ⟨v, cfg'⟩ known n' s)) ∧
    (∀ ref, Carries F (referenceFrom ⟨v, cfg⟩ known n ref)
      (referenceFrom ⟨v, cfg'⟩ known n' ref)) ∧
    (∀ base args, Carries F (instantiationFrom ⟨v, cfg⟩ known n base args)
      (instantiationFrom ⟨v, cfg'⟩ known n' base args)) := by
  induction n with
  | zero =>
    intro n' _ hlimit
    refine ⟨fun s => ?_, fun ref => ?_, fun base args => ?_⟩
    · exact carries_limitReached hlimit fun hn => by rw [hn]; rfl
    · exact carries_limitReached hlimit fun hn => by rw [hn]; rfl
    · exact carries_limitReached hlimit fun hn => by rw [hn]; rfl
  | succ n ih =>
    intro n' hle hlimit
    cases n' with
    | zero => omega
    | succ n' =>
      have hlimit' : F (.recursionLimit cfg.maxDepth) → n = n' ∧ cfg.maxDepth = cfg'.maxDepth :=
        fun hF => ⟨Nat.succ_inj.mp (hlimit hF).1, (hlimit hF).2⟩
      obtain ⟨ihs, ihr, ihi⟩ := ih n' (Nat.le_of_succ_le_succ hle) hlimit'
      refine ⟨fun s => ?_, fun ref => ?_, fun base args => ?_⟩
      · cases s with
        | classType k | valueType k =>
          exact Carries.bind (.refl _) fun ref => (ihr ref).bind fun _ => .refl _
        | genericInst base args => exact (ihi base args).bind fun _ => .refl _
        | szArray e => exact (ihs e).bind fun _ => .refl _
        | fundamental _ | object | genericParamType _ | unknown | void | ptr _ | byRef _
        | typedByRef | nativeInt | nativeUInt | genericParamMethod _ => exact .refl _
      · cases hk : known ref with
        | some m =>
          rw [referenceFrom_of_known hk, referenceFrom_of_known hk]
          by_cases hm : m.height ≤ n
          · rw [if_pos hm, if_pos (by omega)]
            exact .refl _
          · intro hc
            rw [if_neg hm] at hc ⊢
            obtain ⟨rfl, hsame⟩ := hlimit' (hc _ rfl)
            rw [if_neg hm, limitReached, limitReached, hsame]
        | none =>
          rw [referenceFrom_of_unknown hk, referenceFrom_of_unknown hk]
          exact carries_lookUpFrom ihi ref
      · refine Carries.bind (.refl _) fun d => ?_
        exact (Carries.mapM ihs args).bind fun _ => .refl _

variable (v cfg cfg') (hle : cfg.maxDepth ≤ cfg'.maxDepth)
  (hlimit : F (.recursionLimit cfg.maxDepth) → cfg.maxDepth = cfg'.maxDepth)
include hle hlimit

theorem carries_resolveFrom (known : Knowledge) (s : Signature) :
    Carries F (resolveFrom ⟨v, cfg⟩ known s) (resolveFrom ⟨v, cfg'⟩ known s) :=
  ((carries_from known _ _ hle fun hF => ⟨hlimit hF, hlimit hF⟩).1 s).bind fun _ => .refl _

theorem carries_resolveReferenceFrom (known : Knowledge) (ref : TypeDefOrRef) :
    Carries F (resolveReferenceFrom ⟨v, cfg⟩ known ref)
      (resolveReferenceFrom ⟨v, cfg'⟩ known ref) :=
  ((carries_from known _ _ hle fun hF => ⟨hlimit hF, hlimit hF⟩).2.1 ref).bind fun _ => .refl _

end Rules

theorem Guards.answers_resolve {inv : Cache → Prop} (h : r.Guards known inv) (s : Signature) :
    Query.Answers inv (r.resolve s) (r.resolveFrom known s) :=
  ((h.answers _ (Nat.le_refl _)).1 s).bind_pure _

theorem Guards.answers_resolveReference {inv : Cache → Prop} (h : r.Guards known inv)
    (ref : TypeDefOrRef) :
    Query.Answers inv (r.resolveReference ref) (r.resolveReferenceFrom known ref) :=
  ((h.answers _ (Nat.le_refl _)).2.1 ref).bind_pure _

theorem answers_resolve (r : Resolver) (known : Knowledge) (s : Signature) :
    Query.Answers (r.Keeps known) (r.resolve s) (r.resolveFrom known s) :=
  (r.keeps_guards known).answers_resolve s

theorem answers_resolveReference (r : Resolver) (known : Knowledge) (ref : TypeDefOrRef) :
    Query.Answers (r.Keeps known) (r.resolveReference ref) (r.resolveReferenceFrom known ref) :=
  (r.keeps_guards known).answers_resolveReference ref

end Resolver
end MetadataProjection
