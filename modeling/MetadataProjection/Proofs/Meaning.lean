import MetadataProjection.Proofs.Knowledge

/-!
# MetadataProjection.Proofs.Meaning

What signatures and references mean, as a relation that knows no limit, and how high each meaning
stands, that is, how deep a resolution of it nests.

* `View.Means`, `View.RefMeans`: the meaning of a signature and of a reference, with its height.
  `View.InstMeans` and `View.ArgsMean` are for instantiations and their arguments.
* `Means.settles`, `means_of_ok`: the resolver finds these meanings, with more levels than their
  height, and no others.
* `resolve_eq_ok_iff_means`: what a resolver with a limit answers.
-/

namespace MetadataProjection
namespace View

inductive TokenNames (v : View) : Token → TypeDef → Prop where
  | typeDef {k : Token} {d : TypeDef} : TypeDefOrRef.ofToken k = .ok (.typeDef d) →
      TokenNames v k d
  | typeRef {k : Token} {x : TypeRef} {row : TypeRefRow} {d : TypeDef} :
      TypeDefOrRef.ofToken k = .ok (.typeRef x) → v.row x = .ok row →
      v.findType? row.space row.name = some d → TokenNames v k d

/-- What can be instantiated. -/
inductive BaseNames (v : View) : Signature → TypeDef → Prop where
  | classType {k : Token} {d : TypeDef} : TokenNames v k d → BaseNames v (.classType k) d
  | valueType {k : Token} {d : TypeDef} : TokenNames v k d → BaseNames v (.valueType k) d

mutual

/-- A signature means `m`, at height `h`. -/
inductive Means (v : View) : Signature → Semantics → Nat → Prop where
  | fundamental (k : Fundamental) : Means v (.fundamental k) (.fundamental k) 0
  | object : Means v .object .object 0
  | index (i : UInt32) : Means v (.genericParamType i) (.index i) 0
  | array {e : Signature} {m : Semantics} {h : Nat} :
      Means v e m h → Means v (.szArray e) m (h + 1)
  | classType {k : Token} {ref : TypeDefOrRef} {m : Semantics} {h : Nat} :
      TypeDefOrRef.ofToken k = .ok ref → RefMeans v ref m h → Means v (.classType k) m (h + 1)
  | valueType {k : Token} {ref : TypeDefOrRef} {m : Semantics} {h : Nat} :
      TypeDefOrRef.ofToken k = .ok ref → RefMeans v ref m h → Means v (.valueType k) m (h + 1)
  | inst {base : Signature} {args : List Signature} {m : Semantics} {h : Nat} :
      InstMeans v base args m h → Means v (.genericInst base args) m (h + 1)

inductive RefMeans (v : View) : TypeDefOrRef → Semantics → Nat → Prop where
  | typeDef (d : TypeDef) : RefMeans v (.typeDef d) (.definition d) 0
  | guid {x : TypeRef} {row : TypeRefRow} : v.row x = .ok row →
      row.isNamed Platform.systemNamespace "Guid" = true → RefMeans v (.typeRef x) .guid 0
  | named {x : TypeRef} {row : TypeRefRow} {d : TypeDef} : v.row x = .ok row →
      row.isNamed Platform.systemNamespace "Guid" = false →
      v.findType? row.space row.name = some d → RefMeans v (.typeRef x) (.definition d) 0
  | spec {x : TypeSpec} {row : TypeSpecRow} {base : Signature} {args : List Signature}
      {m : Semantics} {h : Nat} : v.row x = .ok row → row.signature = .genericInst base args →
      InstMeans v base args m h → RefMeans v (.typeSpec x) m (h + 1)

inductive InstMeans (v : View) : Signature → List Signature → Semantics → Nat → Prop where
  | mk {base : Signature} {args : List Signature} {d : TypeDef} {ms : List Semantics} {h : Nat} :
      BaseNames v base d → ArgsMean v args ms h → InstMeans v base args (.inst d ms) h

/-- The arguments mean `ms`; `h` is 0, or one more than the height of the highest of them. -/
inductive ArgsMean (v : View) : List Signature → List Semantics → Nat → Prop where
  | nil : ArgsMean v [] [] 0
  | cons {a : Signature} {as : List Signature} {m : Semantics} {ms : List Semantics} {h k : Nat} :
      Means v a m h → ArgsMean v as ms k → ArgsMean v (a :: as) (m :: ms) (max (h + 1) k)

end

end View

namespace Resolver

open View

variable {r : Resolver}

theorem findRequired_eq_ok_iff {v : View} {space name : String} {d : TypeDef} :
    v.findRequired space name = .ok d ↔ v.findType? space name = some d := by
  unfold findRequired
  cases v.findType? space name with
  | none => constructor <;> intro h <;> cases h
  | some d' => simp

theorem named_eq_ok_iff {x : TypeRef} {d : TypeDef} :
    r.named x = .ok d ↔
      ∃ row : TypeRefRow, r.view.row x = .ok row ∧ r.view.findType? row.space row.name = some d := by
  simp only [named, Except.bind_eq_ok_iff, findRequired_eq_ok_iff]

theorem tokenNames_of_ok {k : Token} {d : TypeDef}
    (h : r.genericBase (.classType k) = .ok d) : r.view.TokenNames k d := by
  obtain ⟨ref, href, h⟩ := Except.bind_eq_ok_iff.mp h
  cases ref with
  | typeDef d' => cases h; exact .typeDef href
  | typeRef x =>
    obtain ⟨row, hrow, hd⟩ := named_eq_ok_iff.mp h
    exact .typeRef href hrow hd
  | typeSpec x => cases h

theorem TokenNames.ok {k : Token} {d : TypeDef} (h : r.view.TokenNames k d) :
    r.genericBase (.classType k) = .ok d := by
  cases h with
  | typeDef href => rw [genericBase, href]; rfl
  | typeRef href hrow hd =>
    rw [genericBase, href]
    exact named_eq_ok_iff.mpr ⟨_, hrow, hd⟩

theorem genericBase_eq_ok_iff {base : Signature} {d : TypeDef} :
    r.genericBase base = .ok d ↔ r.view.BaseNames base d := by
  constructor
  · intro h
    cases base with
    | classType k => exact .classType (tokenNames_of_ok h)
    | valueType k => exact .valueType (tokenNames_of_ok h)
    | _ => cases h
  · intro h
    cases h with
    | classType hk => exact TokenNames.ok hk
    | valueType hk => exact TokenNames.ok hk

theorem instanceHeight_cons (m : Memo) (ms : List Memo) :
    instanceHeight (m :: ms) = max (m.height + 1) (instanceHeight ms) := by
  have h : ∀ n, instanceHeight (m :: ms) ≤ n ↔ max (m.height + 1) (instanceHeight ms) ≤ n := by
    intro n
    rw [instanceHeight_le_iff, List.forall_mem_cons, Nat.max_le, instanceHeight_le_iff,
      Nat.succ_le_iff]
  exact Nat.le_antisymm ((h _).mpr (Nat.le_refl _)) ((h _).mp (Nat.le_refl _))

/-! ## The resolver finds every meaning -/

mutual

/-- With nothing known, a meaning settles at its height. By induction on how it comes about. -/
theorem Means.settles : ∀ {s : Signature} {m : Semantics} {h : Nat}, r.view.Means s m h →
    r.Settles (r.signatureFrom .none · s) ⟨m, h⟩
  | _, _, _, .fundamental _ => .of_const rfl rfl fun _ => rfl
  | _, _, _, .object => .of_const rfl rfl fun _ => rfl
  | _, _, _, .index _ => .of_const rfl rfl fun _ => rfl
  | _, _, _, .array hm => (Means.settles hm).raise rfl fun _ => rfl
  | _, _, _, .classType hk hm => (RefMeans.settles hm).raise rfl fun _ => by
      rw [signatureFrom, hk]; rfl
  | _, _, _, .valueType hk hm => (RefMeans.settles hm).raise rfl fun _ => by
      rw [signatureFrom, hk]; rfl
  | _, _, _, .inst hm => (InstMeans.settles hm).raise rfl fun _ => rfl

theorem RefMeans.settles : ∀ {ref : TypeDefOrRef} {m : Semantics} {h : Nat},
    r.view.RefMeans ref m h → r.Settles (r.referenceFrom .none · ref) ⟨m, h⟩
  | _, _, _, .typeDef _ => .of_const rfl rfl fun _ => rfl
  | _, _, _, .guid hrow hn => .of_const rfl rfl fun n => by
      rw [referenceFrom_of_unknown rfl, lookUpFrom, namedMeaning, hrow, Except.ok_bind, if_pos hn]
      rfl
  | _, _, _, .named hrow hn hd => .of_const rfl rfl fun n => by
      rw [referenceFrom_of_unknown rfl, lookUpFrom, namedMeaning, hrow, Except.ok_bind, hn,
        findRequired_eq_ok_iff.mpr hd]
      rfl
  | _, _, _, .spec hrow hs hm => (InstMeans.settles hm).raise rfl fun n => by
      rw [referenceFrom_of_unknown rfl, lookUpFrom, hrow, Except.ok_bind, hs]

theorem InstMeans.settles : ∀ {base : Signature} {args : List Signature} {m : Semantics} {h : Nat},
    r.view.InstMeans base args m h → r.Settles (r.instantiationFrom .none · base args) ⟨m, h⟩
  | _, _, _, _, .mk hd hargs => by
    obtain ⟨memos, hms, rfl, rfl⟩ := ArgsMean.settle hargs
    exact settles_instance (genericBase_eq_ok_iff.mpr hd) hms

theorem ArgsMean.settle : ∀ {args : List Signature} {ms : List Semantics} {h : Nat},
    r.view.ArgsMean args ms h → ∃ memos : List Memo,
      List.Forall₂ (fun a m => r.Settles (r.signatureFrom .none · a) m) args memos ∧
      memos.map (·.meaning) = ms ∧ instanceHeight memos = h
  | _, _, _, .nil => ⟨[], .nil, rfl, rfl⟩
  | _, _, _, .cons hm hms => by
    obtain ⟨memos, hmemos, rfl, rfl⟩ := ArgsMean.settle hms
    exact ⟨_ :: memos, .cons (Means.settles hm) hmemos, rfl, instanceHeight_cons _ _⟩

end

/-! ## The resolver finds nothing else -/

theorem argsMean_of_forall₂ {args : List Signature} {memos : List Memo}
    (h : List.Forall₂ (fun a m => r.view.Means a m.meaning m.height) args memos) :
    r.view.ArgsMean args (memos.map (·.meaning)) (instanceHeight memos) := by
  induction h with
  | nil => exact .nil
  | cons hm _ ih =>
    rw [instanceHeight_cons]
    exact .cons hm ih

theorem refMeans_of_lookUp {ref : TypeDefOrRef} {m : Memo} {n : Nat}
    (h : r.lookUpFrom (r.instantiationFrom .none n) ref = .ok m)
    (ih : ∀ base args m, r.instantiationFrom .none n base args = .ok m →
      r.view.InstMeans base args m.meaning m.height) :
    r.view.RefMeans ref m.meaning m.height := by
  cases ref with
  | typeDef d => cases h; exact .typeDef d
  | typeRef x =>
    obtain ⟨t, ht, h⟩ := Except.bind_eq_ok_iff.mp h
    obtain ⟨row, hrow, ht⟩ := Except.bind_eq_ok_iff.mp ht
    cases h
    cases hn : row.isNamed Platform.systemNamespace "Guid" with
    | true =>
      rw [hn, if_pos rfl] at ht
      cases ht
      exact .guid hrow hn
    | false =>
      rw [hn, if_neg Bool.false_ne_true] at ht
      obtain ⟨d, hd, ht⟩ := Except.bind_eq_ok_iff.mp ht
      cases ht
      exact .named hrow hn (findRequired_eq_ok_iff.mp hd)
  | typeSpec x =>
    obtain ⟨row, hrow, h⟩ := Except.bind_eq_ok_iff.mp h
    split at h
    · next base args hs =>
      obtain ⟨m', hm', h⟩ := Except.bind_eq_ok_iff.mp h
      cases h
      exact .spec hrow hs (ih base args m' hm')
    · cases h

/-- With nothing known, whatever is found is a meaning at its height. By induction on the levels it
is found with, which is the only measure: the references may run in a circle. -/
theorem means_of_ok (r : Resolver) (n : Nat) :
    (∀ s m, r.signatureFrom .none n s = .ok m → r.view.Means s m.meaning m.height) ∧
    (∀ ref m, r.referenceFrom .none n ref = .ok m → r.view.RefMeans ref m.meaning m.height) ∧
    (∀ base args m, r.instantiationFrom .none n base args = .ok m →
      r.view.InstMeans base args m.meaning m.height) := by
  induction n with
  | zero =>
    refine ⟨fun s m h => ?_, fun ref m h => ?_, fun base args m h => ?_⟩
    · cases h
    · cases h
    · cases h
  | succ n ih =>
    obtain ⟨ihs, ihr, ihi⟩ := ih
    refine ⟨fun s m h => ?_, fun ref m h => ?_, fun base args m h => ?_⟩
    · cases s with
      | fundamental k => cases h; exact .fundamental k
      | object => cases h; exact .object
      | genericParamType i => cases h; exact .index i
      | classType k =>
        obtain ⟨ref, href, h⟩ := Except.bind_eq_ok_iff.mp h
        obtain ⟨m', hm', h⟩ := Except.bind_eq_ok_iff.mp h
        cases h
        exact .classType href (ihr ref m' hm')
      | valueType k =>
        obtain ⟨ref, href, h⟩ := Except.bind_eq_ok_iff.mp h
        obtain ⟨m', hm', h⟩ := Except.bind_eq_ok_iff.mp h
        cases h
        exact .valueType href (ihr ref m' hm')
      | genericInst base args =>
        obtain ⟨m', hm', h⟩ := Except.bind_eq_ok_iff.mp h
        cases h
        exact .inst (ihi base args m' hm')
      | szArray e =>
        obtain ⟨m', hm', h⟩ := Except.bind_eq_ok_iff.mp h
        cases h
        exact .array (ihs e m' hm')
      | unknown | void | ptr _ | byRef _ | typedByRef | nativeInt | nativeUInt
      | genericParamMethod _ => cases h
    · rw [referenceFrom_of_unknown rfl] at h
      exact refMeans_of_lookUp h ihi
    · obtain ⟨d, hd, h⟩ := Except.bind_eq_ok_iff.mp h
      obtain ⟨memos, hmemos, h⟩ := Except.bind_eq_ok_iff.mp h
      cases h
      refine .mk (genericBase_eq_ok_iff.mp hd) (argsMean_of_forall₂ ?_)
      exact (Except.mapM_eq_ok_iff.mp hmemos).imp fun a m => ihs a m

/-! ## What a resolver with a limit answers -/

theorem resolveFrom_eq_ok_iff {s : Signature} {m : Semantics} :
    r.resolveFrom .none s = .ok m ↔ ∃ h, r.view.Means s m h ∧ h < r.config.maxDepth := by
  constructor
  · intro hs
    obtain ⟨memo, hmemo, hs⟩ := Except.bind_eq_ok_iff.mp hs
    cases hs
    have hm := (means_of_ok r _).1 s memo hmemo
    exact ⟨memo.height, hm, ((Means.settles hm).eq_ok hmemo).2⟩
  · rintro ⟨h, hm, hlt⟩
    have hs : r.signatureFrom .none r.config.maxDepth s = _ := Means.settles hm _
    rw [resolveFrom, hs, if_pos hlt]; rfl

theorem resolveReferenceFrom_eq_ok_iff {ref : TypeDefOrRef} {m : Semantics} :
    r.resolveReferenceFrom .none ref = .ok m ↔
      ∃ h, r.view.RefMeans ref m h ∧ h < r.config.maxDepth := by
  constructor
  · intro hs
    obtain ⟨memo, hmemo, hs⟩ := Except.bind_eq_ok_iff.mp hs
    cases hs
    have hm := (means_of_ok r _).2.1 ref memo hmemo
    exact ⟨memo.height, hm, ((RefMeans.settles hm).eq_ok hmemo).2⟩
  · rintro ⟨h, hm, hlt⟩
    have hs : r.referenceFrom .none r.config.maxDepth ref = _ := RefMeans.settles hm _
    rw [resolveReferenceFrom, hs, if_pos hlt]; rfl

theorem resolveFrom_eq_error {s : Signature} {m : Semantics} {h : Nat} (hm : r.view.Means s m h)
    (hle : r.config.maxDepth ≤ h) : r.resolveFrom .none s = .error r.limitReached := by
  have hs : r.signatureFrom .none r.config.maxDepth s = _ := Means.settles hm _
  rw [resolveFrom, hs, if_neg (Nat.not_lt.mpr hle)]; rfl

theorem resolveReferenceFrom_eq_error {ref : TypeDefOrRef} {m : Semantics} {h : Nat}
    (hm : r.view.RefMeans ref m h) (hle : r.config.maxDepth ≤ h) :
    r.resolveReferenceFrom .none ref = .error r.limitReached := by
  have hs : r.referenceFrom .none r.config.maxDepth ref = _ := RefMeans.settles hm _
  rw [resolveReferenceFrom, hs, if_neg (Nat.not_lt.mpr hle)]; rfl

/-- A new resolver finds exactly the meanings that stand lower than its limit, and reports the limit
for the others. A signature has one meaning at most, and that at one height. -/
theorem resolve_eq_ok_iff_means (r : Resolver) :
    (∀ s m, ((r.resolve s).ask ∅).1 = .ok m ↔
      ∃ h, r.view.Means s m h ∧ h < r.config.maxDepth) ∧
    (∀ s m h, r.view.Means s m h → r.config.maxDepth ≤ h →
      ((r.resolve s).ask ∅).1 = .error (.recursionLimit r.config.maxDepth)) ∧
    (∀ ref m, ((r.resolveReference ref).ask ∅).1 = .ok m ↔
      ∃ h, r.view.RefMeans ref m h ∧ h < r.config.maxDepth) ∧
    (∀ ref m h, r.view.RefMeans ref m h → r.config.maxDepth ≤ h →
      ((r.resolveReference ref).ask ∅).1 = .error (.recursionLimit r.config.maxDepth)) ∧
    (∀ s m m' h h', r.view.Means s m h → r.view.Means s m' h' → m = m' ∧ h = h') := by
  have hs : ∀ s, ((r.resolve s).ask ∅).1 = r.resolveFrom .none s := fun s =>
    (r.answers_resolve .none s ∅ r.keeps_empty).1
  have href : ∀ ref, ((r.resolveReference ref).ask ∅).1 = r.resolveReferenceFrom .none ref :=
    fun ref => (r.answers_resolveReference .none ref ∅ r.keeps_empty).1
  refine ⟨fun s m => ?_, fun s m h hm hle => ?_, fun ref m => ?_, fun ref m h hm hle => ?_,
    fun s m m' h h' hm hm' => ?_⟩
  · rw [hs]; exact resolveFrom_eq_ok_iff
  · rw [hs]; exact resolveFrom_eq_error hm hle
  · rw [href]; exact resolveReferenceFrom_eq_ok_iff
  · rw [href]; exact resolveReferenceFrom_eq_error hm hle
  · cases (Means.settles hm).unique (Means.settles (r := r) hm')
    exact ⟨rfl, rfl⟩

/-- A store with one instantiation, of the first definition over a number. -/
def vectorStore : Store :=
  Store.empty.put (t := .typeSpec) ⟨1⟩
    { signature := .genericInst (.classType ⟨Table.typeDef.number, 1⟩) [.fundamental .int32] }

theorem resolve_eq_ok_iff_means_vector :
    vectorStore.view.Means (.classType ⟨Table.typeSpec.number, 1⟩)
      (.inst ⟨1⟩ [.fundamental .int32]) 3 ∧
    ((resolve { view := vectorStore.view, config := { maxDepth := 4 } }
      (.classType ⟨Table.typeSpec.number, 1⟩)).ask ∅).1 = .ok (.inst ⟨1⟩ [.fundamental .int32]) ∧
    ((resolve { view := vectorStore.view, config := { maxDepth := 3 } }
      (.classType ⟨Table.typeSpec.number, 1⟩)).ask ∅).1 = .error (.recursionLimit 3) := by
  have hm : vectorStore.view.Means (.classType ⟨Table.typeSpec.number, 1⟩)
      (.inst ⟨1⟩ [.fundamental .int32]) 3 :=
    .classType rfl (.spec rfl rfl (.mk (.classType (.typeDef rfl)) (.cons (.fundamental _) .nil)))
  have hlow := (resolve_eq_ok_iff_means { view := vectorStore.view, config := { maxDepth := 4 } }).1
  have hhigh :=
    (resolve_eq_ok_iff_means { view := vectorStore.view, config := { maxDepth := 3 } }).2.1
  exact ⟨hm, (hlow _ _).mpr ⟨3, hm, by decide⟩, hhigh _ _ 3 hm (by decide)⟩

end Resolver
end MetadataProjection
