import MetadataProjection.Proofs.ActivationChain

/-!
# MetadataProjection.Proofs.Batch

Types that are projected one after the other share what is remembered. It never shows in a projection.

* `Request`: what can be asked of a projector, `Session.serve` puts it to one.
* `Session.Lived`: a store, and whatever a projector may remember of it. All of it are meanings
  (`Lived.sound`).
* `Resolver.run_tryProject`, `Resolver.projectAll_eq`: one projection after the other, each as it is
  found alone.
* `Session.Lived.project_eq_alone`: projections depend neither on what came before them nor on their
  order, and a batch consists of all projections and all failures.
-/

namespace MetadataProjection

/-! ## Requests -/

/-- What can be asked of a projector and of its resolver. The protocols of a type are asked for
interface by interface. -/
inductive Request : Type 1 where
  | ask (q : Question)
  | enumerate {σ : Type} (visit : σ → Semantics → TypeRow → Except Error σ) (state : σ) (d : TypeDef)
  | requiredInterfaces (d : TypeDef)
  | overloads (d : TypeDef)
  | implements (d : TypeDef) (space name : String)
  | fieldMeaning (f : FieldRow) (storage : Bool)
  | factoryMethod (m : MethodRow)
  | abiName (m : MethodRow)
  | shape (m : MethodRow)
  | project (d : TypeDef)
  | projectAll
  | forget

def Request.remembered (r : Resolver) (c : Cache) : Request → Cache
  | .ask q => ((q.put r).ask c).2
  | .enumerate visit state d => ((r.enumerate visit state d).ask c).2
  | .requiredInterfaces d => ((r.requiredInterfaces d).ask c).2
  | .overloads d => ((r.overloads d).ask c).2
  | .implements d space name => ((r.implements d space name).ask c).2
  | .fieldMeaning f storage => ((r.fieldMeaning f storage).ask c).2
  | .factoryMethod m => ((r.factoryMethod m).ask c).2
  | .abiName m => ((r.abiName m).ask c).2
  | .shape m => ((r.shape m).ask c).2
  | .project d => ((r.project d).ask c).2
  | .projectAll => (r.projectAll.run c).2
  | .forget => ∅

/-! ## Batches -/

/-- Where each step has its result, whatever is remembered, so has a batch of steps. -/
theorem run_mapM {α β : Type} {inv : Cache → Prop} {f : α → StateM Cache β} {g : α → β}
    (h : ∀ a c, inv c → ((f a).run c).1 = g a ∧ inv ((f a).run c).2) (as : List α) (c : Cache)
    (hc : inv c) : ((as.mapM f).run c).1 = as.map g ∧ inv ((as.mapM f).run c).2 := by
  induction as generalizing c with
  | nil => exact ⟨rfl, hc⟩
  | cons a as ih =>
    obtain ⟨hfirst, hc₁⟩ := h a c hc
    obtain ⟨hrest, hc₂⟩ := ih _ hc₁
    rw [List.mapM_cons, List.map_cons, ← hfirst, ← hrest]
    exact ⟨rfl, hc₂⟩

theorem forall₂_filterMap {α β : Type} (f : α → Option β) (as : List α) :
    List.Forall₂ (fun a b => f a = some b) (as.filter fun a => (f a).isSome) (as.filterMap f) := by
  induction as with
  | nil => exact .nil
  | cons a as ih =>
    cases h : f a with
    | none => rw [List.filter_cons_of_neg (by simp [h]), List.filterMap_cons_none h]; exact ih
    | some b =>
      rw [List.filter_cons_of_pos (by simp [h]), List.filterMap_cons_some h]
      exact .cons h ih

namespace Resolver

variable {r : Resolver}

/-- The projection that a resolver finds that remembers nothing yet, or its failure. -/
def alone (r : Resolver) (d : TypeDef) : Except Error Projection := ((r.project d).ask ∅).1

theorem answers_project (r : Resolver) (d : TypeDef) :
    Query.Answers (r.Keeps .none) (r.project d) (r.uncached.alone d) :=
  (r.agree_project d).answers r.uncached.keeps_empty

theorem type_of_alone {d : TypeDef} {p : Projection} (h : r.alone d = .ok p) : p.type = d := by
  have hreturns : Query.Returns (fun p => p.type = d) (r.project d) := by
    refine (Query.Returns.any _).bind fun row _ => (Query.Returns.any _).bind fun category _ => ?_
    refine (Query.Returns.any _).bind fun members _ => ?_
    refine (Query.Returns.any _).bind fun interfaces _ => ?_
    refine (Query.Returns.any _).bind fun overloads _ => ?_
    refine (Query.Returns.any _).bind fun shapes _ => ?_
    refine .ite _ ?_ ?_
    · exact (Query.Returns.any _).bind fun fields _ => .pure rfl
    · exact .pure rfl
  exact hreturns ∅ p h

def entry (r : Resolver) (d : TypeDef) : Except Diagnostic Projection :=
  match r.uncached.alone d with
  | .ok p => .ok p
  | .error error => .error ⟨r.diagnosticName d, error⟩

theorem run_tryProject (r : Resolver) (d : TypeDef) (c : Cache) (hc : r.Keeps .none c) :
    ((r.tryProject d).run c).1 = r.entry d ∧ r.Keeps .none ((r.tryProject d).run c).2 := by
  obtain ⟨hanswer, hkeeps⟩ := r.answers_project d c hc
  have hrun : (r.tryProject d).run c = match (r.project d).ask c with
      | (.ok p, c') => (.ok p, c')
      | (.error e, c') => (.error ⟨r.diagnosticName d, e⟩, c') := by
    simp only [tryProject, Query.ask, StateT.run_bind]
    rcases (r.project d).run.run c with ⟨x, c'⟩
    cases x <;> rfl
  rw [hrun, entry, ← hanswer]
  rcases hx : (r.project d).ask c with ⟨x, c'⟩
  rw [hx] at hkeeps
  cases x with
  | error e => exact ⟨rfl, hkeeps⟩
  | ok p => exact ⟨rfl, hkeeps⟩

def failure? : Except Diagnostic Projection → Option Diagnostic
  | .ok _ => none
  | .error e => some e

theorem run_projectAll (r : Resolver) (c : Cache) (hc : r.Keeps .none c) :
    (r.projectAll.run c).1 = (r.view.definitions.filterMap fun d => (r.entry d).toOption,
      r.view.definitions.filterMap fun d => failure? (r.entry d)) ∧
    r.Keeps .none (r.projectAll.run c).2 := by
  obtain ⟨hresults, hkeeps⟩ := run_mapM r.run_tryProject r.view.definitions c hc
  have hrun : r.projectAll.run c =
      (((((r.view.definitions.mapM r.tryProject).run c).1.filterMap (·.toOption),
        ((r.view.definitions.mapM r.tryProject).run c).1.filterMap failure?)),
        ((r.view.definitions.mapM r.tryProject).run c).2) := rfl
  rw [hrun, hresults, List.filterMap_map, List.filterMap_map]
  exact ⟨rfl, hkeeps⟩

theorem diagnosticName_of_row {d : TypeDef} {row : TypeRow} (h : r.view.row d = .ok row) :
    r.diagnosticName d = row.fullName := by
  rw [diagnosticName, h]

theorem alone_of_toOption_entry {d : TypeDef} {p : Projection}
    (h : (r.entry d).toOption = some p) : r.uncached.alone d = .ok p := by
  rw [entry] at h
  split at h
  · next hp => cases h; exact hp
  · cases h

theorem alone_of_failure?_entry {d : TypeDef} {g : Diagnostic}
    (h : failure? (r.entry d) = some g) :
    r.uncached.alone d = .error g.error ∧ g.typeName = r.diagnosticName d := by
  rw [entry] at h
  split at h
  · cases h
  · next he => cases h; exact ⟨he, rfl⟩

theorem perm_entries (r : Resolver) (ds : List TypeDef) :
    (ds.filter (fun d => (r.entry d).toOption.isSome) ++
      ds.filter fun d => (failure? (r.entry d)).isSome).Perm ds := by
  have hflip : (fun d => (failure? (r.entry d)).isSome) =
      fun d => !(r.entry d).toOption.isSome := by
    funext d
    cases r.entry d <;> rfl
  rw [hflip]
  exact List.filter_append_perm _ ds

theorem keeps_of_agree {α : Type} {q q' : Query α} (h : r.Agree q q') {c : Cache}
    (hc : r.Keeps .none c) : r.Keeps .none (q.ask c).2 :=
  (h.answers_self hc c hc).2

theorem keeps_remembered (r : Resolver) {c : Cache} (hc : r.Keeps .none c) (q : Request) :
    r.Keeps .none (q.remembered r c) := by
  cases q with
  | ask q => exact (q.answers r .none c hc).2
  | enumerate visit state d => exact keeps_of_agree (r.agree_enumerate visit state d) hc
  | requiredInterfaces d => exact keeps_of_agree (r.agree_requiredInterfaces d) hc
  | overloads d => exact keeps_of_agree (r.agree_overloads d) hc
  | implements d space name => exact keeps_of_agree (r.agree_implements d space name) hc
  | fieldMeaning f storage => exact keeps_of_agree (r.agree_fieldMeaning f storage) hc
  | factoryMethod m => exact keeps_of_agree (r.agree_factoryMethod m) hc
  | abiName m => exact keeps_of_agree (r.agree_abiName m) hc
  | shape m => exact keeps_of_agree (r.agree_shape m) hc
  | project d => exact keeps_of_agree (r.agree_project d) hc
  | projectAll => exact (r.run_projectAll c hc).2
  | forget => exact r.keeps_empty

end Resolver

/-! ## Sessions -/

namespace Session

variable {cfg : Config} {σ : Session}

def serve (cfg : Config) (σ : Session) (q : Request) : Session :=
  { σ with memory := q.remembered (σ.resolver cfg) σ.memory }

/-- What a projector can come to remember. It starts with nothing, over any store that can be built.
Requests follow in any order, and so do additions to the store as long as there are row numbers. -/
inductive Lived (cfg : Config) : Session → Prop where
  | start (building : List Action) : Lived cfg { store := (run cfg building).store }
  | serve {σ : Session} (q : Request) : Lived cfg σ → Lived cfg (σ.serve cfg q)
  | step {σ : Session} (a : Action) : Lived cfg σ → (σ.step cfg a).store.InRange →
      Lived cfg (σ.step cfg a)

structure Sound (cfg : Config) (σ : Session) : Prop where
  coherent : σ.store.Coherent
  numbered : σ.store.InRange → σ.store.Numbered
  keeps : (σ.resolver cfg).Keeps .none σ.memory

theorem Lived.sound (h : σ.Lived cfg) : σ.Sound cfg := by
  induction h with
  | start building =>
    refine ⟨coherent_run cfg building, fun hr => ?_, Resolver.keeps_empty _⟩
    exact (run_faithful cfg building hr).numbered
  | serve q _ ih => exact ⟨ih.coherent, ih.numbered, Resolver.keeps_remembered _ ih.keeps q⟩
  | @step σ a _ hr ih =>
    -- the counters never fall, so the store was in range before the step
    have hfaithful : σ.Faithful cfg := ⟨ih.numbered ((grows_step cfg σ a).inRange hr), ih.keeps⟩
    have hnext := hfaithful.step a hr
    exact ⟨coherent_step cfg ih.coherent a, fun _ => hnext.numbered, hnext.keeps⟩

theorem Sound.projectAll_eq (h : σ.Sound cfg) :
    let r := σ.resolver cfg
    let new := σ.resolver { cfg with remember := false }
    ∃ done failed, (done ++ failed).Perm r.view.definitions ∧ Ascending done ∧ Ascending failed ∧
      List.Forall₂ (fun d p => p.type = d ∧ new.alone d = .ok p) done
        (r.projectAll.run σ.memory).1.1 ∧
      List.Forall₂ (fun d g => new.alone d = .error g.error ∧
        ∃ row : TypeRow, r.view.row d = .ok row ∧ g.typeName = row.fullName) failed
        (r.projectAll.run σ.memory).1.2 := by
  intro r new
  have hasc := r.view.ascending_definitions
  have hprojections := forall₂_filterMap (fun d => (r.entry d).toOption) r.view.definitions
  have hfailures := forall₂_filterMap (fun d => Resolver.failure? (r.entry d)) r.view.definitions
  rw [(r.run_projectAll σ.memory h.keeps).1]
  refine ⟨_, _, r.perm_entries r.view.definitions, hasc.sublist List.filter_sublist,
    hasc.sublist List.filter_sublist, hprojections.imp fun d p hp => ?_, ?_⟩
  · have hp := Resolver.alone_of_toOption_entry hp
    exact ⟨Resolver.type_of_alone hp, hp⟩
  · have hmem := fun d (hd : d ∈ r.view.definitions.filter fun d =>
      (Resolver.failure? (r.entry d)).isSome) => List.mem_of_mem_filter hd
    refine ((List.forall₂_and_left _ _).mpr ⟨hmem, hfailures⟩).imp ?_
    rintro d g ⟨hd, hg⟩
    obtain ⟨herror, hname⟩ := Resolver.alone_of_failure?_entry hg
    obtain ⟨row, hrow⟩ := View.mem_definitions_iff.mp hd
    exact ⟨herror, row, hrow, hname.trans (Resolver.diagnosticName_of_row hrow)⟩

/-- However a projector has been used, and unless a constructor's search for its factory method leads
back to it: projections in any order are those that a new projector finds that remembers nothing. A
batch holds each type of the store once, either its projection or its failure, both by rising token.
The names of slots in them are found by the recursion without a limit. -/
theorem Lived.project_eq_alone (h : σ.Lived cfg) :
    let r := σ.resolver cfg
    let new := σ.resolver { cfg with remember := false }
    new.ActivationEnds →
    (∀ ds : List TypeDef,
      ((ds.mapM fun d => (r.project d).run).run σ.memory).1 = ds.map new.alone) ∧
    (∃ done failed, (done ++ failed).Perm r.view.definitions ∧ Ascending done ∧ Ascending failed ∧
      List.Forall₂ (fun d p => p.type = d ∧ new.alone d = .ok p) done
        (r.projectAll.run σ.memory).1.1 ∧
      List.Forall₂ (fun d g => new.alone d = .error g.error ∧
        ∃ row : TypeRow, r.view.row d = .ok row ∧ g.typeName = row.fullName) failed
        (r.projectAll.run σ.memory).1.2) ∧
    Ascending r.view.definitions ∧
    (∀ d, d ∈ r.view.definitions ↔ ∃ row : TypeRow, r.view.row d = .ok row) ∧
    (∀ m, new.slotName m =
      if !m.isConstructor then new.view.memberName m
      else if m.signature.params.isEmpty then .ok Resolver.defaultConstructorName
      else new.factoryOf m >>= new.slotName) := by
  intro r new hends
  have hsound := h.sound
  have halone : ∀ d c, r.Keeps .none c →
      ((r.project d).run.run c).1 = new.alone d ∧ r.Keeps .none ((r.project d).run.run c).2 :=
    fun d c hc => r.answers_project d c hc
  refine ⟨fun ds => (run_mapM halone ds σ.memory hsound.keeps).1, hsound.projectAll_eq,
    r.view.ascending_definitions, fun d => View.mem_definitions_iff,
    Resolver.slotName_eq hsound.coherent.view hends⟩

/-- A factory, the class that it activates, and a class without a factory. -/
def factories : List Action :=
  let size : MethodClause := .param "size" (.fundamental .int32)
  let activatable : TypeClause := .attribute
    ⟨Platform.metadataNamespace, Platform.activatableAttribute, { fixed := [.type "F"] }⟩
  [.define (.ofClauses "" "F" [.category .interface, .method "Create" [size]]),
    .define (.ofClauses "" "W" [activatable, .constructor [size]]),
    .define (.ofClauses "" "L" [.constructor [size]])]

/-- A projector that has projected the class already. -/
def usedFactories : Session := serve {} { store := (run {} factories).store } (.project ⟨2⟩)

theorem activationEnds_usedFactories :
    (usedFactories.resolver { remember := false }).ActivationEnds := by
  refine Resolver.activationEnds_of_forall fun m m' hstored h => ?_
  obtain ⟨x, hrow⟩ := hstored
  have hsome : usedFactories.store.methods.byNumber[x.row]? = some m :=
    (View.row_eq_ok_iff.mp hrow).2
  have hmem : x.row ∈ usedFactories.store.methods.byNumber := by
    rw [Std.TreeMap.mem_iff_isSome_getElem?, hsome]; rfl
  have hx : x.row ∈ [(1 : RowNumber), 2, 3] := Std.TreeMap.mem_keys.mpr hmem
  obtain ⟨n⟩ := x
  simp only [List.mem_cons, List.not_mem_nil, or_false] at hx
  obtain ⟨hc, -, hf⟩ := h
  rcases hx with rfl | rfl | rfl
  · cases hrow; cases hc
  · cases hrow; cases hf; rfl
  · cases hrow; cases hf

theorem Lived.project_eq_alone_usedFactories :
    let r := usedFactories.resolver {}
    let new := usedFactories.resolver { remember := false }
    ((([⟨3⟩, ⟨1⟩, ⟨2⟩] : List TypeDef).mapM fun d => (r.project d).run).run
        usedFactories.memory).1 = [new.alone ⟨3⟩, new.alone ⟨1⟩, new.alone ⟨2⟩] ∧
      (new.alone ⟨2⟩).map (fun p => p.shapes.map (·.abiName)) = .ok ["Create"] ∧
      (new.alone ⟨3⟩).map (·.name) = .error (.factoryMethodNotFound "L") := by
  intro r new
  have hlived : Lived {} usedFactories := .serve (.project ⟨2⟩) (.start factories)
  have h := hlived.project_eq_alone activationEnds_usedFactories
  exact ⟨h.1 [⟨3⟩, ⟨1⟩, ⟨2⟩], rfl, rfl⟩

end Session
end MetadataProjection
