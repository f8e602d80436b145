import MetadataProjection.Proofs.Session

/-!
# MetadataProjection.Proofs.Memories

What a resolver can come to remember, whatever it is asked and whether or not it finds an answer.

* `Resolver.Lasting`: everything that is remembered is a meaning that the resolver finds, with all
  its levels, when it starts from nothing. It is an invariant under which questions are answered
  (`lasting_guards`), and it outlasts additions to the store (`Lasting.mono`).
* `Resolver.Reached`: the memories that a resolver can come to. All of them are lasting
  (`Reached.lasting`).
* `Reached.entries_ask`: a question takes nothing away, and leaves nothing that cannot be found alone.
-/

namespace MetadataProjection

namespace Resolver

variable {r : Resolver} {cfg : Config} {v v' : View} {c : Cache}

/-! ## Memories that last -/

/-- All that is remembered stands for meanings lower than the limit, each with its exact height. -/
def Lasting (r : Resolver) (c : Cache) : Prop :=
  ∀ ref m, r.recalls c ref = some m →
    r.view.RefMeans ref m.meaning m.height ∧ m.height < r.config.maxDepth

theorem lasting_empty (r : Resolver) : r.Lasting ∅ := by
  intro ref m hm
  rw [recalls_empty] at hm
  cases hm

theorem lasting_guards (r : Resolver) : r.Guards .none r.Lasting := by
  refine ⟨fun c hc => keeps_none_iff.mpr fun ref m hm => (hc ref m hm).1, ?_⟩
  intro n hn ref m hfound c hc ref' m' hm'
  rcases recalls_commit_cases hm' with hold | ⟨rfl, rfl⟩
  · exact hc ref' m' hold
  · -- found with some of the levels, so all of them are enough
    have hmeans := (means_of_ok r (n + 1)).2.1 ref' m' hfound
    have hlt : m'.height < n + 1 := ((RefMeans.settles hmeans).eq_ok hfound).2
    exact ⟨hmeans, by omega⟩

theorem Lasting.mono (h : Lasting { view := v, config := cfg } c) (hv : v.PartOf v') :
    Lasting { view := v', config := cfg } c :=
  fun ref m hm => ⟨hv.refMeans (h ref m hm).1, (h ref m hm).2⟩

theorem Lasting.resolveReference (h : r.Lasting c) {ref : TypeDefOrRef} {m : Memo}
    (hm : r.recalls c ref = some m) : ((r.resolveReference ref).ask ∅).1 = .ok m.meaning := by
  rw [(r.answers_resolveReference .none ref ∅ r.keeps_empty).1]
  exact resolveReferenceFrom_eq_ok_iff.mpr ⟨m.height, h ref m hm⟩

/-! ## Memories that are reached -/

/-- What a resolver with these rules can remember of a store. It starts with nothing and may forget
everything; it may be asked anything at any moment; and what it reads may grow in the meantime. -/
inductive Reached (cfg : Config) : View → Cache → Prop where
  | forget (v : View) : Reached cfg v ∅
  | ask {v : View} {c : Cache} (q : Question) : Reached cfg v c →
      Reached cfg v ((q.put { view := v, config := cfg }).ask c).2
  | grow {v v' : View} {c : Cache} : Reached cfg v c → v.PartOf v' → Reached cfg v' c

theorem Reached.lasting (h : Reached cfg v c) : Lasting { view := v, config := cfg } c := by
  induction h with
  | forget v => exact lasting_empty _
  | @ask v c q _ ih => exact (q.answers_of_guards (lasting_guards _) c ih).2
  | grow _ hv ih => exact ih.mono hv

/-- A question, answered or not, leaves all that was remembered before it as it was, and whatever is
remembered after it is what a new resolver finds of that reference alone. -/
theorem Reached.entries_ask {memory : Cache} (h : Reached cfg v memory)
    (hremember : cfg.remember = true) (q : Question) :
    let r : Resolver := { view := v, config := cfg }
    let after := ((q.put r).ask memory).2
    (∀ (ref : TypeDefOrRef) (m : Memo), memory[ref]? = some m → after[ref]? = some m) ∧
    (∀ (ref : TypeDefOrRef) (m : Memo), after[ref]? = some m →
      ((r.resolveReference ref).ask ∅).1 = .ok m.meaning) := by
  intro r after
  have hrecalls : ∀ (memory : Cache) (ref : TypeDefOrRef),
      r.recalls memory ref = memory[ref]? := by
    intro memory ref
    rw [recalls, if_pos hremember]
  -- over what is remembered already, a question only adds to it
  have hkeeps : r.Keeps (r.recalls memory) after :=
    (q.answers r (r.recalls memory) memory (r.keeps_self memory)).2
  refine ⟨fun ref m hm => ?_, fun ref m hm => ?_⟩
  · rw [← hrecalls] at hm ⊢
    exact hkeeps.knows ref m hm
  · rw [← hrecalls] at hm
    exact (h.ask q).lasting.resolveReference hm

end Resolver

namespace Session

theorem reached_run (cfg : Config) (history : List Action)
    (hr : (run cfg history).store.InRange) :
    Resolver.Reached cfg (run cfg history).store.view (run cfg history).memory := by
  refine foldl_induction (P := fun _ σ => Resolver.Reached cfg σ.store.view σ.memory)
    (.forget _) (fun history a h hr => ?_) history hr
  have hgrows := grows_step cfg (run cfg history) a
  have hfaithful := run_faithful cfg history (hgrows.inRange hr)
  have hview := (hgrows.partOf hfaithful.numbered hr).view
  cases a with
  | addTypeRef space name => exact h.grow hview
  | addTypeSpec signature => exact h.grow hview
  | define d => exact h.grow hview
  | ask q => exact h.ask q
  | forget => exact .forget _

end Session

namespace Resolver

/-- A vector of two arguments, the second of which is an array that nests too deep. -/
def deepVector : Question :=
  .signature (.genericInst (.classType ⟨Table.typeDef.number, 1⟩)
    [.classType ⟨Table.typeSpec.number, 2⟩,
      Nat.repeat .szArray 7 .object])

theorem Reached.entries_ask_deepVector :
    let σ := Session.run { maxDepth := 9 } Session.vectors
    let r := σ.resolver { maxDepth := 9 }
    ((deepVector.put r).ask σ.memory).1 = .error (.recursionLimit 9) ∧
      σ.memory.keys = [.typeSpec ⟨1⟩] ∧
      ((deepVector.put r).ask σ.memory).2.keys = [.typeSpec ⟨1⟩, .typeSpec ⟨2⟩] ∧
      ((r.resolveReference (.typeSpec ⟨2⟩)).ask ∅).1 =
        .ok (.inst ⟨1⟩ [.inst ⟨1⟩ [.fundamental .int32]]) := by
  intro σ r
  have hr : σ.store.InRange := by decide
  have hentries := (Session.reached_run _ _ hr).entries_ask rfl deepVector
  have hadded : ((deepVector.put r).ask σ.memory).2[(.typeSpec ⟨2⟩ : TypeDefOrRef)]? =
    some ⟨.inst ⟨1⟩ [.inst ⟨1⟩ [.fundamental .int32]], 5⟩ := rfl
  exact ⟨rfl, rfl, rfl, hentries.2 _ _ hadded⟩

end Resolver
end MetadataProjection
