import MetadataProjection.Activation
import MetadataProjection.Parameters
import MetadataProjection.Proofs.Clauses
import MetadataProjection.Proofs.Reuse
import MetadataProjection.Proofs.SignatureViews

/-!
# MetadataProjection.Proofs.DefaultConstruction

Constructors without parameters. The name of a slot goes by the signature of a constructor; how it is
called, and whether its class can be made without arguments, goes by the rows of its parameters. There
is one row more if the return value has a name.

* `MethodDecl.Outlines`: the row of a method as it was declared, apart from what its parts hold.
  `Session.outlined_run`: so it is with all methods, also where the row numbers have run out.
* `MethodRow.convention_eq_noArgs_iff`, `Resolver.abiName_of_params_eq_nil`,
  `View.isDefaultConstructable_eq`: what a constructor without parameters is to each of them.
* `Session.constructors_run`: they agree unless the return value of such a constructor has a name.
-/

namespace MetadataProjection

/-! ## Methods as they were declared -/

namespace MethodDecl

/-- The row is the declared one, with a row for each parameter and one for a return value that has a
name. -/
structure Outlines (d : MethodDecl) (row : MethodRow) : Prop where
  name : row.name = d.name
  flags : row.flags = d.flags
  signature : row.signature = d.signature
  params : row.params.length = d.returnName.toList.length + d.params.length

namespace Outlines

variable {d : MethodDecl} {row : MethodRow}

theorem isConstructor_eq (hd : d.Outlines row) : row.isConstructor = d.isConstructor := by
  rw [MethodRow.isConstructor, MethodRow.isRtSpecialName, hd.flags, hd.name, isConstructor]

theorem signature_params_eq_nil_iff (hd : d.Outlines row) :
    row.signature.params = [] ↔ d.params = [] := by
  rw [hd.signature, MethodDecl.signature, List.map_eq_nil_iff]

theorem params_eq_nil_iff (hd : d.Outlines row) :
    row.params = [] ↔ d.returnName = none ∧ d.params = [] := by
  rw [← List.length_eq_zero_iff, hd.params, Nat.add_eq_zero_iff, List.length_eq_zero_iff,
    List.length_eq_zero_iff, Option.toList_eq_nil_iff]

end Outlines

end MethodDecl

theorem MethodDecl.outlines_of_gather {parent : TypeDef} {d : MethodDecl} {h : MethodDef}
    {row : MethodRow} {s s' : Store} (hg : (d.gather parent h).perform s = (.ok row, s')) :
    d.Outlines row := by
  obtain ⟨params, s₁, hparams, hrest⟩ := Edit.perform_bind_eq_ok_iff.mp hg
  obtain ⟨attributes, s₂, -, hpure⟩ := Edit.perform_bind_eq_ok_iff.mp hrest
  cases hpure
  refine ⟨rfl, rfl, rfl, ?_⟩
  rw [Edit.length_of_mapM hparams, paramRows, List.length_append, List.length_map, length_rowsFrom]

namespace Store

variable {ds : List MethodDecl} {s s' : Store}

/-- Every method is outlined by one of `ds`. -/
def Outlined (s : Store) (ds : List MethodDecl) : Prop :=
  ∀ (x : MethodDef) (row : MethodRow), s.row? x = some row → ∃ d ∈ ds, d.Outlines row

theorem outlined_empty : Outlined .empty [] := by
  intro x row hrow
  rw [row?_empty] at hrow
  cases hrow

theorem Outlined.mono {ds' : List MethodDecl} (h : s.Outlined ds) (hsub : ds ⊆ ds') :
    s.Outlined ds' := by
  intro x row hrow
  obtain ⟨d, hd, houtlines⟩ := h x row hrow
  exact ⟨d, hsub hd, houtlines⟩

theorem Outlined.congr (h : s.Outlined ds) (hrows : ∀ x : MethodDef, s'.row? x = s.row? x) :
    s'.Outlined ds :=
  fun x row hrow => h x row ((hrows x).symm.trans hrow)

theorem Outlined.moves {ts : List Table} (h : s.Outlined ds) (hm : s.Moves ts s')
    (ht : .methodDef ∉ ts) : s'.Outlined ds :=
  h.congr (hm.row?_eq ht)

theorem Outlined.reserve (h : s.Outlined ds) (t : Table) : (s.reserve t).2.Outlined ds :=
  h.congr fun x => s.row?_reserve t x

end Store

theorem MethodDecl.ends_write {ds : List MethodDecl} (parent : TypeDef) {d : MethodDecl}
    (hd : d ∈ ds) : Edit.Ends (Store.Outlined · ds) (d.write parent)
      (fun _ s => s.Outlined ds) (Store.Outlined · ds) := by
  rw [write_eq]
  refine Edit.Ends.bind (Q := fun _ s => s.Outlined ds) (fun s hs => hs.reserve .methodDef)
    fun h => ?_
  refine Edit.Ends.bind (Q := fun row s => s.Outlined ds ∧ d.Outlines row) (fun s hs => ?_)
    fun row s ⟨hs, hrow⟩ => ?_
  · have hmoves := d.moves_gather parent h s
    rcases hg : (d.gather parent h).perform s with ⟨x, s'⟩
    rw [hg] at hmoves
    have hs' := hs.moves hmoves (by decide)
    cases x with
    | error x => exact hs'
    | ok row => exact ⟨hs', outlines_of_gather hg⟩
  · rcases Edit.writes_record h (t := .methodDef) row s with hok | ⟨e, herror⟩
    · rw [hok]
      intro x r hr
      rcases Store.row?_put_cases hr with e | hr
      · cases e
        exact ⟨d, hd, hrow⟩
      · exact hs x r hr
    · rw [herror]
      exact hs

theorem TypeDecl.ends_gather_methods {ds : List MethodDecl} {d : TypeDecl} (hd : d.methods ⊆ ds)
    (h : TypeDef) : Edit.Ends (Store.Outlined · ds) (d.gather h) (fun _ s => s.Outlined ds)
      (Store.Outlined · ds) := by
  have along {α : Type} {ts : List Table} {e : Edit α} (he : e.Moves ts) (ht : .methodDef ∉ ts) :
      Edit.Ends (Store.Outlined · ds) e (fun _ s => s.Outlined ds) (Store.Outlined · ds) :=
    .of_along he (fun _ _ h hm => h.moves hm ht) fun _ => id
  exact ends_gather h (Q := fun _ s => s.Outlined ds) (fun _ _ => id)
    (along d.moves_writeBase (by decide))
    (fun k => along (.mapM (fun a => a.moves_write k) _) (by decide))
    (fun k _ => .mapM fun m hm => m.ends_write k (hd hm))
    (fun _ _ _ hs hm => hs.moves hm (by decide))

theorem Store.Outlined.define {ds : List MethodDecl} {s : Store} (h : s.Outlined ds) {d : TypeDecl}
    (hd : d.methods ⊆ ds) : (s.define d).2.Outlined ds :=
  define_of_ends (h.reserve .typeDef) (TypeDecl.ends_gather_methods hd _) (fun _ _ h => h)
    fun row s₁ h => h.congr fun x => row?_published_of_ne s₁ _ row (by decide) x

namespace Session

theorem outlined_step (cfg : Config) {σ : Session} {ds : List MethodDecl}
    (h : σ.store.Outlined ds) (a : Action) :
    (σ.step cfg a).store.Outlined (ds ++ a.methods) := by
  have h := h.mono (List.subset_append_left ds a.methods)
  cases a with
  | define d => exact h.define (List.subset_append_right ds d.methods)
  | _ => exact h.moves (moves_step cfg σ _ rfl) (by decide)

/-- Also where the row numbers have run out, every method has the outline of one that was declared. -/
theorem outlined_run (cfg : Config) (history : List Action) :
    (run cfg history).store.Outlined (declaredMethods history) := by
  induction history using List.reverseRecOn with
  | nil => exact Store.outlined_empty
  | append_singleton history a ih =>
    rw [declaredMethods, List.flatMap_append, List.flatMap_singleton, run_append]
    exact outlined_step cfg ih a

end Session

/-! ## Constructors without parameters -/

theorem MethodRow.convention_eq_noArgs_iff {c : MethodRow} (hc : c.isConstructor = true) :
    c.convention = .noArgs ↔ c.params = [] := by
  have hname : c.name = constructorName := beq_iff_eq.mp (Bool.and_eq_true_iff.mp hc).2
  have hother (start : String) (hstart : startsWith start constructorName = false) :
      c.isAccessor start = false := by
    rw [isAccessor, hname, hstart, Bool.and_false]
  rw [convention, isGetter, isSetter, isAdder, isRemover, hother "get_" (by decide),
    hother "put_" (by decide), hother "add_" (by decide), hother "remove_" (by decide), hc]
  cases c.params <;> simp

theorem Resolver.abiName_of_params_eq_nil (r : Resolver) {c : MethodRow}
    (hc : c.isConstructor = true) (hparams : c.signature.params = []) (memory : Cache) :
    (r.abiName c).ask memory = (.ok defaultConstructorName, memory) := by
  rw [abiName, abiNameWithin, hc, hparams]
  rfl

namespace View

variable {v : View}

theorem anyDefaultConstructor_eq {hs : List MethodDef} {ms : List MethodRow}
    (h : v.methodRows hs = .ok ms) :
    v.anyDefaultConstructor hs = .ok (ms.any fun m => m.isConstructor && m.params.isEmpty) := by
  induction hs generalizing ms with
  | nil =>
    cases h
    rfl
  | cons x hs ih =>
    obtain ⟨m, hm, ms, hms, rfl⟩ := Except.mapM_cons_eq_ok_iff.mp h
    rw [anyDefaultConstructor, hm, Except.ok_bind, ih hms, List.any_cons]
    cases m.isConstructor && m.params.isEmpty <;> rfl

theorem isDefaultConstructable_eq {h : TypeDef} {row : TypeRow} {ms : List MethodRow}
    (hrow : v.row h = .ok row) (hcategory : v.category h = .ok .runtimeClass)
    (hms : v.methodRows row.methods = .ok ms) : v.isDefaultConstructable h =
      .ok (ms.any fun m => m.isConstructor && m.params.isEmpty) := by
  rw [category, hrow, Except.ok_bind] at hcategory
  rw [isDefaultConstructable, hrow, Except.ok_bind, hcategory, Except.ok_bind, if_pos rfl,
    anyDefaultConstructor_eq hms]

end View

namespace Session

/-- What a constructor without parameters is, also where the row numbers have run out. Each
constructor has the signature and the parameter rows that it was declared with. If its return value
has no name, it is called without arguments just if its signature has no parameters; if it has one,
it is not. In either case a constructor without parameters in its signature has the name of default
activation, whatever the resolver knows. A class can be made without arguments just if it has a
constructor without parameters whose return value has no name. -/
theorem constructors_run (cfg : Config) (history : List Action) :
    let v := (run cfg history).store.view
    (∀ (x : MethodDef) (c : MethodRow), v.row x = .ok c → c.isConstructor = true →
      ∃ d ∈ declaredMethods history, d.isConstructor = true ∧ d.Outlines c ∧
        (d.returnName = none → (c.signature.params = [] ↔ c.convention = .noArgs)) ∧
        (d.returnName ≠ none → c.convention ≠ .noArgs) ∧
        (c.signature.params = [] → ∀ (r : Resolver) (memory : Cache),
          (r.abiName c).ask memory = (.ok Resolver.defaultConstructorName, memory))) ∧
    ∀ (h : TypeDef) (row : TypeRow), v.row h = .ok row → v.category h = .ok .runtimeClass →
      ∃ ms b, v.methodRows row.methods = .ok ms ∧ v.isDefaultConstructable h = .ok b ∧
        (b = true ↔ ∃ c ∈ ms, c.isConstructor = true ∧ c.signature.params = [] ∧
          c.params.length = c.signature.params.length) ∧
        (b = true ↔ ∃ c ∈ ms, c.isConstructor = true ∧ c.convention = .noArgs) := by
  intro v
  have houtlined := outlined_run cfg history
  refine ⟨fun x c hx hc => ?_, fun h row hrow hcategory => ?_⟩
  · obtain ⟨d, hd, houtlines⟩ := houtlined x c (View.row_eq_ok_iff.mp hx).2
    refine ⟨d, hd, houtlines.isConstructor_eq.symm.trans hc, houtlines, fun hname => ?_,
      fun hname => ?_, fun hparams r memory => r.abiName_of_params_eq_nil hc hparams memory⟩
    · rw [MethodRow.convention_eq_noArgs_iff hc, houtlines.params_eq_nil_iff,
        houtlines.signature_params_eq_nil_iff]
      exact (and_iff_right hname).symm
    · rw [Ne, MethodRow.convention_eq_noArgs_iff hc, houtlines.params_eq_nil_iff]
      exact fun h => hname h.1
  · obtain ⟨ms, hms⟩ := (coherent_run cfg history).exists_methodRows hrow
    have hrows : ∀ c ∈ ms, c.params = [] ↔
        c.signature.params = [] ∧ c.params.length = c.signature.params.length := by
      intro c hc
      obtain ⟨x, -, hx⟩ := (Except.exists_of_mem_of_mapM hms).2 c hc
      obtain ⟨d, -, houtlines⟩ := houtlined x c (View.row_eq_ok_iff.mp hx).2
      constructor
      · intro hparams
        have hslots := houtlines.signature_params_eq_nil_iff.mpr
          (houtlines.params_eq_nil_iff.mp hparams).2
        exact ⟨hslots, by rw [hparams, hslots]; rfl⟩
      · rintro ⟨hslots, hlength⟩
        rw [hslots] at hlength
        exact List.length_eq_zero_iff.mp hlength
    refine ⟨ms, _, hms, View.isDefaultConstructable_eq hrow hcategory hms, ?_, ?_⟩
    · simp only [List.any_eq_true, Bool.and_eq_true, List.isEmpty_iff]
      exact exists_congr fun c => and_congr_right fun hc => and_congr_right fun _ => hrows c hc
    · simp only [List.any_eq_true, Bool.and_eq_true, List.isEmpty_iff]
      exact exists_congr fun c => and_congr_right fun _ => and_congr_right fun hc =>
        (MethodRow.convention_eq_noArgs_iff hc).symm

/-- A class with a constructor without parameters, or one that has a name for what it returns. -/
def gadget (clauses : List MethodClause) : List Action :=
  [.define (.ofClauses "Demo" "Gadget" [.constructor clauses])]

theorem constructors_run_gadget :
    let v := (run {} (gadget [])).store.view
    (∃ c : MethodRow, v.row (⟨1⟩ : MethodDef) = .ok c ∧ c.isConstructor = true ∧
      (c.signature.params = [] ↔ c.convention = .noArgs)) ∧
    ∃ (row : TypeRow) (ms : List MethodRow) (b : Bool), v.row (⟨1⟩ : TypeDef) = .ok row ∧
      v.category (⟨1⟩ : TypeDef) = .ok .runtimeClass ∧ v.methodRows row.methods = .ok ms ∧
      v.isDefaultConstructable (⟨1⟩ : TypeDef) = .ok b ∧
      (b = true ↔ ∃ c ∈ ms, c.isConstructor = true ∧ c.convention = .noArgs) := by
  intro v
  obtain ⟨hconstructors, hclasses⟩ := constructors_run {} (gadget [])
  have hrow : ∃ c : MethodRow, v.row (⟨1⟩ : MethodDef) = .ok c ∧ c.isConstructor = true :=
    ⟨_, rfl, rfl⟩
  have hclass : ∃ row : TypeRow, v.row (⟨1⟩ : TypeDef) = .ok row ∧
      v.category (⟨1⟩ : TypeDef) = .ok .runtimeClass := ⟨_, rfl, rfl⟩
  obtain ⟨c, hc, hconstructor⟩ := hrow
  obtain ⟨row, hrow, hcategory⟩ := hclass
  obtain ⟨d, hd, -, -, hagree, -⟩ := hconstructors ⟨1⟩ c hc hconstructor
  obtain ⟨ms, b, hms, hb, -, hiff⟩ := hclasses ⟨1⟩ row hrow hcategory
  have hname : d.returnName = none := by
    have hall : ∀ d ∈ declaredMethods (gadget []), d.returnName = none := by decide +kernel
    exact hall d hd
  exact ⟨⟨c, hc, hconstructor, hagree hname⟩, row, ms, b, hrow, hcategory, hms, hb, hiff⟩

/-- By its signature the constructor has no parameters, so that it has the name of default activation;
by its rows it has one, so that it is called with arguments and its class is not made without. -/
theorem constructor_named :
    let s := (run {} (gadget [.returnName "self"])).store
    ∃ c : MethodRow, s.view.row (⟨1⟩ : MethodDef) = .ok c ∧ c.isConstructor = true ∧
      c.signature.params = [] ∧ c.convention = .variableArgs ∧
      (({ view := s.view } : Resolver).abiName c).ask ∅ = (.ok "_default_ctor", ∅) ∧
      s.view.category (⟨1⟩ : TypeDef) = .ok .runtimeClass ∧
      s.view.isDefaultConstructable (⟨1⟩ : TypeDef) = .ok false :=
  ⟨_, rfl, rfl, rfl, rfl, rfl, rfl, rfl⟩

end Session
end MetadataProjection
