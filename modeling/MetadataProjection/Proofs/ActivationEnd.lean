import MetadataProjection.Proofs.FactorySearch

/-!
# MetadataProjection.Proofs.ActivationEnd

Where the search for the name of a constructor's slot comes to its end. The attributes of a class may
name any type as its factory, also one that has constructors, so the factory method may be a
constructor again.

* `Resolver.slotNameWithin_of_activates`: the search takes one step for each factory method.
* `Session.Lived.abiName_of_factoryMethod`: when the search ends at the first factory method.
-/

namespace MetadataProjection

namespace Resolver

variable {r : Resolver} {c m : MethodRow}

theorem exists_method_of_factoryFrom (h : r.factoryFrom c = .ok m) :
    ∃ (factory : TypeRow) (methods : List MethodRow), r.view.Names c factory ∧
      r.view.methodRows factory.methods = .ok methods ∧ m ∈ methods ∧
      m.signature.params.length = c.signature.params.length := by
  obtain ⟨factory, methods, hnames, hmethods, hfirst⟩ := exists_names_of_factoryFrom h
  obtain ⟨hmem, hlength⟩ := mem_candidates_iff.mp (Except.mem_of_findM? hfirst).1
  exact ⟨factory, methods, hnames, hmethods, hmem, hlength⟩

theorem factoryOf_eq (r : Resolver) (c : MethodRow) : r.factoryOf c = r.factoryFrom c :=
  (r.answers_factoryMethod c ∅ r.keeps_empty).1

theorem slotNameWithin_of_activates (h : r.Activates c m) (n : Nat) :
    r.slotNameWithin (n + 1) c = r.slotNameWithin n m := by
  obtain ⟨hc, hp, hfound⟩ := h
  rw [slotNameWithin_succ]
  simp [hc, hp, hfound]

theorem size_ne_zero_of_stored (h : r.view.Stored m) :
    r.view.store.methods.byNumber.size ≠ 0 := by
  obtain ⟨x, hx⟩ := h
  have hrow : r.view.store.methods.get? x.row = some m := (View.row_eq_ok_iff.mp hx).2
  have hle := r.view.store.methods.length_le_size (List.nodup_singleton x.row) (by simp [hrow])
  rw [List.length_singleton] at hle
  omega

end Resolver

namespace Session

variable {cfg : Config} {σ : Session} {c m : MethodRow}

theorem Lived.slotName_eq (h : σ.Lived cfg) (m : MethodRow) :
    (((σ.resolver cfg).abiName m).ask σ.memory).1 = (σ.resolver cfg).slotName m := by
  have hagree := (σ.resolver cfg).agree_abiName m
  exact (hagree.answers_self (Resolver.keeps_empty _) σ.memory h.sound.keeps).1

/-- The factory method of a constructor has as many parameters as it. If it is no constructor, the
search ends there and the slot has the method's name. If it is one, the search goes on with its
factory method. It is none if no type that the class names as a factory has a constructor with so
many parameters. -/
theorem Lived.abiName_of_factoryMethod (h : σ.Lived cfg) (hc : c.isConstructor = true)
    (hp : c.signature.params.isEmpty = false)
    (hfound : (((σ.resolver cfg).factoryMethod c).ask σ.memory).1 = .ok m) :
    let r := σ.resolver cfg
    m.signature.params.length = c.signature.params.length ∧
    (m.isConstructor = false → ((r.abiName c).ask σ.memory).1 = r.view.memberName m) ∧
    (m.isConstructor = true → ∀ n,
      r.slotNameWithin (n + 2) c = r.factoryOf m >>= r.slotNameWithin n) ∧
    ((∀ (factory : TypeRow) (methods : List MethodRow), r.view.Names c factory →
      r.view.methodRows factory.methods = .ok methods → ∀ x ∈ methods,
        x.signature.params.length = c.signature.params.length → x.isConstructor = false) →
      m.isConstructor = false) := by
  intro r
  rw [h.factoryFrom_eq] at hfound
  obtain ⟨factory, methods, hnames, hmethods, hmem, hlength⟩ :=
    Resolver.exists_method_of_factoryFrom hfound
  have hstep : r.Activates c m := ⟨hc, hp, (r.factoryOf_eq c).trans hfound⟩
  refine ⟨hlength, fun hm => ?_, fun hm n => ?_, fun hnone => ?_⟩
  · -- there is a method in the table, so the search may take the two steps that it needs
    obtain ⟨size, hsize⟩ := Nat.exists_eq_succ_of_ne_zero (Resolver.size_ne_zero_of_stored
      (Resolver.stored_of_activates hstep))
    rw [h.slotName_eq]
    change r.slotNameWithin (r.view.store.methods.byNumber.size + 1) c = _
    rw [hsize, Resolver.slotNameWithin_of_activates hstep, Resolver.slotNameWithin_succ]
    simp [hm]
  · have hparams : m.signature.params.isEmpty = false := by
      rw [List.isEmpty_eq_false_iff, ← List.length_pos_iff] at hp ⊢
      omega
    rw [Resolver.slotNameWithin_of_activates hstep, Resolver.slotNameWithin_succ]
    simp [hm, hparams]
  · exact hnone factory methods hnames hmethods m hmem hlength

theorem Lived.abiName_of_factoryMethod_namedColors :
    (((namedColors.resolver .strict).factoryMethod (namedColors.methodAt 3)).ask
        namedColors.memory).1 = .ok (namedColors.methodAt 2) ∧
      (namedColors.methodAt 2).isConstructor = false ∧
      (((namedColors.resolver .strict).abiName (namedColors.methodAt 3)).ask
        namedColors.memory).1 = .ok "CreateFrom" := by
  have hlived : namedColors.Lived .strict := .start _
  have hfound : (((namedColors.resolver .strict).factoryMethod (namedColors.methodAt 3)).ask
      namedColors.memory).1 = .ok (namedColors.methodAt 2) := by decide +kernel
  have hname : (namedColors.resolver .strict).view.memberName (namedColors.methodAt 2) =
      .ok "CreateFrom" := by decide +kernel
  obtain ⟨-, hends, -⟩ :=
    hlived.abiName_of_factoryMethod (by decide +kernel) (by decide +kernel) hfound
  exact ⟨hfound, by decide +kernel, (hends (by decide +kernel)).trans hname⟩

/-- A class that names another class as its factory. -/
def classFactory : Session :=
  let number : MethodClause := .param "n" (.fundamental .int32)
  let activatable : TypeClause := .attribute
    ⟨Platform.metadataNamespace, Platform.activatableAttribute, { fixed := [.type "Demo.Base"] }⟩
  { store := (run {} [.define (.ofClauses "Demo" "Base" [.constructor [number]]),
      .define (.ofClauses "Demo" "Widget" [activatable, .constructor [number]])]).store }

/-- Its factory method is a constructor, which has no factory, and so the slot has no name. -/
theorem factoryMethod_classFactory :
    classFactory.store.view.row (⟨2⟩ : MethodDef) = .ok (classFactory.methodAt 2) ∧
      (classFactory.methodAt 2).isConstructor = true ∧
      (((classFactory.resolver {}).factoryMethod (classFactory.methodAt 2)).ask
        classFactory.memory).1 = .ok (classFactory.methodAt 1) ∧
      (classFactory.methodAt 1).isConstructor = true ∧
      (((classFactory.resolver {}).abiName (classFactory.methodAt 2)).ask classFactory.memory).1 =
        .error (.factoryMethodNotFound "Demo.Base") := by
  decide +kernel

end Session
end MetadataProjection
