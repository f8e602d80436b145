import MetadataProjection.Proofs.Batch

/-!
# MetadataProjection.Proofs.Stability

What has been answered stays answered. A store keeps its rows and its names as it grows, and nothing
that is found rests on a row or a name being absent; only failures may give way to answers.

* `Store.PartOf.resolver_extends`: whatever a resolver reads and finds in a store, it reads and
  finds in one that the store is a part of.
* `Session.Lived.project_later`: a projection that a projector has found once it finds for ever.
-/

namespace MetadataProjection
namespace Store

variable {s s' : Store}

namespace PartOf

theorem view_extends (h : s.PartOf s') : s.view.Extends (fun _ => False) s'.view := by
  refine ⟨fun x => Except.carries_of_ok fun row => h.view.rows x row, fun space name => ?_, ?_,
    fun _ => False.elim⟩
  · refine Except.carries_of_ok fun d hd => ?_
    rw [Resolver.findRequired_eq_ok_iff] at hd ⊢
    exact h.view.names _ _ d hd
  · rw [← Std.TreeMap.length_keys]
    refine s'.methods.length_le_size s.methods.nodup_keys fun n hn => ?_
    rw [Std.TreeMap.mem_keys, Std.TreeMap.mem_iff_isSome_getElem?] at hn
    obtain ⟨row, hrow⟩ := Option.isSome_iff_exists.mp hn
    exact Option.isSome_of_mem (h.rows (t := .methodDef) ⟨n⟩ row hrow)

theorem resolver_extends (h : s.PartOf s') (cfg : Config) :
    Resolver.Extends (fun _ => False) { view := s.view, config := cfg }
      { view := s'.view, config := cfg } := by
  refine .of_carries h.view_extends rfl (fun e => ?_) (fun ref => ?_)
  · refine Except.carries_of_ok fun m hm => ?_
    obtain ⟨n, hm, hlt⟩ := Resolver.resolveFrom_eq_ok_iff.mp hm
    exact Resolver.resolveFrom_eq_ok_iff.mpr ⟨n, h.view.means hm, hlt⟩
  · refine Except.carries_of_ok fun m hm => ?_
    obtain ⟨n, hm, hlt⟩ := Resolver.resolveReferenceFrom_eq_ok_iff.mp hm
    exact Resolver.resolveReferenceFrom_eq_ok_iff.mpr ⟨n, h.view.refMeans hm, hlt⟩

end PartOf
end Store

namespace Session

variable {cfg : Config} {σ σ' : Session}

theorem Sound.partOf (h : σ.Sound cfg) (later : List Action)
    (hr : (later.foldl (step cfg) σ).store.InRange) :
    σ.store.PartOf (later.foldl (step cfg) σ).store := by
  have hgrows := grows_foldl cfg later σ
  exact hgrows.partOf (h.numbered (hgrows.inRange hr)) hr

theorem Lived.foldl (later : List Action) : ∀ {σ : Session}, σ.Lived cfg →
    (later.foldl (Session.step cfg) σ).store.InRange →
      (later.foldl (Session.step cfg) σ).Lived cfg :=
  fun h hr => foldl_induction (P := fun _ σ => σ.Lived cfg) h (fun _ a h hr => h.step a hr) later hr

/-- Once a type has a projection, it keeps it: however the two projectors have been used, and
whatever has been added to the store of the first, successfully or not, to make the store of the
second. -/
theorem Lived.project_later (h : σ.Lived cfg) (h' : σ'.Lived cfg) (later : List Action)
    (hstore : σ'.store = (later.foldl (Session.step cfg) σ).store) (hr : σ'.store.InRange)
    (d : TypeDef) (p : Projection) (hp : (((σ.resolver cfg).project d).ask σ.memory).1 = .ok p) :
    (((σ'.resolver cfg).project d).ask σ'.memory).1 = .ok p := by
  have hpart : σ.store.PartOf σ'.store := by
    rw [hstore] at hr ⊢
    exact h.sound.partOf later hr
  exact ((hpart.resolver_extends cfg).follows_project d).ask_eq_ok h.sound.keeps h'.sound.keeps hp

/-- The name of the factory is tried again, with a method that would suit the constructor as well.
Then a class fails for want of a getter, and one is added. -/
def moreFactories : List Action :=
  let size : MethodClause := .param "size" (.fundamental .int32)
  [.define (.ofClauses "" "F" [.category .interface, .method "Make" [size]]),
    .define (.ofClauses "" "P" [.property "Size" [.getter "get_Size"]]),
    .define (.ofClauses "" "V" [.constructor [size]])]

theorem Lived.project_later_moreFactories :
    let σ := moreFactories.foldl (Session.step {}) usedFactories
    ∃ p, (((usedFactories.resolver {}).project ⟨2⟩).ask usedFactories.memory).1 = .ok p ∧
      p.shapes.map (·.abiName) = ["Create"] ∧
      (((σ.resolver {}).project ⟨2⟩).ask σ.memory).1 = .ok p ∧ σ.store.definitions.length = 4 := by
  intro σ
  have hlived : Lived {} usedFactories := .serve (.project ⟨2⟩) (.start factories)
  have hr : σ.store.InRange := by decide +kernel
  have hlater : Lived {} σ := hlived.foldl moreFactories hr
  have hnames : (((usedFactories.resolver {}).project ⟨2⟩).ask usedFactories.memory).1.map
      (fun p => p.shapes.map (·.abiName)) = .ok ["Create"] := rfl
  rcases hp : (((usedFactories.resolver {}).project ⟨2⟩).ask usedFactories.memory).1 with e | p
  · rw [hp] at hnames; cases hnames
  · rw [hp] at hnames
    exact ⟨p, rfl, Except.ok.inj hnames,
      hlived.project_later hlater moreFactories rfl hr ⟨2⟩ p hp, by decide +kernel⟩

end Session
end MetadataProjection
