import MetadataProjection.Proofs.Clauses
import MetadataProjection.Proofs.Reuse
import MetadataProjection.Traits

/-!
# MetadataProjection.Proofs.Categories

Which category a declared type is found to have. A store does not keep the category: it is read off a
flag and the name of the base.

* `Category.ofBase_eq_iff`: a base of the right full name that is cut in another place is taken for the
  base of a class.
* `Store.exists_row_of_define`: the row of a type that was declared, with its base.
* `Store.category_of_interface`, `Store.category_of_base`: what was once called an interface is one, and
  of all else the base tells.
* `Session.category_run`: so the category is the declared one, unless there was an interface before it,
  or its base was first mentioned by another namespace and name (`Session.category_overridden`).
-/

namespace MetadataProjection

/-! ## What a base tells -/

namespace Category

/-- The type that a definition of this category has as its base, if it names no other. -/
def base? (c : Category) : Option TypeName :=
  c.systemBase.map fun name => ⟨Platform.systemNamespace, name⟩

theorem ofBase_base {c : Category} {n : TypeName} (h : c.base? = some n) :
    ofBase n.space n.name = c := by
  cases c <;> cases h <;> rfl

theorem exists_base {c : Category} (h : c ≠ .interface) : ∃ n, c.base? = some n := by
  cases c with
  | interface => exact absurd rfl h
  | _ => exact ⟨_, rfl⟩

theorem plain_base {c : Category} {n : TypeName} (h : c.base? = some n) : n.Plain := by
  cases c <;> cases h <;> decide

/-- A base of this full name that is cut in another place is taken for the base of a class. -/
theorem ofBase_eq_iff {c : Category} {m n : TypeName} (h : c.base? = some n)
    (hfull : m.full = n.full) : ofBase m.space m.name = c ↔ c = .runtimeClass ∨ m = n := by
  by_cases hmn : m = n
  · rw [hmn]
    exact iff_of_true (ofBase_base h) (.inr rfl)
  · have hspace : m.space ≠ Platform.systemNamespace := by
      intro hspace
      obtain ⟨name, -, rfl⟩ := Option.map_eq_some_iff.mp h
      exact hmn (TypeName.eq_of_space_eq hspace hfull)
    have hclass : ofBase m.space m.name = .runtimeClass := if_pos (bne_iff_ne.mpr hspace)
    rw [hclass, eq_comm, or_iff_left hmn]

end Category

theorem TypeDecl.impliedBase?_ofClauses (space name : String) {clauses : List TypeClause}
    (h : ∀ c ∈ clauses, c.base? = none) :
    (ofClauses space name clauses).impliedBase? = (TypeClause.declared clauses).base? := by
  have hbase : (ofClauses space name clauses).base = none := base_foldl _ clauses h
  rw [impliedBase?, hbase, category_ofClauses]
  rfl

/-! ## The row of a declared type -/

namespace TypeDecl

variable {d : TypeDecl}

theorem row_of_gatherParts {k : TypeDef} {base : Option TypeDefOrRef} {s s' : Store} {row : TypeRow}
    (h : (d.gatherParts k base).perform s = (.ok row, s')) : row.flags = d.flags ∧ row.base = base := by
  obtain ⟨_, _, -, h⟩ := Edit.perform_bind_eq_ok_iff.mp h
  obtain ⟨_, _, -, h⟩ := Edit.perform_bind_eq_ok_iff.mp h
  obtain ⟨_, _, -, h⟩ := Edit.perform_bind_eq_ok_iff.mp h
  obtain ⟨_, _, -, h⟩ := Edit.perform_bind_eq_ok_iff.mp h
  obtain ⟨_, _, -, h⟩ := Edit.perform_bind_eq_ok_iff.mp h
  cases h
  exact ⟨rfl, rfl⟩

theorem row_of_gather {k : TypeDef} {s s' : Store} {row : TypeRow}
    (h : (d.gather k).perform s = (.ok row, s')) : row.flags = d.flags ∧ row.base = d.baseIn s ∧
      s'.refNames = (s.mention d.impliedBase?).refNames := by
  rw [gather_eq] at h
  obtain ⟨k', s₁, hk, h⟩ := Edit.perform_bind_eq_ok_iff.mp h
  rw [Edit.perform_lift] at hk
  obtain rfl : s = s₁ := congrArg Prod.snd hk
  rw [Edit.perform_bind, d.perform_writeBase] at h
  dsimp only at h
  obtain ⟨hflags, hbase⟩ := row_of_gatherParts h
  have hmoves := d.moves_gatherParts k' (d.baseIn s) (s.mention d.impliedBase?)
  rw [h] at hmoves
  exact ⟨hflags, hbase, hmoves.refNames_eq (by decide)⟩

end TypeDecl

namespace Store

variable {s s' : Store} {d : TypeDecl} {h : TypeDef}

theorem exists_row_of_define (hd : s.define d = (.ok h, s')) :
    ∃ row : TypeRow, s'.row? h = some row ∧ row.flags = d.flags ∧ ∀ n, d.impliedBase? = some n →
      ∃ x : TypeRef, row.base = some (.typeRef x) ∧ s'.refNames[n.full]? = some x := by
  have hattempt := s.attempt_define d
  rw [hd] at hattempt
  cases hattempt with
  | @published row s₁ _ hg hfree hs' =>
    obtain ⟨hflags, hbase, hnames⟩ := TypeDecl.row_of_gather hg
    have hpublished : s' = s₁.published (s.reserve .typeDef).1 row := hs'
    refine ⟨row, ?_, hflags, fun n hn => ⟨_, hbase.trans (d.baseIn_of_impliedBase? hn _), ?_⟩⟩
    · rw [hpublished, row?_published, if_pos rfl]
    · have hnames' : s'.refNames = s₁.refNames := by
        rw [hpublished]
        exact refNames_setRows _ _ _
      rw [hnames', hnames, hn]
      exact refNames_addTypeRef_self _ n

end Store

/-! ## Declared types -/

section

variable {s s' : Store} {space name : String} {clauses : List TypeClause} {h : TypeDef}

theorem Store.category_of_interface (hd : s.define (.ofClauses space name clauses) = (.ok h, s'))
    (hinterface : .interface ∈ TypeClause.categories clauses) :
    s'.view.category h = .ok .interface := by
  obtain ⟨row, hrow, hflags, -⟩ := Store.exists_row_of_define hd
  have hflag : row.isInterface = true := by
    rw [TypeRow.isInterface, hflags]
    exact (TypeDecl.isInterface_ofClauses space name).mpr hinterface
  rw [View.category, View.row_eq_ok_iff.mpr ⟨List.not_mem_nil, hrow⟩]
  exact if_pos hflag

theorem Store.category_of_base (hd : s.define (.ofClauses space name clauses) = (.ok h, s'))
    (hbase : ∀ c ∈ clauses, c.base? = none)
    (hinterface : .interface ∉ TypeClause.categories clauses) {n : TypeName}
    (hn : (TypeClause.declared clauses).base? = some n) :
    ∃ x : TypeRef, s'.refNames[n.full]? = some x ∧ ∀ base : TypeRefRow, s'.row? x = some base →
      s'.view.category h = .ok (.ofBase base.space base.name) := by
  obtain ⟨row, hrow, hflags, himplied⟩ := Store.exists_row_of_define hd
  have hflag : row.isInterface = false := by
    rw [TypeRow.isInterface, hflags, ← Bool.not_eq_true]
    exact mt (TypeDecl.isInterface_ofClauses space name).mp hinterface
  obtain ⟨x, hx, hname⟩ := himplied n ((TypeDecl.impliedBase?_ofClauses space name hbase).trans hn)
  refine ⟨x, hname, fun base hb => ?_⟩
  rw [View.category, View.row_eq_ok_iff.mpr ⟨List.not_mem_nil, hrow⟩, Except.ok_bind, View.categoryOf,
    hflag, hx]
  dsimp only
  rw [View.row_eq_ok_iff.mpr ⟨List.not_mem_nil, hb⟩]
  rfl

end

namespace Session

theorem row?_of_impliedBase? (cfg : Config) (history : List Action) {d : TypeDecl} {n : TypeName}
    (hn : d.impliedBase? = some n) {x : TypeRef}
    (hx : ((run cfg history).store.define d).2.refNames[n.full]? = some x) :
    ∃ base : TypeRefRow, ((run cfg history).store.define d).2.row? x = some base ∧
      (((run cfg history).store.define d).2.InRange → base = (addressed history n).row x) := by
  have hstore : (run cfg (history ++ [.define d])).store = ((run cfg history).store.define d).2 :=
    congrArg Session.store (run_append cfg history [.define d])
  have hindexed := indexedRefs_run cfg (history ++ [.define d])
  have hreferences := run_references cfg (history ++ [.define d])
  rw [hstore] at hindexed hreferences
  obtain ⟨base, hbase⟩ := Option.isSome_iff_exists.mp (hindexed.written _ _ hx)
  refine ⟨base, hbase, fun hr => ?_⟩
  have hmentions : (Action.define d).mentions? = some n := hn
  have hfirst := (hreferences hr).first n.full
  rw [mentioned_concat, hmentions, Option.toList_some, TypeName.first?_append_self] at hfirst
  obtain ⟨x', hx', hrow⟩ := hfirst
  rw [hx] at hx'
  cases hx'
  rw [hbase] at hrow
  exact Option.some.inj hrow

section

variable {cfg : Config} {history : List Action} {space name : String} {clauses : List TypeClause}
  {h : TypeDef} {s' : Store}

theorem exists_base_of_define (hbase : ∀ c ∈ clauses, c.base? = none)
    (hd : (run cfg history).store.define (.ofClauses space name clauses) = (.ok h, s'))
    (hinterface : .interface ∉ TypeClause.categories clauses) :
    ∃ (n : TypeName) (x : TypeRef) (base : TypeRefRow),
      (TypeClause.declared clauses).base? = some n ∧ s'.refNames[n.full]? = some x ∧
      s'.row? x = some base ∧ s'.view.category h = .ok (.ofBase base.space base.name) ∧
      (s'.InRange → base = (addressed history n).row x) := by
  obtain ⟨n, hn⟩ := Category.exists_base fun e : TypeClause.declared clauses = .interface =>
    hinterface (e ▸ TypeClause.declared_mem (by rw [e]; decide))
  obtain ⟨x, hx, hcategory⟩ := Store.category_of_base hd hbase hinterface hn
  have hs' : ((run cfg history).store.define (.ofClauses space name clauses)).2 = s' :=
    congrArg Prod.snd hd
  obtain ⟨base, hrow, haddressed⟩ := row?_of_impliedBase? cfg history
    ((TypeDecl.impliedBase?_ofClauses space name hbase).trans hn) (hs' ▸ hx)
  rw [hs'] at hrow haddressed
  exact ⟨n, x, base, hn, hx, hrow, hcategory base hrow, haddressed⟩

theorem category_eq_declared_iff (hbase : ∀ c ∈ clauses, c.base? = none)
    (hd : (run cfg history).store.define (.ofClauses space name clauses) = (.ok h, s'))
    (hr : s'.InRange) : s'.view.category h = .ok (TypeClause.declared clauses) ↔
      (.interface ∈ TypeClause.categories clauses → TypeClause.declared clauses = .interface) ∧
      (TypeClause.declared clauses = .runtimeClass ∨
        ∀ n ∈ (TypeClause.declared clauses).base?, addressed history n = n) := by
  by_cases hinterface : .interface ∈ TypeClause.categories clauses
  · rw [Store.category_of_interface hd hinterface, Except.ok.injEq, eq_comm]
    constructor
    · intro e
      exact ⟨fun _ => e, .inr (by rw [e]; nofun)⟩
    · rintro ⟨hlast, -⟩
      exact hlast hinterface
  · obtain ⟨n, x, base, hn, -, -, hcategory, haddressed⟩ := exists_base_of_define hbase hd hinterface
    have hiff := Category.ofBase_eq_iff hn (full_addressed history n)
    rw [hcategory, Except.ok.injEq, haddressed hr, hn]
    exact hiff.trans (by simp [hinterface])

end

/-- A type that was declared without naming a base, after a run of any length, is an interface if it was
once called one. Otherwise its category is what the row says to which the full name of its base leads.
As long as no counter has run out, that row is of the first pair that was mentioned by this full name;
so the type has the category that was declared last just if it was not called an interface before, and
if that pair is the base itself, or the type is a class. Where no name that was mentioned has a dot,
the pair is the base itself. -/
theorem category_run (cfg : Config) (history : List Action) (space name : String)
    (clauses : List TypeClause) (h : TypeDef) (s' : Store)
    (hbase : ∀ c ∈ clauses, c.base? = none)
    (hd : (run cfg history).store.define (.ofClauses space name clauses) = (.ok h, s')) :
    (.interface ∈ TypeClause.categories clauses → s'.view.category h = .ok .interface) ∧
    (.interface ∉ TypeClause.categories clauses →
      ∃ (n : TypeName) (x : TypeRef) (base : TypeRefRow),
        (TypeClause.declared clauses).base? = some n ∧ s'.refNames[n.full]? = some x ∧
        s'.row? x = some base ∧ s'.view.category h = .ok (.ofBase base.space base.name) ∧
        (s'.InRange → base = (addressed history n).row x)) ∧
    (s'.InRange →
      (s'.view.category h = .ok (TypeClause.declared clauses) ↔
        (.interface ∈ TypeClause.categories clauses → TypeClause.declared clauses = .interface) ∧
        (TypeClause.declared clauses = .runtimeClass ∨
          ∀ n ∈ (TypeClause.declared clauses).base?, addressed history n = n)) ∧
      ((∀ m ∈ mentioned history, m.Plain) →
        ∀ n ∈ (TypeClause.declared clauses).base?, addressed history n = n)) := by
  refine ⟨Store.category_of_interface hd, exists_base_of_define hbase hd, fun hr => ⟨?_, ?_⟩⟩
  · exact category_eq_declared_iff hbase hd hr
  · exact fun hplain n hn => addressed_eq_self hplain (Category.plain_base hn)

/-- An enum that was first called a struct, with a reference to its base that was there before. -/
def renamedEnum : List TypeClause := [.category .struct, .sealed, .category .enum]

theorem category_run_renamedEnum :
    let s := (run {} [.addTypeRef "System" "Enum"]).store
    let s' := (s.define (.ofClauses "Demo" "Mode" renamedEnum)).2
    (s.define (.ofClauses "Demo" "Mode" renamedEnum)).1 = .ok ⟨1⟩ ∧
      (∀ c ∈ renamedEnum, c.base? = none) ∧ s'.InRange ∧
      s'.view.category ⟨1⟩ = .ok (TypeClause.declared renamedEnum) := by
  intro s s'
  have hd : s.define (.ofClauses "Demo" "Mode" renamedEnum) = (.ok ⟨1⟩, s') :=
    Prod.ext (by decide +kernel) rfl
  have hbase : ∀ c ∈ renamedEnum, c.base? = none := by simp [renamedEnum, TypeClause.base?]
  have hr : s'.InRange := by decide +kernel
  obtain ⟨-, -, hrange⟩ := category_run {} [.addTypeRef "System" "Enum"] "Demo" "Mode" renamedEnum
    ⟨1⟩ s' hbase hd
  obtain ⟨hiff, hplain⟩ := hrange hr
  refine ⟨congrArg Prod.fst hd, hbase, hr, hiff.mpr ⟨?_, .inr (hplain (by decide +kernel))⟩⟩
  decide

/-- A struct that was called an interface before, and an enum whose base was mentioned without a
namespace before. -/
theorem category_overridden :
    let s := (run {} [.define (.ofClauses "Demo" "Widget" [.category .interface, .category .struct])]).store
    let s' := (run {} [.addTypeRef "" "System.Enum",
      .define (.ofClauses "Demo" "Mode" [.category .enum])]).store
    s.InRange ∧ TypeClause.declared [.category .interface, .category .struct] = .struct ∧
      s.view.category ⟨1⟩ = .ok .interface ∧
      s'.InRange ∧ TypeClause.declared [.category .enum] = .enum ∧
      s'.view.category ⟨1⟩ = .ok .runtimeClass := by
  exact ⟨by decide +kernel, by decide, by decide +kernel, by decide +kernel, by decide,
    by decide +kernel⟩

end Session
end MetadataProjection
