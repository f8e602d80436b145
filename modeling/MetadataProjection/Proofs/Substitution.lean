import MetadataProjection.Proofs.Positions

/-!
# MetadataProjection.Proofs.Substitution

Putting arguments into the open positions of a meaning, once, twice, and before it is rendered.

* `substitute_substitute`: arguments that are put in one after the other can be put in at once.
* `Semantics.indices`: the positions themselves as arguments, which change nothing (`fixes_indices`). The
  laws of substitution together are `substitute_composes`.
* `substitute_closes`: what is left open by arguments, which meanings they close, and which meanings no
  arguments can change.
* `render_substitute`: arguments can be put in before a meaning is rendered, or named when it is.
  Rendering fails for want of a row only (`render_eq_error`), so `render_names_actuals` says all that
  can come of it.
-/

namespace MetadataProjection

/-- At each place stands what is in front, and where that ends, what was there behind it. -/
theorem getElem?_append_drop {α : Type} {front : List α} {n : Nat} (h : front.length = n)
    (back : List α) (i : Nat) : (front ++ back.drop n)[i]? = front[i]?.or back[i]? := by
  subst h
  by_cases hi : i < front.length
  · rw [List.getElem?_append_left hi, List.getElem?_eq_getElem hi, Option.some_or]
  · have hle : front.length ≤ i := Nat.le_of_not_lt hi
    rw [List.getElem?_append_right hle, List.getElem?_drop, Nat.add_sub_cancel' hle,
      List.getElem?_eq_none hle, Option.none_or]

namespace Semantics

/-! ## One substitution after the other -/

mutual

theorem substitute_substitute (a b : List Semantics) : ∀ s : Semantics,
    (s.substitute a).substitute b = s.substitute (a.map (·.substitute b) ++ b.drop a.length)
  | index i => by
    rw [substitute, substitute, getElem?_append_drop (List.length_map _), List.getElem?_map]
    cases a[i.toNat]? with
    | some x => rfl
    | none => rfl
  | inst d as => by
    rw [substitute, substitute, substitute, substituteList_substituteList a b as]
  | fundamental _ | object | guid | definition _ => rfl

theorem substituteList_substituteList (a b : List Semantics) : ∀ as : List Semantics,
    substituteList b (substituteList a as) =
      substituteList (a.map (·.substitute b) ++ b.drop a.length) as
  | [] => rfl
  | s :: as => by
    rw [substituteList, substituteList, substituteList, substitute_substitute a b s,
      substituteList_substituteList a b as]

end

/-! ## Substitutions that change nothing -/

def indices (n : Nat) : List Semantics := (List.range n).map fun i => index (.ofNat i)

theorem fixes_indices (n : Nat) (i : UInt32) : Fixes (indices n) i := by
  intro s hs
  rw [indices, List.getElem?_map, Option.map_eq_some_iff] at hs
  obtain ⟨k, hk, rfl⟩ := hs
  obtain ⟨-, rfl⟩ := List.getElem?_eq_some_iff.mp hk
  rw [List.getElem_range, UInt32.ofNat_toNat]

/-- Arguments put in one after the other are put in at once if the later ones are put into the earlier
ones first, and stand behind them where there are more of them. Positions put into themselves, any
number of them, change nothing; and only so does a meaning stay as it is. -/
theorem substitute_composes (s : Semantics) :
    (∀ a b : List Semantics, (s.substitute a).substitute b =
      s.substitute (a.map (·.substitute b) ++ b.drop a.length)) ∧
    (∀ n : Nat, s.substitute (indices n) = s) ∧
    (∀ a : List Semantics, s.substitute a = s ↔ ∀ i ∈ s.positions, Fixes a i) :=
  ⟨fun a b => substitute_substitute a b s,
    fun n => (substitute_eq_self_iff _ s).mpr fun i _ => fixes_indices n i,
    fun a => substitute_eq_self_iff a s⟩

/-! ## Substitutions that leave nothing open -/

theorem within_iff_closed {n : Nat} {s : Semantics} : s.Within n ↔ ∀ actuals : List Semantics,
    n ≤ actuals.length → (∀ a ∈ actuals, a.hasIndex = false) →
      (s.substitute actuals).hasIndex = false := by
  constructor
  · intro hs actuals hlength hclosed
    have hwithin : s.Within actuals.length := fun i hi => Nat.lt_of_lt_of_le (hs i hi) hlength
    exact within_zero_iff.mp (hwithin.substitute fun a ha => within_zero_iff.mpr (hclosed a ha))
  · intro h i hi
    -- whatever `n` closed arguments are put in, a position beyond them would be open still
    have hclosed : (s.substitute (List.replicate n object)).hasIndex = false :=
      h _ (Nat.le_of_eq List.length_replicate.symm) (List.forall_mem_replicate.mpr (.inr rfl))
    rw [← Bool.not_eq_true, hasIndex_substitute_iff] at hclosed
    by_contra hle
    refine hclosed ⟨i, hi, .inl ?_⟩
    rw [List.length_replicate]
    omega

theorem closed_iff_substitute_eq_self {s : Semantics} :
    s.hasIndex = false ↔ ∀ actuals : List Semantics, s.substitute actuals = s := by
  rw [← within_zero_iff]
  constructor
  · intro hs actuals
    exact (substitute_eq_self_iff actuals s).mpr fun i hi => absurd (hs i hi) (Nat.not_lt_zero _)
  · intro h i hi
    -- the object type, put in for `i`, would have to be `i` itself
    have hfixes := (substitute_eq_self_iff (List.replicate (i.toNat + 1) object) s).mp (h _) i hi
    cases hfixes object (List.getElem?_replicate_of_lt (Nat.lt_succ_self _))

/-- Something stays open just if a position has no argument, or an open one. Closed arguments for the
first positions, or for more, close just the meanings that have no others open. Closed are just the
meanings that no arguments change. -/
theorem substitute_closes (s : Semantics) :
    (∀ actuals : List Semantics, (s.substitute actuals).hasIndex = true ↔ ∃ i ∈ s.positions,
      actuals.length ≤ i.toNat ∨ ∃ a, actuals[i.toNat]? = some a ∧ a.hasIndex = true) ∧
    (∀ n : Nat, s.Within n ↔ ∀ actuals : List Semantics, n ≤ actuals.length →
      (∀ a ∈ actuals, a.hasIndex = false) → (s.substitute actuals).hasIndex = false) ∧
    (s.hasIndex = false ↔ ∀ actuals : List Semantics, s.substitute actuals = s) :=
  ⟨fun _ => hasIndex_substitute_iff, fun _ => within_iff_closed, closed_iff_substitute_eq_self⟩

/-- Of three positions two are open. They are closed by the right two arguments, whatever the other is,
and by any three that are closed; two arguments are too few. -/
theorem substitute_closes_pairs :
    let pair (a b : Semantics) : Semantics := .inst ⟨1⟩ [a, b]
    let s : Semantics := pair (index 0) (pair object (index 2))
    (s.substitute [guid, index 7, object]).hasIndex = false ∧
      (s.substitute [guid, object]).hasIndex = true ∧
      s.Within 3 ∧ (s.substitute [guid, object, pair guid guid]).hasIndex = false ∧
      (pair guid object).hasIndex = false ∧
      (pair guid object).substitute [index 1, index 0] = pair guid object := by
  intro pair s
  obtain ⟨hopen, hcloses, -⟩ := substitute_closes s
  have hpositions : s.positions = [0, 2] := rfl
  have hs : s.Within 3 := by simp [Within, hpositions]
  have hpair : (pair guid object).hasIndex = false := rfl
  refine ⟨?_, (hopen _).mpr ⟨2, by simp [hpositions], .inl (by decide)⟩, hs,
    (hcloses 3).mp hs _ (by decide) (by simp [pair, hasIndex, anyHasIndex]), hpair,
    (substitute_closes (pair guid object)).2.2.mp hpair _⟩
  rw [← Bool.not_eq_true, hopen, hpositions]
  simp [hasIndex]

/-! ## Substitution before rendering -/

variable {v : View} {params names : List String} {actuals : List Semantics}

theorem renderDefinition_eq_error {d : TypeDef} {e : Error} (h : renderDefinition v d = .error e) :
    e = .rowNotFound d.token := by
  rcases Except.bind_eq_error_iff.mp h with hrow | ⟨row, -, hname⟩
  · exact View.row_eq_error hrow
  · cases hname

mutual

theorem render_eq_error : ∀ {s : Semantics} {e : Error}, s.render v params = .error e →
    ∃ k, e = .rowNotFound k
  | definition d, _, h => ⟨d.token, renderDefinition_eq_error h⟩
  | inst d as, e, h => by
    rw [render] at h
    rcases Except.bind_eq_error_iff.mp h with hname | ⟨name, -, h⟩
    · exact ⟨d.token, renderDefinition_eq_error hname⟩
    · rcases Except.bind_eq_error_iff.mp h with hargs | ⟨texts, -, htext⟩
      · exact renderArgs_eq_error hargs
      · cases htext
  | fundamental _, _, h | object, _, h | guid, _, h | index _, _, h => by cases h

theorem renderArgs_eq_error : ∀ {as : List Semantics} {e : Error},
    renderArgs v params as = .error e → ∃ k, e = .rowNotFound k
  | [], _, h => by cases h
  | a :: as, e, h => by
    rw [renderArgs] at h
    rcases Except.bind_eq_error_iff.mp h with hfirst | ⟨text, -, h⟩
    · exact render_eq_error hfirst
    · rcases Except.bind_eq_error_iff.mp h with hrest | ⟨texts, -, htexts⟩
      · exact renderArgs_eq_error hrest
      · cases htexts

end

theorem render_substitute_index (hnames : actuals.map (·.render v params) = names.map .ok)
    (i : UInt32) : ((index i).substitute actuals).render v params =
      .ok (renderIndex (names ++ params.drop actuals.length) i) := by
  have hlength := (congrArg List.length hnames).symm
  rw [List.length_map, List.length_map] at hlength
  have hname := congrArg (·[i.toNat]?) hnames
  simp only [List.getElem?_map] at hname
  rw [substitute, renderIndex, getElem?_append_drop hlength]
  cases ha : actuals[i.toNat]? with
  | none =>
    rw [ha] at hname
    rw [Option.map_eq_none_iff.mp hname.symm]
    rfl
  | some a =>
    rw [ha] at hname
    obtain ⟨name, hn, ha⟩ := Option.map_eq_some_iff.mp hname.symm
    rw [hn]
    exact ha.symm

mutual

theorem render_substitute (hnames : actuals.map (·.render v params) = names.map .ok) :
    ∀ s : Semantics, (s.substitute actuals).render v params =
      s.render v (names ++ params.drop actuals.length)
  | index i => render_substitute_index hnames i
  | inst d as => by
    rw [substitute, render, render, renderArgs_substituteList hnames as]
  | fundamental _ | object | guid | definition _ => rfl

theorem renderArgs_substituteList (hnames : actuals.map (·.render v params) = names.map .ok) :
    ∀ as : List Semantics, renderArgs v params (substituteList actuals as) =
      renderArgs v (names ++ params.drop actuals.length) as
  | [] => rfl
  | a :: as => by
    rw [substituteList, renderArgs, renderArgs, render_substitute hnames a,
      renderArgs_substituteList hnames as]

end

/-- Arguments that have names can be put in before a meaning is rendered, or their names can be written
where they belong. Both come to the same text, or to the same definition without a row. -/
theorem render_names_actuals (hnames : actuals.map (·.render v params) = names.map .ok)
    (s : Semantics) :
    (∃ text, (s.substitute actuals).render v params = .ok text ∧
      s.render v (names ++ params.drop actuals.length) = .ok text) ∨
    (∃ k, (s.substitute actuals).render v params = .error (.rowNotFound k) ∧
      s.render v (names ++ params.drop actuals.length) = .error (.rowNotFound k)) := by
  have hsame := render_substitute hnames s
  cases hs : s.render v (names ++ params.drop actuals.length) with
  | ok text => exact .inl ⟨text, hsame.trans hs, rfl⟩
  | error e =>
    obtain ⟨k, rfl⟩ := render_eq_error hs
    exact .inr ⟨k, hsame.trans hs, rfl⟩

def vectorTypes : View := (Store.empty.put (t := .typeDef) ⟨1⟩ { name := "V" }).view

theorem render_names_actuals_vectors :
    let vector (a : Semantics) : Semantics := .inst ⟨1⟩ [a]
    let several : Semantics := .inst ⟨1⟩ [.index 0, vector (.index 1), .index 7]
    let missing : Semantics := .inst ⟨1⟩ [.index 0, .definition ⟨9⟩]
    [vector (.index 1)].map (·.render vectorTypes ["K", "E"]) = ["V<E>"].map .ok ∧
      (several.substitute [vector (.index 1)]).render vectorTypes ["K", "E"] =
        .ok "V<V<E>, V<E>, T7>" ∧
      several.render vectorTypes ["V<E>", "E"] = .ok "V<V<E>, V<E>, T7>" ∧
      (missing.substitute [vector (.index 1)]).render vectorTypes ["K", "E"] =
        .error (.rowNotFound ⟨Table.typeDef.number, 9⟩) ∧
      missing.render vectorTypes ["V<E>", "E"] =
        .error (.rowNotFound ⟨Table.typeDef.number, 9⟩) := by
  intro vector several missing
  have hnames : [vector (.index 1)].map (·.render vectorTypes ["K", "E"]) = ["V<E>"].map .ok := rfl
  have hseveral : (several.substitute [vector (.index 1)]).render vectorTypes ["K", "E"] =
    .ok "V<V<E>, V<E>, T7>" := rfl
  have hmissing : (missing.substitute [vector (.index 1)]).render vectorTypes ["K", "E"] =
    .error (.rowNotFound ⟨Table.typeDef.number, 9⟩) := rfl
  refine ⟨hnames, hseveral, ?_, hmissing, ?_⟩
  · rcases render_names_actuals hnames several with ⟨text, htext, hnamed⟩ | ⟨k, hfails, -⟩
    · rw [hseveral] at htext
      cases htext
      exact hnamed
    · cases hfails
  · rcases render_names_actuals hnames missing with ⟨text, htext, -⟩ | ⟨k, hfails, hnamed⟩
    · cases htext
    · rw [hmissing] at hfails
      cases hfails
      exact hnamed

end Semantics
end MetadataProjection
