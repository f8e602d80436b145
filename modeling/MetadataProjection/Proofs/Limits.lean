import MetadataProjection.Proofs.Agreement

/-!
# MetadataProjection.Proofs.Limits

The limit of a resolver only cuts off. With a higher limit every question comes to the same end, be it
an answer or a failure, but for those that ended at the lower limit.

* `Resolver.limited`: a resolver with another limit.
* `Resolver.extends_limited`: with a higher limit a resolver finds what it found before, and where it
  failed it fails alike.
* `Resolver.ask_limited`: what becomes of an answer, and of a failure, when the limit is raised.
-/

namespace MetadataProjection

namespace Resolver

def limited (r : Resolver) (limit : Nat) : Resolver :=
  { r with config := { r.config with maxDepth := limit } }

variable {limit limit' : Nat}

theorem extends_limited (r : Resolver) (h : limit ≤ limit') :
    (r.limited limit).Extends (· ≠ .recursionLimit limit) (r.limited limit') :=
  .of_rules r.view (r.limited limit).config (r.limited limit').config rfl h fun hne => absurd rfl hne

theorem Extends.follows_put {F : Error → Prop} {r r' : Resolver} (h : r.Extends F r')
    (q : Question) : Follows F r r' (q.put r) (q.put r') := by
  cases q with
  | signature s => exact (h.resolve s).bind_pure _
  | reference ref => exact (h.resolveReference ref).bind_pure _
  | token k =>
    have hk : Follows F r r' (r.resolveToken k) (r'.resolveToken k) :=
      Query.Follows.bind (.lift (.refl _)) h.resolveReference
    exact hk.bind_pure _
  | definition ref => exact (h.follows_definitionOf ref).bind_pure _

/-- When the limit is raised, an answer stays the same, and so does a failure that is not the one of a
limit; where there is an answer for the first time, the lower limit was reached. -/
theorem ask_limited (r : Resolver) (q : Question) (h : limit ≤ limit') :
    let low := ((q.put (r.limited limit)).ask ∅).1
    let high := ((q.put (r.limited limit')).ask ∅).1
    (∀ a, low = .ok a → high = .ok a) ∧
    (∀ e, low = .error e → (∀ n, e ≠ .recursionLimit n) → high = .error e) ∧
    (∀ a e, high = .ok a → low = .error e → e = .recursionLimit limit) := by
  intro low high
  have hfollows := (r.extends_limited h).follows_put q
  rcases hfollows.ask_eq_or (keeps_empty _) (keeps_empty _) with hcut | hsame
  · have hcut : low = .error (.recursionLimit limit) := hcut
    refine ⟨fun a ha => ?_, fun e he hne => ?_, fun a e _ he => ?_⟩
    · rw [hcut] at ha
      cases ha
    · rw [hcut] at he
      cases he
      exact absurd rfl (hne limit)
    · rw [hcut] at he
      cases he
      rfl
  · have hsame : high = low := hsame
    rw [hsame]
    refine ⟨fun a ha => ha, fun e he _ => he, fun a e ha he => ?_⟩
    rw [ha] at he
    cases he

theorem ask_limited_vector :
    let r : Resolver := { view := vectorStore.view }
    let vector : Question := .signature (.classType ⟨Table.typeSpec.number, 1⟩)
    let pair : Question :=
      .signature (.genericInst (.classType ⟨Table.typeDef.number, 1⟩) [.object, .void])
    ((vector.put (r.limited 3)).ask ∅).1 = .error (.recursionLimit 3) ∧
      ((vector.put (r.limited 4)).ask ∅).1 = .ok (.meaning (.inst ⟨1⟩ [.fundamental .int32])) ∧
      ((vector.put (r.limited 100)).ask ∅).1 = .ok (.meaning (.inst ⟨1⟩ [.fundamental .int32])) ∧
      ((pair.put (r.limited 3)).ask ∅).1 = .error (.unsupportedElementType "Void") ∧
      ((pair.put (r.limited 100)).ask ∅).1 = .error (.unsupportedElementType "Void") := by
  intro r vector pair
  have hvector : ((vector.put (r.limited 4)).ask ∅).1 =
    .ok (.meaning (.inst ⟨1⟩ [.fundamental .int32])) := rfl
  have hpair : ((pair.put (r.limited 3)).ask ∅).1 = .error (.unsupportedElementType "Void") := rfl
  obtain ⟨e, hlow⟩ : ∃ e, ((vector.put (r.limited 3)).ask ∅).1 = .error e := ⟨_, rfl⟩
  have hcut := (r.ask_limited vector (by decide : 3 ≤ 4)).2.2 _ e hvector hlow
  refine ⟨hlow.trans (congrArg _ hcut), hvector, ?_, hpair, ?_⟩
  · exact (r.ask_limited vector (by decide : 4 ≤ 100)).1 _ hvector
  · exact (r.ask_limited pair (by decide : 3 ≤ 100)).2.1 _ hpair (fun n => nofun)

end Resolver
end MetadataProjection
