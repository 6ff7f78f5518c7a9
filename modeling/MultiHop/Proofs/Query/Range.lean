/-
MultiHop/Proofs/Query/Range.lean

Unknown positions.  Positions are checked by the hops that evaluation takes, so an unknown
one is refused if some hop comes to it; and it is refused even by a model that would reply
to it.  Evaluation comes to every entity of a query and to every relation of a hop from an
anchor.  A hop through a beam comes to its relation only if the beam holds an entity: a
beam of width zero is sent nowhere, whatever the relation
(`Model.evaluate_projection_of_width_zero`).

Main result: `Reasoner.evaluate_refuses_unknown`.
-/
import MultiHop.Proofs.Query.WellFormed

namespace MultiHop

namespace Model

/-- A beam of width zero is sent nowhere: the relation is not looked at. -/
theorem evaluate_projection_of_width_zero [Elementary] {m : Model} {s : Settings}
    (hs : s.width = 0) {q : Query} (r : RelationId) (hq : ∀ h, q ≠ .entity h) :
    m.evaluate s (.projection q r) =
      m.evaluate s q >>= fun _ => Pure.pure (FuzzySet.empty m.entityCount) := by
  rw [evaluate_projection r hq, hs]
  rfl

end Model

namespace Reasoner

/-- **Queries with an unknown position are refused.**  This holds of every entity and, if
beams are not of width zero, of every relation; otherwise of the relations of hops from
anchors.  Nothing is assumed about the replies of the model. -/
theorem evaluate_refuses_unknown [Elementary] (r : Reasoner) (q : Query)
    (hq : (∃ e, .inl e ∈ q.leaves ∧ r.model.entityCount ≤ e.index) ∨
      (∃ rel, .inr rel ∈ q.leaves ∧ r.model.relationCount ≤ rel.index ∧
        (0 < r.settings.width ∨ (.anchor, rel) ∈ q.relations))) :
    ∃ e, (r.evaluate q).result = .error (.error e) := by
  have hends := r.model.evaluate_inRange r.settings q
  cases hres : (r.evaluate q).result with
  | error f =>
    obtain ⟨e, rfl⟩ := hends.of_error hres
    exact ⟨e, rfl⟩
  | ok v =>
    obtain ⟨-, hrange⟩ := hends.of_ok hres
    rcases hq with ⟨e, hmem, hout⟩ | ⟨rel, hmem, hout, hlooked⟩
    · exact absurd (hrange.entity e hmem) (not_lt.2 hout)
    · obtain ⟨source, hsource⟩ := QueryOver.inr_mem_leaves_iff.1 hmem
      refine absurd ?_ (not_lt.2 hout)
      rcases hlooked with hwidth | hanchor
      · exact hrange.relation source rel hsource (.inr hwidth)
      · exact hrange.relation .anchor rel hanchor (.inl rfl)

theorem evaluate_refuses_unknown_swap :
    ∃ e, (@evaluate Elementary.steep .swap
      (.projection (.projection (.entity ⟨0⟩) ⟨0⟩) ⟨7⟩)).result = .error (.error e) :=
  @evaluate_refuses_unknown Elementary.steep .swap
    (.projection (.projection (.entity ⟨0⟩) ⟨0⟩) ⟨7⟩)
    (.inr ⟨⟨7⟩, by simp [QueryOver.leaves], by decide, .inl Nat.zero_lt_one⟩)

/-- The same query is answered if beams are of width zero: no entity has any degree. -/
theorem evaluate_answers_unknown_swap :
    .inr ⟨7⟩ ∈ (QueryOver.projection (.projection (.entity ⟨0⟩) ⟨0⟩) ⟨7⟩ : Query).leaves ∧
      swap.model.relationCount ≤ 7 ∧
      (@evaluate Elementary.steep (swap.withWidth 0 Nat.zero_lt_two)
        (.projection (.projection (.entity ⟨0⟩) ⟨0⟩) ⟨7⟩)).result.map (·.degrees) =
          .ok [0, 0] := by
  refine ⟨by simp [QueryOver.leaves], by decide, ?_⟩
  decide +kernel

end Reasoner

end MultiHop
