/-
MultiHop/Proofs/Query/Batch.lean

Hops together and hops one by one.  A model without a way of its own to score batches is asked for
one row per head, and the rows become fuzzy sets one after another.  The single hop checks its
head, its relation, its row and its logits in this order; the hops together check all heads first,
then the relation, then all rows and then all logits.  So they may fail for different reasons, but
not on different heads:

    m.hops heads r   has an answer   if and only if   m.hop h r   has one for each head `h`

Every check of the hops together that fails is one that some single hop fails too
(`Model.hops_ends`), and the checks that succeed put its row together (`Model.hop_eq_ok_iff`).

Main result: `Model.hops_agree`.
-/
import MultiHop.Proofs.Query.Beam
import MultiHop.Proofs.Query.Cost

namespace MultiHop

open Consult

namespace Model

variable {m : Model} {h : EntityId} {r : RelationId} {heads : List EntityId} {v : FuzzySet}

/-- One hop has an answer if and only if its positions are in range and the reply is a row of one
logit per entity, all of which are admitted as degrees. -/
theorem hop_eq_ok_iff [Elementary] : (m.hop h r).result = .ok v ↔
    (h.index < m.entityCount ∧ r.index < m.relationCount) ∧ ∃ row, m.tails h r = .ok row ∧
      row.length = m.entityCount ∧ FuzzySet.ofLogits row = .ok v := by
  constructor
  · intro hv
    obtain ⟨row, hrow, hadmitted⟩ := result_bind_eq_ok_iff.1 hv
    obtain ⟨_, hh, hrow⟩ := result_bind_eq_ok_iff.1 hrow
    obtain ⟨_, hr, hrow⟩ := result_bind_eq_ok_iff.1 hrow
    obtain ⟨-, -, hrow⟩ := result_bind_eq_ok_iff.1 hrow
    obtain ⟨reply, hreply, hrow⟩ := result_bind_eq_ok_iff.1 hrow
    have hrange := And.intro (checkEntity_ends.of_ok hh) (checkRelation_ends.of_ok hr)
    refine ⟨hrange, reply, hreply, ?_⟩
    split at hrow
    · next hlen =>
      cases hrow
      exact ⟨hlen, hadmitted⟩
    · cases hrow
  · rintro ⟨⟨hh, hr⟩, row, hreply, hlen, hadmitted⟩
    refine result_bind_eq_ok_iff.2 ⟨row, ?_, hadmitted⟩
    refine result_bind_eq_ok_iff.2 ⟨(), if_pos hh, ?_⟩
    refine result_bind_eq_ok_iff.2 ⟨(), if_pos hr, ?_⟩
    refine result_bind_eq_ok_iff.2 ⟨(), rfl, ?_⟩
    refine result_bind_eq_ok_iff.2 ⟨row, hreply, ?_⟩
    rw [if_pos hlen]
    rfl

/-- A row of a batch is a reply of the right length, and without one there is no hop either. -/
theorem askRow_ends [Elementary] : (m.askRow r h).Ends (fun row => m.tails h r = .ok row.val)
    fun _ => ¬ ∃ v, (m.hop h r).result = .ok v := by
  have hreply : (m.askTails h r).Ends (fun row => m.tails h r = .ok row)
      fun _ => ¬ ∃ v, (m.hop h r).result = .ok v := by
    refine ends_of_result (fun row hrow => hrow) ?_
    rintro e he ⟨v, hv⟩
    obtain ⟨-, row, hrow, -⟩ := hop_eq_ok_iff.1 hv
    cases he.symm.trans hrow
  refine hreply.bind fun row hrow => ?_
  split
  · exact ends_pure hrow
  · next hlen =>
    refine ends_fail ?_
    rintro ⟨v, hv⟩
    obtain ⟨-, row', hrow', hlen', -⟩ := hop_eq_ok_iff.1 hv
    obtain rfl : row = row' := Except.ok.inj (hrow.symm.trans hrow')
    exact hlen hlen'

/-- Asked head by head, a batch has the replies as its rows. -/
theorem askBatch_ends [Elementary] (hown : m.ownBatch = none) : (m.askBatch heads r).Ends
    (fun batch => batch.columns = m.entityCount ∧
      List.Forall₂ (fun h row => m.tails h r = .ok row) heads batch.rows)
    fun _ => ¬ ∀ h ∈ heads, ∃ v, (m.hop h r).result = .ok v := by
  have hrows : ∀ h ∈ heads, (m.askRow r h).Ends (fun row => m.tails h r = .ok row.val)
      fun _ => ¬ ∀ h ∈ heads, ∃ v, (m.hop h r).result = .ok v := by
    intro h hmem
    exact askRow_ends.mono (fun _ hrow => hrow) fun _ hnot hall => hnot (hall h hmem)
  unfold askBatch
  rw [hown]
  exact (ends_mapM hrows).bind fun rows hall => ends_pure ⟨rfl, List.forall₂_map_right_iff.2 hall⟩

/-- **Several hops have the answers of the single ones**, and if they have none, then a single
one has none. -/
theorem hops_ends [Elementary] (hown : m.ownBatch = none) (hne : heads ≠ []) :
    (m.hops heads r).Ends (List.Forall₂ (fun h v => (m.hop h r).result = .ok v) heads)
      fun _ => ¬ ∀ h ∈ heads, ∃ v, (m.hop h r).result = .ok v := by
  have hhead : ∀ h ∈ heads, (∀ h ∈ heads, ∃ v, (m.hop h r).result = .ok v) →
      h.index < m.entityCount ∧ r.index < m.relationCount := by
    intro h hmem hall
    obtain ⟨v, hv⟩ := hall h hmem
    exact (hop_eq_ok_iff.1 hv).1
  -- heads first, all of them
  have hheads : (ofExcept (heads.forM m.checkEntity)).Ends
      (fun _ => ∀ h ∈ heads, h.index < m.entityCount)
      fun _ => ¬ ∀ h ∈ heads, ∃ v, (m.hop h r).result = .ok v := by
    refine ends_ofExcept (fun _ hok => forM_checkEntity_ends.of_ok hok) fun e he hall => ?_
    rw [forM_checkEntity fun h hmem => (hhead h hmem hall).1] at he
    cases he
  have hrelation : (ofExcept (m.checkRelation r)).Ends (fun _ => r.index < m.relationCount)
      fun _ => ¬ ∀ h ∈ heads, ∃ v, (m.hop h r).result = .ok v := by
    refine checkRelation_ends.mono (fun _ hr => hr) fun _ hout hall => ?_
    obtain ⟨h, hmem⟩ := List.exists_mem_of_ne_nil heads hne
    exact absurd (hhead h hmem hall).2 (not_lt.2 hout.1)
  refine hheads.bind fun _ hh => hrelation.bind fun _ hr => ?_
  refine ends_bind_of_ok (a := ()) rfl ?_
  refine (askBatch_ends hown).bind fun batch hbatch => ?_
  obtain ⟨hcolumns, hrows⟩ := hbatch
  rw [if_pos ⟨hrows.length_eq.symm, hcolumns⟩]
  show (ofExcept (batch.rows.mapM FuzzySet.ofLogits)).Ends _ _
  rw [ofExcept_mapM]
  have hsets : ∀ row ∈ batch.rows, (ofExcept (FuzzySet.ofLogits row)).Ends
      (fun v => row.length = m.entityCount ∧ FuzzySet.ofLogits row = .ok v)
      fun _ => ¬ ∀ h ∈ heads, ∃ v, (m.hop h r).result = .ok v := by
    intro row hrow
    refine ends_ofExcept (fun v hv => ⟨(batch.length_row row hrow).trans hcolumns, hv⟩) ?_
    intro e he hall
    obtain ⟨h, hmem, hreply⟩ := exists_of_forall₂ hrows row hrow
    obtain ⟨v, hv⟩ := hall h hmem
    obtain ⟨-, row', hreply', -, hadmitted⟩ := hop_eq_ok_iff.1 hv
    obtain rfl : row = row' := Except.ok.inj (hreply.symm.trans hreply')
    cases he.symm.trans hadmitted
  refine (ends_mapM hsets).mono (fun rows hall => ?_) fun _ hnot => hnot
  -- from heads to rows of logits, and from these to fuzzy sets
  refine forall₂_trans ?_ ((List.forall₂_and_left _ _).2 ⟨hh, hrows⟩) hall
  rintro h row v ⟨hlt, hreply⟩ ⟨hlen, hadmitted⟩
  exact hop_eq_ok_iff.2 ⟨⟨hlt, hr⟩, row, hreply, hlen, hadmitted⟩

/-- **Hops together agree with hops one by one.**  Whatever a model without a way of its own to
score batches replies, hops from several heads have an answer if and only if the hop from each
head has one.  The answer then has, row by row, the answers of the single hops, and either way one
prediction is issued for each head. -/
theorem hops_agree [Elementary] (m : Model) (hown : m.ownBatch = none) {heads : List EntityId}
    (hne : heads ≠ []) (r : RelationId) :
    ((∃ rows, (m.hops heads r).result = .ok rows) ↔
      ∀ h ∈ heads, ∃ v, (m.hop h r).result = .ok v) ∧
    ∀ rows, (m.hops heads r).result = .ok rows →
      List.Forall₂ (fun h row => (m.hop h r).result = .ok row) heads rows ∧
      (m.hops heads r).usage.predictions = heads.length ∧
      (heads.mapM fun h => m.hop h r).result = .ok rows ∧
      (heads.mapM fun h => m.hop h r).usage.predictions = heads.length := by
  have hends := hops_ends (r := r) hown hne
  constructor
  · constructor
    · rintro ⟨rows, hrows⟩ h hmem
      have hall := hends.of_ok hrows
      obtain ⟨v, -, hv⟩ := exists_of_forall₂ hall.flip h hmem
      exact ⟨v, hv⟩
    · intro hall
      cases hres : (m.hops heads r).result with
      | ok rows => exact ⟨rows, rfl⟩
      | error e => exact absurd hall (hends.of_error (e := e) hres)
  · intro rows hrows
    have hall := hends.of_ok hrows
    have hsingle := mapM_eq_ok_iff.2 hall
    have hcosts := m.charges_predictions
    have hcost : (heads.mapM fun h => m.hop h r).Costs .predictions (heads.length * 1) :=
      costs_mapM fun h _ => hcosts.hop h r
    refine ⟨hall, (hcosts.hops heads r).eq rows hrows, hsingle, ?_⟩
    rw [← Nat.mul_one heads.length]
    exact hcost.eq rows hsingle

/-- Both entities at once, and the first of them twice. -/
theorem hops_agree_swap : ∃ first second,
    (@hops Elementary.steep swap [⟨0⟩, ⟨1⟩, ⟨0⟩] ⟨0⟩).result = .ok [first, second, first] ∧
      (@hop Elementary.steep swap ⟨0⟩ ⟨0⟩).result = .ok first ∧
      (@hop Elementary.steep swap ⟨1⟩ ⟨0⟩).result = .ok second := by
  obtain ⟨hiff, hrows⟩ := @hops_agree Elementary.steep swap rfl [⟨0⟩, ⟨1⟩, ⟨0⟩]
    (List.cons_ne_nil _ _) ⟨0⟩
  have hfirst : (@hop Elementary.steep swap ⟨0⟩ ⟨0⟩).result.map (·.degrees) = .ok [0, 1] := by
    decide +kernel
  have hsecond : (@hop Elementary.steep swap ⟨1⟩ ⟨0⟩).result.map (·.degrees) = .ok [1, 0] := by
    decide +kernel
  obtain ⟨first, hfirst, -⟩ := except_map_eq_ok_iff.1 hfirst
  obtain ⟨second, hsecond, -⟩ := except_map_eq_ok_iff.1 hsecond
  obtain ⟨rows, hok⟩ := hiff.2 (by simp [hfirst, hsecond])
  cases (hrows rows hok).1 with
  | cons h₁ hrest =>
    cases hrest with
    | cons h₂ hrest =>
      cases hrest with
      | cons h₃ hrest =>
        cases hrest
        obtain rfl := Except.ok.inj (hfirst.symm.trans h₃)
        obtain rfl := Except.ok.inj (hfirst.symm.trans h₁)
        exact ⟨_, _, hok, hfirst, h₂⟩

end Model

end MultiHop
