/-
MultiHop/Proofs/Query/Pruning.lean

What the width of the beam does to an answer.  A beam keeps witnesses of the next hop, so
a narrower beam can only miss some of them, and all connectives but negation respect the
order of degrees.  Hence no beam must stand beneath a negation:

    Positive source q

says so of `q`, and that every query from which a beam is taken satisfies `source`.

Two comparisons come out of one induction over such queries (`Model.evaluate_relates`).
Without a condition on sources, an evaluation is below the one that prunes nothing: with
nested beams the two runs carry different entities with different degrees, but a beam of
everything is above every other one.  Between two widths, both of which prune, this is not
so; there the sources must be the same in both runs, that is, `Beamless`.

Both comparisons need batches that are scored row by row (`Model.Rowwise`), as they are unless
a model has a way of its own to score them.  Where a batch may depend on which heads are asked
for together, a narrower beam can lead further (`Reasoner.evaluate_above_unpruned_aloneOnly`,
`Reasoner.evaluate_above_wider_aloneOnly`).

Main results: `Reasoner.evaluate_le_unpruned`, `Reasoner.evaluate_le_wider`.
-/
import MultiHop.Proofs.Query.Beam

namespace MultiHop

open Consult
open Single (infinity)

/-! ### Where beams occur -/

namespace QueryOver

variable {E R : Type}

/-- No hop goes through a beam: all of them start at anchors. -/
inductive Beamless : QueryOver E R → Prop
  | entity (e : E) : Beamless (.entity e)
  | anchored (h : E) (r : R) : Beamless (.projection (.entity h) r)
  | intersection (qs : List (QueryOver E R)) :
    (∀ q ∈ qs, Beamless q) → Beamless (.intersection qs)
  | union (qs : List (QueryOver E R)) : (∀ q ∈ qs, Beamless q) → Beamless (.union qs)
  | negation (q : QueryOver E R) : Beamless q → Beamless (.negation q)

/-- No beam stands beneath a negation, and the source of every beam satisfies `source`. -/
inductive Positive (source : QueryOver E R → Prop) : QueryOver E R → Prop
  | entity (e : E) : Positive source (.entity e)
  | anchored (h : E) (r : R) : Positive source (.projection (.entity h) r)
  | projection (q : QueryOver E R) (r : R) :
    source q → Positive source q → Positive source (.projection q r)
  | intersection (qs : List (QueryOver E R)) :
    (∀ q ∈ qs, Positive source q) → Positive source (.intersection qs)
  | union (qs : List (QueryOver E R)) :
    (∀ q ∈ qs, Positive source q) → Positive source (.union qs)
  | negation (q : QueryOver E R) : Beamless q → Positive source (.negation q)

theorem Beamless.positive {source : QueryOver E R → Prop} {q : QueryOver E R}
    (hq : q.Beamless) : q.Positive source := by
  induction hq with
  | entity e => exact .entity e
  | anchored h r => exact .anchored h r
  | intersection qs _ ih => exact .intersection qs ih
  | union qs _ ih => exact .union qs ih
  | negation q hq _ => exact .negation q hq

end QueryOver

namespace Model

variable [Elementary] {m : Model} {s s' : Settings} {k : Nat} {op : Float32 → Float32 → Float32}

/-! ### Evaluation without beams -/

theorem evaluateOn_congr {qs : List Query} (h : ∀ q ∈ qs, m.evaluate s q = m.evaluate s' q)
    (sofar : List Float32) : m.evaluateOn s op sofar qs = m.evaluateOn s' op sofar qs := by
  induction qs generalizing sofar with
  | nil => simp only [evaluateOn]
  | cons q qs ih =>
    obtain ⟨hq, hqs⟩ := List.forall_mem_cons.1 h
    simp only [evaluateOn, hq, ih hqs]

theorem evaluateAll_congr {q : Query} {qs : List Query}
    (h : ∀ p ∈ q :: qs, m.evaluate s p = m.evaluate s' p) :
    m.evaluateAll s op q qs = m.evaluateAll s' op q qs := by
  obtain ⟨hq, hqs⟩ := List.forall_mem_cons.1 h
  simp only [evaluateAll, hq, evaluateOn_congr hqs]

/-- Without beams the width does not matter. -/
theorem evaluate_of_beamless {q : Query} (hq : q.Beamless) :
    m.evaluate s q = m.evaluate { s with width := k } q := by
  induction q using QueryOver.induction with
  | entity e => simp only [evaluate]
  | anchored h r => simp only [evaluate]
  | projection q r hne _ =>
    cases hq
    exact absurd rfl (hne _)
  | intersection qs ih =>
    have hqs : ∀ q ∈ qs, q.Beamless := by cases hq; assumption
    cases qs with
    | nil => simp only [evaluate]
    | cons q qs =>
      rw [evaluate_intersection, evaluate_intersection]
      exact evaluateAll_congr fun p hp => ih p hp (hqs p hp)
  | union qs ih =>
    have hqs : ∀ q ∈ qs, q.Beamless := by cases hq; assumption
    cases qs with
    | nil => simp only [evaluate]
    | cons q qs =>
      rw [evaluate_union, evaluate_union]
      exact evaluateAll_congr fun p hp => ih p hp (hqs p hp)
  | negation q ih =>
    have hq : q.Beamless := by cases hq; assumption
    simp only [evaluate]
    rw [ih hq]

/-! ### Connectives keep the order -/

/-- Operands in order are combined to answers in order. -/
theorem evaluateAll_inOrder
    (hop : ∀ {a a' b b'}, AtMost a a' → AtMost b b' → AtMost (op a b) (op a' b'))
    {q : Query} {qs : List Query}
    (h : ∀ p ∈ q :: qs, (m.evaluate s p).Relates (m.evaluate s' p) (· ⊆ ·)) :
    (m.evaluateAll s op q qs).Relates (m.evaluateAll s' op q qs) (· ⊆ ·) := by
  refine evaluateAll_relates (T := List.Forall₂ AtMost) (fun xs ys v w hx hvw => ?_)
    (fun v w hvw => hvw) (fun xs ys hx => FuzzySet.ofDegrees_relates hx) (List.forall₂_same.2 h)
  exact atMost_zipWith hop hx hvw

/-! ### Two widths -/

/-- **Evaluation is monotone in its beams.**  If each beam of the first run is below that
of the second run, then so are the answers.  That is asked only of sources, and of them
once their answers are known to be in order. -/
theorem evaluate_relates (hm : m.WellShaped) (hrows : m.Rowwise) {source : Query → Prop}
    (hbeam : ∀ q, source q →
      (m.evaluate s q).Relates (m.evaluate { s with width := k } q) (· ⊆ ·) →
      (m.evaluate s q).Relates (m.evaluate { s with width := k } q)
        fun v w => (Beam.ofSet v s.width).Below (Beam.ofSet w k))
    {q : Query} (hq : q.Positive source) :
    (m.evaluate s q).Relates (m.evaluate { s with width := k } q) (· ⊆ ·) := by
  have hequal : ∀ x : Evaluation FuzzySet, x.Relates x (· ⊆ ·) := fun x =>
    (relates_self x).mono fun v w hvw => hvw ▸ FuzzySet.subset_refl v
  induction q using QueryOver.induction with
  | entity e =>
    simp only [evaluate]
    exact hequal _
  | anchored h r =>
    simp only [evaluate]
    exact hequal _
  | projection q r hne ih =>
    obtain ⟨hsource, hpositive⟩ : source q ∧ q.Positive source := by
      cases hq with
      | anchored h _ => exact absurd rfl (hne h)
      | projection _ _ hsource hpositive => exact ⟨hsource, hpositive⟩
    rw [evaluate_projection r hne, evaluate_projection r hne]
    refine (hbeam q hsource (ih hpositive)).bind fun v w hvw => Relates.mapError ?_
    exact Beam.hop_relates_of_rowwise hm hrows hvw Beam.isProbability_of_mem_ofSet
      Beam.isProbability_of_mem_ofSet
  | intersection qs ih =>
    have hqs : ∀ q ∈ qs, q.Positive source := by cases hq; assumption
    cases qs with
    | nil =>
      simp only [evaluate]
      exact hequal _
    | cons q qs =>
      rw [evaluate_intersection, evaluate_intersection]
      exact evaluateAll_inOrder s.tnorm.atMost_meet fun p hp => ih p hp (hqs p hp)
  | union qs ih =>
    have hqs : ∀ q ∈ qs, q.Positive source := by cases hq; assumption
    cases qs with
    | nil =>
      simp only [evaluate]
      exact hequal _
    | cons q qs =>
      rw [evaluate_union, evaluate_union]
      exact evaluateAll_inOrder s.tnorm.atMost_join fun p hp => ih p hp (hqs p hp)
  | negation q _ =>
    -- there is no beam beneath, so both runs are the same
    have hbeamless : q.Beamless := by cases hq; assumption
    rw [evaluate_of_beamless (.negation q hbeamless)]
    exact hequal _

/-- Pruning nothing is above pruning anything. -/
theorem evaluate_relates_unpruned (hm : m.WellShaped) (hrows : m.Rowwise) {q : Query}
    (hq : q.Positive fun _ => True) :
    (m.evaluate s q).Relates (m.evaluate { s with width := m.entityCount } q) (· ⊆ ·) := by
  refine evaluate_relates hm hrows (fun p _ hp v w hv hw => ?_) hq
  have hsize := (m.evaluate_covers _ p).of_ok hw
  exact Beam.below_of_subset (hp v w hv hw) hsize.le

/-- Between two widths, beams of the same sources are in order. -/
theorem evaluate_relates_wider (hm : m.WellShaped) (hrows : m.Rowwise) (hk : s.width ≤ k)
    {q : Query} (hq : q.Positive QueryOver.Beamless) :
    (m.evaluate s q).Relates (m.evaluate { s with width := k } q) (· ⊆ ·) := by
  refine evaluate_relates hm hrows (fun p hp _ v w hv hw => ?_) hq
  rw [← evaluate_of_beamless hp, hv] at hw
  cases hw
  exact Beam.below_of_le hk

theorem degree_le_of_relates {q : Query}
    (h : (m.evaluate s q).Relates (m.evaluate s' q) (· ⊆ ·)) {v w : FuzzySet}
    (hv : (m.evaluate s q).result = .ok v) (hw : (m.evaluate s' q).result = .ok w)
    {e : EntityId} (he : e.index < m.entityCount) :
    ∃ p p', v.degree? e = some p ∧ w.degree? e = some p' ∧ p ≤ p' := by
  have hsize := (m.evaluate_covers s q).of_ok hv
  exact FuzzySet.degree_le_of_subset (h v w hv hw) (hsize ▸ he)

/-! ### A model of batches that are not row by row -/

/-- Three entities.  A head that is asked for in a batch of its own leads everywhere, and heads
that are asked for together lead nowhere. -/
def aloneOnly : Model where
  entityCount := 3
  relationCount := 1
  tails _ _ := .ok (List.replicate 3 (-infinity))
  triple _ _ _ := .ok (-infinity)
  ownBatch := some fun heads _ => .ok {
    columns := 3
    rows := heads.map fun _ =>
      List.replicate 3 (if heads.length = 1 then infinity else -infinity)
    length_row := fun row h => by
      obtain ⟨_, -, rfl⟩ := List.mem_map.1 h
      exact List.length_replicate }

omit [Elementary] in
theorem wellShaped_aloneOnly : aloneOnly.WellShaped where
  tails h r _ _ := by
    refine ⟨_, rfl, List.length_replicate, fun x hx => ?_⟩
    rw [(List.mem_replicate.1 hx).2]
    decide +kernel
  batch reply hown heads r _ _ := by
    cases hown
    refine ⟨_, rfl, rfl, List.forall₂_map_right_iff.2 (List.forall₂_same.2 fun h _ x hx => ?_)⟩
    rw [(List.mem_replicate.1 hx).2]
    split <;> decide +kernel

end Model

/-! ### Reasoners -/

/-- What one of two entities leads to; a beam of one prunes the second of them. -/
def Query.fromEither : Query := .projection (.union [.entity ⟨0⟩, .entity ⟨1⟩]) ⟨0⟩

theorem Query.wellFormed_fromEither {n : Nat} (hn : 2 ≤ n) :
    QueryOver.WellFormed n 1 fromEither := by
  have hunion : QueryOver.WellFormed n 1 (.union [.entity ⟨0⟩, .entity ⟨1⟩]) := by
    simp only [QueryOver.wellFormed_union, List.forall_mem_cons, QueryOver.wellFormed_entity]
    exact ⟨List.cons_ne_nil _ _, by omega, by omega, List.forall_mem_nil _⟩
  exact .projection _ _ hunion Nat.zero_lt_one

theorem Query.beamless_either :
    (QueryOver.union [.entity ⟨0⟩, .entity ⟨1⟩] : Query).Beamless := by
  refine .union _ ?_
  simp only [List.forall_mem_cons]
  exact ⟨.entity _, .entity _, by simp⟩

theorem Query.positive_fromEither {source : Query → Prop}
    (h : source (.union [.entity ⟨0⟩, .entity ⟨1⟩])) : fromEither.Positive source :=
  .projection _ _ h beamless_either.positive

namespace Reasoner

/-- Evaluation without pruning, where a beam holds every entity.  No reasoner evaluates
like this, since its beams are narrower than the graph. -/
def evaluateUnpruned [Elementary] (r : Reasoner) (q : Query) : Evaluation FuzzySet :=
  r.model.evaluate { r.settings with width := r.model.entityCount } q

/-- With beams of any width, a well-formed query has an answer. -/
theorem exists_answer [Elementary] (laws : Elementary.Bounded) (r : Reasoner)
    (hm : r.model.WellShaped) (k : Nat) {q : Query}
    (hwf : q.WellFormed r.model.entityCount r.model.relationCount) :
    ∃ v, (r.model.evaluate { r.settings with width := k } q).result = .ok v := by
  have hs : Settings.Calibrated { r.settings with width := k } :=
    Settings.calibrated laws r.admits
  have hends := (r.model.evaluate_ends laws hm hs q).mono (fun _ h => h)
    fun _ hf => hf.1 hwf
  obtain ⟨v, hv, -⟩ := hends.exists_ok
  exact ⟨v, hv⟩

/-- A reasoner over `Model.aloneOnly` with beams of one entity. -/
def aloneOnly : Reasoner where
  model := .aloneOnly
  index := ⟨⟨["left", "middle", "right"], by decide⟩, ⟨["along"], by decide⟩⟩
  settings := ⟨.product, .sugeno, 1, 1, false⟩
  usable := by decide +kernel
  entities_eq := rfl
  relations_eq := rfl

/-- **Pruning never overestimates.**  For a model whose batches are row by row, and a
well-formed query without a beam beneath a negation, no entity gets a higher degree than it has
without pruning, however deep the beams are nested.  Both evaluations have an answer. -/
theorem evaluate_le_unpruned [Elementary] (r : Reasoner) (hm : r.model.WellShaped)
    (hrows : r.model.Rowwise) {q : Query}
    (hwf : q.WellFormed r.model.entityCount r.model.relationCount)
    (hq : q.Positive fun _ => True) :
    (Elementary.Bounded → (∃ v, (r.evaluate q).result = .ok v) ∧
        ∃ w, (r.evaluateUnpruned q).result = .ok w) ∧
      ∀ v w, (r.evaluate q).result = .ok v → (r.evaluateUnpruned q).result = .ok w →
        ∀ e : EntityId, e.index < r.model.entityCount →
          ∃ p p', v.degree? e = some p ∧ w.degree? e = some p' ∧ p ≤ p' := by
  constructor
  · intro laws
    exact ⟨exists_answer laws r hm r.settings.width hwf, exists_answer laws r hm _ hwf⟩
  · intro v w hv hw e he
    exact Model.degree_le_of_relates (Model.evaluate_relates_unpruned hm hrows hq) hv hw he

theorem evaluate_le_unpruned_swap :
    ∃ v w, (@evaluate Elementary.steep .swap .fromEither).result = .ok v ∧
      (@evaluateUnpruned Elementary.steep .swap .fromEither).result = .ok w ∧
      ∃ p p', v.degree? ⟨0⟩ = some p ∧ w.degree? ⟨0⟩ = some p' ∧ p ≤ p' := by
  obtain ⟨hanswers, hle⟩ := @evaluate_le_unpruned Elementary.steep .swap Model.wellShaped_swap
    (Model.wellShaped_swap.rowwise rfl) .fromEither (Query.wellFormed_fromEither le_rfl)
    (Query.positive_fromEither trivial)
  obtain ⟨⟨v, hv⟩, w, hw⟩ := hanswers Elementary.bounded_steep
  exact ⟨v, w, hv, hw, hle v w hv hw ⟨0⟩ Nat.zero_lt_two⟩

/-- A beam of one entity is sent on alone, and leads further than a beam of all. -/
theorem evaluate_above_unpruned_aloneOnly :
    aloneOnly.model.WellShaped ∧
      Query.fromEither.WellFormed aloneOnly.model.entityCount aloneOnly.model.relationCount ∧
      Query.fromEither.Positive (fun _ => True) ∧
      ∃ v w p p', (@evaluate Elementary.steep aloneOnly .fromEither).result = .ok v ∧
        (@evaluateUnpruned Elementary.steep aloneOnly .fromEither).result = .ok w ∧
        v.degree? ⟨0⟩ = some p ∧ w.degree? ⟨0⟩ = some p' ∧ p' < p := by
  have hpruned : (@evaluate Elementary.steep aloneOnly .fromEither).result.map (·.degrees) =
      .ok [1, 1, 1] := by decide +kernel
  have hunpruned : (@evaluateUnpruned Elementary.steep aloneOnly .fromEither).result.map
      (·.degrees) = .ok [0, 0, 0] := by decide +kernel
  obtain ⟨v, hv, hp⟩ := except_map_eq_ok_iff.1 hpruned
  obtain ⟨w, hw, hp'⟩ := except_map_eq_ok_iff.1 hunpruned
  exact ⟨Model.wellShaped_aloneOnly, Query.wellFormed_fromEither (by decide),
    Query.positive_fromEither trivial, v, w, 1, 0, hv, hw, congrArg (·[0]?) hp,
    congrArg (·[0]?) hp', by decide +kernel⟩

example : ((@evaluate Elementary.steep .swap .fromEither).result.map (·.degrees),
    (@evaluateUnpruned Elementary.steep .swap .fromEither).result.map (·.degrees)) =
      (.ok [0, 1], .ok [1, 1]) := by
  decide +kernel

/-- **A wider beam never hurts.**  For a model whose batches are row by row, and a well-formed
query without a beam beneath another one or beneath a negation, no entity gets a lower degree
from beams that are wider.  Both evaluations have an answer. -/
theorem evaluate_le_wider [Elementary] (r : Reasoner) (hm : r.model.WellShaped)
    (hrows : r.model.Rowwise) {k₁ k₂ : Nat} (hk : k₁ ≤ k₂) (hk₂ : k₂ < r.model.entityCount)
    {q : Query} (hwf : q.WellFormed r.model.entityCount r.model.relationCount)
    (hq : q.Positive QueryOver.Beamless) :
    (Elementary.Bounded →
        (∃ v, ((r.withWidth k₁ (hk.trans_lt hk₂)).evaluate q).result = .ok v) ∧
        ∃ w, ((r.withWidth k₂ hk₂).evaluate q).result = .ok w) ∧
      ∀ v w, ((r.withWidth k₁ (hk.trans_lt hk₂)).evaluate q).result = .ok v →
        ((r.withWidth k₂ hk₂).evaluate q).result = .ok w →
          ∀ e : EntityId, e.index < r.model.entityCount →
            ∃ p p', v.degree? e = some p ∧ w.degree? e = some p' ∧ p ≤ p' := by
  constructor
  · intro laws
    exact ⟨exists_answer laws r hm k₁ hwf, exists_answer laws r hm k₂ hwf⟩
  · intro v w hv hw e he
    have hrel := Model.evaluate_relates_wider (s := (r.withWidth k₁ (hk.trans_lt hk₂)).settings)
      hm hrows hk hq
    exact Model.degree_le_of_relates hrel hv hw he

theorem evaluate_le_wider_swap :
    ∃ v w, (@evaluate Elementary.steep (swap.withWidth 0 Nat.zero_lt_two) .fromEither).result =
        .ok v ∧
      (@evaluate Elementary.steep (swap.withWidth 1 Nat.one_lt_two) .fromEither).result = .ok w ∧
      ∃ p p', v.degree? ⟨1⟩ = some p ∧ w.degree? ⟨1⟩ = some p' ∧ p ≤ p' := by
  obtain ⟨hanswers, hle⟩ := @evaluate_le_wider Elementary.steep .swap Model.wellShaped_swap
    (Model.wellShaped_swap.rowwise rfl) 0 1 zero_le_one Nat.one_lt_two .fromEither
    (Query.wellFormed_fromEither le_rfl) (Query.positive_fromEither Query.beamless_either)
  obtain ⟨⟨v, hv⟩, w, hw⟩ := hanswers Elementary.bounded_steep
  exact ⟨v, w, hv, hw, hle v w hv hw ⟨1⟩ Nat.one_lt_two⟩

/-- A beam of one entity leads further than a beam of two, which are sent on together. -/
theorem evaluate_above_wider_aloneOnly :
    aloneOnly.model.WellShaped ∧
      Query.fromEither.WellFormed aloneOnly.model.entityCount aloneOnly.model.relationCount ∧
      Query.fromEither.Positive QueryOver.Beamless ∧
      ∃ (h₁ : 1 < aloneOnly.model.entityCount) (h₂ : 2 < aloneOnly.model.entityCount),
        ∃ v w p p',
          (@evaluate Elementary.steep (aloneOnly.withWidth 1 h₁) .fromEither).result = .ok v ∧
          (@evaluate Elementary.steep (aloneOnly.withWidth 2 h₂) .fromEither).result = .ok w ∧
          v.degree? ⟨0⟩ = some p ∧ w.degree? ⟨0⟩ = some p' ∧ p' < p := by
  have hone : (@Model.evaluate Elementary.steep .aloneOnly { aloneOnly.settings with width := 1 }
      .fromEither).result.map (·.degrees) = .ok [1, 1, 1] := by decide +kernel
  have htwo : (@Model.evaluate Elementary.steep .aloneOnly { aloneOnly.settings with width := 2 }
      .fromEither).result.map (·.degrees) = .ok [0, 0, 0] := by decide +kernel
  obtain ⟨v, hv, hp⟩ := except_map_eq_ok_iff.1 hone
  obtain ⟨w, hw, hp'⟩ := except_map_eq_ok_iff.1 htwo
  exact ⟨Model.wellShaped_aloneOnly, Query.wellFormed_fromEither (by decide),
    Query.positive_fromEither Query.beamless_either, by decide, by decide, v, w, 1, 0, hv, hw,
    congrArg (·[0]?) hp, congrArg (·[0]?) hp', by decide +kernel⟩

end Reasoner

end MultiHop
