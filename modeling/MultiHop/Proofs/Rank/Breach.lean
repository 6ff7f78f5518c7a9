/-
MultiHop/Proofs/Rank/Breach.lean

When an evaluation breaks off.  The position of a true entity is checked against the number of
entities that the model covers, but it is looked up in what the model replies, and nothing
promises that the reply is as long.  So an evaluation breaks off at the first entity to be
ranked whose row ends before it, and only there (`KnownFacts.breaks_off_iff`).

Triples are ranked one after the other, each at its tail and then at its head.  As a list of
`turns` this is a single traversal (`KnownFacts.ranks_eq_mapM`), which fails as its first
failing member does (`mapM_eq_error_iff`).
-/
import MultiHop.Proofs.Rank.KnownFacts

namespace MultiHop

open Consult

/-- The ends of a triple that are ranked, for one triple after the other: the tail comes first. -/
def turns (ts : List Triple) : List (Triple × Place) := ts.flatMap fun t => [(t, .tail), (t, .head)]

/-- Heads that are scored triple by triple are scored completely. -/
theorem Model.length_of_askHeads {m : Model} (hm : m.ownHeads = none) {r : RelationId}
    {e : EntityId} {row : List Float32} (hrow : (m.askHeads r e).result = .ok row) :
    row.length = m.entityCount := by
  rw [askHeads, hm] at hrow
  have hall := mapM_eq_ok_iff.1 hrow
  rw [← hall.length_eq, entities, List.length_map, List.length_range]

namespace KnownFacts

variable {facts : KnownFacts} {m : Model} {t : Triple} {filtered : Bool} {place : Place}
  {row : List Float32} {b : Breach}

/-! ### A single rank -/

theorem rankAt_eq_error_iff {position : Nat} {counts : EntityId → Bool} :
    rankAt row position counts = .error b ↔
      row.length ≤ position ∧ b = .noEntry position row.length := by
  unfold rankAt
  cases h : row[position]? with
  | none =>
    have hle := List.getElem?_eq_none_iff.1 h
    simp only [Except.error.injEq, hle, true_and, eq_comm]
  | some x =>
    have hlt := (List.getElem?_eq_some_iff.1 h).1
    simp only [reduceCtorEq, false_iff, not_and]
    omega

theorem inRange_of_check (h : check m t = .ok ()) : t.InRange m := by
  unfold check at h
  obtain ⟨_, hhead, h⟩ := except_bind_eq_ok_iff.1 h
  obtain ⟨_, htail, hrelation⟩ := except_bind_eq_ok_iff.1 h
  unfold Model.checkEntity at hhead htail
  unfold Model.checkRelation at hrelation
  split_ifs at hhead htail hrelation with hheadLt htailLt hrelationLt
  exact ⟨hheadLt, hrelationLt, htailLt⟩

/-- The model covers the triple and replies, but the row ends before the entity that is to be
ranked; `b` says where it was looked for and how long the row is. -/
structure RunsOut (m : Model) (t : Triple) (place : Place) (b : Breach) : Prop where
  inRange : t.InRange m
  reply : ∃ row, (m.askPlace t place).result = .ok row ∧
    row.length ≤ (t.entity place).index ∧ b = .noEntry (t.entity place).index row.length

/-- A rank breaks off exactly if the row runs out. -/
theorem rank_eq_breach_iff :
    (facts.rank m t filtered place).result = .error (.breach b) ↔ RunsOut m t place b := by
  rw [rank_eq, result_bind_eq_error_iff]
  simp only [result_mapError_eq_error_iff, result_mapError_eq_ok_iff, reduceCtorEq, and_false,
    exists_false, false_or]
  constructor
  · rintro ⟨row, hrow, b', hb, heq⟩
    cases heq
    obtain ⟨_, hcheck, hrow⟩ := result_bind_eq_ok_iff.1 hrow
    exact ⟨inRange_of_check hcheck, row, hrow, rankAt_eq_error_iff.1 hb⟩
  · rintro ⟨ht, row, hrow, hb⟩
    refine ⟨row, ?_, b, rankAt_eq_error_iff.2 hb, rfl⟩
    rw [check_eq_ok ht]
    exact result_bind_eq_ok_iff.2 ⟨(), rfl, hrow⟩

/-- A complete row does not run out. -/
theorem not_runsOut (hfull : ∀ row, (m.askPlace t place).result = .ok row →
    m.entityCount ≤ row.length) : ¬ RunsOut m t place b := by
  rintro ⟨ht, row, hrow, hle, -⟩
  have hlt := ht.entity place
  have hlen := hfull row hrow
  omega

/-! ### A whole evaluation -/

theorem ranks_eq_mapM (facts : KnownFacts) (m : Model) (filtered : Bool) (ts : List Triple) :
    facts.ranks m filtered ts =
      (turns ts).mapM fun turn => facts.rank m turn.1 filtered turn.2 := by
  induction ts with
  | nil => rfl
  | cons t ts ih =>
    have hturns : turns (t :: ts) = (t, .tail) :: (t, .head) :: turns ts := rfl
    rw [hturns, List.mapM_cons, List.mapM_cons, ← ih]
    simp only [bind_assoc, pure_bind]
    rfl

theorem figures_eq_breach_iff {tests : List Triple} :
    (facts.figures m tests filtered).result = .error (.breach b) ↔
      (facts.ranks m filtered tests).result = .error (.breach b) := by
  cases tests with
  | nil => exact ⟨fun h => (by cases h), fun h => (by cases h)⟩
  | cons t ts =>
    show (facts.ranks m filtered (t :: ts) >>= fun ks => Pure.pure (RankSummary.ofRanks ks)).result =
      _ ↔ _
    rw [result_bind_eq_error_iff, or_iff_left]
    rintro ⟨ks, -, h⟩
    cases h

/-- **An evaluation breaks off exactly where a row runs out.**  A rank does if the reply of the
model ends before the entity that is to be ranked, and an evaluation at the first turn of which
this is true, all turns before it having ranks.  Complete rows never run out, and rows of heads
that the model scores triple by triple are complete. -/
theorem breaks_off_iff (facts : KnownFacts) (m : Model) (filtered : Bool) :
    (∀ t place b, (facts.rank m t filtered place).result = .error (.breach b) ↔
        RunsOut m t place b) ∧
      (∀ tests b, (facts.figures m tests filtered).result = .error (.breach b) ↔
        ∃ before t place after, turns tests = before ++ (t, place) :: after ∧
          (∀ turn ∈ before, ∃ k, (facts.rank m turn.1 filtered turn.2).result = .ok k) ∧
          RunsOut m t place b) ∧
      (∀ t place, (∀ row, (m.askPlace t place).result = .ok row → m.entityCount ≤ row.length) →
        ∀ b, ¬ RunsOut m t place b) ∧
      (m.ownHeads = none → ∀ t b, ¬ RunsOut m t .head b) := by
  refine ⟨fun t place b => rank_eq_breach_iff, fun tests b => ?_,
    fun t place hfull b => not_runsOut hfull, fun hm t b => ?_⟩
  · rw [figures_eq_breach_iff, ranks_eq_mapM, mapM_eq_error_iff]
    simp only [rank_eq_breach_iff, Prod.exists]
  · exact not_runsOut fun row hrow => (Model.length_of_askHeads hm hrow).ge

end KnownFacts

/-- Two entities, and a model that replies with the logit of the first one only. -/
def Model.firstOnly : Model where
  entityCount := 2
  relationCount := 1
  tails _ _ := .ok [0]
  triple _ _ _ := .ok 0

namespace KnownFacts

/-- The model covers the triple, but ranking its tail breaks off, and the evaluation with it. -/
theorem breaks_off_firstOnly :
    Triple.InRange ⟨⟨0⟩, ⟨0⟩, ⟨1⟩⟩ .firstOnly ∧
      (empty.tailRank .firstOnly ⟨⟨0⟩, ⟨0⟩, ⟨1⟩⟩ false).result = .error (.breach (.noEntry 1 1)) ∧
      (empty.figures .firstOnly [⟨⟨0⟩, ⟨0⟩, ⟨1⟩⟩] false).result = .error (.breach (.noEntry 1 1)) :=
  ⟨⟨Nat.zero_lt_two, Nat.zero_lt_one, Nat.one_lt_two⟩, rfl, rfl⟩

end KnownFacts

end MultiHop
