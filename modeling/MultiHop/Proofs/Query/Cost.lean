/-
MultiHop/Proofs/Query/Cost.lean

What an evaluation asks of the model.  A hop from an anchor is one prediction, and a hop
through a beam is one for each entity of the beam.  A beam is sent on only after its source
has an answer, which covers every entity; and a reasoner's beams are narrower than the
graph, so a beam always holds as many entities as it may.  An evaluation with an answer
therefore asks for an exact number of predictions, and one without an answer stops early
and asks for no more (`Reasoner.evaluate_cost`).

The count is taken by a gauge, so that one induction serves both the predictions that are
issued and, for a model without a way of its own to score batches, the calls that the model
receives.

A session counts on from request to request.  It never forgets what it has asked for, and it
counts each request as if this were the only one (`Reasoner.used_after`), so the price of an
evaluation does not depend on the history before it.
-/
import Mathlib.Data.List.Induction
import MultiHop.Proofs.Query.Evaluation

namespace MultiHop

open Consult

/-- The call is for all tails of a head. -/
def Call.isTails : Call → Bool
  | .tails _ _ => true
  | _ => false

theorem Call.isTails_iff {c : Call} : c.isTails = true ↔ ∃ h r, c = .tails h r := by
  cases c with
  | tails h r => exact ⟨fun _ => ⟨h, r, rfl⟩, fun _ => rfl⟩
  | _ => exact ⟨nofun, fun ⟨_, _, h⟩ => nomatch h⟩

/-! ### Hops -/

namespace Model

variable {m : Model} {g : Gauge} {h : EntityId} {r : RelationId} {heads : List EntityId}

theorem hopLogits_costs :
    (m.hopLogits h r).Costs g (g.read ⟨[], 1⟩ + g.read ⟨[.tails h r], 0⟩) := by
  have hrow : ∀ row : List Float32, (if row.length = m.entityCount then Pure.pure row
      else fail (.invalid (.replyLength row.length m.entityCount)) :
        Consult GraphError (List Float32)).Costs g 0 := by
    intro row
    split
    · exact costs_pure
    · exact costs_fail
  refine (costs_ofExcept.bind fun _ _ => costs_ofExcept.bind fun _ _ =>
    costs_issuing.bind fun _ _ => costs_asking.bind fun row _ => hrow row).of_eq ?_
  omega

theorem askRow_costs : (m.askRow r h).Costs g (g.read ⟨[.tails h r], 0⟩) := by
  refine (costs_asking.bind fun row _ => ?_).of_eq (Nat.add_zero _)
  split
  · exact costs_pure
  · exact costs_fail

/-- Scored head by head, a batch costs the same for each of its heads. -/
theorem askBatch_costs {n : Nat} (hown : m.ownBatch = none)
    (hn : ∀ h, g.read ⟨[.tails h r], 0⟩ = n) :
    (m.askBatch heads r).Costs g (heads.length * n) := by
  unfold askBatch
  rw [hown]
  exact (costs_mapM fun h _ => askRow_costs.of_eq (hn h)).bind fun _ _ => costs_pure

variable [Elementary]

/-- As the gauge counts it, a hop costs one for each of its heads. -/
structure Charges (m : Model) (g : Gauge) : Prop where
  hop (h : EntityId) (r : RelationId) : (m.hop h r).Costs g 1
  hops (heads : List EntityId) (r : RelationId) : (m.hops heads r).Costs g heads.length

theorem hop_costs : (m.hop h r).Costs g (g.read ⟨[], 1⟩ + g.read ⟨[.tails h r], 0⟩) :=
  hopLogits_costs.bind fun _ _ => costs_ofExcept

theorem hops_cost {n : Nat} (hbatch : (m.askBatch heads r).Costs g n) :
    (m.hops heads r).Costs g (g.read ⟨[], heads.length⟩ + n) := by
  have hrows : ∀ batch : Batch, (if batch.rows.length = heads.length ∧
      batch.columns = m.entityCount then ofExcept (batch.rows.mapM FuzzySet.ofLogits)
      else fail (.invalid (.batchShape batch.rows.length batch.columns heads.length
        m.entityCount)) : Consult GraphError (List FuzzySet)).Costs g 0 := by
    intro batch
    split
    · exact costs_ofExcept
    · exact costs_fail
  refine (costs_ofExcept.bind fun _ _ => costs_ofExcept.bind fun _ _ =>
    costs_issuing.bind fun _ _ => hbatch.bind fun batch _ => hrows batch).of_eq ?_
  omega

/-- One prediction is issued for each head, whatever way the model has to score batches. -/
theorem charges_predictions (m : Model) : m.Charges .predictions where
  hop _ _ := hop_costs
  hops heads r := by
    have hbatch : (m.askBatch heads r).Costs .predictions 0 := by
      cases hown : m.ownBatch with
      | some reply =>
        unfold askBatch
        rw [hown]
        exact costs_asking
      | none => exact askBatch_costs (n := 0) hown fun _ => rfl
    exact hops_cost hbatch

/-- A model without a way of its own to score batches receives one call for each head. -/
theorem charges_calls (hown : m.ownBatch = none) {P : Call → Bool}
    (hP : ∀ h r, P (.tails h r) = true) : m.Charges (.calls P) where
  hop h r := by
    refine hop_costs.of_eq ?_
    show 0 + [Call.tails h r].countP P = 1
    rw [List.countP_cons_of_pos (hP h r), List.countP_nil]
  hops heads r := by
    have hcall : ∀ h, [Call.tails h r].countP P = 1 := by
      intro h
      rw [List.countP_cons_of_pos (hP h r), List.countP_nil]
    have hbatch : (m.askBatch heads r).Costs (.calls P) (heads.length * 1) :=
      askBatch_costs hown hcall
    exact (hops_cost hbatch).of_eq ((Nat.zero_add _).trans (Nat.mul_one _))

end Model

/-- A beam costs one for each of its entities. -/
theorem Beam.hop_costs [Elementary] {b : Beam} {m : Model} {r : RelationId} {t : TNorm}
    {g : Gauge} (hm : m.Charges g) : (b.hop m r t).Costs g b.entries.length := by
  unfold hop
  split
  · next hempty =>
    rw [List.isEmpty_iff.1 hempty]
    exact costs_pure
  · refine ((hm.hops b.entities r).mapError.bind fun _ _ => costs_ofExcept.mapError.bind
      fun _ _ => costs_ofExcept.mapError).of_eq ?_
    rw [Nat.add_zero]
    exact List.length_map _

/-! ### Queries -/

namespace QueryOver

variable {E R : Type}

/-- What hops cost with beams of the given width. -/
def costOf (width : Nat) (hops : List (HopSource × R)) : Nat :=
  (hops.countP fun hop => hop.1 == .anchor) + width * hops.countP fun hop => hop.1 == .beam

/-- What the hops of a query cost with beams of the given width. -/
def cost (width : Nat) (q : QueryOver E R) : Nat :=
  q.hopsFrom .anchor + width * q.hopsFrom .beam

theorem cost_eq (width : Nat) (q : QueryOver E R) : q.cost width = costOf width q.relations :=
  rfl

theorem costOf_append (width : Nat) (a b : List (HopSource × R)) :
    costOf width (a ++ b) = costOf width a + costOf width b := by
  simp only [costOf, List.countP_append, Nat.mul_add]
  omega

end QueryOver

namespace Model

open QueryOver

variable [Elementary] {m : Model} {s : Settings} {g : Gauge}

theorem evaluateOn_costs {op : Float32 → Float32 → Float32} {sofar : List Float32}
    {qs : List Query} (h : ∀ q ∈ qs, (m.evaluate s q).Costs g (q.cost s.width)) :
    (m.evaluateOn s op sofar qs).Costs g (costOf s.width (relationsAll qs)) := by
  induction qs generalizing sofar with
  | nil =>
    simp only [evaluateOn, relationsAll]
    exact costs_pure
  | cons q qs ih =>
    obtain ⟨hq, hqs⟩ := List.forall_mem_cons.1 h
    simp only [evaluateOn, relationsAll]
    refine (hq.bind fun _ _ => costs_ofExcept.mapError.bind fun _ _ => ih hqs).of_eq ?_
    rw [costOf_append, Nat.zero_add]
    rfl

theorem evaluateAll_costs {op : Float32 → Float32 → Float32} {q : Query} {qs : List Query}
    (h : ∀ p ∈ q :: qs, (m.evaluate s p).Costs g (p.cost s.width)) :
    (m.evaluateAll s op q qs).Costs g (costOf s.width (relationsAll (q :: qs))) := by
  obtain ⟨hq, hqs⟩ := List.forall_mem_cons.1 h
  refine (hq.bind fun _ _ => (evaluateOn_costs hqs).bind fun _ _ =>
    costs_ofExcept.mapError).of_eq ?_
  rw [relationsAll, costOf_append]
  rfl

/-- **Every hop of a query is paid for once.** -/
theorem evaluate_costs (hm : m.Charges g) (hs : s.width ≤ m.entityCount) (q : Query) :
    (m.evaluate s q).Costs g (q.cost s.width) := by
  induction q using QueryOver.induction with
  | entity e =>
    simp only [evaluate, cost_eq, QueryOver.relations]
    exact costs_ofExcept.mapError
  | anchored h r =>
    simp only [evaluate, cost_eq, QueryOver.relations]
    refine (hm.hop h r).mapError.of_eq ?_
    simp [costOf]
  | projection q r hq ih =>
    rw [evaluate_projection r hq, cost_eq, relations_projection r hq, costOf_append]
    refine ih.bind fun source hsource => Costs.mapError ?_
    -- the source covers every entity, so the beam is as wide as it may be
    have hsize := (m.evaluate_covers s q).of_ok hsource
    refine (Beam.hop_costs hm).of_eq ?_
    rw [Beam.length_entries_ofSet, hsize, Nat.min_eq_left hs]
    simp [costOf]
  | intersection qs ih =>
    cases qs with
    | nil => exact costs_fail
    | cons q qs =>
      rw [evaluate_intersection, cost_eq, QueryOver.relations]
      exact evaluateAll_costs ih
  | union qs ih =>
    cases qs with
    | nil => exact costs_fail
    | cons q qs =>
      rw [evaluate_union, cost_eq, QueryOver.relations]
      exact evaluateAll_costs ih
  | negation q ih =>
    simp only [evaluate, cost_eq, QueryOver.relations]
    exact (ih.bind fun _ _ => costs_ofExcept.mapError).of_eq (Nat.add_zero _)

end Model

/-! ### Histories -/

namespace Reasoner

variable [Elementary]

/-- What one request makes a reasoner ask of its model. -/
def Request.usage (r : Reasoner) : Request → Usage
  | .evaluate q => (r.evaluate q).usage
  | .degree q e => (r.degree q e).usage
  | .best q k => (r.best q k).usage
  | .answer tag payload => (r.answer tag payload).usage

theorem Session.reasoner_serve (s : Session) (request : Request) :
    (s.serve request).reasoner = s.reasoner := by
  cases request <;> rfl

/-- Every request is counted, also one without an answer. -/
theorem Session.used_serve (s : Session) (request : Request) :
    (s.serve request).used = s.used ++ request.usage s.reasoner := by
  cases request <;> rfl

theorem after_concat (r : Reasoner) (history : List Request) (request : Request) :
    r.after (history ++ [request]) = (r.after history).serve request := by
  simp only [after, List.foldl_append, List.foldl_cons, List.foldl_nil]

theorem reasoner_after (r : Reasoner) (history : List Request) :
    (r.after history).reasoner = r := by
  induction history using List.reverseRecOn with
  | nil => rfl
  | append_singleton history request ih => rw [after_concat, Session.reasoner_serve, ih]

/-- **What a session has counted is the sum over its history.** -/
theorem used_after (r : Reasoner) (history : List Request) :
    (r.after history).used =
      history.foldl (fun used request => used ++ request.usage r) .nothing := by
  induction history using List.reverseRecOn with
  | nil => rfl
  | append_singleton history request ih =>
    rw [after_concat, Session.used_serve, reasoner_after, ih, List.foldl_append,
      List.foldl_cons, List.foldl_nil]

/-- A history has no influence on an answer, and is counted on from. -/
theorem evaluate_after (r : Reasoner) (history : List Request) (q : Query) :
    (r.after history).evaluate q =
      ((r.evaluate q).result, ⟨r, (r.after history).used ++ (r.evaluate q).usage⟩) := by
  show (((r.after history).reasoner.evaluate q).result, (⟨_, _⟩ : Session)) = _
  rw [reasoner_after]

omit [Elementary] in
theorem width_lt (r : Reasoner) : r.settings.width < r.model.entityCount := by
  rw [r.entities_eq]
  exact (Settings.validate_eq_ok_iff.1 r.usable).1

/-- **The exact price of an evaluation**, after any history.  An evaluation with an answer
issues one prediction for each hop from an anchor, and as many as beams are wide for each
other hop; and if the model scores batches head by head, it receives this number of calls,
all of them for the tails of a head.  Without an answer no more predictions are issued. -/
theorem evaluate_cost (r : Reasoner) (history : List Request) (q : Query) :
    q.hopsFrom .anchor + q.hopsFrom .beam = q.hops ∧
    ((r.after history).evaluate q).2.used.predictions ≤ (r.after history).used.predictions +
      (q.hopsFrom .anchor + r.settings.width * q.hopsFrom .beam) ∧
    ∀ v, ((r.after history).evaluate q).1 = .ok v →
      ((r.after history).evaluate q).2.used.predictions =
        (r.after history).used.predictions +
          (q.hopsFrom .anchor + r.settings.width * q.hopsFrom .beam) ∧
      (r.model.ownBatch = none → ∃ calls,
        ((r.after history).evaluate q).2.used.calls = (r.after history).used.calls ++ calls ∧
        calls.length = q.hopsFrom .anchor + r.settings.width * q.hopsFrom .beam ∧
        ∀ c ∈ calls, ∃ h rel, c = .tails h rel) := by
  have hwidth := r.width_lt.le
  have hpredictions := Model.evaluate_costs r.model.charges_predictions hwidth q
  rw [evaluate_after]
  refine ⟨q.hopsFrom_add_hopsFrom, Nat.add_le_add_left hpredictions.le _, fun v hv =>
    ⟨congrArg _ (hpredictions.eq v hv), fun hown => ⟨(r.evaluate q).usage.calls, rfl, ?_⟩⟩⟩
  -- as many calls as there are in all are calls for tails
  have hall := (Model.evaluate_costs (Model.charges_calls (P := fun _ => true) hown
    fun _ _ => rfl) hwidth q).eq v hv
  have htails := (Model.evaluate_costs (Model.charges_calls (P := Call.isTails) hown
    fun _ _ => rfl) hwidth q).eq v hv
  have hlength : (r.evaluate q).usage.calls.length = q.cost r.settings.width :=
    (congrFun List.countP_true _).symm.trans hall
  refine ⟨hlength, fun c hc => Call.isTails_iff.1 ?_⟩
  exact List.countP_eq_length.1 (htails.trans hlength.symm) c hc

end Reasoner

end MultiHop
