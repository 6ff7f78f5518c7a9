/-
MultiHop/Proofs/Query/Blame.lean

Which errors come before the model is called.  Settings, sizes, tag, payload and names are
checked first, so an error of these is raised without a call.  But the kind of error that
stands for them, `ErrorKind.configuration`, is also what every error is that is neither a
failed look-up nor a refused number, and a reply of the model may end in such an error:

    m.Fails call e

says that the reply to `call` is `e` itself, or has the wrong size, and that `e` says so.
Nothing else is of this kind once the model has been called: the other errors of an evaluation
are of look-ups and of numbers, and a bound query has no connective without operands.  Hence a
configuration error comes before every call, or it is the fault of the last one.

Main result: `Model.configuration_error_blames`.
-/
import MultiHop.Proofs.Query.Agreement

namespace MultiHop

open Consult

/-! ### Errors of other kinds -/

/-- The error is not of the configuration. -/
def GraphError.Elsewhere (e : GraphError) : Prop :=
  (QueryError.graph e).kind ≠ .configuration

theorem GraphError.elsewhere_of_isLookup {e : GraphError} (h : e.isLookup = true) :
    e.Elsewhere := by
  have hkind : (QueryError.graph e).kind = .lookup := if_pos h
  unfold Elsewhere
  rw [hkind]
  decide

theorem GraphError.elsewhere_notProbability (x : Float32) : (notProbability x).Elsewhere := by
  have hkind : (QueryError.graph (notProbability x)).kind = .numeric := rfl
  unfold Elsewhere
  rw [hkind]
  decide

/-- A vector is only refused because of a number. -/
theorem FuzzySet.elsewhere_of_ofDegrees {xs : List Float32} {e : GraphError}
    (h : ofDegrees xs = .error e) : e.Elsewhere := by
  obtain ⟨x, -, -, rfl⟩ := exists_of_ofDegrees_eq_error h
  exact GraphError.elsewhere_notProbability x

/-- The fault is no configuration error. -/
def Fault.Elsewhere (f : Fault QueryError) : Prop :=
  ∀ e, f = .error e → e.kind ≠ .configuration

/-! ### Replies that fail -/

/-- The reply of the model to a call within range is the error `e`, or it has not the size that
was asked for, and `e` says so. -/
inductive Model.Fails (m : Model) : Call → GraphError → Prop
  | tails (h : EntityId) (r : RelationId) (e : GraphError) :
    h.index < m.entityCount → r.index < m.relationCount → m.tails h r = .error e →
      Fails m (.tails h r) e
  | replyLength (h : EntityId) (r : RelationId) (row : List Float32) :
    h.index < m.entityCount → r.index < m.relationCount → m.tails h r = .ok row →
      row.length ≠ m.entityCount →
        Fails m (.tails h r) (.invalid (.replyLength row.length m.entityCount))
  | batch (reply : List EntityId → RelationId → Except GraphError Batch) (heads : List EntityId)
    (r : RelationId) (e : GraphError) :
    m.ownBatch = some reply → (∀ h ∈ heads, h.index < m.entityCount) →
      r.index < m.relationCount → reply heads r = .error e → Fails m (.batch heads r) e
  | batchShape (reply : List EntityId → RelationId → Except GraphError Batch)
    (heads : List EntityId) (r : RelationId) (b : Batch) :
    m.ownBatch = some reply → (∀ h ∈ heads, h.index < m.entityCount) →
      r.index < m.relationCount → reply heads r = .ok b →
        ¬ (b.rows.length = heads.length ∧ b.columns = m.entityCount) →
          Fails m (.batch heads r)
            (.invalid (.batchShape b.rows.length b.columns heads.length m.entityCount))

/-- A model that replies properly within range never fails. -/
theorem Model.Replies.not_fails {m : Model} {P : EntityId → RelationId → List Float32 → Prop}
    (hm : m.Replies P) {call : Call} {e : GraphError} : ¬ m.Fails call e := by
  intro h
  cases h with
  | tails h r e hh hr herr =>
    obtain ⟨row, hrow, -⟩ := hm.tails h r hh hr
    rw [herr] at hrow
    cases hrow
  | replyLength h r row hh hr hrow hlen =>
    obtain ⟨row', hrow', hlen', -⟩ := hm.tails h r hh hr
    rw [hrow] at hrow'
    cases hrow'
    exact hlen hlen'
  | batch reply heads r e hown hh hr herr =>
    obtain ⟨b, hb, -⟩ := hm.batch reply hown heads r hh hr
    rw [herr] at hb
    cases hb
  | batchShape reply heads r b hown hh hr hb hshape =>
    obtain ⟨b', hb', hcolumns, hrows⟩ := hm.batch reply hown heads r hh hr
    rw [hb] at hb'
    cases hb'
    exact hshape ⟨hrows.length_eq.symm, hcolumns⟩

/-! ### Hops -/

namespace Model

variable {m : Model} {h : EntityId} {r : RelationId} {heads : List EntityId}
  {C : Call → GraphError → Prop}

theorem checkEntity_blames : (ofExcept (m.checkEntity h)).Blames GraphError.Elsewhere C := by
  refine blames_ofExcept fun e he => ?_
  obtain ⟨-, rfl⟩ := checkEntity_ends.of_error (x := .ofExcept (m.checkEntity h)) he
  exact GraphError.elsewhere_of_isLookup rfl

theorem checkRelation_blames : (ofExcept (m.checkRelation r)).Blames GraphError.Elsewhere C := by
  refine blames_ofExcept fun e he => ?_
  obtain ⟨-, rfl⟩ := checkRelation_ends.of_error (x := .ofExcept (m.checkRelation r)) he
  exact GraphError.elsewhere_of_isLookup rfl

theorem forM_checkEntity_blames :
    (ofExcept (heads.forM m.checkEntity)).Blames GraphError.Elsewhere C := by
  induction heads with
  | nil => exact blames_pure
  | cons h heads ih =>
    show (ofExcept (m.checkEntity h >>= fun _ => heads.forM m.checkEntity)).Blames _ _
    rw [ofExcept_bind]
    exact checkEntity_blames.bind fun _ _ => ih

/-- A reply to a request for tails is to blame for an error that says that it is too short or
too long. -/
theorem askTails_blames {α : Type} {f : List Float32 → Consult GraphError α}
    (hh : h.index < m.entityCount) (hr : r.index < m.relationCount)
    (hf : ∀ row, (f row).usage = .nothing)
    (herror : ∀ row e, (f row).result = .error e →
      row.length ≠ m.entityCount ∧ e = .invalid (.replyLength row.length m.entityCount)) :
    (m.askTails h r >>= f).Blames GraphError.Elsewhere m.Fails := by
  refine blames_asking hf (fun e he => .inr (.tails h r e hh hr he)) fun row e hrow he => ?_
  obtain ⟨hlen, rfl⟩ := herror row e he
  exact .inr (.replyLength h r row hh hr hrow hlen)

theorem hopLogits_blames : (m.hopLogits h r).Blames GraphError.Elsewhere m.Fails := by
  refine checkEntity_blames.bind fun _ hh => checkRelation_blames.bind fun _ hr => ?_
  have hh := checkEntity_ends.of_ok hh
  have hr := checkRelation_ends.of_ok hr
  refine Blames.bind nofun fun _ _ => ?_
  refine askTails_blames hh hr (fun row => ?_) fun row e he => ?_
  · split <;> rfl
  · split at he
    · cases he
    · next hlen =>
      cases he
      exact ⟨hlen, rfl⟩

theorem askRow_blames (hh : h.index < m.entityCount) (hr : r.index < m.relationCount) :
    (m.askRow r h).Blames GraphError.Elsewhere m.Fails := by
  refine askTails_blames hh hr (fun row => ?_) fun row e he => ?_
  · split <;> rfl
  · split at he
    · cases he
    · next hlen =>
      cases he
      exact ⟨hlen, rfl⟩

/-- Rows that are asked for one by one make a batch of the right shape. -/
theorem mapM_askRow_ends : (heads.mapM (m.askRow r)).Ends
    (fun rows => rows.length = heads.length) fun _ => True := by
  refine (ends_mapM (S := fun _ _ => True) fun h _ => ends_trivial).mono (fun rows hrows => ?_)
    fun _ _ => trivial
  exact hrows.length_eq.symm

variable [Elementary]

theorem mapM_ofLogits_blames {rows : List (List Float32)} :
    (ofExcept (rows.mapM FuzzySet.ofLogits)).Blames GraphError.Elsewhere C := by
  rw [ofExcept_mapM]
  refine blames_mapM fun row _ => blames_ofExcept fun e he => ?_
  exact FuzzySet.elsewhere_of_ofDegrees he

theorem hop_blames : (m.hop h r).Blames GraphError.Elsewhere m.Fails := by
  refine hopLogits_blames.bind fun row _ => blames_ofExcept fun e he => ?_
  exact FuzzySet.elsewhere_of_ofDegrees he

/-- **Several hops** blame the reply to the whole batch, or that to one of its rows. -/
theorem hops_blame : (m.hops heads r).Blames GraphError.Elsewhere m.Fails := by
  refine forM_checkEntity_blames.bind fun _ hh => checkRelation_blames.bind fun _ hr => ?_
  have hh := forM_checkEntity_ends.of_ok hh
  have hr := checkRelation_ends.of_ok hr
  refine Blames.bind nofun fun _ _ => ?_
  unfold askBatch
  cases hown : m.ownBatch with
  | some reply =>
    refine blames_asking (fun b => ?_) (fun e he => .inr (.batch reply heads r e hown hh hr he))
      fun b e hb he => ?_
    · split <;> rfl
    · split at he
      · exact (mapM_ofLogits_blames (C := fun _ _ => False) e he).imp id fun ⟨_, _, _, h⟩ => h.elim
      · next hshape =>
        cases he
        exact .inr (.batchShape reply heads r b hown hh hr hb hshape)
  | none =>
    -- each row is checked as it comes, so the shape is right in the end
    refine Blames.bind ?_ fun b hb => ?_
    · refine (blames_mapM fun h hmem => askRow_blames (hh h hmem) hr).bind fun rows _ => ?_
      exact blames_pure
    · obtain ⟨rows, hrows, hbatch⟩ := result_bind_eq_ok_iff.1 hb
      cases hbatch
      have hlen := mapM_askRow_ends.of_ok hrows
      rw [if_pos ⟨(List.length_map _).trans hlen, rfl⟩]
      exact mapM_ofLogits_blames

end Model

/-! ### Evaluation -/

/-- The evaluation stops with an error of the model, or with one of its reply. -/
def Model.Stops (m : Model) (call : Call) (f : Fault QueryError) : Prop :=
  ∃ e, m.Fails call e ∧ f = .error (.graph e)

theorem GraphError.Elsewhere.fault {e : GraphError} (h : e.Elsewhere) :
    Fault.Elsewhere (.error (.graph e)) := by
  intro e' he
  cases he
  exact h

namespace Model

open Evaluation (ofGraph)

variable {m : Model} {s : Settings} {op : Float32 → Float32 → Float32}

theorem ofGraph_blames {α : Type} {x : Consult GraphError α}
    (h : x.Blames GraphError.Elsewhere m.Fails) : (ofGraph x).Blames Fault.Elsewhere m.Stops :=
  Blames.mapError (h.mono (fun _ he => he.fault) fun _ e he => ⟨e, he, rfl⟩)

theorem ofDegrees_blames {xs : List Float32} :
    (ofGraph (.ofExcept (FuzzySet.ofDegrees xs))).Blames Fault.Elsewhere m.Stops :=
  ofGraph_blames (blames_ofExcept fun _ he => FuzzySet.elsewhere_of_ofDegrees he)

/-- A breach is no error at all. -/
theorem breach_blames {α : Type} {r : Except Breach α} :
    (Consult.mapError .breach (.ofExcept r) : Evaluation α).Blames Fault.Elsewhere m.Stops :=
  Blames.mapError (blames_ofExcept fun _ _ => nofun)

variable [Elementary]

theorem beam_blames {b : Beam} {r : RelationId} {t : TNorm} :
    ((b.hop m r t).mapError (Fault.map .graph) : Evaluation FuzzySet).Blames Fault.Elsewhere
      m.Stops := by
  refine Blames.mapError ?_
  unfold Beam.hop
  split
  · exact blames_pure
  · refine Blames.bind (Blames.mapError ?_) fun rows _ => ?_
    · exact hops_blame.mono (fun _ he => he.fault) fun _ e he => ⟨e, he, rfl⟩
    refine Blames.bind (Blames.mapError (blames_ofExcept fun _ _ => nofun)) fun ws _ => ?_
    refine Blames.mapError (blames_ofExcept fun _ he => ?_)
    exact (FuzzySet.elsewhere_of_ofDegrees he).fault

theorem evaluateOn_blames {qs : List Query}
    (h : ∀ q ∈ qs, (m.evaluate s q).Blames Fault.Elsewhere m.Stops) {sofar : List Float32} :
    (m.evaluateOn s op sofar qs).Blames Fault.Elsewhere m.Stops := by
  induction qs generalizing sofar with
  | nil =>
    simp only [evaluateOn]
    exact blames_pure
  | cons q qs ih =>
    obtain ⟨hq, hqs⟩ := List.forall_mem_cons.1 h
    simp only [evaluateOn]
    exact hq.bind fun v _ => breach_blames.bind fun xs _ => ih hqs

theorem evaluateAll_blames {q : Query} {qs : List Query}
    (h : ∀ p ∈ q :: qs, (m.evaluate s p).Blames Fault.Elsewhere m.Stops) :
    (m.evaluateAll s op q qs).Blames Fault.Elsewhere m.Stops := by
  obtain ⟨hq, hqs⟩ := List.forall_mem_cons.1 h
  exact hq.bind fun v _ => (evaluateOn_blames hqs).bind fun xs _ => ofDegrees_blames

/-- **Evaluation raises a configuration error only for a reply of the model**, if every
connective has an operand. -/
theorem evaluate_blames {n k : Nat} {q : Query} (hwf : q.WellFormed n k) :
    (m.evaluate s q).Blames Fault.Elsewhere m.Stops := by
  induction q using QueryOver.induction with
  | entity e =>
    simp only [evaluate]
    refine ofGraph_blames (blames_ofExcept fun err herr => ?_)
    obtain ⟨-, rfl⟩ := FuzzySet.singleton_ends.of_error
      (x := .ofExcept (FuzzySet.singleton m.entityCount e)) herr
    exact GraphError.elsewhere_of_isLookup rfl
  | anchored h r =>
    simp only [evaluate]
    exact ofGraph_blames hop_blames
  | projection q r hne ih =>
    rw [evaluate_projection r hne]
    exact (ih (QueryOver.wellFormed_projection.1 hwf).1).bind fun v _ => beam_blames
  | intersection qs ih =>
    obtain ⟨hne, hqs⟩ := QueryOver.wellFormed_intersection.1 hwf
    cases qs with
    | nil => exact absurd rfl hne
    | cons q qs =>
      rw [evaluate_intersection]
      exact evaluateAll_blames fun p hp => ih p hp (hqs p hp)
  | union qs ih =>
    obtain ⟨hne, hqs⟩ := QueryOver.wellFormed_union.1 hwf
    cases qs with
    | nil => exact absurd rfl hne
    | cons q qs =>
      rw [evaluate_union]
      exact evaluateAll_blames fun p hp => ih p hp (hqs p hp)
  | negation q ih =>
    simp only [evaluate]
    exact (ih (QueryOver.wellFormed_negation.1 hwf)).bind fun v _ => ofDegrees_blames

end Model

/-! ### Answers -/

/-- A payload is bound to a well-formed query. -/
theorem Query.wellFormed_of_ofPayload {kind : QueryKind} {payload : Payload} {index : Index}
    {q : Query} (h : ofPayload kind payload index = .ok q) :
    q.WellFormed index.entityCount index.relationCount := by
  obtain ⟨hmissing, hbound⟩ := ofPayload_of_conforms index (ofPayload_eq_ok h).1
  cases hnone : (payload.slots kind.shape).findSome? index.missing with
  | some e =>
    rw [hmissing e hnone] at h
    cases h
  | none =>
    obtain ⟨q', hq', hwf⟩ := hbound hnone
    rw [h] at hq'
    cases hq'
    exact hwf

namespace Reasoner

variable {r : Reasoner} {tag : String} {payload : Payload} {q : Query}

/-- A reasoner that is set up holds what it is set up from. -/
theorem new_eq_ok {model : Model} {index : Index} {settings : Settings}
    (h : new model index settings = .ok r) :
    r.model = model ∧ r.index = index ∧ r.settings = settings := by
  unfold new at h
  split at h
  · cases h
  · split at h
    · cases h
      exact ⟨rfl, rfl, rfl⟩
    · cases h

theorem wellFormed_of_query (h : r.query tag payload = .ok q) :
    q.WellFormed r.index.entityCount r.index.relationCount := by
  obtain ⟨kind, -, hq⟩ := except_bind_eq_ok_iff.1 h
  exact Query.wellFormed_of_ofPayload hq

variable [Elementary]

theorem rankedAnswers_blames (hwf : q.WellFormed r.index.entityCount r.index.relationCount) :
    (r.rankedAnswers q).Blames Fault.Elsewhere r.model.Stops := by
  refine (Model.evaluate_blames hwf).bind fun v hv => ?_
  obtain ⟨answers, hanswers, -⟩ := rankedAnswers_of_evaluate hv
  rw [hanswers]
  exact blames_pure

theorem answer_blames (hq : r.query tag payload = .ok q) :
    (r.answer tag payload).Blames Fault.Elsewhere r.model.Stops := by
  have hwf := wellFormed_of_query hq
  unfold answer
  rw [hq]
  refine Blames.bind nofun fun q' hq' => ?_
  cases hq'
  split
  · exact (Model.evaluate_blames hwf).bind fun v _ => blames_pure
  · exact (rankedAnswers_blames hwf).bind fun answers _ => blames_pure

end Reasoner

namespace Model

variable [Elementary] {model : Model} {index : Index} {tag : String} {payload : Payload}
  {settings : Settings} {e : QueryError}

/-- What an error of the configuration comes after: nothing, or a reply that fails. -/
theorem calls_of_configuration_error
    (he : (model.answer index tag payload settings).result = .error (.error e))
    (hkind : e.kind = .configuration) :
    (model.answer index tag payload settings).usage.calls = [] ∨
      ∃ before call cause,
        (model.answer index tag payload settings).usage.calls = before ++ [call] ∧
          model.Fails call cause ∧ e = .graph cause := by
  cases hnew : Reasoner.new model index settings with
  | error e' =>
    rw [answer_of_new_error hnew]
    exact .inl rfl
  | ok r =>
    obtain ⟨rfl, rfl, rfl⟩ := Reasoner.new_eq_ok hnew
    rw [answer_eq] at he ⊢
    cases hq : r.query tag payload with
    | error e' =>
      rw [Reasoner.answer_of_query_error hq]
      exact .inl rfl
    | ok q =>
      rcases Reasoner.answer_blames hq _ he with helse | ⟨before, call, hcalls, hstops⟩
      · exact absurd hkind (helse e rfl)
      · obtain ⟨cause, hfails, heq⟩ := hstops
        cases heq
        exact .inr ⟨before, call, cause, hcalls, hfails, rfl⟩

/-- **A configuration error comes before every call, or the last call is to blame for it**:
then the reply to that call is this error, or it has the wrong size and the error says so.
A model that replies within range with one number per entity has not been called when there
is a configuration error. -/
theorem configuration_error_blames (model : Model) (index : Index) (tag : String)
    (payload : Payload) (settings : Settings) :
    (∀ e, (model.answer index tag payload settings).result = .error (.error e) →
      e.kind = .configuration →
        (model.answer index tag payload settings).usage.calls = [] ∨
          ∃ before call cause,
            (model.answer index tag payload settings).usage.calls = before ++ [call] ∧
              model.Fails call cause ∧ e = .graph cause) ∧
    ((model.Replies fun _ _ _ => True) →
      ∀ e, (model.answer index tag payload settings).result = .error (.error e) →
        e.kind = .configuration →
          (model.answer index tag payload settings).usage.calls = []) := by
  refine ⟨fun e he hkind => calls_of_configuration_error he hkind, fun hm e he hkind => ?_⟩
  rcases calls_of_configuration_error he hkind with hnone | ⟨_, call, cause, -, hfails, -⟩
  · exact hnone
  · exact absurd hfails hm.not_fails

omit [Elementary] in
theorem configuration_error_blames_swap :
    (@answer Elementary.steep .swap Reasoner.swap.index "4p" (.name "left")
      Reasoner.swap.settings).usage.calls = [] :=
  (@configuration_error_blames Elementary.steep .swap Reasoner.swap.index "4p" (.name "left")
    Reasoner.swap.settings).2 (wellShaped_swap.mono fun _ _ _ _ _ => trivial)
    (.unknownKind "4p") rfl rfl

/-- Two entities, and rows of one number. -/
def shortRow : Model where
  entityCount := 2
  relationCount := 1
  tails _ _ := .ok [0]
  triple _ _ _ := .ok 0

omit [Elementary] in
/-- A row that is too short is a configuration error, after the call that it replies to. -/
theorem configuration_error_shortRow :
    ∃ e, (@answer Elementary.steep .shortRow Reasoner.swap.index "1p"
        (.tuple [.name "left", .tuple [.name "other"]]) Reasoner.swap.settings).result =
          .error (.error e) ∧
      e.kind = .configuration ∧
      (@answer Elementary.steep .shortRow Reasoner.swap.index "1p"
        (.tuple [.name "left", .tuple [.name "other"]]) Reasoner.swap.settings).usage.calls =
          [.tails ⟨0⟩ ⟨0⟩] :=
  ⟨.graph (.invalid (.replyLength 1 2)), by decide +kernel, rfl, by decide +kernel⟩

end Model

end MultiHop
