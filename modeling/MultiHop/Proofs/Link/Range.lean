/-
MultiHop/Proofs/Link/Range.lean

Unknown entities and relations in link prediction.  A predictor checks no position itself: it
leaves this to its model, which looks at the positions of each request that it receives.  So an
unknown position is refused exactly if some request with it is made.

A table checks every request (`Model.Guards`).  It is asked for all heads or all relations triple
by triple, and so not at all if there is no candidate (`LinkQuery.Asks`); and a chain asks for
the tails of every entity of its frontier, and so not at all if the frontier is empty.  If some
tail is kept, no frontier of a chain is empty before an unknown relation is met
(`LinkPredictor.follow_refuses`); if none is kept, the frontier after the first hop is.

Main result: `LinkPredictor.refuses_unknown`.
-/
import MultiHop.LogitTable
import MultiHop.Proofs.Link.Chain
import MultiHop.Proofs.Query.Hop

namespace MultiHop

open Consult
open Single (isNaN_neg)

/-! ### Unknown positions -/

/-- The error of a look-up, which names a position that is out of range. -/
def Refusal (entities relations : Nat) (e : GraphError) : Prop :=
  e.isLookup = true ∧ OutOfRange entities relations e

theorem refusal_of_outOfRange {n k : Nat} {e : GraphError} (he : OutOfRange n k e) :
    Refusal n k e := by
  refine ⟨?_, he⟩
  rcases he with ⟨h, -, rfl⟩ | ⟨r, -, rfl⟩
  · rfl
  · rfl

namespace LinkQuery

/-- Some entity or relation of the query is out of range. -/
def Unknown (entities relations : Nat) : LinkQuery → Prop
  | .missingHead r t => relations ≤ r.index ∨ entities ≤ t.index
  | .missingRelation h t => entities ≤ h.index ∨ entities ≤ t.index
  | .missingTail h r => entities ≤ h.index ∨ relations ≤ r.index
  | .triple h r t => entities ≤ h.index ∨ relations ≤ r.index ∨ entities ≤ t.index

/-- Some request is made for the query: candidates that are asked for one by one must exist. -/
def Asks (entities relations : Nat) : LinkQuery → Prop
  | .missingHead _ _ => 0 < entities
  | .missingRelation _ _ => 0 < relations
  | .missingTail _ _ | .triple _ _ _ => True

end LinkQuery

/-! ### Models that check requests -/

/-- The model checks every position of a request, and has no ways of its own.  Otherwise it
replies, and its logits satisfy `P`. -/
structure Model.Guards (m : Model) (P : Float32 → Prop) : Prop where
  tails (h : EntityId) (r : RelationId) : (m.askTails h r).Ends
    (fun row => h.index < m.entityCount ∧ r.index < m.relationCount ∧
      row.length = m.entityCount ∧ ∀ x ∈ row, P x) (Refusal m.entityCount m.relationCount)
  triple (h : EntityId) (r : RelationId) (t : EntityId) : (m.askTriple h r t).Ends
    (fun _ => h.index < m.entityCount ∧ r.index < m.relationCount ∧ t.index < m.entityCount)
    (Refusal m.entityCount m.relationCount)
  ownHeads : m.ownHeads = none
  ownRelations : m.ownRelations = none

theorem Model.Guards.askTriple_fails {m : Model} {P : Float32 → Prop} (hm : m.Guards P)
    {h t : EntityId} {r : RelationId}
    (hout : m.entityCount ≤ h.index ∨ m.relationCount ≤ r.index ∨ m.entityCount ≤ t.index) :
    (m.askTriple h r t).Fails (Refusal m.entityCount m.relationCount) := by
  refine (hm.triple h r t).fails fun _ hin => ?_
  omega

namespace LogitTable

variable {t : LogitTable}

/-- Some row of the table has the entry `x`. -/
def Holds (t : LogitTable) (x : Float32) : Prop := ∃ h r, x ∈ (t.row h r).toList

theorem checkEntity_ends (e : EntityId) : (Consult.ofExcept (t.checkEntity e)).Ends
    (fun _ => e.index < t.entityCount) (Refusal t.entityCount t.relationCount) := by
  have hcheck := Model.checkEntity_ends (m := t.model) (h := e)
  exact Ends.mono_error hcheck fun _ he => refusal_of_outOfRange (.inl ⟨e, he⟩)

theorem checkRelation_ends (r : RelationId) : (Consult.ofExcept (t.checkRelation r)).Ends
    (fun _ => r.index < t.relationCount) (Refusal t.entityCount t.relationCount) := by
  have hcheck := Model.checkRelation_ends (m := t.model) (r := r)
  exact Ends.mono_error hcheck fun _ he => refusal_of_outOfRange (.inr ⟨r, he⟩)

/-- What a table does once head and relation are checked. -/
theorem checked_ends {α : Type} {h : EntityId} {r : RelationId} {f : Except GraphError α}
    {P : α → Prop} (hf : h.index < t.entityCount → r.index < t.relationCount →
      (Consult.ofExcept f).Ends P (Refusal t.entityCount t.relationCount)) :
    (Consult.ofExcept (t.checkEntity h >>= fun _ => t.checkRelation r >>= fun _ => f)).Ends P
      (Refusal t.entityCount t.relationCount) := by
  rw [ofExcept_bind]
  refine (checkEntity_ends h).bind fun _ hh => ?_
  rw [ofExcept_bind]
  exact (checkRelation_ends r).bind fun _ hr => hf hh hr

/-- **A table checks every request.** -/
theorem guards_model (t : LogitTable) : t.model.Guards t.Holds where
  tails h r := by
    refine checked_ends (f := .ok (t.row h r).toList) fun hh hr => ?_
    exact ends_pure ⟨hh, hr, Vector.length_toList, fun x hx => ⟨h, r, hx⟩⟩
  triple h r e := by
    refine checked_ends (f := if bound : e.index < t.entityCount then
      .ok (t.row h r)[e.index] else .error (.entityOutOfRange e t.entityCount)) fun hh hr => ?_
    split
    · next he => exact ends_pure ⟨hh, hr, he⟩
    · next he => exact refusal_of_outOfRange (.inl ⟨e, Nat.not_lt.1 he, rfl⟩)
  ownHeads := rfl
  ownRelations := rfl

end LogitTable

/-! ### Link queries -/

namespace LinkPredictor

variable {p : LinkPredictor} {P : Float32 → Prop} {q : LinkQuery} {h : EntityId} {r : RelationId}
  {rs : List RelationId} {heads : List EntityId} {width hop : Nat}

/-- An unknown position is refused if some request is made. -/
theorem unmasked_refuses (hm : p.model.Guards P)
    (hq : q.Unknown p.model.entityCount p.model.relationCount)
    (hasks : q.Asks p.model.entityCount p.model.relationCount) :
    (p.unmasked q).Fails (Refusal p.model.entityCount p.model.relationCount) := by
  cases q with
  | missingHead r t =>
    have hheads : p.unmasked (.missingHead r t) =
        p.model.entities.mapM fun h => p.model.askTriple h r t := by
      rw [unmasked, Model.askHeads, hm.ownHeads]
    rw [hheads]
    refine fails_mapM ?_ fun h _ => hm.askTriple_fails (.inr hq)
    have hpos : 0 < p.model.entityCount := hasks
    exact List.ne_nil_of_length_pos (by simpa [Model.entities] using hpos)
  | missingRelation h t =>
    have hrelations : p.unmasked (.missingRelation h t) =
        p.model.relations.mapM fun r => p.model.askTriple h r t := by
      rw [unmasked, Model.askRelations, hm.ownRelations]
    rw [hrelations]
    refine fails_mapM ?_ fun r _ => hm.askTriple_fails (hq.imp_right .inr)
    have hpos : 0 < p.model.relationCount := hasks
    exact List.ne_nil_of_length_pos (by simpa [Model.relations] using hpos)
  | missingTail h r =>
    refine (hm.tails h r).fails fun _ hin => ?_
    have hout : p.model.entityCount ≤ h.index ∨ p.model.relationCount ≤ r.index := hq
    omega
  | triple h r t => exact (hm.askTriple_fails hq).bind

theorem logits_refuses (hm : p.model.Guards P)
    (hq : q.Unknown p.model.entityCount p.model.relationCount)
    (hasks : q.Asks p.model.entityCount p.model.relationCount) :
    (p.logits q).Fails (Refusal p.model.entityCount p.model.relationCount) :=
  (unmasked_refuses hm hq hasks).bind

theorem scores_refuses [Elementary] (hm : p.model.Guards P)
    (hq : q.Unknown p.model.entityCount p.model.relationCount)
    (hasks : q.Asks p.model.entityCount p.model.relationCount) :
    (p.scores q).Fails (Refusal p.model.entityCount p.model.relationCount) :=
  (logits_refuses hm hq hasks).bind

/-- Without a candidate nothing is looked at, unless there is a mask. -/
theorem logits_of_not_asks (hm : p.model.Guards P) (hmask : p.constraints = none)
    (hasks : ¬ q.Asks p.model.entityCount p.model.relationCount) :
    (p.logits q).result = .ok [] := by
  have hunmasked : p.unmasked q = Pure.pure [] := by
    cases q with
    | missingHead r t =>
      have hnone : p.model.entities = [] := by
        rw [Model.entities, Nat.eq_zero_of_not_pos hasks]
        rfl
      rw [unmasked, Model.askHeads, hm.ownHeads, hnone]
      rfl
    | missingRelation h t =>
      have hnone : p.model.relations = [] := by
        rw [Model.relations, Nat.eq_zero_of_not_pos hasks]
        rfl
      rw [unmasked, Model.askRelations, hm.ownRelations, hnone]
      rfl
    | missingTail h r => exact absurd trivial hasks
    | triple h r t => exact absurd trivial hasks
  rw [logits, hunmasked, hmask]
  rfl

/-! ### Chains -/

/-- Every request for tails is checked, and masking adds no other number than infinity. -/
theorem logits_ends (hm : p.model.Guards P) : (p.logits (.missingTail h r)).Ends
    (fun row => h.index < p.model.entityCount ∧ r.index < p.model.relationCount ∧
      row.length = p.model.entityCount ∧ ∀ x ∈ row, P x ∨ x = negInfinity)
    (Refusal p.model.entityCount p.model.relationCount) := by
  refine Ends.bind (hm.tails h r) ?_
  rintro row ⟨hh, hr, hlength, hrow⟩
  split
  · next c hc =>
    obtain ⟨hentities, hrelations⟩ := p.fits c hc
    have hmask : c.mask (.missingTail h r) row =
        .ok (Constraints.maskBy (c.allows (.missingTail h r)) row) := by
      refine Constraints.mask_eq rfl ?_ ?_
      · rwa [hrelations, ← p.relations_eq]
      · rwa [hentities, ← p.entities_eq]
    show (Consult.ofExcept (c.mask (.missingTail h r) row)).Ends _ _
    rw [hmask]
    refine ends_pure ⟨hh, hr, (Constraints.length_maskBy _ _).trans hlength, fun x hx => ?_⟩
    exact (Constraints.mem_or_eq_of_mem_maskBy hx).imp_left (hrow x)
  · exact ends_pure ⟨hh, hr, hlength, fun x hx => .inl (hrow x hx)⟩

variable [Elementary]

/-- The error of a look-up, or that of a logit that is not a number. -/
def Failure (entities relations : Nat) (P : Float32 → Prop) (e : GraphError) : Prop :=
  Refusal entities relations e ∨ ∃ x, P x ∧ x.isNaN = true ∧ e = .notProbability (sigmoid x)

section

variable (hexp : ∀ x : Float32, x.isNaN = false → 0 ≤ Elementary.exp x)

include hexp

/-- A logit is not admitted as a score only if it is not a number. -/
theorem isNaN_of_admit?_sigmoid {x : Float32} (h : admit? (sigmoid x) = none) :
    x.isNaN = true := by
  by_contra hnumber
  have hnumber := eq_false_of_ne_true hnumber
  have hprobable := isProbability_sigmoid_of_exp (hexp (-x) (isNaN_neg hnumber))
  rw [admit?_of_isProbability hprobable] at h
  cases h

theorem scores_checks (hm : p.model.Guards P) : (p.scores (.missingTail h r)).Ends
    (fun v => h.index < p.model.entityCount ∧ r.index < p.model.relationCount ∧
      v.size = p.model.entityCount) (Failure p.model.entityCount p.model.relationCount P) := by
  have hlogits : (p.logits (.missingTail h r)).Ends _
      (Failure p.model.entityCount p.model.relationCount P) :=
    (logits_ends hm).mono_error fun _ he => .inl he
  refine hlogits.bind ?_
  rintro row ⟨hh, hr, hlength, hrow⟩
  refine ends_ofExcept (fun v hv => ⟨hh, hr, (FuzzySet.size_ofLogits hv).trans hlength⟩)
    fun e he => ?_
  obtain ⟨s, hs, hnone, rfl⟩ := FuzzySet.exists_of_ofDegrees_eq_error he
  obtain ⟨x, hx, rfl⟩ := List.mem_map.1 hs
  have hnan := isNaN_of_admit?_sigmoid hexp hnone
  -- the logit of a masked candidate is a number, so this one is the model's own
  refine .inr ⟨x, (hrow x hx).resolve_right ?_, hnan, rfl⟩
  rintro rfl
  exact absurd hnan (by decide +kernel)

/-- The tails of a head within range are kept, up to the width. -/
theorem bestTails_checks (hm : p.model.Guards P) : (p.bestTails h r width).Ends
    (fun tails => h.index < p.model.entityCount ∧ r.index < p.model.relationCount ∧
      tails.length = min width p.model.entityCount)
    (Failure p.model.entityCount p.model.relationCount P) := by
  refine (scores_checks hexp hm).bind ?_
  rintro v ⟨hh, hr, hsize⟩
  refine ends_pure ⟨hh, hr, ?_⟩
  rw [List.length_map, FuzzySet.best, List.length_map, length_topKBy, ← hsize]
  rfl

/-- If some tail is kept, a frontier with an entity leads to one with an entity. -/
theorem expand_checks (hm : p.model.Guards P) (hwidth : 0 < width) (hheads : heads ≠ []) :
    (p.expand width hop r heads).Ends
      (fun here => r.index < p.model.relationCount ∧ reached here ≠ [])
      (Failure p.model.entityCount p.model.relationCount P) := by
  have hexpand : (p.expand width hop r heads).Ends
      (List.Forall₂ (fun h x => h.index < p.model.entityCount ∧
        r.index < p.model.relationCount ∧
        x.tails.length = min width p.model.entityCount) heads)
      (Failure p.model.entityCount p.model.relationCount P) :=
    ends_mapM fun h _ => (bestTails_checks hexp hm).bind fun tails htails => ends_pure htails
  refine hexpand.mono (fun here hhere => ?_) fun _ he => he
  cases hhere with
  | nil => exact absurd rfl hheads
  | @cons h x heads here hx _ =>
    obtain ⟨hh, hr, hlength⟩ := hx
    refine ⟨hr, ?_⟩
    obtain ⟨e, he⟩ := List.exists_mem_of_length_pos (l := x.tails) (by omega)
    have hmem : e ∈ reached (x :: here) :=
      Ascending.mem_ofList.2 (List.mem_flatMap.2 ⟨x, List.mem_cons_self, he⟩)
    exact List.ne_nil_of_mem hmem

/-- **If some tail is kept, a chain with an unknown relation has no answer.** -/
theorem follow_refuses (hm : p.model.Guards P) (hwidth : 0 < width) (hheads : heads ≠ [])
    (hrs : ∃ r ∈ rs, p.model.relationCount ≤ r.index) :
    (p.follow width hop rs heads).Fails
      (Failure p.model.entityCount p.model.relationCount P) := by
  induction rs generalizing hop heads with
  | nil => simp at hrs
  | cons r rs ih =>
    refine (expand_checks hexp hm hwidth hheads).bind_fails ?_
    rintro here ⟨hr, hreached⟩
    refine (ih hreached ?_).bind
    -- the relation of this hop is known, so the unknown one comes later
    obtain ⟨r', hmem, hout⟩ := hrs
    rcases List.mem_cons.1 hmem with rfl | hmem
    · exact absurd hr (Nat.not_lt.2 hout)
    · exact ⟨r', hmem, hout⟩

end

/-- The anchor and the first relation are looked at by the first request. -/
theorem chain_refuses_first (hm : p.model.Guards P)
    (hq : p.model.entityCount ≤ h.index ∨ p.model.relationCount ≤ r.index) :
    (p.chain h (r :: rs) width).Fails (Refusal p.model.entityCount p.model.relationCount) := by
  have hexpand : (p.expand width 0 r [h]).Fails
      (Refusal p.model.entityCount p.model.relationCount) := by
    refine fails_mapM (List.cons_ne_nil h []) fun h' hh' => ?_
    obtain rfl := List.mem_singleton.1 hh'
    have hscores := scores_refuses (q := .missingTail h' r) hm hq trivial
    have htails : (p.bestTails h' r width).Fails _ := hscores.bind
    exact htails.bind
  exact hexpand.bind

/-- Nothing is asked for from an empty frontier. -/
theorem follow_nil : (p.follow width hop rs []).result = .ok ⟨[], []⟩ := by
  induction rs generalizing hop with
  | nil => rfl
  | cons r rs ih => exact result_bind_eq_ok_iff.2 ⟨[], rfl, result_bind_eq_ok_iff.2 ⟨_, ih, rfl⟩⟩

/-- If no tail is kept, only the first relation of a chain is looked at. -/
theorem chain_of_width_zero {v : FuzzySet} (hv : (p.scores (.missingTail h r)).result = .ok v) :
    (p.chain h (r :: rs) 0).result = .ok ⟨[], [⟨0, h, r, []⟩]⟩ := by
  have htails : (p.bestTails h r 0).result = .ok [] := result_bind_eq_ok_iff.2 ⟨v, hv, rfl⟩
  have hexpand : (p.expand 0 0 r [h]).result = .ok [⟨0, h, r, []⟩] := by
    refine mapM_eq_ok_iff.2 (.cons ?_ .nil)
    exact result_bind_eq_ok_iff.2 ⟨[], htails, rfl⟩
  exact result_bind_eq_ok_iff.2 ⟨_, hexpand, result_bind_eq_ok_iff.2 ⟨_, follow_nil, rfl⟩⟩

/-! ### Main result -/

/-- **A predictor over a table refuses what is unknown, if some request is made with it.**  A
query that has a candidate is refused if anything in it is unknown, and so is a single triple.  A
chain is refused if its anchor or its first relation is unknown; and if some tail is kept, it has
no answer if any of its relations is unknown, though a logit that is not a number may be met
first.  But nothing is refused if nothing is asked for: neither by a query without a candidate,
nor by a chain after its first hop if no tail is kept. -/
theorem refuses_unknown (hexp : ∀ x : Float32, x.isNaN = false → 0 ≤ Elementary.exp x)
    {t : LogitTable} (hp : p.model = t.model) :
    (∀ q : LinkQuery, q.Unknown t.entityCount t.relationCount →
      q.Asks t.entityCount t.relationCount →
        (p.logits q).Fails (Refusal t.entityCount t.relationCount) ∧
        (p.scores q).Fails (Refusal t.entityCount t.relationCount)) ∧
      (∀ a : Triple,
        (LinkQuery.triple a.head a.relation a.tail).Unknown t.entityCount t.relationCount →
          (p.tripleLogit a).Fails (Refusal t.entityCount t.relationCount) ∧
          (p.tripleScore a).Fails (Refusal t.entityCount t.relationCount)) ∧
      (∀ h r rs width, t.entityCount ≤ h.index ∨ t.relationCount ≤ r.index →
        (p.chain h (r :: rs) width).Fails (Refusal t.entityCount t.relationCount)) ∧
      (∀ h rs width, 0 < width → (∃ r ∈ rs, t.relationCount ≤ r.index) →
        (p.chain h rs width).Fails (Failure t.entityCount t.relationCount t.Holds)) ∧
      (∀ q : LinkQuery, ¬ q.Asks t.entityCount t.relationCount → p.constraints = none →
        (p.logits q).result = .ok [] ∧ ∃ v, (p.scores q).result = .ok v ∧ v.degrees = []) ∧
      ∀ h r rs v, (p.scores (.missingTail h r)).result = .ok v →
        (p.chain h (r :: rs) 0).result = .ok ⟨[], [⟨0, h, r, []⟩]⟩ := by
  have hm : p.model.Guards t.Holds := hp ▸ t.guards_model
  have hentities : t.entityCount = p.model.entityCount := by rw [hp]; rfl
  have hrelations : t.relationCount = p.model.relationCount := by rw [hp]; rfl
  rw [hentities, hrelations]
  refine ⟨fun q hq hasks => ⟨logits_refuses hm hq hasks, scores_refuses hm hq hasks⟩,
    fun a ha => ?_, fun h r rs width => chain_refuses_first hm,
    fun h rs width hwidth hrs => ?_, fun q hasks hmask => ?_, fun h r rs v hv => ?_⟩
  · have hlogit : (p.tripleLogit a).Fails (Refusal p.model.entityCount p.model.relationCount) :=
      hm.askTriple_fails ha
    exact ⟨hlogit, hlogit.bind⟩
  · have hne : rs ≠ [] := by
      obtain ⟨r, hmem, -⟩ := hrs
      exact List.ne_nil_of_mem hmem
    rw [chain_eq_follow hne]
    exact follow_refuses hexp hm hwidth (List.cons_ne_nil h []) hrs
  · have hlogits := logits_of_not_asks hm hmask hasks
    exact ⟨hlogits, ⟨[], nofun⟩, result_bind_eq_ok_iff.2 ⟨[], hlogits, rfl⟩, rfl⟩
  · exact chain_of_width_zero hv

/-- A predictor over two entities and a table without rows. -/
def blank (relations : Vocabulary) : LinkPredictor where
  model := (LogitTable.empty 2 relations.size LogitTable.usualLogit).model
  index := ⟨⟨["here", "there"], by decide⟩, relations⟩
  constraints := none
  entities_eq := rfl
  relations_eq := rfl
  fits := nofun

omit [Elementary] in
/-- The second relation of the chain is unknown, and so is the entity of the query. -/
theorem refuses_unknown_blank :
    (@chain Elementary.steep (blank ⟨["known"], by decide⟩) ⟨0⟩ [⟨0⟩, ⟨7⟩] 1).Fails
      (@Failure Elementary.steep 2 1 (LogitTable.empty 2 1 LogitTable.usualLogit).Holds) ∧
      ((blank ⟨["known"], by decide⟩).logits (.missingRelation ⟨5⟩ ⟨0⟩)).Fails (Refusal 2 1) := by
  obtain ⟨hqueries, -, -, hchains, -, -⟩ :=
    @refuses_unknown (blank ⟨["known"], by decide⟩) Elementary.steep
      (@Elementary.Bounded.exp_nonneg Elementary.steep Elementary.bounded_steep)
      (LogitTable.empty 2 1 LogitTable.usualLogit) rfl
  refine ⟨hchains ⟨0⟩ _ 1 Nat.zero_lt_one ⟨⟨7⟩, by simp, by decide⟩, ?_⟩
  exact (hqueries (.missingRelation ⟨5⟩ ⟨0⟩) (Or.inl (by decide)) Nat.zero_lt_one).1

omit [Elementary] in
/-- The same chain is answered if no tail is kept, and the same query if there is no relation. -/
theorem answers_unknown_blank :
    (@chain Elementary.steep (blank ⟨["known"], by decide⟩) ⟨0⟩ [⟨0⟩, ⟨7⟩] 0).result =
      .ok ⟨[], [⟨0, ⟨0⟩, ⟨0⟩, []⟩]⟩ ∧
      ((blank .empty).logits (.missingRelation ⟨5⟩ ⟨0⟩)).result = .ok [] := by
  constructor
  · decide +kernel
  · rfl

end LinkPredictor

end MultiHop
