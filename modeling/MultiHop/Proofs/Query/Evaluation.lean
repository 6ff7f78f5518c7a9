/-
MultiHop/Proofs/Query/Evaluation.lean

Evaluation never breaks off.  Connectives and beams combine vectors entry by entry
without checking that there are as many entries on both sides; what makes this safe is
an invariant of evaluation: whatever the model replies, an answer covers every entity, and
the positions that evaluation came to are in range.  Each kind of query restores it from
its operands (`Model.evaluate_inRange`), and since fuzzy sets only hold admitted numbers,
an answer is a vector of probabilities (`Reasoner.evaluate_calibrated`).
-/
import MultiHop.Proofs.Query.Basic
import MultiHop.Proofs.Query.Hop
import MultiHop.Query.Reasoner

namespace MultiHop

open Consult

/-! ### Equations of evaluation -/

namespace Model

open Evaluation (ofGraph malformed)

variable [Elementary] {m : Model} {s : Settings}

theorem evaluate_projection {q : Query} (r : RelationId) (hq : ∀ h, q ≠ .entity h) :
    m.evaluate s (.projection q r) = m.evaluate s q >>= fun source =>
      ((Beam.ofSet source s.width).hop m r s.tnorm).mapError (Fault.map .graph) := by
  cases q with
  | entity h => exact absurd rfl (hq h)
  | _ => simp only [evaluate]

/-- Evaluation of the operands of a connective, at least one. -/
def evaluateAll (m : Model) (s : Settings) (op : Float32 → Float32 → Float32) (q : Query)
    (qs : List Query) : Evaluation FuzzySet := do
  let first ← m.evaluate s q
  let all ← m.evaluateOn s op first.degrees qs
  ofGraph (.ofExcept (FuzzySet.ofDegrees all))

theorem evaluate_intersection (q : Query) (qs : List Query) :
    m.evaluate s (.intersection (q :: qs)) = m.evaluateAll s s.tnorm.meet q qs := by
  simp only [evaluate, evaluateAll]

theorem evaluate_union (q : Query) (qs : List Query) :
    m.evaluate s (.union (q :: qs)) = m.evaluateAll s s.tnorm.join q qs := by
  simp only [evaluate, evaluateAll]

/-! ### Answers cover every entity -/

omit [Elementary] in
theorem ends_ofGraph {α : Type} {x : Consult GraphError α} {P : α → Prop}
    (h : x.Ends P fun _ => True) : (ofGraph x).Ends P Fault.IsError :=
  (h.mono (fun _ h => h) fun _ _ => Fault.isError_error _).mapError

omit [Elementary] in
/-- Two vectors of the same length are combined entry by entry. -/
theorem combine_eq {op : Float32 → Float32 → Float32} {xs ys : List Float32}
    (h : xs.length = ys.length) : combine op xs ys = .ok (xs.zipWith op ys) :=
  if_pos h

/-- What is known, as `J done xs`, of the vector `xs` that the operands in `done` combine
to, when an answer to the operand `q` satisfies `P q`: it has `n` entries, and one more
operand keeps it true. -/
structure Gathers (op : Float32 → Float32 → Float32) (n : Nat)
    (P : Query → FuzzySet → Prop) (J : List Query → List Float32 → Prop) : Prop where
  size (q : Query) (v : FuzzySet) : P q v → v.size = n
  length (done : List Query) (xs : List Float32) : J done xs → xs.length = n
  step (done : List Query) (q : Query) (xs : List Float32) (v : FuzzySet) :
    J done xs → P q v → J (done ++ [q]) (xs.zipWith op v.degrees)

section

variable {op : Float32 → Float32 → Float32} {n : Nat} {P : Query → FuzzySet → Prop}
  {J : List Query → List Float32 → Prop} {E : Fault QueryError → Prop} {qs : List Query}

theorem evaluateOn_gathers (hJ : Gathers op n P J)
    (h : ∀ q ∈ qs, (m.evaluate s q).Ends (P q) E) {done : List Query} {sofar : List Float32}
    (hsofar : J done sofar) : (m.evaluateOn s op sofar qs).Ends (J (done ++ qs)) E := by
  induction qs generalizing done sofar with
  | nil =>
    simp only [evaluateOn, List.append_nil]
    exact ends_pure hsofar
  | cons q qs ih =>
    obtain ⟨hq, hqs⟩ := List.forall_mem_cons.1 h
    simp only [evaluateOn]
    refine hq.bind fun next hnext => ?_
    -- both sides have `n` entries, so the connective does not break off
    have heq : sofar.length = next.degrees.length :=
      (hJ.length _ _ hsofar).trans (hJ.size _ _ hnext).symm
    refine ends_bind_of_ok (by rw [combine_eq heq]; rfl) ?_
    have hrest := ih hqs (hJ.step _ _ _ _ hsofar hnext)
    rwa [List.append_assoc, List.singleton_append] at hrest

/-- **Operands are gathered one after another.**  If a first operand starts the
invariant, then the combined vector, which is checked last, satisfies it for all of
them. -/
theorem evaluateAll_gathers {q : Query} {R : FuzzySet → Prop} (hJ : Gathers op n P J)
    (h : ∀ p ∈ q :: qs, (m.evaluate s p).Ends (P p) E)
    (hstart : ∀ v, P q v → J [q] v.degrees)
    (hlast : ∀ xs, J (q :: qs) xs → (ofGraph (.ofExcept (FuzzySet.ofDegrees xs))).Ends R E) :
    (m.evaluateAll s op q qs).Ends R E := by
  obtain ⟨hq, hqs⟩ := List.forall_mem_cons.1 h
  refine hq.bind fun first hfirst => ?_
  exact (evaluateOn_gathers hJ hqs (hstart first hfirst)).bind hlast

end

omit [Elementary] in
theorem gathers_each (op : Float32 → Float32 → Float32) (n : Nat) (W : Query → Prop) :
    Gathers op n (fun q v => v.size = n ∧ W q) fun done xs =>
      xs.length = n ∧ ∀ q ∈ done, W q where
  size _ _ h := h.1
  length _ _ h := h.1
  step _ _ _ _ hxs hv := ⟨length_zipWith_eq hxs.1 hv.1,
    List.forall_mem_append.2 ⟨hxs.2, List.forall_mem_singleton.2 hv.2⟩⟩

/-- A connective that has an answer has answers of all operands; so what these show of
the operands is true of all of them. -/
theorem evaluateAll_each {op : Float32 → Float32 → Float32} {n : Nat} {W : Query → Prop}
    {q : Query} {qs : List Query}
    (h : ∀ p ∈ q :: qs, (m.evaluate s p).Ends (fun v => v.size = n ∧ W p) Fault.IsError) :
    (m.evaluateAll s op q qs).Ends (fun v => v.size = n ∧ ∀ p ∈ q :: qs, W p)
      Fault.IsError := by
  refine evaluateAll_gathers (gathers_each op n W) h
    (fun _ hv => ⟨hv.1, List.forall_mem_singleton.2 hv.2⟩) fun xs hxs => ?_
  exact ends_ofGraph (ends_ofExcept
    (fun v hv => ⟨(FuzzySet.size_ofDegrees hv).trans hxs.1, hxs.2⟩) fun _ _ => trivial)

/-- **Evaluation never breaks off.**  Whatever the model replies, an answer covers every
entity, and it shows that the positions of the query are in range. -/
theorem evaluate_inRange (m : Model) (s : Settings) (q : Query) :
    (m.evaluate s q).Ends (fun v => v.size = m.entityCount ∧
      q.InRange m.entityCount m.relationCount s.width) Fault.IsError := by
  induction q using QueryOver.induction with
  | entity e =>
    refine ends_ofGraph (FuzzySet.singleton_ends.mono (fun v hv => ?_) fun _ _ => trivial)
    refine ⟨?_, QueryOver.inRange_entity hv.1⟩
    rw [FuzzySet.size, hv.2, List.length_set, List.length_replicate]
  | anchored h r =>
    refine ends_ofGraph (hop_covers.mono (fun v hv => ?_) fun _ h => h)
    exact ⟨hv.1, QueryOver.inRange_anchored hv.2.1 hv.2.2⟩
  | projection q r hq ih =>
    rw [evaluate_projection r hq]
    refine ih.bind fun source hsource => Ends.mapError ?_
    obtain ⟨hsize, hrange⟩ := hsource
    refine Beam.hop_covers.mono (fun v hv => ?_) fun _ => Fault.IsError.map _
    refine ⟨hv.1, QueryOver.inRange_projection hq hrange fun hw => hv.2 ?_⟩
    exact Beam.entries_ofSet_ne_nil hw (hsize ▸ hrange.pos)
  | intersection qs ih =>
    cases qs with
    | nil => exact ends_fail (Fault.isError_error _)
    | cons q qs =>
      rw [evaluate_intersection]
      refine (evaluateAll_each ih).mono (fun v hv => ?_) fun _ h => h
      exact ⟨hv.1, QueryOver.inRange_operands (List.cons_ne_nil q qs) hv.2 rfl rfl⟩
  | union qs ih =>
    cases qs with
    | nil => exact ends_fail (Fault.isError_error _)
    | cons q qs =>
      rw [evaluate_union]
      refine (evaluateAll_each ih).mono (fun v hv => ?_) fun _ h => h
      exact ⟨hv.1, QueryOver.inRange_operands (List.cons_ne_nil q qs) hv.2 rfl rfl⟩
  | negation q ih =>
    simp only [evaluate]
    refine ih.bind fun source hsource => ends_ofGraph (ends_ofExcept (fun v hv => ?_)
      fun _ _ => trivial)
    obtain ⟨hsize, hrange⟩ := hsource
    refine ⟨?_, hrange.pos, hrange.entity, hrange.relation⟩
    rw [FuzzySet.size_ofDegrees hv, List.length_map]
    exact hsize

/-! ### Two evaluations -/

section

variable {m' : Model} {s' : Settings} {op : Float32 → Float32 → Float32}
  {S : FuzzySet → FuzzySet → Prop} {T : List Float32 → List Float32 → Prop}

omit [Elementary] in
theorem combine_relates {xs ys xs' ys' : List Float32}
    (h : T (xs.zipWith op ys) (xs'.zipWith op ys')) :
    (ofExcept (combine op xs ys)).Relates (ofExcept (combine op xs' ys')) T := by
  intro zs zs' hzs hzs'
  unfold combine at hzs hzs'
  split at hzs
  · cases hzs
    split at hzs'
    · cases hzs'
      exact h
    · cases hzs'
  · cases hzs

/-- Two runs that gather related operands, as long as one operand more keeps the vectors
related. -/
theorem evaluateOn_relates
    (hstep : ∀ xs ys v w, T xs ys → S v w → T (xs.zipWith op v.degrees) (ys.zipWith op w.degrees))
    {qs qs' : List Query}
    (h : List.Forall₂ (fun q q' => (m.evaluate s q).Relates (m'.evaluate s' q') S) qs qs')
    {xs ys : List Float32} (hx : T xs ys) :
    (m.evaluateOn s op xs qs).Relates (m'.evaluateOn s' op ys qs') T := by
  induction h generalizing xs ys with
  | nil =>
    simp only [evaluateOn]
    exact relates_pure hx
  | cons hq _ ih =>
    simp only [evaluateOn]
    refine hq.bind fun v w hvw => ?_
    exact (combine_relates (hstep xs ys v w hx hvw)).mapError.bind fun xs' ys' hx' => ih hx'

/-- **Related operands are combined to related answers.** -/
theorem evaluateAll_relates
    (hstep : ∀ xs ys v w, T xs ys → S v w → T (xs.zipWith op v.degrees) (ys.zipWith op w.degrees))
    (hstart : ∀ v w, S v w → T v.degrees w.degrees)
    (hlast : ∀ xs ys, T xs ys →
      (ofExcept (FuzzySet.ofDegrees xs)).Relates (ofExcept (FuzzySet.ofDegrees ys)) S)
    {q q' : Query} {qs qs' : List Query}
    (h : List.Forall₂ (fun q q' => (m.evaluate s q).Relates (m'.evaluate s' q') S) (q :: qs)
      (q' :: qs')) :
    (m.evaluateAll s op q qs).Relates (m'.evaluateAll s' op q' qs') S := by
  obtain ⟨hq, hqs⟩ := List.forall₂_cons.1 h
  refine hq.bind fun v w hvw => ?_
  refine (evaluateOn_relates hstep hqs (hstart v w hvw)).bind fun xs ys hx => ?_
  exact (hlast xs ys hx).mapError

end

/-- **An answer covers every entity**, whatever the model replies. -/
theorem evaluate_covers (m : Model) (s : Settings) (q : Query) :
    (m.evaluate s q).Ends (fun v => v.size = m.entityCount) Fault.IsError :=
  (m.evaluate_inRange s q).mono (fun _ hv => hv.1) fun _ hf => hf

end Model

/-- **A reasoner's evaluation is well formed.**  It never breaks off, and an answer has
one degree per entity, each of them a number in the unit interval.  Nothing is assumed
about the replies of the model or about the query. -/
theorem Reasoner.evaluate_calibrated [Elementary] (r : Reasoner) (q : Query) :
    (∀ b, (r.evaluate q).result ≠ .error (.breach b)) ∧
      ∀ v, (r.evaluate q).result = .ok v → v.degrees.length = r.model.entityCount ∧
        ∀ p ∈ v.degrees, p.isNaN = false ∧ 0 ≤ p ∧ p ≤ 1 := by
  have hends := r.model.evaluate_covers r.settings q
  constructor
  · intro b hb
    obtain ⟨e, he⟩ := hends.of_error hb
    cases he
  · intro v hv
    have hsize := hends.of_ok hv
    exact ⟨hsize, fun p hp => ⟨(v.probable p hp).isNaN, v.probable p hp⟩⟩

end MultiHop
