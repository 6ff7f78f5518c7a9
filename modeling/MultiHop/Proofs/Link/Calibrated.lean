/-
MultiHop/Proofs/Link/Calibrated.lean

Which scores are probabilities.  A predictor makes logits into scores in two ways.  Candidates
and their degrees pass through admission, which refuses what lies outside the unit interval, NaN
among it.  The score of a single triple is the bare sigmoid of its logit.

On numbers the two ways agree, because the sigmoid of a number is a probability and so is
admitted as it is.  On NaN they do not: the sigmoid passes it on, and the second way hands it
out, where the first one fails.  The errors of the model are those of both.

Nothing is known of the exponential but that it is never negative and passes NaN on
(`Elementary.ExpLaws`).

Main result: `LinkPredictor.scores_calibrated`.
-/
import MultiHop.Proofs.Link.Masking

namespace MultiHop

open Consult Single

/-! ### The sigmoid of any logit -/

/-- What is asked of the exponential: it is never negative, and it passes NaN on. -/
structure Elementary.ExpLaws [Elementary] : Prop where
  exp_nonneg (x : Float32) : x.isNaN = false → 0 ≤ Elementary.exp x
  isNaN_exp (x : Float32) : x.isNaN = true → (Elementary.exp x).isNaN = true

/-- The steep elementary functions, with an exponential that passes NaN on. -/
@[reducible] def Elementary.passing : Elementary :=
  { steep with
    exp := fun x => if x.isNaN then x else @exp steep x }

theorem Elementary.expLaws_passing : @ExpLaws passing := by
  refine @ExpLaws.mk passing (fun x hx => ?_) fun x hx => ?_
  · show 0 ≤ if x.isNaN then x else @exp steep x
    rw [if_neg (ne_true_of_eq_false hx)]
    exact @Bounded.exp_nonneg steep bounded_steep x hx
  · show (if x.isNaN then x else @exp steep x).isNaN = true
    rw [if_pos hx]
    exact hx

section

variable [Elementary] (laws : Elementary.ExpLaws) {x : Float32}

include laws

theorem isNaN_sigmoid (hx : x.isNaN = true) : (sigmoid x).isNaN = true := by
  have hexp := laws.isNaN_exp (-x) (isNaN_neg_of_isNaN hx)
  exact isNaN_div_right 1 (isNaN_add_right 1 hexp)

/-- A logit that is a number makes one degree, which is its sigmoid. -/
theorem FuzzySet.ofLogits_singleton (hx : x.isNaN = false) :
    IsProbability (sigmoid x) ∧ ∃ v, ofLogits [x] = .ok v ∧ v.degrees = [sigmoid x] := by
  have hprobable := isProbability_sigmoid_of_exp (laws.exp_nonneg (-x) (isNaN_neg hx))
  exact ⟨hprobable, ofLogits_of_sigmoid (List.forall_mem_singleton.2 hprobable)⟩

/-- A logit that is NaN is refused. -/
theorem FuzzySet.ofLogits_singleton_of_isNaN (hx : x.isNaN = true) :
    ofLogits [x] = .error (.notProbability (sigmoid x)) :=
  ofDegrees_of_admit?_eq_none (admit?_of_isNaN (isNaN_sigmoid laws hx)) []

end

namespace LinkPredictor

variable {p : LinkPredictor} {q : LinkQuery} {a : Triple} {v : FuzzySet} {k : Nat}

/-! ### Candidates -/

/-- A candidate has the degree of its position. -/
theorem candidate_ends (entry : EntityId × Float32) :
    (p.candidate q entry).Ends (fun d => d.score = entry.2) fun _ => True := by
  have hname : (ofExcept (p.candidateName q entry.1)).Ends (fun _ => True) fun _ => True :=
    ends_trivial
  exact hname.bind fun _ _ => ends_pure rfl

theorem mapM_candidate_ends : ((v.best k).mapM (p.candidate q)).Ends
    (fun list => ∀ d ∈ list, IsProbability d.score) fun _ => True := by
  refine (ends_mapM fun entry _ => candidate_ends entry).mono (fun list hlist d hd => ?_)
    fun _ _ => trivial
  obtain ⟨entry, hentry, hscore⟩ := exists_of_forall₂ hlist d hd
  obtain ⟨⟨i, x⟩, hmem, rfl⟩ := List.mem_map.1 hentry
  rw [hscore]
  exact v.probable x (List.mem_of_getElem? (getElem?_of_mem_topKBy hmem))

/-- Every listed candidate has a probability. -/
theorem candidates_probable [Elementary] (q : LinkQuery) : (p.candidates q k).Ends
    (fun list => ∀ d ∈ list, IsProbability d.score) fun _ => True := by
  have hranked : (p.scores q >>= fun scores => (scores.best k).mapM (p.candidate q)).Ends
      (fun list => ∀ d ∈ list, IsProbability d.score) fun _ => True :=
    ends_trivial.bind fun _ _ => mapM_candidate_ends
  cases q with
  | triple h r t => exact ends_fail trivial
  | missingHead r t => exact hranked
  | missingRelation h t => exact hranked
  | missingTail h r => exact hranked

/-! ### Single triples -/

/-- The query of a triple without an open slot. -/
def queryOf (a : Triple) : LinkQuery := .triple a.head a.relation a.tail

/-- No constraint masks a single triple. -/
theorem logits_queryOf (a : Triple) :
    p.logits (queryOf a) = p.tripleLogit a >>= fun x => Pure.pure [x] := by
  unfold logits
  cases p.constraints with
  | none => exact bind_pure _
  | some c => exact bind_pure _

theorem scores_queryOf [Elementary] (a : Triple) : p.scores (queryOf a) =
    p.tripleLogit a >>= fun x => ofExcept (FuzzySet.ofLogits [x]) := by
  show (p.logits (queryOf a) >>= fun raw => ofExcept (FuzzySet.ofLogits raw)) = _
  rw [logits_queryOf, bind_assoc]
  simp only [pure_bind]

/-- From the logit of a triple, the score that it has `alone` and the degrees that it has when it
is `asked` for as a query. -/
inductive Scored [Elementary] (logit : Except GraphError Float32) :
    Except GraphError Float32 → Except GraphError FuzzySet → Prop
  | refused (e : GraphError) : logit = .error e → Scored logit (.error e) (.error e)
  | number (x : Float32) (v : FuzzySet) : logit = .ok x → IsProbability (sigmoid x) →
      v.degrees = [sigmoid x] → Scored logit (.ok (sigmoid x)) (.ok v)
  | notANumber (x : Float32) : logit = .ok x → x.isNaN = true → (sigmoid x).isNaN = true →
      Scored logit (.ok (sigmoid x)) (.error (.notProbability (sigmoid x)))

/-- **A triple is scored in one of three ways.** -/
theorem tripleScored [Elementary] (laws : Elementary.ExpLaws) (a : Triple) :
    Scored (p.tripleLogit a).result (p.tripleScore a).result (p.scores (queryOf a)).result := by
  rw [scores_queryOf]
  unfold tripleScore
  cases hlogit : (p.tripleLogit a).result with
  | error e =>
    rw [bind_of_error hlogit, bind_of_error hlogit]
    exact .refused e rfl
  | ok x =>
    rw [bind_of_ok hlogit, bind_of_ok hlogit]
    cases hx : x.isNaN with
    | false =>
      obtain ⟨hprobable, v, hv, hdegrees⟩ := FuzzySet.ofLogits_singleton laws hx
      show Scored _ (.ok (sigmoid x)) (FuzzySet.ofLogits [x])
      rw [hv]
      exact .number x v rfl hprobable hdegrees
    | true =>
      show Scored _ (.ok (sigmoid x)) (FuzzySet.ofLogits [x])
      rw [FuzzySet.ofLogits_singleton_of_isNaN laws hx]
      exact .notANumber x rfl hx (isNaN_sigmoid laws hx)

namespace Scored

variable [Elementary] {logit alone : Except GraphError Float32} {asked : Except GraphError FuzzySet}
  {s : Float32} {e : GraphError}

/-- A score that is a number is the one degree of the query, and the other way round. -/
theorem ok_iff (h : Scored logit alone asked) :
    (alone = .ok s ∧ s.isNaN = false) ↔ ∃ v, asked = .ok v ∧ v.degrees = [s] := by
  cases h with
  | refused e _ =>
    constructor
    · rintro ⟨hs, -⟩
      cases hs
    · rintro ⟨_, hv, -⟩
      cases hv
  | number x v _ hprobable hdegrees =>
    constructor
    · rintro ⟨hs, -⟩
      cases hs
      exact ⟨v, rfl, hdegrees⟩
    · rintro ⟨w, hw, hs⟩
      cases hw
      rw [hdegrees] at hs
      cases hs
      exact ⟨rfl, hprobable.isNaN⟩
  | notANumber x _ _ hnan =>
    constructor
    · rintro ⟨hs, hnumber⟩
      cases hs
      rw [hnan] at hnumber
      cases hnumber
    · rintro ⟨_, hv, -⟩
      cases hv

theorem of_ok (h : Scored logit alone asked) (hs : alone = .ok s) : IsProbability s ∨
    s.isNaN = true ∧ (∃ x, logit = .ok x ∧ x.isNaN = true) ∧
      asked = .error (.notProbability s) := by
  cases h with
  | refused e _ => cases hs
  | number x v _ hprobable _ =>
    cases hs
    exact .inl hprobable
  | notANumber x hlogit hx hnan =>
    cases hs
    exact .inr ⟨hnan, ⟨x, hlogit, hx⟩, rfl⟩

theorem of_error (h : Scored logit alone asked) (he : alone = .error e) : asked = .error e := by
  cases h with
  | refused e _ =>
    cases he
    rfl
  | number x v _ _ _ => cases he
  | notANumber x _ _ _ => cases he

end Scored

/-! ### Main result -/

/-- **Every score is a probability, but for that of a single triple whose logit is NaN.**  Degrees
and candidates are admitted.  The score of a triple is a number exactly if the query of the triple
has this number as its one degree.  Otherwise the two ways of asking part: the logit is NaN, and
so is the score that is handed out, while the query fails because of it.  What the model fails
with, both fail with. -/
theorem scores_calibrated [Elementary] (laws : Elementary.ExpLaws) (p : LinkPredictor) :
    (∀ q v, (p.scores q).result = .ok v →
        ∀ s ∈ v.degrees, IsProbability s ∧ s.isNaN = false) ∧
      (∀ q k list, (p.candidates q k).result = .ok list →
        ∀ d ∈ list, IsProbability d.score ∧ d.score.isNaN = false) ∧
      (∀ a s, ((p.tripleScore a).result = .ok s ∧ s.isNaN = false) ↔
        ∃ v, (p.scores (queryOf a)).result = .ok v ∧ v.degrees = [s]) ∧
      (∀ a s, (p.tripleScore a).result = .ok s → IsProbability s ∨
        s.isNaN = true ∧ (∃ x, (p.tripleLogit a).result = .ok x ∧ x.isNaN = true) ∧
          (p.scores (queryOf a)).result = .error (.notProbability s)) ∧
      ∀ a e, (p.tripleScore a).result = .error e → (p.scores (queryOf a)).result = .error e := by
  refine ⟨fun q v _ s hs => ?_, fun q k list hlist d hd => ?_,
    fun a s => (tripleScored laws a).ok_iff, fun a s => (tripleScored laws a).of_ok,
    fun a e => (tripleScored laws a).of_error⟩
  · have hprobable := v.probable s hs
    exact ⟨hprobable, hprobable.isNaN⟩
  · have hprobable := (candidates_probable q).of_ok hlist d hd
    exact ⟨hprobable, hprobable.isNaN⟩

/-- The score of a triple whose logit is a number is the degree of its query. -/
theorem scores_calibrated_secondAllowed :
    ∃ v, (@scores .passing (secondAllowed (0 / 0) 5) (queryOf ⟨⟨0⟩, ⟨0⟩, ⟨1⟩⟩)).result = .ok v ∧
      v.degrees = [1] := by
  obtain ⟨-, -, htriples, -, -⟩ :=
    @scores_calibrated .passing Elementary.expLaws_passing (secondAllowed (0 / 0) 5)
  exact (htriples ⟨⟨0⟩, ⟨0⟩, ⟨1⟩⟩ 1).1 ⟨by decide +kernel, by decide +kernel⟩

/-- The score of the other triple is not a number, and its query fails. -/
theorem tripleScore_diverged_secondAllowed :
    (@tripleScore .passing (secondAllowed (0 / 0) 5) ⟨⟨0⟩, ⟨0⟩, ⟨0⟩⟩).result = .ok (0 / 0) ∧
      (0 / 0 : Float32).isNaN = true ∧
      (@scores .passing (secondAllowed (0 / 0) 5) (queryOf ⟨⟨0⟩, ⟨0⟩, ⟨0⟩⟩)).result =
        .error (.notProbability (0 / 0)) := by
  decide +kernel

end LinkPredictor

end MultiHop
