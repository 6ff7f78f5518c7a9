/-
MultiHop/Proofs/Query/Agreement.lean

All ways of asking agree.  Answers are ranked in two places: a reasoner sorts records that
hold a name, a link predictor sorts positions and looks the names up afterwards.  Sorting
only looks at the key of a record (`map_descending`), so both put the same entities in the
same order, with ties broken alike:

    (answers.take k).map Answer.entry = v.best k

Whether answers are ranked or handed out as a fuzzy set, they come from one evaluation
(`Model.evaluate_onlyScores`); and a hop from an anchor makes the same fuzzy set of the
reply of the model as the link query with an open tail.

Main result: `Reasoner.ways_of_asking_agree`.
-/
import MultiHop.Proofs.Link.Masking
import MultiHop.Proofs.Query.Answer
import MultiHop.Proofs.Query.Pruning
import MultiHop.Proofs.Query.Reading

namespace MultiHop

open Consult

/-! ### Ranked answers -/

/-- An answer without its name. -/
def Answer.entry (a : Answer) : EntityId × Float32 := (a.entity, a.score)

/-- An answer as a candidate of a link query. -/
def Answer.candidate (a : Answer) : Candidate := ⟨a.name, a.entity.index, a.score⟩

namespace FuzzySet

variable {v : FuzzySet} {index : Index} {answers : List Answer}

/-- Answers before they are ranked: one for each name. -/
def unranked (v : FuzzySet) (index : Index) : List Answer :=
  (index.entities.names.zip v.degrees).zipIdx.map fun ((name, p), i) => ⟨⟨i⟩, name, p⟩

theorem ranked_eq_ok_iff : v.ranked index = .ok answers ↔
    v.size = index.entityCount ∧
      answers = descending (fun a => rankOf a.score) (v.unranked index) := by
  unfold ranked
  split
  · next hsize =>
    rw [Except.ok.injEq]
    exact ⟨fun h => ⟨hsize, h.symm⟩, fun h => h.2.symm⟩
  · next hsize => exact ⟨nofun, fun h => absurd h.1 hsize⟩

theorem map_unranked (hsize : v.size = index.entityCount) :
    (v.unranked index).map (fun a => (a.entity.index, a.score)) =
      v.degrees.zipIdx.map fun (p, i) => (i, p) := by
  have hdegrees : (index.entities.names.zip v.degrees).map Prod.snd = v.degrees :=
    List.map_snd_zip hsize.le
  conv_rhs => rw [← hdegrees, List.zipIdx_map, List.map_map]
  unfold unranked
  rw [List.map_map]
  rfl

/-- **Ranked answers are the best degrees in their order.** -/
theorem map_entry_ranked (h : v.ranked index = .ok answers) (k : Nat) :
    (answers.take k).map Answer.entry = v.best k := by
  obtain ⟨hsize, rfl⟩ := ranked_eq_ok_iff.1 h
  have hsorted : (descending (fun a => rankOf a.score) (v.unranked index)).map
      (fun a => (a.entity.index, a.score)) = ordered rankOf v.degrees := by
    unfold ordered
    rw [← map_unranked hsize]
    apply map_descending
    intro a
    rfl
  show _ = ((ordered rankOf v.degrees).take k).map fun entry => (EntityId.mk entry.1, entry.2)
  rw [← hsorted, ← List.map_take, List.map_map]
  rfl

theorem length_ranked (h : v.ranked index = .ok answers) :
    answers.length = index.entityCount := by
  obtain ⟨hsize, rfl⟩ := ranked_eq_ok_iff.1 h
  rw [(descending_perm _ _).length_eq, ← hsize]
  have hlen := congrArg List.length (map_unranked hsize)
  rwa [List.length_map, List.length_map, List.length_zipIdx] at hlen

theorem entityName_of_mem_unranked {a : Answer} (ha : a ∈ v.unranked index) :
    index.entityName a.entity = .ok a.name := by
  obtain ⟨⟨⟨name, p⟩, i⟩, hmem, rfl⟩ := List.mem_map.1 ha
  have hzip := List.mem_zipIdx_iff_getElem?.1 hmem
  have hname : index.entities.name? i = some name := (List.getElem?_zip_eq_some.1 hzip).1
  unfold Index.entityName
  rw [hname]

/-- Every answer has the name that the index gives to its entity. -/
theorem entityName_ranked (h : v.ranked index = .ok answers) :
    ∀ a ∈ answers, index.entityName a.entity = .ok a.name := by
  obtain ⟨-, rfl⟩ := ranked_eq_ok_iff.1 h
  intro a ha
  exact entityName_of_mem_unranked ((descending_perm _ _).mem_iff.1 ha)

end FuzzySet

/-! ### Scores and ranked answers -/

/-- How an answer is to look has no influence on the evaluation. -/
theorem Model.evaluate_onlyScores [Elementary] {m : Model} {s : Settings} (form : Bool)
    (q : Query) : m.evaluate s q = m.evaluate { s with onlyScores := form } q := by
  induction q using QueryOver.induction with
  | entity e => simp only [evaluate]
  | anchored h r => simp only [evaluate]
  | projection q r hne ih => rw [evaluate_projection r hne, evaluate_projection r hne, ih]
  | intersection qs ih =>
    cases qs with
    | nil => simp only [evaluate]
    | cons q qs =>
      rw [evaluate_intersection, evaluate_intersection]
      exact evaluateAll_congr ih
  | union qs ih =>
    cases qs with
    | nil => simp only [evaluate]
    | cons q qs =>
      rw [evaluate_union, evaluate_union]
      exact evaluateAll_congr ih
  | negation q ih =>
    simp only [evaluate]
    rw [ih]

namespace Reasoner

/-- The same reasoner with answers in the given form. -/
def inForm (r : Reasoner) (onlyScores : Bool) : Reasoner where
  model := r.model
  index := r.index
  settings := { r.settings with onlyScores }
  usable := r.usable
  entities_eq := r.entities_eq
  relations_eq := r.relations_eq

variable [Elementary] {r : Reasoner} {tag : String} {payload : Payload} {q : Query} {v : FuzzySet}

/-- An answer comes from a query and an evaluation that has one. -/
theorem answer_eq_ok {result : QueryResult} (h : (r.answer tag payload).result = .ok result) :
    ∃ q v, r.query tag payload = .ok q ∧ (r.evaluate q).result = .ok v := by
  unfold answer at h
  obtain ⟨q, hq, h⟩ := result_bind_eq_ok_iff.1 h
  refine ⟨q, ?_⟩
  cases hquery : r.query tag payload with
  | error e =>
    rw [hquery] at hq
    cases hq
  | ok q' =>
    rw [hquery] at hq
    cases hq
    split at h
    · obtain ⟨v, hv, -⟩ := result_bind_eq_ok_iff.1 h
      exact ⟨v, rfl, hv⟩
    · obtain ⟨answers, hanswers, -⟩ := result_bind_eq_ok_iff.1 h
      obtain ⟨v, hv, -⟩ := result_bind_eq_ok_iff.1 hanswers
      exact ⟨v, rfl, hv⟩

/-- What an evaluation ends with is ranked without asking for anything else. -/
theorem rankedAnswers_of_evaluate (h : (r.evaluate q).result = .ok v) :
    ∃ answers, v.ranked r.index = .ok answers ∧
      r.rankedAnswers q = ⟨(r.evaluate q).usage, .ok answers⟩ := by
  have hsize : v.size = r.index.entityCount :=
    ((r.model.evaluate_covers r.settings q).of_ok h).trans r.entities_eq
  obtain ⟨answers, hanswers, -⟩ := FuzzySet.ranked_covers rfl hsize
  refine ⟨answers, hanswers, ?_⟩
  unfold rankedAnswers
  rw [bind_of_ok h, hanswers]
  ext1
  · exact Usage.append_nothing _
  · rfl

/-- The answer to a bound query, in each of the two forms. -/
theorem answer_inForm (hq : r.query tag payload = .ok q) (hv : (r.evaluate q).result = .ok v) :
    ∃ answers, v.ranked r.index = .ok answers ∧
      (r.inForm true).answer tag payload = ⟨(r.evaluate q).usage, .ok (.scores v)⟩ ∧
      (r.inForm false).answer tag payload = ⟨(r.evaluate q).usage, .ok (.ranked answers)⟩ := by
  have heval : ∀ form, (r.inForm form).evaluate q = r.evaluate q :=
    fun form => (Model.evaluate_onlyScores form q).symm
  have hbound : ∀ form, (Consult.mapError .error (.ofExcept ((r.inForm form).query tag payload)) :
      Evaluation Query) = Pure.pure q := by
    intro form
    show (Consult.mapError .error (.ofExcept (r.query tag payload)) : Evaluation Query) = _
    rw [hq]
    rfl
  obtain ⟨answers, hanswers, -⟩ := rankedAnswers_of_evaluate hv
  refine ⟨answers, hanswers, ?_, ?_⟩
  · unfold answer
    rw [hbound, pure_bind, if_pos (show (r.inForm true).settings.onlyScores = true from rfl),
      bind_of_ok (heval true ▸ hv), heval]
    ext1
    · exact Usage.append_nothing _
    · rfl
  · obtain ⟨answers', hanswers', hranked⟩ := rankedAnswers_of_evaluate (r := r.inForm false)
      (heval false ▸ hv)
    cases hanswers.symm.trans hanswers'
    unfold answer
    rw [hbound, pure_bind, if_neg (show ¬ (r.inForm false).settings.onlyScores = true from nofun),
      hranked, heval, bind_of_ok rfl]
    ext1
    · exact Usage.append_nothing _
    · rfl

/-- **Every answer comes from one evaluation**, whose fuzzy set it shows in either form. -/
theorem answer_inForm_of_ok {form : Bool} {result : QueryResult}
    (h : ((r.inForm form).answer tag payload).result = .ok result) :
    ∃ q v answers, r.query tag payload = .ok q ∧ (r.evaluate q).result = .ok v ∧
      v.ranked r.index = .ok answers ∧
      (r.inForm true).answer tag payload = ⟨(r.evaluate q).usage, .ok (.scores v)⟩ ∧
      (r.inForm false).answer tag payload = ⟨(r.evaluate q).usage, .ok (.ranked answers)⟩ := by
  obtain ⟨q, v, hq, hv⟩ := answer_eq_ok h
  have hv : (r.evaluate q).result = .ok v := by
    rw [evaluate, Model.evaluate_onlyScores form q]
    exact hv
  obtain ⟨answers, hanswers, hforms⟩ := answer_inForm (r := r) hq hv
  exact ⟨q, v, answers, hq, hv, hanswers, hforms⟩

/-- The `k` best answers are the `k` best degrees, with the names of the index. -/
theorem best_of_evaluate (hv : (r.evaluate q).result = .ok v) (k : Nat) :
    ∃ answers, (r.best q k).result = .ok answers ∧ answers.map Answer.entry = v.best k ∧
      ∀ a ∈ answers, r.index.entityName a.entity = .ok a.name := by
  obtain ⟨answers, hanswers, hranked⟩ := rankedAnswers_of_evaluate hv
  refine ⟨answers.take k, ?_, FuzzySet.map_entry_ranked hanswers k, fun a ha => ?_⟩
  · unfold best
    rw [hranked, bind_of_ok rfl]
    rfl
  · exact FuzzySet.entityName_ranked hanswers a (List.mem_of_mem_take ha)

end Reasoner

/-! ### One hop as a link query -/

namespace Model

variable [Elementary] {m : Model} {h : EntityId} {r : RelationId}

/-- A hop has the answer to which the reply of the model leads. -/
theorem hop_leads : (m.hop h r).Ends (m.Leads h r) fun _ => True := by
  have hlogits : (m.hopLogits h r).Ends (fun row => m.tails h r = .ok row) fun _ => True := by
    refine ends_trivial.bind fun _ _ => ends_trivial.bind fun _ _ => ?_
    refine ends_trivial.bind fun _ _ => ?_
    have hreply : (m.askTails h r).Ends (fun row => m.tails h r = .ok row) fun _ => True :=
      ends_of_result (fun _ hrow => hrow) fun _ _ => trivial
    refine hreply.bind fun row hrow => ?_
    split
    · exact ends_pure hrow
    · exact ends_fail trivial
  refine hlogits.bind fun row hrow => ?_
  exact ends_ofExcept (fun v hv => ⟨row, hrow, hv⟩) fun _ _ => trivial

end Model

namespace LinkPredictor

variable [Elementary] {p : LinkPredictor} {h : EntityId} {r : RelationId} {v : FuzzySet}

/-- Without constraints, a link query with an open tail has the scores of a hop. -/
theorem scores_of_leads (hp : p.constraints = none) (hv : p.model.Leads h r v) :
    (p.scores (.missingTail h r)).result = .ok v := by
  obtain ⟨row, hrow, hv⟩ := hv
  have hlogits : (p.logits (.missingTail h r)).result = .ok row := by
    unfold logits
    rw [bind_of_ok (x := p.unmasked (.missingTail h r)) hrow, hp]
    rfl
  unfold scores
  rw [bind_of_ok hlogits]
  exact hv

/-- **Ranked answers are the candidates of the link query**, all of them. -/
theorem candidates_of_ranked (hp : p.constraints = none) (hv : p.model.Leads h r v)
    {answers : List Answer} (hanswers : v.ranked p.index = .ok answers) :
    (p.candidates (.missingTail h r) p.index.entityCount).result =
      .ok (answers.map Answer.candidate) := by
  have hbest : v.best p.index.entityCount = answers.map Answer.entry := by
    rw [← FuzzySet.map_entry_ranked hanswers, List.take_of_length_le]
    exact (FuzzySet.length_ranked hanswers).le
  have hnames : ∀ a ∈ answers,
      p.candidate (.missingTail h r) a.entry = Pure.pure a.candidate := by
    intro a ha
    have hname : p.candidateName (.missingTail h r) a.entity = .ok a.name :=
      FuzzySet.entityName_ranked hanswers a ha
    show (do return ⟨← p.candidateName (.missingTail h r) a.entity, a.entity.index, a.score⟩ :
      Consult GraphError Candidate) = _
    rw [hname]
    rfl
  show (p.scores (.missingTail h r) >>= fun scores =>
    (scores.best p.index.entityCount).mapM (p.candidate (.missingTail h r))).result = _
  rw [bind_of_ok (scores_of_leads hp hv), hbest, List.mapM_map,
    mapM_eq_pure (f := p.candidate (.missingTail h r) ∘ Answer.entry) hnames]
  rfl

end LinkPredictor

namespace Reasoner

variable {r : Reasoner} {head relation : String} {q : Query}

/-- A payload for one hop binds a head and a relation. -/
theorem query_hop1 (h : r.query "1p" (.tuple [.name head, .tuple [.name relation]]) = .ok q) :
    ∃ e rel, r.index.entity head = .ok e ∧ r.index.relation relation = .ok rel ∧
      q = .projection (.entity e) rel := by
  have htag : QueryKind.hop1.Spelled "1p" := .inl rfl
  have hbound := (query_of_spelled htag).symm.trans h
  obtain ⟨-, named, hnamed, hresolve⟩ := Query.ofPayload_eq_ok hbound
  have hshape : named = .projection (.entity head) relation := (Option.some.inj hnamed).symm
  rw [hshape] at hresolve
  obtain ⟨source, hsource, hrest⟩ := except_bind_eq_ok_iff.1 hresolve
  obtain ⟨e, he, hentity⟩ := except_bind_eq_ok_iff.1 hsource
  obtain ⟨rel, hrel, hq⟩ := except_bind_eq_ok_iff.1 hrest
  cases hentity
  exact ⟨e, rel, he, hrel, (Except.ok.inj hq).symm⟩

/-- The link predictor over the model and the index of a reasoner. -/
def predictor (r : Reasoner) : LinkPredictor :=
  ⟨r.model, r.index, none, r.entities_eq, r.relations_eq, nofun⟩

theorem new_predictor (r : Reasoner) : LinkPredictor.new r.model r.index = .ok r.predictor :=
  LinkPredictor.new_eq_ok r.entities_eq r.relations_eq

/-- **All ways of asking agree.**  Ranked answers are the ranked scores, and cost the same
requests; the best answers are the best degrees, with the names of the index; and the ranked
answer to one hop lists the candidates of the link query with an open tail. -/
theorem ways_of_asking_agree [Elementary] (r : Reasoner) :
    (∀ tag payload form result,
      (r.model.answer r.index tag payload { r.settings with onlyScores := form }).result =
          .ok result →
        ∃ v answers usage, v.ranked r.index = .ok answers ∧
          r.model.answer r.index tag payload { r.settings with onlyScores := true } =
            ⟨usage, .ok (.scores v)⟩ ∧
          r.model.answer r.index tag payload { r.settings with onlyScores := false } =
            ⟨usage, .ok (.ranked answers)⟩) ∧
    (∀ q v, (r.evaluate q).result = .ok v → ∀ k,
      ∃ answers, (r.best q k).result = .ok answers ∧ answers.map Answer.entry = v.best k ∧
        ∀ a ∈ answers, r.index.entityName a.entity = .ok a.name) ∧
    ∀ head relation answers,
      (r.model.answer r.index "1p" (.tuple [.name head, .tuple [.name relation]])
          { r.settings with onlyScores := false }).result = .ok (.ranked answers) →
        ∃ p q, LinkPredictor.new r.model r.index = .ok p ∧
          LinkQuery.ofNames r.index (some head) (some relation) none = .ok q ∧
          (p.candidates q r.index.entityCount).result = .ok (answers.map Answer.candidate) := by
  have hform : ∀ (tag : String) (payload : Payload) (form : Bool),
      r.model.answer r.index tag payload { r.settings with onlyScores := form } =
        (r.inForm form).answer tag payload := fun _ _ form => Model.answer_eq (r.inForm form)
  refine ⟨fun tag payload form result h => ?_, fun q v hv k => best_of_evaluate hv k,
    fun head relation answers h => ?_⟩
  · rw [hform] at h
    obtain ⟨q, v, answers, -, -, hanswers, hscores, hranked⟩ := answer_inForm_of_ok h
    exact ⟨v, answers, (r.evaluate q).usage, hanswers, (hform _ _ _).trans hscores,
      (hform _ _ _).trans hranked⟩
  · rw [hform] at h
    obtain ⟨q, v, answers', hq, hv, hanswers, -, hranked⟩ := answer_inForm_of_ok h
    rw [hranked] at h
    cases h
    obtain ⟨e, rel, he, hrel, rfl⟩ := query_hop1 hq
    have hleads : r.model.Leads e rel v := by
      refine Model.hop_leads.of_ok (x := r.model.hop e rel) ?_
      exact result_mapError_eq_ok_iff.1 hv
    refine ⟨r.predictor, .missingTail e rel, r.new_predictor, ?_, ?_⟩
    · unfold LinkQuery.ofNames
      rw [Option.mapM_some, Option.mapM_some, he, hrel]
      rfl
    · exact LinkPredictor.candidates_of_ranked (p := r.predictor) rfl hleads hanswers

/-- Asked where `left` leads through `other`, the two-entity graph has `right` first. -/
theorem ways_of_asking_agree_swap :
    ∃ p q, LinkPredictor.new swap.model swap.index = .ok p ∧
      LinkQuery.ofNames swap.index (some "left") (some "other") none = .ok q ∧
      (@LinkPredictor.candidates Elementary.steep p q 2).result =
        .ok [⟨"right", 1, 1⟩, ⟨"left", 0, 0⟩] :=
  (@ways_of_asking_agree Elementary.steep swap).2.2 "left" "other"
    [⟨⟨1⟩, "right", 1⟩, ⟨⟨0⟩, "left", 0⟩] (by decide +kernel)

end Reasoner

end MultiHop
