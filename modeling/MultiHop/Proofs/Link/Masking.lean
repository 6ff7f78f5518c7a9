/-
MultiHop/Proofs/Link/Masking.lean

Where masked candidates stand.  Constraints put the logit of a candidate that they do not
allow to negative infinity, and so its probability to zero; candidates are then listed by
probability, and those of one probability by position.  A masked candidate therefore stands
behind every allowed one that has a probability above zero.  But a probability is a rounded
number, and that of a low logit is zero as well: an allowed candidate of this kind stands
behind a masked one of lower position (`LinkPredictor.candidates_masked`).
-/
import MultiHop.Link.Predictor
import MultiHop.Proofs.Consult
import MultiHop.Proofs.Fuzzy.Crisp
import MultiHop.Proofs.Score.TopK
import MultiHop.Proofs.Single.Order

namespace MultiHop

open Consult
open Single (infinity)

/-! ### What is masked -/

/-- The relation of a query whose open slot is that of an entity. -/
def LinkQuery.maskedBy? : LinkQuery → Option RelationId
  | .missingHead r _ | .missingTail _ r => some r
  | .missingRelation _ _ | .triple _ _ _ => none

namespace Constraints

/-- Whether the constraints allow `e` for the open slot of a query. -/
def allows (c : Constraints) : LinkQuery → EntityId → Bool
  | .missingHead r _, e => c.allowsHead r e
  | .missingTail _ r, e => c.allowsTail r e
  | .missingRelation _ _, _ | .triple _ _ _, _ => true

variable {c : Constraints} {q : LinkQuery} {r : RelationId} {row : List Float32}

theorem mask_eq (hq : q.maskedBy? = some r) (hr : r.index < c.relationCount)
    (hlen : row.length = c.entityCount) : c.mask q row = .ok (maskBy (c.allows q) row) := by
  cases q with
  | missingHead r' t =>
    cases hq
    rw [mask, mask.masked, if_neg (Nat.not_le.2 hr), if_neg (not_not.2 hlen)]
    rfl
  | missingTail h r' =>
    cases hq
    rw [mask, mask.masked, if_neg (Nat.not_le.2 hr), if_neg (not_not.2 hlen)]
    rfl
  | missingRelation h t => cases hq
  | triple h r' t => cases hq

theorem length_maskBy (allowed : EntityId → Bool) (row : List Float32) :
    (maskBy allowed row).length = row.length := by
  unfold maskBy
  rw [List.length_mapIdx]

/-- Masking keeps the number of candidates. -/
theorem length_of_mask {masked : List Float32} (h : c.mask q row = .ok masked) :
    masked.length = row.length := by
  have hmasked : ∀ r allowed, mask.masked c row r allowed = .ok masked →
      masked.length = row.length := by
    intro r allowed h
    unfold mask.masked at h
    split_ifs at h
    cases h
    exact length_maskBy allowed row
  cases q with
  | missingHead r t => exact hmasked r _ h
  | missingTail h' r => exact hmasked r _ h
  | missingRelation h' t =>
    cases h
    rfl
  | triple h' r t =>
    cases h
    rfl

theorem getElem?_maskBy (allowed : EntityId → Bool) (row : List Float32) (i : Nat) :
    (maskBy allowed row)[i]? =
      row[i]?.map fun x => if allowed ⟨i⟩ then x else negInfinity := by
  unfold maskBy
  rw [List.getElem?_mapIdx]

theorem mem_or_eq_of_mem_maskBy {allowed : EntityId → Bool} {y : Float32}
    (hy : y ∈ maskBy allowed row) : y ∈ row ∨ y = negInfinity := by
  obtain ⟨i, hi⟩ := List.mem_iff_getElem?.1 hy
  rw [getElem?_maskBy, Option.map_eq_some_iff] at hi
  obtain ⟨x, hx, rfl⟩ := hi
  split
  · exact .inl (List.mem_of_getElem? hx)
  · exact .inr rfl

theorem isNaN_of_mem_maskBy (allowed : EntityId → Bool) (hrow : ∀ x ∈ row, x.isNaN = false) :
    ∀ x ∈ maskBy allowed row, x.isNaN = false := by
  intro y hy
  rcases mem_or_eq_of_mem_maskBy hy with hmem | rfl
  · exact hrow y hmem
  · decide +kernel

end Constraints

/-! ### What is listed -/

namespace LinkPredictor

variable {p : LinkPredictor} {q : LinkQuery} {r : RelationId} {v : FuzzySet}

/-- A model and an index of the same sizes make a predictor. -/
theorem new_eq_ok {m : Model} {index : Index} (hentities : m.entityCount = index.entityCount)
    (hrelations : m.relationCount = index.relationCount) :
    new m index =
      .ok ⟨m, index, none, hentities, hrelations, fun _ h => absurd h (Option.not_mem_none _)⟩ := by
  unfold new
  split
  · rfl
  · next hne =>
    exact (hne hentities hrelations (Subsingleton.elim _ _) (Subsingleton.elim _ _)).elim

theorem candidateName_ends (hq : q.maskedBy? = some r) {e : EntityId}
    (he : e.index < p.index.entityCount) :
    (ofExcept (p.candidateName q e)).Ends (fun _ => True) fun _ => False := by
  have hname : p.candidateName q e = p.index.entityName e := by
    unfold candidateName
    cases q <;> first | rfl | cases hq
  have hget : p.index.entities.name? e.index = some p.index.entities.names[e.index] :=
    List.getElem?_eq_getElem he
  rw [hname, Index.entityName, hget]
  exact trivial

/-- The candidate that a position and its degree make. -/
def candidate (p : LinkPredictor) (q : LinkQuery) (entry : EntityId × Float32) :
    Consult GraphError Candidate := do
  return ⟨← p.candidateName q entry.1, entry.1.index, entry.2⟩

/-- The candidates are the best degrees with their positions. -/
theorem candidates_ends [Elementary] (hq : q.maskedBy? = some r) (hv : (p.scores q).result = .ok v)
    (hsize : v.size = p.index.entityCount) (k : Nat) :
    (p.candidates q k).Ends
      (fun list => list.map (fun d => (d.position, d.score)) = topKBy rankOf k v.degrees)
      fun _ => False := by
  have hcandidates : p.candidates q k = p.scores q >>= fun scores =>
      (scores.best k).mapM (p.candidate q) := by
    cases q <;> first | rfl | cases hq
  rw [hcandidates]
  refine ends_bind_of_ok hv ?_
  refine (ends_mapM (S := fun entry d => (entry.1.index, entry.2) = (d.position, d.score))
    fun entry hentry => ?_).mono (fun list hlist => ?_) fun _ h => h
  · obtain ⟨⟨i, x⟩, hmem, rfl⟩ := List.mem_map.1 hentry
    have hlt := (List.getElem?_eq_some_iff.1 (getElem?_of_mem_topKBy hmem)).1
    exact (candidateName_ends hq (hlt.trans_eq hsize)).bind fun name _ => ends_pure rfl
  · have hmaps : List.Forall₂ Eq ((v.best k).map fun entry => (entry.1.index, entry.2))
        (list.map fun d => (d.position, d.score)) :=
      List.forall₂_map_left_iff.2 (List.forall₂_map_right_iff.2 hlist)
    rw [List.forall₂_eq_eq_eq] at hmaps
    rw [← hmaps, FuzzySet.best, List.map_map]
    exact List.map_id _

section

variable {degrees : List Float32} {list : List Candidate} {k i n : Nat} {d : Candidate}
  {x : Float32} (hlist : list.map (fun d => (d.position, d.score)) = topKBy rankOf k degrees)

include hlist

theorem getElem?_listed (hd : list[i]? = some d) :
    (topKBy rankOf k degrees)[i]? = some (d.position, d.score) := by
  rw [← hlist, List.getElem?_map, hd]
  rfl

theorem degree_of_listed (hd : list[i]? = some d) : degrees[d.position]? = some d.score :=
  getElem?_of_mem_topKBy (List.mem_of_getElem? (getElem?_listed hlist hd))

/-- Where the candidate of a position is listed. -/
theorem listed_at_iff (hx : degrees[n]? = some x) (j : Nat) :
    (∃ d, list[j]? = some d ∧ d.position = n) ↔ (topKBy rankOf k degrees)[j]? = some (n, x) := by
  constructor
  · rintro ⟨d, hd, rfl⟩
    have hscore := degree_of_listed hlist hd
    rw [hx] at hscore
    cases hscore
    exact getElem?_listed hlist hd
  · intro hj
    rw [← hlist, List.getElem?_map, Option.map_eq_some_iff] at hj
    obtain ⟨d, hd, heq⟩ := hj
    exact ⟨d, hd, congrArg Prod.fst heq⟩

/-- What stands before a listed candidate is what precedes it by degree and position. -/
theorem listed_before_iff (hd : list[i]? = some d) (hx : degrees[n]? = some x) :
    (∃ j < i, ∃ b, list[j]? = some b ∧ b.position = n) ↔
      Precedes rankOf (n, x) (d.position, d.score) := by
  rw [← before_iff (a := (n, x)) hx (getElem?_listed hlist hd)]
  exact exists_congr fun j => and_congr_right fun _ => listed_at_iff hlist hx j

end

/-! ### Where masked candidates stand -/

/-- Numbers that the model replies with are made into degrees after the masking. -/
theorem scores_masked [Elementary] (laws : Elementary.Bounded) {c : Constraints}
    (hc : p.constraints = some c) (hq : q.maskedBy? = some r)
    (hr : r.index < p.index.relationCount) {row : List Float32}
    (hrow : (p.unmasked q).result = .ok row) (hlen : row.length = p.index.entityCount)
    (hnan : ∀ x ∈ row, x.isNaN = false) :
    ∃ v, (p.scores q).result = .ok v ∧ v.size = p.index.entityCount ∧
      ∀ i : Nat, v.degrees[i]? =
        row[i]?.map fun x => sigmoid (if c.allows q ⟨i⟩ then x else negInfinity) := by
  obtain ⟨hentities, hrelations⟩ := p.fits c hc
  obtain ⟨v, hv, hdegrees⟩ := FuzzySet.ofLogits_eq laws
    (Constraints.isNaN_of_mem_maskBy (c.allows q) hnan)
  have hmask := Constraints.mask_eq hq (hr.trans_eq hrelations.symm) (hlen.trans hentities.symm)
  have hlogits : (p.logits q).result = .ok (Constraints.maskBy (c.allows q) row) := by
    unfold logits
    rw [bind_of_ok hrow, hc]
    exact hmask
  refine ⟨v, ?_, ?_, fun i => ?_⟩
  · unfold scores
    rw [bind_of_ok hlogits]
    exact hv
  · rw [FuzzySet.size, hdegrees, List.length_map, Constraints.length_maskBy, hlen]
  · rw [hdegrees, List.getElem?_map, Constraints.getElem?_maskBy, Option.map_map]
    rfl

theorem sigmoid_negInfinity [Elementary] (hexp : Elementary.exp infinity = infinity) :
    sigmoid negInfinity = 0 := by
  rw [show negInfinity = -infinity by decide +kernel]
  exact sigmoid_neg_infinity hexp

theorem precedes_zero_iff {x : Float32} (hx : 0 < x ∨ x = 0) {i j : Nat} :
    Precedes rankOf (i, x) (j, 0) ↔ 0 < x ∨ i < j := by
  unfold Precedes
  rcases hx with hx | rfl
  · exact ⟨fun _ => .inl hx, fun _ => .inl (Single.rankOf_lt_of_lt hx)⟩
  · have hirrefl : ¬ (0 : Float32) < 0 := by decide +kernel
    simp [hirrefl]

/-- **A masked candidate has the score zero, and exactly those allowed ones stand before it
that have a higher score or a lower position.**  What does not stand before it is listed
after it or not at all. -/
theorem candidates_masked [Elementary] (laws : Elementary.Bounded)
    (hexp : Elementary.exp infinity = infinity) (p : LinkPredictor) {c : Constraints}
    (hc : p.constraints = some c) {q : LinkQuery} {r : RelationId} (hq : q.maskedBy? = some r)
    (hr : r.index < p.index.relationCount) {row : List Float32}
    (hrow : (p.unmasked q).result = .ok row) (hlen : row.length = p.index.entityCount)
    (hnan : ∀ x ∈ row, x.isNaN = false) (k : Nat) :
    ∃ list : List Candidate, (p.candidates q k).result = .ok list ∧
      list.length = min k p.index.entityCount ∧
      ∀ (i : Nat) d, list[i]? = some d → c.allows q ⟨d.position⟩ = false → d.score = 0 ∧
        ∀ (a : EntityId) x, c.allows q a = true → row[a.index]? = some x →
          ((∃ j < i, ∃ b, list[j]? = some b ∧ b.position = a.index) ↔
            0 < sigmoid x ∨ a.index < d.position) := by
  obtain ⟨v, hv, hsize, hdegree⟩ := scores_masked laws hc hq hr hrow hlen hnan
  obtain ⟨list, hresult, hlist⟩ := (candidates_ends hq hv hsize k).exists_ok
  refine ⟨list, hresult, ?_, fun i d hd hnot => ?_⟩
  · have hlength := congrArg List.length hlist
    rw [List.length_map, length_topKBy] at hlength
    rw [hlength]
    exact congrArg (min k) hsize
  have hscore : d.score = 0 := by
    have hmasked := degree_of_listed hlist hd
    rw [hdegree d.position, hnot, Option.map_eq_some_iff] at hmasked
    obtain ⟨_, -, hd⟩ := hmasked
    exact hd ▸ sigmoid_negInfinity hexp
  refine ⟨hscore, fun a x ha hx => ?_⟩
  have hallowed : v.degrees[a.index]? = some (sigmoid x) := by
    rw [hdegree a.index, hx, ha]
    rfl
  have hsigmoid := zero_lt_sigmoid_or_eq laws (hnan x (List.mem_of_getElem? hx))
  rw [listed_before_iff hlist hd hallowed, hscore, precedes_zero_iff hsigmoid]

/-- Two entities with fixed logits as a tail, of which only the second is allowed. -/
def secondAllowed (first second : Float32) : LinkPredictor where
  model := {
    entityCount := 2
    relationCount := 1
    tails := fun _ _ => .ok [first, second]
    triple := fun _ _ t => .ok (if t.index = 0 then first else second) }
  index := ⟨⟨["first", "second"], by decide⟩, ⟨["points to"], by decide⟩⟩
  constraints := some ⟨2, 1, [⟨⟨0⟩, ⟨0⟩, ⟨1⟩⟩]⟩
  entities_eq := rfl
  relations_eq := rfl
  fits := by
    intro c hc
    cases hc
    exact ⟨rfl, rfl⟩

theorem candidates_masked_secondAllowed :
    ∃ list : List Candidate,
      (@candidates Elementary.steep (secondAllowed 5 3) (.missingTail ⟨0⟩ ⟨0⟩) 2).result =
        .ok list ∧
      ∀ (i : Nat) d, list[i]? = some d → d.position = 0 →
        ∃ j < i, ∃ b, list[j]? = some b ∧ b.position = 1 := by
  obtain ⟨list, hlist, -, hmasked⟩ := @candidates_masked Elementary.steep
    Elementary.bounded_steep (@Elementary.Crisp.exp_infinity Elementary.steep
      Elementary.crisp_steep) (secondAllowed 5 3) _ rfl
    (.missingTail ⟨0⟩ ⟨0⟩) ⟨0⟩ rfl Nat.zero_lt_one [5, 3] rfl rfl (by decide +kernel) 2
  refine ⟨list, hlist, fun i d hd hposition => ?_⟩
  have hnot : (Constraints.mk 2 1 [⟨⟨0⟩, ⟨0⟩, ⟨1⟩⟩]).allows (.missingTail ⟨0⟩ ⟨0⟩) ⟨d.position⟩ =
      false := by
    rw [hposition]
    rfl
  obtain ⟨-, hbefore⟩ := hmasked i d hd hnot
  exact (hbefore ⟨1⟩ 3 rfl rfl).2 (.inl (by decide +kernel))

/-- The probability of the second entity underflows, so the first one, which is not allowed,
stands before it; and it alone is listed if only one candidate is asked for. -/
theorem candidates_underflow_secondAllowed :
    (∀ c ∈ (secondAllowed 3 (-100)).constraints,
      c.allows (.missingTail ⟨0⟩ ⟨0⟩) ⟨0⟩ = false ∧ c.allows (.missingTail ⟨0⟩ ⟨0⟩) ⟨1⟩ = true) ∧
    (@candidates Elementary.steep (secondAllowed 3 (-100)) (.missingTail ⟨0⟩ ⟨0⟩) 2).result =
      .ok [⟨"first", 0, 0⟩, ⟨"second", 1, 0⟩] ∧
    (@candidates Elementary.steep (secondAllowed 3 (-100)) (.missingTail ⟨0⟩ ⟨0⟩) 1).result =
      .ok [⟨"first", 0, 0⟩] := by
  decide +kernel

end LinkPredictor

end MultiHop
