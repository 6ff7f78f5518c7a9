/-
MultiHop/Proofs/Query/Disjunction.lean

What the answer to a union retains of the answers to its operands.  With the larger of two
degrees it is all of them: no operand is above the union, and an operand that is zero everywhere
changes nothing.  The probabilistic sum keeps to that from one half on, and below within half a
step of the complements, `2 ^ -25` (`Reasoner.evaluate_union_retains`).

Degrees of that size are lost entirely.  Twenty-five coins fall on one side with a probability of
`2 ^ -25`, and in a union with an operand that is zero everywhere nothing is left of it
(`Reasoner.evaluate_union_loses_coins`).
-/
import MultiHop.Proofs.Fuzzy.Disjunction
import MultiHop.Proofs.Query.Combination

namespace MultiHop

open Single

namespace Model

variable [Elementary] {m : Model} {s : Settings} {q z : Query} {qs before after : List Query}
  {e : EntityId} {p u : Float32}

section

variable (laws : Elementary.Bounded) (signs : Elementary.Unsigned) (hm : m.WellShaped)
  (hs : s.negation.Admits s.lambda)

include laws signs hm hs

/-- A union hands a single operand on and retains something of each of several. -/
theorem retained_le_of_hasDegree_union (hq : q ∈ qs) (hp : m.HasDegree s e q p)
    (hu : m.HasDegree s e (.union qs) u) : u = p ∨ s.tnorm.retained p ≤ u := by
  obtain ⟨-, ps, hps, rfl⟩ := (hasDegree_query (c := .union)).1 hu
  have hmem : p ∈ ps := (mem_iff_of_forall₂ hps).2 ⟨q, hq, hp⟩
  exact s.tnorm.retained_le_combined (isDegree_of_forall₂ laws signs hm hs hps) hmem

/-- No operand is above the union, up to half a step of the complements. -/
theorem le_of_hasDegree_union (hq : q ∈ qs) (hp : m.HasDegree s e q p)
    (hu : m.HasDegree s e (.union qs) u) :
    (s.tnorm = .minimum ∨ 1 / 2 ≤ toReal p → p ≤ u) ∧ toReal p ≤ toReal u + 2 ^ (-25 : ℤ) := by
  have hprob := (hp.isDegree laws signs hm hs).probable
  have hfin := (hu.isDegree laws signs hm hs).probable.isFinite
  rcases retained_le_of_hasDegree_union laws signs hm hs hq hp hu with rfl | hle
  · have hstep : (0 : ℝ) ≤ 2 ^ (-25 : ℤ) := by positivity
    exact ⟨fun _ => le_self hprob.isNaN, by linarith⟩
  · constructor
    · intro hlarge
      rwa [s.tnorm.retained_eq hprob hlarge] at hle
    · have hnear := abs_le.1 (s.tnorm.abs_toReal_retained hprob)
      rw [le_iff_toReal (s.tnorm.isProbability_retained hprob).isFinite hfin] at hle
      linarith [hnear.1]

/-- An operand that is zero leaves what a union retains of the others. -/
theorem hasDegree_union_of_zero (hz : m.HasDegree s e z 0)
    (hp : m.HasDegree s e (.union (before ++ after)) p) :
    m.HasDegree s e (.union (before ++ z :: after)) (s.tnorm.retained p) := by
  obtain ⟨hne, ps, hps, rfl⟩ := (hasDegree_query (c := .union)).1 hp
  have hdegree : ∀ qs' ⊆ before ++ after, ∃ ps, List.Forall₂ (m.HasDegree s e) qs' ps := by
    intro qs' hsub
    refine exists_forall₂_hasDegree fun q hq => ?_
    obtain ⟨p, -, hp⟩ := exists_mem_of_forall₂ hps (hsub hq)
    exact ⟨p, hp⟩
  obtain ⟨bs, hbs⟩ := hdegree before (List.subset_append_left before after)
  obtain ⟨as, has⟩ := hdegree after (List.subset_append_right before after)
  have hall : List.Forall₂ (m.HasDegree s e) (before ++ after) (bs ++ as) :=
    List.rel_append hbs has
  obtain rfl := forall₂_unique hps hall
  refine (hasDegree_query (c := .union)).2 ⟨by simp, bs ++ 0 :: as,
    List.rel_append hbs (.cons hz has), ?_⟩
  have hbefore := isDegree_of_forall₂ laws signs hm hs hbs
  have hafter := isDegree_of_forall₂ laws signs hm hs has
  exact (s.tnorm.combined_join_zero (ne_nil_of_forall₂ hall hne) hbefore hafter).symm

/-- An operand that has no entity to a positive degree has every entity to the degree zero. -/
theorem hasDegree_zero {v : FuzzySet} (hv : (m.evaluate s z).result = .ok v)
    (hzero : ∀ p ∈ v.degrees, p ≤ 0) (he : e.index < m.entityCount) : m.HasDegree s e z 0 := by
  obtain ⟨a, ha⟩ := exists_hasDegree hv he
  have hle := hzero a (List.mem_of_getElem? (ha.degree?_eq hv))
  have hdegree := ha.isDegree laws signs hm hs
  obtain rfl : a = 0 := hdegree.eq_of_le_of_le isDegree_zero hle hdegree.probable.1
  exact ha

/-- With the larger of two degrees everything is retained as it is, and so is a union of two
operands or more. -/
theorem retained_of_hasDegree_union (h : s.tnorm = .minimum ∨ 2 ≤ qs.length)
    (hp : m.HasDegree s e (.union qs) p) : s.tnorm.retained p = p := by
  rcases h with ht | htwo
  · rw [ht]
    rfl
  · obtain ⟨-, ps, hps, rfl⟩ := (hasDegree_query (c := .union)).1 hp
    exact s.tnorm.retained_combined (isDegree_of_forall₂ laws signs hm hs hps)
      (hps.length_eq ▸ htwo)

end

end Model

open Model

/-- **What a union retains.**  Let a union have an answer.  Then all operands have one, and no
operand is above the union, up to half a step of the complements; with the larger of two
degrees, or from one half on, it is not above it at all.  Furthermore, an operand that is zero
everywhere may be left out: with the larger of two degrees, or if two operands are left, this
changes no degree, and otherwise none from one half on, and none by more than half a step. -/
theorem Reasoner.evaluate_union_retains [Elementary] (laws : Elementary.Bounded)
    (signs : Elementary.Unsigned) (r : Reasoner) (hm : r.model.WellShaped) {qs : List Query}
    {w : FuzzySet} (hw : (r.evaluate (.union qs)).result = .ok w) :
    (∀ q ∈ qs, ∃ v, (r.evaluate q).result = .ok v ∧ ∀ e p, v.degree? e = some p →
      ∃ u, w.degree? e = some u ∧
        (r.settings.tnorm = .minimum ∨ 1 / 2 ≤ toReal p → p ≤ u) ∧
        toReal p ≤ toReal u + 2 ^ (-25 : ℤ)) ∧
    ∀ before z after v, qs = before ++ z :: after → before ++ after ≠ [] →
      (r.evaluate z).result = .ok v → (∀ p ∈ v.degrees, p ≤ 0) →
      ∃ w', (r.evaluate (.union (before ++ after))).result = .ok w' ∧
        (r.settings.tnorm = .minimum ∨ 2 ≤ (before ++ after).length → w = w') ∧
        ∀ e p, w'.degree? e = some p → ∃ u, w.degree? e = some u ∧
          (1 / 2 ≤ toReal p → u = p) ∧ |toReal u - toReal p| ≤ 2 ^ (-25 : ℤ) := by
  have hadmits := r.admits
  have hall := ((exists_ok_query_iff (c := .union)).1 ⟨w, hw⟩).2
  constructor
  · intro q hq
    obtain ⟨v, hv⟩ := hall q hq
    refine ⟨v, hv, fun e p hp => ?_⟩
    have hqp : r.model.HasDegree r.settings e q p := ⟨v, hv, hp⟩
    obtain ⟨u, hu⟩ := exists_hasDegree hw hqp.index_lt
    exact ⟨u, hu.degree?_eq hw, le_of_hasDegree_union laws signs hm hadmits hq hqp hu⟩
  · rintro before z after v rfl hne hv hzero
    have hrest : ∀ q ∈ before ++ after, ∃ v, (r.evaluate q).result = .ok v := by
      intro q hq
      apply hall
      rw [List.mem_append] at hq
      rw [List.mem_append, List.mem_cons]
      exact hq.imp_right .inr
    obtain ⟨w', hw'⟩ := (exists_ok_query_iff (c := .union)).2 ⟨hne, hrest⟩
    have hretained : ∀ e p, r.model.HasDegree r.settings e (.union (before ++ after)) p →
        r.model.HasDegree r.settings e (.union (before ++ z :: after))
          (r.settings.tnorm.retained p) := by
      intro e p hp
      have hz := hasDegree_zero laws signs hm hadmits hv hzero hp.index_lt
      exact hasDegree_union_of_zero laws signs hm hadmits hz hp
    refine ⟨w', hw', fun h => ?_, fun e p hp => ?_⟩
    · refine (eq_of_hasDegree hw' hw fun e p hp => ?_).symm
      have hp' := hretained e p hp
      rwa [retained_of_hasDegree_union laws signs hm hadmits h hp] at hp'
    · have hprob := w'.probable p (List.mem_of_getElem? hp)
      refine ⟨_, (hretained e p ⟨w', hw', hp⟩).degree?_eq hw, fun hlarge => ?_,
        r.settings.tnorm.abs_toReal_retained hprob⟩
      exact r.settings.tnorm.retained_eq hprob (.inr hlarge)

/-- A query that no entity answers: two anchors at once. -/
def QueryOver.nothing : Query := .intersection [.entity ⟨0⟩, .entity ⟨1⟩]

/-- Leaving nothing out of three operands changes no degree. -/
theorem Reasoner.evaluate_union_retains_swap :
    ∃ w, (@evaluate Elementary.steep .swap
        (.union [.entity ⟨0⟩, .nothing, .entity ⟨1⟩])).result = .ok w ∧
      (@evaluate Elementary.steep .swap (.union [.entity ⟨0⟩, .entity ⟨1⟩])).result = .ok w := by
  have hdegrees : (@evaluate Elementary.steep .swap .nothing).result.map (·.degrees) =
      .ok [0, 0] := by decide +kernel
  have hsome : (@evaluate Elementary.steep .swap
      (.union [.entity ⟨0⟩, .nothing, .entity ⟨1⟩])).result.map (·.degrees) = .ok [1, 1] := by
    decide +kernel
  obtain ⟨v, hv, hzero⟩ := except_map_eq_ok_iff.1 hdegrees
  obtain ⟨w, hw, -⟩ := except_map_eq_ok_iff.1 hsome
  obtain ⟨-, hleft⟩ := @evaluate_union_retains Elementary.steep Elementary.bounded_steep
    Elementary.unsigned_steep .swap Model.wellShaped_swap _ _ hw
  obtain ⟨w', hw', hsame, -⟩ := hleft [.entity ⟨0⟩] .nothing [.entity ⟨1⟩] v rfl (by simp) hv
    (by rw [hzero]; decide +kernel)
  obtain rfl := hsame (.inr le_rfl)
  exact ⟨w, hw, hw'⟩

/-! ### Coins -/

/-- Two sides, and a toss that leads to either of them. -/
def Model.coin : Model where
  entityCount := 2
  relationCount := 1
  tails _ _ := .ok [0, 0]
  triple _ _ _ := .ok 0

/-- A reasoner over it. -/
def Reasoner.coin : Reasoner where
  model := .coin
  index := ⟨⟨["heads", "tails"], by decide⟩, ⟨["toss"], by decide⟩⟩
  settings := ⟨.product, .standard, 0, 1, false⟩
  usable := by decide +kernel
  entities_eq := rfl
  relations_eq := rfl

/-- What `n` tosses lead to all together. -/
def QueryOver.tosses (n : Nat) : Query :=
  .intersection (List.replicate n (.projection (.entity ⟨0⟩) ⟨0⟩))

/-- The degrees of twenty-five tosses are not zero; a union with an operand that is zero
everywhere has them lower, namely at zero. -/
theorem Reasoner.evaluate_union_loses_coins :
    (@evaluate Elementary.steep .coin (.tosses 25)).result.map (·.degrees) =
        .ok [1 / 33554432, 1 / 33554432] ∧
      (@evaluate Elementary.steep .coin .nothing).result.map (·.degrees) = .ok [0, 0] ∧
      (@evaluate Elementary.steep .coin
        (.union [.tosses 25, .nothing])).result.map (·.degrees) = .ok [0, 0] ∧
      ¬ (1 / 33554432 : Float32) ≤ 0 := by
  decide +kernel

end MultiHop
