/-
MultiHop/Proofs/Rank/Listing.lean

Listed candidates and ranks.  A predictor lists candidates by their degrees, and of one degree by
position; an evaluation ranks them by counting larger logits.  The sigmoid leads from the one to
the other and keeps the order (`sigmoid_le_sigmoid`), but it may make different logits equal.  So
three sets of positions are to be compared for a candidate: those that precede it in the list,
those of larger degrees, and those of larger logits.  What has a larger degree has a larger logit
and precedes the candidate, and if all degrees are different then the three sets are one.

Main result: `LinkPredictor.listed_where_ranked`.
-/
import MultiHop.Proofs.Link.Masking
import MultiHop.Proofs.Rank.Filtering
import MultiHop.Proofs.Score.Sigmoid

namespace MultiHop

open Consult Single

/-- The query for the entities that may stand at a place of a triple. -/
def Triple.openAt (t : Triple) : Place → LinkQuery
  | .head => .missingHead t.relation t.tail
  | .tail => .missingTail t.head t.relation

theorem Triple.maskedBy?_openAt (t : Triple) (place : Place) :
    (t.openAt place).maskedBy? = some t.relation := by
  cases place <;> rfl

/-! ### Larger degrees and larger logits -/

theorem getElem?_map_sigmoid [Elementary] {row : List Float32} {x : Float32} {i : Nat}
    (hx : row[i]? = some x) : (row.map sigmoid)[i]? = some (sigmoid x) := by
  rw [List.getElem?_map, hx]
  rfl

section

variable [Elementary] (laws : Elementary.ExpGrows) {row : List Float32} {x : Float32}
  (hnum : ∀ y ∈ row, y.isNaN = false)

include laws hnum

theorem isNaN_of_mem_map_sigmoid : ∀ s ∈ row.map sigmoid, s.isNaN = false :=
  List.forall_mem_map.2 fun y hy => (laws.isProbability_sigmoid (hnum y hy)).isNaN

/-- A larger degree comes of a larger logit. -/
theorem above_map_sigmoid_subset (hx : x ∈ row) :
    above (row.map sigmoid) (sigmoid x) ⊆ above row x := by
  intro i hi
  obtain ⟨s, hs, hlt⟩ := mem_above.1 hi
  rw [List.getElem?_map, Option.map_eq_some_iff] at hs
  obtain ⟨y, hy, rfl⟩ := hs
  refine mem_above.2 ⟨y, hy, ?_⟩
  by_contra hnot
  have hle := (not_lt_iff (hnum x hx) (hnum y (List.mem_of_getElem? hy))).1 hnot
  exact not_lt_self _ (le_lt_chain (sigmoid_le_sigmoid laws hle) hlt)

/-- If no two degrees are equal, then a larger logit leads to a larger degree as well. -/
theorem above_map_sigmoid (hdiff : (row.map sigmoid).Pairwise fun x y => (x != y) = true)
    {i : Nat} (hx : row[i]? = some x) :
    above (row.map sigmoid) (sigmoid x) = above row x := by
  have hsubset := above_map_sigmoid_subset laws hnum (List.mem_of_getElem? hx)
  refine hsubset.antisymm fun j hj => ?_
  obtain ⟨y, hy, hlt⟩ := mem_above.1 hj
  have hne : i ≠ j := by
    rintro rfl
    exact notMem_above hx hj
  have hsizes := lt_or_lt_of_pairwise (isNaN_of_mem_map_sigmoid laws hnum) hdiff
    (getElem?_map_sigmoid hx) (getElem?_map_sigmoid hy) hne
  refine mem_above.2 ⟨sigmoid y, getElem?_map_sigmoid hy, hsizes.resolve_right fun hgt => ?_⟩
  exact not_lt_self _ (le_lt_chain (sigmoid_le_sigmoid laws (le_of_less hlt)) hgt)

end

/-! ### Larger degrees and the list -/

section

variable {degrees : List Float32} {s : Float32} {i : Nat}

/-- Positions of the degrees that precede the one at position `i` in a list of candidates. -/
def preceding (degrees : List Float32) (i : Nat) (s : Float32) : Finset Nat :=
  positions (fun a => decide (Precedes rankOf a (i, s))) degrees

theorem mem_preceding {j : Nat} : j ∈ preceding degrees i s ↔
    ∃ s', degrees[j]? = some s' ∧ Precedes rankOf (j, s') (i, s) := by
  unfold preceding
  simp only [mem_positions, decide_eq_true_iff]

/-- A larger degree comes first. -/
theorem above_subset_preceding : above degrees s ⊆ preceding degrees i s := by
  intro j hj
  obtain ⟨s', hs', hlt⟩ := mem_above.1 hj
  exact mem_preceding.2 ⟨s', hs', .inl (rankOf_lt_of_lt hlt)⟩

/-- If no two degrees are equal, then nothing else does. -/
theorem preceding_eq (hnum : ∀ y ∈ degrees, y.isNaN = false)
    (hdiff : degrees.Pairwise fun x y => (x != y) = true) (hs : degrees[i]? = some s) :
    preceding degrees i s = above degrees s := by
  refine subset_antisymm (fun j hj => ?_) above_subset_preceding
  obtain ⟨s', hs', hprec⟩ := mem_preceding.1 hj
  have hne : j ≠ i := by
    rintro rfl
    rw [hs] at hs'
    cases hs'
    exact hprec.asymm hprec
  refine mem_above.2 ⟨s', hs', ?_⟩
  refine (lt_or_lt_of_pairwise hnum hdiff hs' hs hne).resolve_left fun hlt => ?_
  exact hprec.asymm (.inl (rankOf_lt_of_lt hlt))

end

namespace LinkPredictor

variable {p : LinkPredictor} {t : Triple} {place : Place} {row : List Float32} {x : Float32}

/-! ### The list -/

theorem unmasked_openAt (p : LinkPredictor) (t : Triple) (place : Place) :
    p.unmasked (t.openAt place) = p.model.askPlace t place := by
  cases place <;> rfl

/-- Without constraints the degrees are the sigmoids of the logits that the model replies with. -/
theorem scores_openAt [Elementary] (laws : Elementary.ExpGrows) (hfree : p.constraints = none)
    (hrow : (p.model.askPlace t place).result = .ok row) (hnum : ∀ y ∈ row, y.isNaN = false) :
    ∃ v, (p.scores (t.openAt place)).result = .ok v ∧ v.degrees = row.map sigmoid := by
  have hlogits : p.logits (t.openAt place) = p.model.askPlace t place := by
    unfold logits
    rw [hfree, unmasked_openAt]
    exact bind_pure _
  obtain ⟨v, hv, hdegrees⟩ :=
    FuzzySet.ofLogits_of_sigmoid fun y hy => laws.isProbability_sigmoid (hnum y hy)
  refine ⟨v, ?_, hdegrees⟩
  unfold scores
  rw [hlogits, bind_of_ok hrow]
  exact hv

section

variable {degrees : List Float32} {list : List Candidate} {k n : Nat} {s : Float32}
  (hlist : list.map (fun d => (d.position, d.score)) = topKBy rankOf k degrees)

include hlist

/-- If nothing is left out, a candidate is listed once, behind those that precede it. -/
theorem listed_iff (hk : degrees.length ≤ k) (hs : degrees[n]? = some s) (j : Nat) :
    (∃ d, list[j]? = some d ∧ d.position = n) ↔ j = (preceding degrees n s).card := by
  rw [listed_at_iff hlist hs]
  constructor
  · exact fun hj => (card_precedes hj).symm
  · rintro rfl
    have hmem : (n, s) ∈ topKBy rankOf k degrees := mem_topKBy_of_length_le hk hs
    obtain ⟨j, hj⟩ := List.mem_iff_getElem?.1 hmem
    rwa [show (preceding degrees n s).card = j from card_precedes hj]

end

/-! ### Main result -/

/-- **A candidate is listed where it is ranked, as far as the degrees tell.**  If all candidates
for a place are listed, each of them is, at one place.  The rank by degrees is at most this place
and at most the rank by logits; and if no two degrees are equal, then the place in the list is the
rank by logits. -/
theorem listed_where_ranked [Elementary] (laws : Elementary.ExpGrows) (p : LinkPredictor)
    (hfree : p.constraints = none) (facts : KnownFacts) (t : Triple) (place : Place)
    (row : List Float32) (ht : t.InRange p.model)
    (hrow : (p.model.askPlace t place).result = .ok row) (hlen : row.length = p.model.entityCount)
    (hnum : ∀ y ∈ row, y.isNaN = false) :
    ∃ x list raw i, row[(t.entity place).index]? = some x ∧
      (p.candidates (t.openAt place) p.model.entityCount).result = .ok list ∧
      (facts.rank p.model t false place).result = .ok raw ∧
      (∀ j, (∃ d, list[j]? = some d ∧ d.position = (t.entity place).index) ↔ j = i) ∧
      strictRank (sigmoid x) (row.map sigmoid) ≤ i + 1 ∧
      strictRank (sigmoid x) (row.map sigmoid) ≤ raw ∧
      ((row.map sigmoid).Pairwise (fun a b => (a != b) = true) → i + 1 = raw) := by
  obtain ⟨v, hv, hdegrees⟩ := scores_openAt laws hfree hrow hnum
  have hsize : v.size = p.index.entityCount := by
    rw [FuzzySet.size, hdegrees, List.length_map, hlen, p.entities_eq]
  obtain ⟨list, hresult, hlist⟩ :=
    (candidates_ends (t.maskedBy?_openAt place) hv hsize p.model.entityCount).exists_ok
  rw [hdegrees] at hlist
  have hlt : (t.entity place).index < row.length := (ht.entity place).trans_eq hlen.symm
  have hx := List.getElem?_eq_getElem hlt
  have hs := getElem?_map_sigmoid hx
  have hk : (row.map sigmoid).length ≤ p.model.entityCount := by rw [List.length_map, hlen]
  refine ⟨_, list, _, _, hx, hresult, KnownFacts.raw_rank ht hrow hx, listed_iff hlist hk hs,
    ?_, ?_, ?_⟩
  · rw [strictRank_eq, Nat.add_comm]
    exact Nat.add_le_add_right (Finset.card_le_card above_subset_preceding) 1
  · exact strictRank_le_of_subset
      (above_map_sigmoid_subset laws hnum (List.mem_of_getElem? hx))
  · intro hdiff
    rw [preceding_eq (isNaN_of_mem_map_sigmoid laws hnum) hdiff hs,
      above_map_sigmoid laws hnum hdiff hx, strictRank_eq, Nat.add_comm]

/-- A predictor without constraints for the model of the three entities. -/
def spread : LinkPredictor where
  model := .spread
  index := ⟨⟨["middle", "best", "worst"], by decide⟩, ⟨["leads to"], by decide⟩⟩
  constraints := none
  entities_eq := rfl
  relations_eq := rfl
  fits := nofun

/-- The first entity is the second one in the list, and this is its rank. -/
theorem listed_where_ranked_spread : ∃ list,
    (@candidates Elementary.steep spread (.missingTail ⟨0⟩ ⟨0⟩) 3).result = .ok list ∧
      (∃ d, list[1]? = some d ∧ d.position = 0) ∧
      (KnownFacts.empty.tailRank .spread ⟨⟨0⟩, ⟨0⟩, ⟨0⟩⟩ false).result = .ok 2 := by
  obtain ⟨x, list, raw, i, hx, hlist, hraw, hplace, -, -, hdistinct⟩ :=
    @listed_where_ranked .steep Elementary.expGrows_steep spread rfl .empty ⟨⟨0⟩, ⟨0⟩, ⟨0⟩⟩ .tail
      [0, infinity, -infinity] ⟨Nat.zero_lt_succ 2, Nat.zero_lt_one, Nat.zero_lt_succ 2⟩ rfl rfl
      (by decide +kernel)
  have hrank : (KnownFacts.empty.tailRank .spread ⟨⟨0⟩, ⟨0⟩, ⟨0⟩⟩ false).result = .ok 2 := by
    decide +kernel
  have heq : i + 1 = raw := hdistinct (by decide +kernel)
  have htwo : raw = 2 := Except.ok.inj (hraw.symm.trans hrank)
  exact ⟨list, hlist, (hplace 1).2 (by omega), hrank⟩

end LinkPredictor

end MultiHop
