/-
MultiHop/Proofs/Query/Ties.lean

Equal scores.  Best entities are listed by the rank of the word that holds their score, and of
one word by position.  Equal scores are one word, unless they are the two zeros: a set of
degrees may hold both of them, they are equal as numbers, and positive zero has the higher
rank.  So of two listed entities with equal scores the one with the lower position comes first
exactly if their scores are one word (`ComesFirst`), and an entity with positive zero is listed
before one with negative zero wherever they stand.

All lists of a fuzzy set are in this order: its best entries, beams, and ranked answers
(`FuzzySet.Lists`).

Main result: `FuzzySet.equal_scores_by_position`.
-/
import MultiHop.Proofs.Query.Agreement
import MultiHop.Proofs.Single.Sign
import MultiHop.Query.Beam

namespace MultiHop

open Single (eq_or_zeros_of_beq)

/-! ### Which of two equal scores comes first -/

/-- Of two entries with equal scores `a` is listed before `b`: both have one word as their score
and `a` has the lower position, or `a` has positive zero and `b` negative zero. -/
def ComesFirst (a b : EntityId × Float32) : Prop :=
  a.2 = b.2 ∧ a.1.index < b.1.index ∨ a.2 = 0 ∧ b.2 = -0

section

variable {a b : EntityId × Float32}

theorem precedes_iff_comesFirst (ha : 0 ≤ a.2) (hb : 0 ≤ b.2) (h : (a.2 == b.2) = true) :
    Precedes rankOf (a.1.index, a.2) (b.1.index, b.2) ↔ ComesFirst a b := by
  have hplus : rankOf 0 = 0 := by decide +kernel
  have hminus : rankOf (-0) = -1 := by decide +kernel
  have hne : (0 : Float32) ≠ -0 := by decide +kernel
  obtain ⟨e, x⟩ := a
  obtain ⟨f, y⟩ := b
  unfold Precedes ComesFirst
  rcases eq_or_zeros_of_beq ha hb h with rfl | ⟨rfl, rfl⟩ | ⟨rfl, rfl⟩
  · -- one word is not both zeros
    have hboth : ¬ (x = 0 ∧ x = -0) := fun h => hne (h.1.symm.trans h.2)
    simp [hboth]
  · simp [hplus, hminus]
  · simp [hplus, hminus, hne, hne.symm]

/-- Where the two zeros are not both present, positions decide. -/
theorem comesFirst_iff_of_oneZero {scores : List Float32} (hzeros : ¬ (0 ∈ scores ∧ -0 ∈ scores))
    (hnonneg : ∀ x ∈ scores, 0 ≤ x) (ha : a.2 ∈ scores) (hb : b.2 ∈ scores)
    (h : (a.2 == b.2) = true) : ComesFirst a b ↔ a.1.index < b.1.index := by
  have heq : a.2 = b.2 := by
    rcases eq_or_zeros_of_beq (hnonneg _ ha) (hnonneg _ hb) h with heq | ⟨h₁, h₂⟩ | ⟨h₁, h₂⟩
    · exact heq
    · exact (hzeros ⟨h₁ ▸ ha, h₂ ▸ hb⟩).elim
    · exact (hzeros ⟨h₂ ▸ hb, h₁ ▸ ha⟩).elim
  constructor
  · rintro (⟨-, hlt⟩ | ⟨h₁, h₂⟩)
    · exact hlt
    · exact (hzeros ⟨h₁ ▸ ha, h₂ ▸ hb⟩).elim
  · exact fun hlt => .inl ⟨heq, hlt⟩

end

namespace FuzzySet

variable {v : FuzzySet} {k i j : Nat} {a b : EntityId × Float32}

/-! ### Places in a list -/

theorem getElem?_best :
    (v.best k)[i]? = some a ↔ (topKBy rankOf k v.degrees)[i]? = some (a.1.index, a.2) := by
  unfold best
  rw [List.getElem?_map, Option.map_eq_some_iff]
  constructor
  · rintro ⟨entry, hentry, rfl⟩
    exact hentry
  · exact fun h => ⟨_, h, rfl⟩

theorem mem_degrees_of_best (h : (v.best k)[i]? = some a) : a.2 ∈ v.degrees :=
  List.mem_of_getElem? (getElem?_of_mem_topKBy (List.mem_of_getElem? (getElem?_best.1 h)))

/-- The order of the list tells which of two entries precedes the other. -/
theorem lt_iff_precedes (ha : (v.best k)[i]? = some a) (hb : (v.best k)[j]? = some b) :
    i < j ↔ Precedes rankOf (a.1.index, a.2) (b.1.index, b.2) := by
  have hai := (getElem?_topKBy.1 (getElem?_best.1 ha)).2
  have hbj := (getElem?_topKBy.1 (getElem?_best.1 hb)).2
  constructor
  · exact fun hij => precedes_of_lt hij hai hbj
  · intro hab
    rcases Nat.lt_trichotomy i j with hij | rfl | hji
    · exact hij
    · rw [Option.some.inj (hai.symm.trans hbj)] at hab
      exact (hab.asymm hab).elim
    · exact (hab.asymm (precedes_of_lt hji hbj hai)).elim

/-- What is listed precedes what is left out. -/
theorem precedes_of_left_out {e : EntityId} {x : Float32} (hx : v.degree? e = some x)
    (hout : (e, x) ∉ v.best k) (hb : b ∈ v.best k) :
    Precedes rankOf (b.1.index, b.2) (e.index, x) := by
  obtain ⟨j, hj⟩ := List.mem_iff_getElem?.1 hb
  obtain ⟨hjk, hbj⟩ := getElem?_topKBy.1 (getElem?_best.1 hj)
  have hmem : (e.index, x) ∈ ordered rankOf v.degrees := mem_ordered.2 hx
  obtain ⟨n, hn⟩ := List.mem_iff_getElem?.1 hmem
  have hkn : ¬ n < k := fun hnk =>
    hout (List.mem_of_getElem? (getElem?_best.2 (getElem?_topKBy.2 ⟨hnk, hn⟩)))
  exact precedes_of_lt (by omega) hbj hn

/-! ### Lists of a fuzzy set -/

/-- The lists that are made of a fuzzy set, best entities first. -/
inductive Lists (v : FuzzySet) : List (EntityId × Float32) → Prop
  /-- Its best entries. -/
  | best (k : Nat) : Lists v (v.best k)
  /-- A beam. -/
  | beam (k : Nat) : Lists v (Beam.ofSet v k).entries
  /-- Answers by name. -/
  | ranked {index answers} (h : v.ranked index = .ok answers) :
      Lists v (answers.map Answer.entry)

/-- Every list is one of best entries. -/
theorem Lists.eq_best {entries : List (EntityId × Float32)} (h : v.Lists entries) :
    ∃ k, entries = v.best k := by
  cases h with
  | best k => exact ⟨k, rfl⟩
  | beam k => exact ⟨k, rfl⟩
  | @ranked index answers h =>
    refine ⟨answers.length, ?_⟩
    rw [← map_entry_ranked h, List.take_length]

/-- **Equal scores are listed by position, and positive zero before negative zero.**  Of two
entities with equal scores in a list of a fuzzy set, whether its best entries, a beam or ranked
answers, one comes first exactly if the scores are one word and it has the lower position, or if
it has positive zero and the other one negative zero; and the same is true of an entity in the
list and one with an equal score that is left out.  In a set that does not hold both zeros this
is the order of positions. -/
theorem equal_scores_by_position (v : FuzzySet) :
    (∀ entries, v.Lists entries → ∀ (i j : Nat) a b, entries[i]? = some a →
      entries[j]? = some b → (a.2 == b.2) = true → (i < j ↔ ComesFirst a b)) ∧
    (∀ k e x b, v.degree? e = some x → (e, x) ∉ v.best k → b ∈ v.best k → (b.2 == x) = true →
      ComesFirst b (e, x)) ∧
    (¬ (0 ∈ v.degrees ∧ -0 ∈ v.degrees) →
      ∀ a b : EntityId × Float32, a.2 ∈ v.degrees → b.2 ∈ v.degrees → (a.2 == b.2) = true →
        (ComesFirst a b ↔ a.1.index < b.1.index)) := by
  have hnonneg : ∀ x ∈ v.degrees, 0 ≤ x := fun x hx => (v.probable x hx).1
  refine ⟨fun entries hlist i j a b ha hb heq => ?_, fun k e x b hx hout hb heq => ?_,
    fun hzeros a b ha hb => comesFirst_iff_of_oneZero hzeros hnonneg ha hb⟩
  · obtain ⟨k, rfl⟩ := hlist.eq_best
    rw [lt_iff_precedes ha hb]
    exact precedes_iff_comesFirst (hnonneg _ (mem_degrees_of_best ha))
      (hnonneg _ (mem_degrees_of_best hb)) heq
  · obtain ⟨j, hj⟩ := List.mem_iff_getElem?.1 hb
    have hprecedes := precedes_of_left_out hx hout hb
    have hxmem : x ∈ v.degrees := List.mem_of_getElem? hx
    exact (precedes_iff_comesFirst (b := (e, x)) (hnonneg _ (mem_degrees_of_best hj))
      (hnonneg x hxmem) heq).1 hprecedes

/-- Three entities, two of them with one score and the other one with negative zero. -/
theorem equal_scores_by_position_half :
    ∃ v, ofDegrees [-0, 0.5, 0.5] = .ok v ∧
      v.best 3 = [(⟨1⟩, 0.5), (⟨2⟩, 0.5), (⟨0⟩, -0)] ∧
      ComesFirst (⟨1⟩, 0.5) (⟨2⟩, 0.5) := by
  have hdegrees : ofDegrees [-0, 0.5, 0.5] = .ok ⟨[-0, 0.5, 0.5], by decide +kernel⟩ := by
    decide +kernel
  have hbest : best ⟨[-0, 0.5, 0.5], by decide +kernel⟩ 3 =
      [(⟨1⟩, 0.5), (⟨2⟩, 0.5), (⟨0⟩, -0)] := by
    decide +kernel
  have horder := (equal_scores_by_position ⟨[-0, 0.5, 0.5], by decide +kernel⟩).1 _ (.best 3)
    0 1 (⟨1⟩, 0.5) (⟨2⟩, 0.5) (by rw [hbest]; rfl) (by rw [hbest]; rfl) (by decide +kernel)
  exact ⟨_, hdegrees, hbest, horder.1 Nat.zero_lt_one⟩

/-- Both zeros are admitted, and they are equal; but the second entity is listed first, the
first one is left out of the best entry, and ranked answers and beams have the same order. -/
theorem equal_scores_zeros :
    ∃ v, ofDegrees [-0, 0] = .ok v ∧ ((-0 : Float32) == 0) = true ∧
      v.best 2 = [(⟨1⟩, 0), (⟨0⟩, -0)] ∧ v.best 1 = [(⟨1⟩, 0)] ∧
      (Beam.ofSet v 2).entities = [⟨1⟩, ⟨0⟩] ∧
      v.ranked ⟨⟨["first", "second"], by decide⟩, ⟨["points to"], by decide⟩⟩ =
        .ok [⟨⟨1⟩, "second", 0⟩, ⟨⟨0⟩, "first", -0⟩] :=
  ⟨⟨[-0, 0], by decide +kernel⟩, by decide +kernel⟩

end FuzzySet

end MultiHop
