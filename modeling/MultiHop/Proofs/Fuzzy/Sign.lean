/-
MultiHop/Proofs/Fuzzy/Sign.lean

No degree is negative zero.  Negative zero counts as a probability, but no connective makes
it of unsigned degrees: a difference that cancels is positive zero, products and quotients
have the sign of their operands, and the others pick one of their operands.  Powers are those
of the platform, so that they are unsigned is a law of its own (`Elementary.Unsigned`).

Without signs the laws of conjunction are laws of words: one is neutral and zero is absorbing
(`TNorm.one_meet`, `TNorm.zero_meet`).

Main results: `TNorm.isUnsigned_meet`, `TNorm.isUnsigned_join`,
`Negation.isUnsigned_complement`.
-/
import MultiHop.Proofs.Fuzzy.Order
import MultiHop.Proofs.Single.Sign

namespace MultiHop

open Single

variable {a b lambda : Float32}

/-! ### Connectives -/

/-- What is left of one is zero only if nothing is left, and then it is positive zero. -/
theorem isUnsigned_one_sub (ha : IsProbability a) : IsUnsigned (1 - a) := by
  have hround := rounds_sub isFinite_one ha.isFinite
  rw [toReal_one] at hround
  rcases ha.toReal_le_one.lt_or_eq with hlt | heq
  · refine .inl (lt_iff.2 ⟨isNaN_of_isFinite isFinite_zero, hround.1, ?_⟩)
    have hpos : 0 < toReal 1 - toReal a := by
      rw [toReal_one]
      exact sub_pos.2 hlt
    have hsingle := single_sub_pos hpos
    rw [toReal_one] at hsingle
    rw [hround.2, value_eq isFinite_zero, toReal_zero]
    exact hsingle
  · have hpos : 0 < a := by
      rw [lt_iff_toReal isFinite_zero ha.isFinite, toReal_zero, heq]
      exact one_pos
    have hge : 1 ≤ a := by
      rw [le_iff_toReal isFinite_one ha.isFinite, toReal_one, heq]
    obtain rfl : a = 1 := IsUnsigned.eq_of_le_of_le (.inl hpos) isUnsigned_one ha.2 hge
    exact .inr (by decide +kernel)

theorem isUnsigned_larger (ha : IsUnsigned a) (hb : IsUnsigned b) : IsUnsigned (larger a b) := by
  unfold larger
  split
  · exact hb
  · split
    · exact hb
    · exact ha

theorem isUnsigned_smaller (ha : IsUnsigned a) (hb : IsUnsigned b) :
    IsUnsigned (smaller a b) := by
  unfold smaller
  split
  · exact hb
  · split
    · exact hb
    · exact ha

theorem TNorm.isUnsigned_meet (t : TNorm) (pa : IsProbability a) (pb : IsProbability b)
    (ha : IsUnsigned a) (hb : IsUnsigned b) : IsUnsigned (t.meet a b) := by
  cases t with
  | minimum => exact isUnsigned_smaller ha hb
  | product => exact ha.mul hb pa.isFinite pb.isFinite

theorem TNorm.isUnsigned_join (t : TNorm) (pa : IsProbability a) (pb : IsProbability b)
    (ha : IsUnsigned a) (hb : IsUnsigned b) : IsUnsigned (t.join a b) := by
  cases t with
  | minimum => exact isUnsigned_larger ha hb
  | product =>
    exact isUnsigned_one_sub (isProbability_mul (isProbability_one_sub pa)
      (isProbability_one_sub pb))

/-- **One is neutral for conjunction**, down to the sign of zero. -/
theorem TNorm.one_meet (t : TNorm) (pa : IsProbability a) (ha : IsUnsigned a) :
    t.meet 1 a = a := by
  cases t with
  | minimum =>
    show smaller 1 a = a
    rw [smaller_eq isProbability_one.isNaN, if_pos pa.2]
  | product =>
    have hround := rounds_mul isFinite_one pa.isFinite
    rw [toReal_one, one_mul] at hround
    exact (isUnsigned_one.mul ha isFinite_one pa.isFinite).eq_of_rounds ha hround
      (rounds_self pa.isFinite)

/-- **Zero is absorbing for conjunction**, down to the sign of zero. -/
theorem TNorm.zero_meet (t : TNorm) (pa : IsProbability a) (ha : IsUnsigned a) :
    t.meet 0 a = 0 := by
  cases t with
  | minimum =>
    show smaller 0 a = 0
    rw [smaller_eq isProbability_zero.isNaN]
    split
    · next hle => exact ha.eq_of_le_of_le isUnsigned_zero hle pa.1
    · rfl
  | product =>
    have hround := rounds_mul isFinite_zero pa.isFinite
    rw [toReal_zero, zero_mul] at hround
    exact (isUnsigned_zero.mul ha isFinite_zero pa.isFinite).eq_of_rounds isUnsigned_zero
      hround rounds_zero

/-! ### Negations -/

/-- A power of an unsigned probability is unsigned. -/
structure Elementary.Unsigned [Elementary] : Prop where
  pow (x y : Float32) :
    IsProbability x → IsUnsigned x → 0 < y → IsUnsigned (Elementary.pow x y)

theorem Elementary.unsigned_steep : @Elementary.Unsigned Elementary.steep := by
  refine @Elementary.Unsigned.mk Elementary.steep fun x _ _ _ _ => ?_
  show IsUnsigned (if x ≤ 0 then 0 else 1)
  split
  · exact isUnsigned_zero
  · exact isUnsigned_one

/-- What is left of one has no sign, whatever the sign of `a` is. -/
theorem Negation.isUnsigned_complement [Elementary] (laws : Elementary.Bounded)
    (signs : Elementary.Unsigned) {n : Negation} (hl : n.Admits lambda)
    (pa : IsProbability a) : IsUnsigned (n.complement lambda a) := by
  obtain ⟨hfin, hsugeno, hyager⟩ := hl
  cases n with
  | standard => exact isUnsigned_one_sub pa
  | sugeno =>
    exact (isUnsigned_one_sub pa).div (isProbability_one_sub pa).isFinite
      (sugeno_denominator_pos hfin (hsugeno rfl) pa)
  | yager =>
    have hpos := hyager rfl
    have hpow := laws.isProbability_pow a lambda pa hpos
    exact signs.pow _ _ (isProbability_one_sub hpow) (isUnsigned_one_sub hpow)
      (zero_lt_one_div hfin hpos)

/-! ### Unsigned fuzzy sets -/

namespace FuzzySet

/-- No degree of the set is negative zero. -/
def IsUnsigned (v : FuzzySet) : Prop := ∀ p ∈ v.degrees, Single.IsUnsigned p

theorem isUnsigned_of_singleton {n : ℕ} {e : EntityId} {v : FuzzySet}
    (hv : v.degrees = (List.replicate n 0).set e.index 1) : v.IsUnsigned := by
  intro p hp
  rw [hv] at hp
  rcases List.mem_or_eq_of_mem_set hp with hp | rfl
  · exact (List.mem_replicate.1 hp).2 ▸ isUnsigned_zero
  · exact isUnsigned_one

theorem isUnsigned_of_ofLogits [Elementary] (laws : Elementary.Bounded)
    {logits : List Float32} (hn : ∀ x ∈ logits, x.isNaN = false) {v : FuzzySet}
    (h : ofLogits logits = .ok v) : v.IsUnsigned := by
  obtain ⟨w, hw, hdegrees⟩ := ofLogits_eq laws hn
  rw [h] at hw
  cases hw
  intro p hp
  rw [hdegrees] at hp
  obtain ⟨x, hx, rfl⟩ := List.mem_map.1 hp
  exact zero_lt_sigmoid_or_eq laws (hn x hx)

end FuzzySet

end MultiHop
