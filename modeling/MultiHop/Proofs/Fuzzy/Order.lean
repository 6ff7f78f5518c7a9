/-
MultiHop/Proofs/Fuzzy/Order.lean

The connectives respect the order of degrees.  Conjunction, disjunction and the larger
of two degrees grow with both of their operands, for both t-norms (`TNorm.atMost_meet`,
`TNorm.atMost_join`): a comparison picks one of its operands, and an arithmetic operation
is rounded correctly, which keeps the order of what is rounded.

A conjunction is at most its first operand (`TNorm.meet_le_left`), also after rounding.  Of
finitely many numbers one is the largest (`exists_isLargest`).

One fuzzy set is a subset of another when no entity has a higher degree in it.  Vectors
that are ordered entry by entry stay so under every connective (`atMost_zipWith`), and
admission does not disturb that (`FuzzySet.ofDegrees_relates`).
-/
import Mathlib.Data.Set.Finite.Basic
import MultiHop.Proofs.Consult
import MultiHop.Proofs.Fuzzy.Calibration

namespace MultiHop

open Single

variable {a a' b b' c : Float32}

/-! ### Larger and smaller -/

theorem larger_eq (ha : a.isNaN = false) : larger a b = if a ≤ b then b else a :=
  if_neg (by rw [ha]; exact Bool.false_ne_true)

theorem smaller_eq (ha : a.isNaN = false) : smaller a b = if b ≤ a then b else a :=
  if_neg (by rw [ha]; exact Bool.false_ne_true)

theorem larger_eq_or (a b : Float32) : larger a b = a ∨ larger a b = b := by
  unfold larger
  split
  · exact .inr rfl
  · split
    · exact .inr rfl
    · exact .inl rfl

theorem le_larger_left (ha : a.isNaN = false) : a ≤ larger a b := by
  rw [larger_eq ha]
  split
  · assumption
  · exact le_self ha

theorem le_larger_right (ha : a.isNaN = false) (hb : b.isNaN = false) : b ≤ larger a b := by
  rw [larger_eq ha]
  split
  · exact le_self hb
  · next h => exact (le_or_le ha hb).resolve_left h

/-- The larger of two numbers is below whatever both are below. -/
theorem larger_le (ha : a ≤ c) (hb : b ≤ c) : larger a b ≤ c := by
  unfold larger
  split
  · exact hb
  · split
    · exact hb
    · exact ha

theorem larger_le_iff (ha : a.isNaN = false) (hb : b.isNaN = false) :
    larger a b ≤ c ↔ a ≤ c ∧ b ≤ c := by
  constructor
  · intro h
    exact ⟨le_chain (le_larger_left ha) h, le_chain (le_larger_right ha hb) h⟩
  · rintro ⟨hac, hbc⟩
    exact larger_le hac hbc

theorem smaller_le_left (ha : a.isNaN = false) : smaller a b ≤ a := by
  rw [smaller_eq ha]
  split
  · assumption
  · exact le_self ha

theorem smaller_le_right (ha : a.isNaN = false) (hb : b.isNaN = false) : smaller a b ≤ b := by
  rw [smaller_eq ha]
  split
  · exact le_self hb
  · next h => exact (le_or_le ha hb).resolve_right h

/-- The smaller of two numbers is above whatever both are above. -/
theorem le_smaller (ha : c ≤ a) (hb : c ≤ b) : c ≤ smaller a b := by
  unfold smaller
  split
  · exact hb
  · split
    · exact hb
    · exact ha

/-! ### The largest of several numbers -/

/-- `p` is the largest number of `X`, and zero if there is none. -/
def IsLargest (X : Set Float32) (p : Float32) : Prop := IsGreatest X p ∨ X = ∅ ∧ p = 0

section

variable {X : Set Float32} {p x : Float32}

theorem IsLargest.le (h : IsLargest X p) (hx : x ∈ X) : x ≤ p := by
  rcases h with h | ⟨rfl, -⟩
  · exact h.2 hx
  · exact absurd hx (Set.notMem_empty x)

theorem IsLargest.isProbability (h : IsLargest X p) (hX : ∀ x ∈ X, IsProbability x) :
    IsProbability p := by
  rcases h with h | ⟨-, rfl⟩
  · exact hX p h.1
  · exact isProbability_zero

/-- The largest number is below every bound that is above zero. -/
theorem IsLargest.le_of_forall_le (h : IsLargest X p) (hc : 0 ≤ c) (hX : ∀ x ∈ X, x ≤ c) :
    p ≤ c := by
  rcases h with h | ⟨-, rfl⟩
  · exact hX p h.1
  · exact hc

/-- Finitely many numbers have a largest one. -/
theorem exists_isLargest (hfin : X.Finite) (hX : ∀ x ∈ X, x.isNaN = false) :
    ∃ p, IsLargest X p := by
  induction X, hfin using Set.Finite.induction_on with
  | empty => exact ⟨0, .inr ⟨rfl, rfl⟩⟩
  | @insert a X _ _ ih =>
    obtain ⟨ha, hrest⟩ := Set.forall_mem_insert.1 hX
    obtain ⟨p, hp | ⟨rfl, -⟩⟩ := ih hrest
    · have hpn := hrest p hp.1
      refine ⟨larger a p, .inl ⟨?_, ?_⟩⟩
      · rcases larger_eq_or a p with heq | heq <;> rw [heq]
        · exact Set.mem_insert a X
        · exact Set.mem_insert_of_mem a hp.1
      · rintro x (rfl | hx)
        · exact le_larger_left ha
        · exact le_chain (hp.2 hx) (le_larger_right ha hpn)
    · refine ⟨a, .inl ⟨Set.mem_insert a ∅, ?_⟩⟩
      rintro x (rfl | hx)
      · exact le_self ha
      · exact absurd hx (Set.notMem_empty x)

end

/-! ### Rounded operations -/

theorem mul_le_mul_of_isProbability (ha : IsProbability a) (ha' : IsProbability a')
    (hb : IsProbability b) (hb' : IsProbability b') (h : a ≤ a') (h' : b ≤ b') :
    a * b ≤ a' * b' := by
  have hreal : toReal a * toReal b ≤ toReal a' * toReal b' := by
    apply mul_le_mul
    · exact (le_iff_toReal ha.isFinite ha'.isFinite).1 h
    · exact (le_iff_toReal hb.isFinite hb'.isFinite).1 h'
    · exact hb.toReal_nonneg
    · exact ha'.toReal_nonneg
  exact (rounds_mul ha.isFinite hb.isFinite).le (rounds_mul ha'.isFinite hb'.isFinite) hreal

theorem one_sub_le_one_sub (ha : IsProbability a) (hb : IsProbability b) (h : a ≤ b) :
    1 - b ≤ 1 - a := by
  have hreal : toReal 1 - toReal b ≤ toReal 1 - toReal a :=
    sub_le_sub_left ((le_iff_toReal ha.isFinite hb.isFinite).1 h) _
  exact (rounds_sub isFinite_one hb.isFinite).le (rounds_sub isFinite_one ha.isFinite) hreal

/-! ### Degrees in order -/

/-- Two degrees, of which the first is at most the second. -/
structure AtMost (a b : Float32) : Prop where
  left : IsProbability a
  right : IsProbability b
  le : a ≤ b

theorem atMost_self (h : IsProbability a) : AtMost a a := ⟨h, h, le_self h.isNaN⟩

theorem atMost_larger (h : AtMost a a') (h' : AtMost b b') :
    AtMost (larger a b) (larger a' b') where
  left := isProbability_larger h.left h'.left
  right := isProbability_larger h.right h'.right
  le := by
    apply larger_le
    · exact le_chain h.le (le_larger_left h.right.isNaN)
    · exact le_chain h'.le (le_larger_right h.right.isNaN h'.right.isNaN)

theorem atMost_smaller (h : AtMost a a') (h' : AtMost b b') :
    AtMost (smaller a b) (smaller a' b') where
  left := isProbability_smaller h.left h'.left
  right := isProbability_smaller h.right h'.right
  le := by
    apply le_smaller
    · exact le_chain (smaller_le_left h.left.isNaN) h.le
    · exact le_chain (smaller_le_right h.left.isNaN h'.left.isNaN) h'.le

theorem atMost_mul (h : AtMost a a') (h' : AtMost b b') : AtMost (a * b) (a' * b') where
  left := isProbability_mul h.left h'.left
  right := isProbability_mul h.right h'.right
  le := mul_le_mul_of_isProbability h.left h.right h'.left h'.right h.le h'.le

/-- The complement turns the order round. -/
theorem atMost_one_sub (h : AtMost a b) : AtMost (1 - b) (1 - a) where
  left := isProbability_one_sub h.right
  right := isProbability_one_sub h.left
  le := one_sub_le_one_sub h.left h.right h.le

/-- **Conjunction grows with both operands.** -/
theorem TNorm.atMost_meet (t : TNorm) (h : AtMost a a') (h' : AtMost b b') :
    AtMost (t.meet a b) (t.meet a' b') := by
  cases t with
  | minimum => exact atMost_smaller h h'
  | product => exact atMost_mul h h'

/-- **Disjunction grows with both operands.** -/
theorem TNorm.atMost_join (t : TNorm) (h : AtMost a a') (h' : AtMost b b') :
    AtMost (t.join a b) (t.join a' b') := by
  cases t with
  | minimum => exact atMost_larger h h'
  | product =>
    -- the order is turned round twice
    have hmul := atMost_mul (atMost_one_sub h) (atMost_one_sub h')
    exact atMost_one_sub hmul

/-- A conjunction is at most its first operand. -/
theorem TNorm.meet_le_left (t : TNorm) (ha : IsProbability a) (hb : IsProbability b) :
    t.meet a b ≤ a := by
  cases t with
  | minimum => exact smaller_le_left ha.isNaN
  | product =>
    have hreal : toReal a * toReal b ≤ toReal a :=
      mul_le_of_le_one_right ha.toReal_nonneg hb.toReal_le_one
    exact (rounds_mul ha.isFinite hb.isFinite).le (rounds_self ha.isFinite) hreal

/-! ### Vectors in order -/

section

variable {xs xs' ys ys' : List Float32}

theorem isProbability_left_of_atMost (h : List.Forall₂ AtMost xs xs') :
    ∀ p ∈ xs, IsProbability p := by
  induction h with
  | nil => simp
  | cons hx _ ih => exact List.forall_mem_cons.2 ⟨hx.left, ih⟩

theorem isProbability_right_of_atMost (h : List.Forall₂ AtMost xs xs') :
    ∀ p ∈ xs', IsProbability p := by
  induction h with
  | nil => simp
  | cons hx _ ih => exact List.forall_mem_cons.2 ⟨hx.right, ih⟩

theorem atMost_zipWith {op : Float32 → Float32 → Float32}
    (hop : ∀ {a a' b b'}, AtMost a a' → AtMost b b' → AtMost (op a b) (op a' b'))
    (hx : List.Forall₂ AtMost xs xs') (hy : List.Forall₂ AtMost ys ys') :
    List.Forall₂ AtMost (xs.zipWith op ys) (xs'.zipWith op ys') := by
  induction hx generalizing ys ys' with
  | nil => simp
  | cons hx _ ih =>
    cases hy with
    | nil => simp
    | cons hy hys => exact .cons (hop hx hy) (ih hys)

end

/-! ### Fuzzy subsets -/

namespace FuzzySet

variable {v w : FuzzySet}

/-- `v ⊆ w`: no entity has a higher degree in `v` than in `w`. -/
instance : HasSubset FuzzySet := ⟨fun v w => List.Forall₂ AtMost v.degrees w.degrees⟩

theorem subset_refl (v : FuzzySet) : v ⊆ v := by
  show List.Forall₂ AtMost v.degrees v.degrees
  rw [List.forall₂_same]
  intro p hp
  exact atMost_self (v.probable p hp)

theorem size_eq_of_subset (h : v ⊆ w) : v.size = w.size := List.Forall₂.length_eq h

theorem degree_le_of_subset (h : v ⊆ w) {e : EntityId} (he : e.index < v.size) :
    ∃ p p', v.degree? e = some p ∧ w.degree? e = some p' ∧ p ≤ p' := by
  have hlen := size_eq_of_subset h
  have he' : e.index < w.degrees.length := he.trans_eq hlen
  refine ⟨v.degrees[e.index], w.degrees[e.index], List.getElem?_eq_getElem he,
    List.getElem?_eq_getElem he', ?_⟩
  exact (List.Forall₂.get h he he').le

/-- Vectors in order are admitted as fuzzy sets in order. -/
theorem ofDegrees_relates {xs ys : List Float32} (h : List.Forall₂ AtMost xs ys) :
    (Consult.ofExcept (ofDegrees xs)).Relates (Consult.ofExcept (ofDegrees ys)) (· ⊆ ·) := by
  rw [ofDegrees_eq (isProbability_left_of_atMost h),
    ofDegrees_eq (isProbability_right_of_atMost h)]
  exact Consult.relates_pure h

end FuzzySet

end MultiHop
