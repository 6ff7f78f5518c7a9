/-
MultiHop/Proofs/Fuzzy/Combination.lean

Degrees combined one after another, as a connective combines the degrees of its operands.  The
first one starts, and every further one is taken in by the operation:

    combined op [a, b, c] = op (op a b) c

Both operations of a t-norm commute on degrees (`TNorm.op_comm`), so the first two may change
places, and a combination that stands first may be opened (`combined_nested`).

The smaller and the larger of two degrees do more than that.  What several degrees are combined
to is the least or the greatest of them (`isExtreme_combined`), and there is only one such
degree, so it depends on which degrees there are and on nothing else, neither on their order nor
on how often or in which groups they occur.  The complement turns the order round, and so it
turns the least of several degrees into the greatest of their complements (`one_sub_combined`).
-/
import MultiHop.Proofs.Fuzzy.Sign
import MultiHop.Query.Error

namespace MultiHop

open Single

/-- The other connective. -/
def Connective.dual : Connective → Connective
  | intersection => union
  | union => intersection

/-- The operation of a connective. -/
def TNorm.op (t : TNorm) : Connective → Float32 → Float32 → Float32
  | .intersection => t.meet
  | .union => t.join

/-- Several numbers combined from left to right, zero if there are none. -/
def combined (op : Float32 → Float32 → Float32) : List Float32 → Float32
  | [] => 0
  | p :: ps => ps.foldl op p

/-! ### Degrees -/

/-- A probability that is not negative zero. -/
structure IsDegree (p : Float32) : Prop where
  probable : IsProbability p
  unsigned : IsUnsigned p

variable {a b p q : Float32} {ps qs : List Float32}

theorem isDegree_zero : IsDegree 0 := ⟨isProbability_zero, isUnsigned_zero⟩

theorem IsDegree.isNaN (h : IsDegree p) : p.isNaN = false := h.probable.isNaN

theorem IsDegree.le_self (h : IsDegree p) : p ≤ p := Single.le_self h.isNaN

theorem IsDegree.le_total (ha : IsDegree a) (hb : IsDegree b) : a ≤ b ∨ b ≤ a :=
  le_or_le ha.isNaN hb.isNaN

/-- Degrees of one size are one word. -/
theorem IsDegree.eq_of_le_of_le (ha : IsDegree a) (hb : IsDegree b) (hab : a ≤ b)
    (hba : b ≤ a) : a = b :=
  ha.unsigned.eq_of_le_of_le hb.unsigned hab hba

/-- Two degrees that one number is rounded to are the same. -/
theorem IsDegree.eq_of_rounds {x : ℝ} (ha : IsDegree a) (hb : IsDegree b) (h : Rounds a x)
    (h' : Rounds b x) : a = b :=
  ha.unsigned.eq_of_rounds hb.unsigned h h'

theorem isDegree_one_sub (h : IsProbability p) : IsDegree (1 - p) :=
  ⟨isProbability_one_sub h, isUnsigned_one_sub h⟩

theorem isDegree_mul (ha : IsDegree a) (hb : IsDegree b) : IsDegree (a * b) :=
  ⟨isProbability_mul ha.probable hb.probable,
    ha.unsigned.mul hb.unsigned ha.probable.isFinite hb.probable.isFinite⟩

theorem isDegree_meet (t : TNorm) (ha : IsDegree a) (hb : IsDegree b) : IsDegree (t.meet a b) :=
  ⟨t.isProbability_meet ha.probable hb.probable,
    t.isUnsigned_meet ha.probable hb.probable ha.unsigned hb.unsigned⟩

theorem isDegree_join (t : TNorm) (ha : IsDegree a) (hb : IsDegree b) : IsDegree (t.join a b) :=
  ⟨t.isProbability_join ha.probable hb.probable,
    t.isUnsigned_join ha.probable hb.probable ha.unsigned hb.unsigned⟩

theorem isDegree_op (t : TNorm) (c : Connective) (ha : IsDegree a) (hb : IsDegree b) :
    IsDegree (t.op c a b) := by
  cases c with
  | intersection => exact isDegree_meet t ha hb
  | union => exact isDegree_join t ha hb

/-! ### Either order -/

theorem mul_comm_of_isDegree (ha : IsDegree a) (hb : IsDegree b) : a * b = b * a := by
  have hab := rounds_mul ha.probable.isFinite hb.probable.isFinite
  have hba := rounds_mul hb.probable.isFinite ha.probable.isFinite
  rw [mul_comm] at hba
  exact (isDegree_mul ha hb).eq_of_rounds (isDegree_mul hb ha) hab hba

theorem smaller_comm (ha : IsDegree a) (hb : IsDegree b) : smaller a b = smaller b a := by
  apply (isDegree_meet .minimum ha hb).eq_of_le_of_le (isDegree_meet .minimum hb ha)
  · apply le_smaller
    · exact smaller_le_right ha.isNaN hb.isNaN
    · exact smaller_le_left ha.isNaN
  · apply le_smaller
    · exact smaller_le_right hb.isNaN ha.isNaN
    · exact smaller_le_left hb.isNaN

theorem larger_comm (ha : IsDegree a) (hb : IsDegree b) : larger a b = larger b a := by
  apply (isDegree_join .minimum ha hb).eq_of_le_of_le (isDegree_join .minimum hb ha)
  · apply larger_le
    · exact le_larger_right hb.isNaN ha.isNaN
    · exact le_larger_left hb.isNaN
  · apply larger_le
    · exact le_larger_right ha.isNaN hb.isNaN
    · exact le_larger_left ha.isNaN

theorem TNorm.meet_comm (t : TNorm) (ha : IsDegree a) (hb : IsDegree b) :
    t.meet a b = t.meet b a := by
  cases t with
  | minimum => exact smaller_comm ha hb
  | product => exact mul_comm_of_isDegree ha hb

theorem TNorm.join_comm (t : TNorm) (ha : IsDegree a) (hb : IsDegree b) :
    t.join a b = t.join b a := by
  cases t with
  | minimum => exact larger_comm ha hb
  | product =>
    show 1 - (1 - a) * (1 - b) = 1 - (1 - b) * (1 - a)
    rw [mul_comm_of_isDegree (isDegree_one_sub ha.probable) (isDegree_one_sub hb.probable)]

/-- **The operands of a connective may change places.** -/
theorem TNorm.op_comm (t : TNorm) (c : Connective) (ha : IsDegree a) (hb : IsDegree b) :
    t.op c a b = t.op c b a := by
  cases c with
  | intersection => exact t.meet_comm ha hb
  | union => exact t.join_comm ha hb

/-! ### Combinations -/

theorem isDegree_foldl (t : TNorm) (c : Connective) (hp : IsDegree p)
    (h : ∀ q ∈ ps, IsDegree q) : IsDegree (ps.foldl (t.op c) p) := by
  induction ps generalizing p with
  | nil => exact hp
  | cons q ps ih =>
    obtain ⟨hq, hps⟩ := List.forall_mem_cons.1 h
    exact ih (isDegree_op t c hp hq) hps

/-- A combination that stands first may be opened. -/
theorem combined_nested (op : Float32 → Float32 → Float32) (hne : ps ≠ []) :
    combined op (combined op ps :: qs) = combined op (ps ++ qs) := by
  cases ps with
  | nil => exact absurd rfl hne
  | cons p ps =>
    show qs.foldl op (ps.foldl op p) = (ps ++ qs).foldl op p
    rw [List.foldl_append]

/-- The first two may change places. -/
theorem combined_swap (t : TNorm) (c : Connective) (hp : IsDegree p) (hq : IsDegree q) :
    combined (t.op c) (p :: q :: ps) = combined (t.op c) (q :: p :: ps) := by
  show ps.foldl _ (t.op c p q) = ps.foldl _ (t.op c q p)
  rw [t.op_comm c hp hq]

/-! ### The least and the greatest -/

/-- `p` is the least number of `X`, or the greatest one. -/
def Connective.IsExtreme : Connective → Set Float32 → Float32 → Prop
  | intersection, X, p => IsLeast X p
  | union, X, p => IsGreatest X p

variable {X : Set Float32} {c : Connective}

/-- There is one extreme degree at most. -/
theorem Connective.IsExtreme.unique (hX : ∀ x ∈ X, IsDegree x) (hp : c.IsExtreme X p)
    (hq : c.IsExtreme X q) : p = q := by
  cases c with
  | intersection =>
    exact (hX p hp.1).eq_of_le_of_le (hX q hq.1) (hp.2 hq.1) (hq.2 hp.1)
  | union =>
    exact (hX p hp.1).eq_of_le_of_le (hX q hq.1) (hq.2 hp.1) (hp.2 hq.1)

theorem smaller_eq_or (a b : Float32) : smaller a b = a ∨ smaller a b = b := by
  unfold smaller
  split
  · exact .inr rfl
  · split
    · exact .inr rfl
    · exact .inl rfl

/-- The extreme one of some degrees, and one degree more. -/
theorem isExtreme_insert (hX : ∀ x ∈ X, IsDegree x) (hp : c.IsExtreme X p) (hq : IsDegree q) :
    c.IsExtreme (insert q X) (TNorm.minimum.op c p q) := by
  cases c with
  | intersection =>
    show IsLeast (insert q X) (smaller p q)
    have hn := (hX p hp.1).isNaN
    constructor
    · rcases smaller_eq_or p q with heq | heq <;> rw [heq]
      · exact Set.mem_insert_of_mem q hp.1
      · exact Set.mem_insert q X
    · rintro x (rfl | hx)
      · exact smaller_le_right hn hq.isNaN
      · exact le_chain (smaller_le_left hn) (hp.2 hx)
  | union =>
    show IsGreatest (insert q X) (larger p q)
    have hn := (hX p hp.1).isNaN
    constructor
    · rcases larger_eq_or p q with heq | heq <;> rw [heq]
      · exact Set.mem_insert_of_mem q hp.1
      · exact Set.mem_insert q X
    · rintro x (rfl | hx)
      · exact le_larger_right hn hq.isNaN
      · exact le_chain (hp.2 hx) (le_larger_left hn)

/-- The fold keeps the extreme of what it has seen. -/
theorem isExtreme_foldl (hX : ∀ x ∈ X, IsDegree x) (hp : c.IsExtreme X p)
    (h : ∀ q ∈ ps, IsDegree q) :
    c.IsExtreme (X ∪ {q | q ∈ ps}) (ps.foldl (TNorm.minimum.op c) p) := by
  induction ps generalizing X p with
  | nil =>
    have hempty : X ∪ {q | q ∈ []} = X := by simp
    rw [hempty]
    exact hp
  | cons q ps ih =>
    obtain ⟨hq, hps⟩ := List.forall_mem_cons.1 h
    have hrest := ih (Set.forall_mem_insert.2 ⟨hq, hX⟩) (isExtreme_insert hX hp hq) hps
    have hset : X ∪ {x | x ∈ q :: ps} = insert q X ∪ {x | x ∈ ps} := by
      ext x
      simp only [Set.mem_union, Set.mem_insert_iff, Set.mem_ofPred_eq, List.mem_cons]
      tauto
    rw [hset]
    exact hrest

/-- **The least or the greatest.**  Minimum and maximum combine degrees to the extreme one of
them. -/
theorem isExtreme_combined (hne : ps ≠ []) (h : ∀ p ∈ ps, IsDegree p) :
    c.IsExtreme {p | p ∈ ps} (combined (TNorm.minimum.op c) ps) := by
  cases ps with
  | nil => exact absurd rfl hne
  | cons p ps =>
    obtain ⟨hp, hps⟩ := List.forall_mem_cons.1 h
    have hself : c.IsExtreme {p} p := by
      have hle : ∀ x ∈ ({p} : Set Float32), p ≤ x ∧ x ≤ p := by
        rintro x rfl
        exact ⟨hp.le_self, hp.le_self⟩
      cases c with
      | intersection => exact ⟨rfl, fun x hx => (hle x hx).1⟩
      | union => exact ⟨rfl, fun x hx => (hle x hx).2⟩
    have hset : {x | x ∈ p :: ps} = {p} ∪ {x | x ∈ ps} := by
      ext x
      simp
    rw [hset]
    exact isExtreme_foldl (by rintro x rfl; exact hp) hself hps

/-- An extreme one of extreme ones is extreme among all that they were chosen from. -/
theorem Connective.IsExtreme.of_extremes {S : Set Float32} (hp : c.IsExtreme S p)
    (hsub : ∀ s ∈ S, ∃ Y ⊆ X, c.IsExtreme Y s)
    (hcover : ∀ x ∈ X, ∃ s ∈ S, ∃ Y, x ∈ Y ∧ c.IsExtreme Y s) : c.IsExtreme X p := by
  cases c with
  | intersection =>
    constructor
    · obtain ⟨Y, hY, hs⟩ := hsub p hp.1
      exact hY hs.1
    · intro x hx
      obtain ⟨s, hsS, Y, hxY, hs⟩ := hcover x hx
      exact le_chain (hp.2 hsS) (hs.2 hxY)
  | union =>
    constructor
    · obtain ⟨Y, hY, hs⟩ := hsub p hp.1
      exact hY hs.1
    · intro x hx
      obtain ⟨s, hsS, Y, hxY, hs⟩ := hcover x hx
      exact le_chain (hs.2 hxY) (hp.2 hsS)

/-! ### Complements -/

/-- The complement takes the smaller to the larger, and the larger to the smaller. -/
theorem one_sub_op (c : Connective) (ha : IsDegree a) (hb : IsDegree b) :
    1 - TNorm.minimum.op c a b = TNorm.minimum.op c.dual (1 - a) (1 - b) := by
  have ha' := isDegree_one_sub ha.probable
  have hb' := isDegree_one_sub hb.probable
  have hturn : ∀ {x y : Float32}, IsDegree x → IsDegree y → x ≤ y → 1 - y ≤ 1 - x :=
    fun hx hy hle => one_sub_le_one_sub hx.probable hy.probable hle
  -- whichever of the two is picked, its complement is picked on the other side
  cases c with
  | intersection =>
    show 1 - smaller a b = larger (1 - a) (1 - b)
    rw [smaller_eq ha.isNaN, larger_eq ha'.isNaN]
    split
    · next hle => rw [if_pos (hturn hb ha hle)]
    · next hnot =>
      have hle := (ha.le_total hb).resolve_right hnot
      split
      · next hle' => exact ha'.eq_of_le_of_le hb' hle' (hturn ha hb hle)
      · rfl
  | union =>
    show 1 - larger a b = smaller (1 - a) (1 - b)
    rw [larger_eq ha.isNaN, smaller_eq ha'.isNaN]
    split
    · next hle => rw [if_pos (hturn ha hb hle)]
    · next hnot =>
      have hle := (ha.le_total hb).resolve_left hnot
      split
      · next hle' => exact ha'.eq_of_le_of_le hb' (hturn hb ha hle) hle'
      · rfl

theorem one_sub_foldl (c : Connective) (hp : IsDegree p) (h : ∀ q ∈ ps, IsDegree q) :
    1 - ps.foldl (TNorm.minimum.op c) p =
      (ps.map fun q => 1 - q).foldl (TNorm.minimum.op c.dual) (1 - p) := by
  induction ps generalizing p with
  | nil => rfl
  | cons q ps ih =>
    obtain ⟨hq, hps⟩ := List.forall_mem_cons.1 h
    rw [List.map_cons, List.foldl_cons, List.foldl_cons, ← one_sub_op c hp hq]
    exact ih (isDegree_op .minimum c hp hq) hps

/-- **De Morgan.**  The complement of a combination is the dual combination of the
complements. -/
theorem one_sub_combined (c : Connective) (hne : ps ≠ []) (h : ∀ p ∈ ps, IsDegree p) :
    1 - combined (TNorm.minimum.op c) ps =
      combined (TNorm.minimum.op c.dual) (ps.map fun p => 1 - p) := by
  cases ps with
  | nil => exact absurd rfl hne
  | cons p ps =>
    obtain ⟨hp, hps⟩ := List.forall_mem_cons.1 h
    exact one_sub_foldl c hp hps

end MultiHop
