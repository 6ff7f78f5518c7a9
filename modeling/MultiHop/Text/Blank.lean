/-
MultiHop/Text/Blank.lean

The blank characters: those with the Unicode property White_Space.
-/

namespace MultiHop.Text

/-- Ranges of code points with the property White_Space, ends included. -/
def blankRanges : List (Nat × Nat) :=
  [(0x0009, 0x000D), (0x0020, 0x0020), (0x0085, 0x0085), (0x00A0, 0x00A0),
   (0x1680, 0x1680), (0x2000, 0x200A), (0x2028, 0x2029), (0x202F, 0x202F),
   (0x205F, 0x205F), (0x3000, 0x3000)]

/-- Whether a code point lies in one of some ranges, which ascend. -/
def inRanges : List (Nat × Nat) → Nat → Bool
  | [], _ => false
  | (first, last) :: ranges, code =>
    if code < first then false else code ≤ last || inRanges ranges code

/-- Whether ranges ascend, with a gap between one and the next. -/
def ascending : List (Nat × Nat) → Bool
  | (first, last) :: (next, stop) :: ranges =>
    first ≤ last && last + 1 < next && ascending ((next, stop) :: ranges)
  | [(first, last)] => first ≤ last
  | [] => true

/-- Ascending ranges stay so without the first one. -/
theorem ascending_tail {range : Nat × Nat} {ranges : List (Nat × Nat)}
    (h : ascending (range :: ranges)) : ascending ranges := by
  cases ranges with
  | nil => rfl
  | cons next ranges => simp_all [ascending]

/-- Each range lies above the last code point of the first one. -/
theorem lt_of_ascending {first last : Nat} {ranges : List (Nat × Nat)}
    (h : ascending ((first, last) :: ranges)) : ∀ r ∈ ranges, last < r.1 := by
  induction ranges generalizing first last with
  | nil => simp
  | cons next ranges ih =>
    obtain ⟨start, stop⟩ := next
    have above : last + 1 < start := by simp_all [ascending]
    have tail := ascending_tail h
    have ordered : start ≤ stop := by
      cases ranges <;> simp_all [ascending]
    intro r hr
    rcases List.mem_cons.1 hr with rfl | hr
    · exact Nat.lt_of_succ_lt above
    · have := ih tail r hr
      omega

/-- The early end of the search misses nothing. -/
theorem inRanges_iff {ranges : List (Nat × Nat)} (h : ascending ranges) {code : Nat} :
    inRanges ranges code ↔ ∃ r ∈ ranges, r.1 ≤ code ∧ code ≤ r.2 := by
  induction ranges with
  | nil => simp [inRanges]
  | cons range ranges ih =>
    obtain ⟨first, last⟩ := range
    have ordered : first ≤ last := by
      cases ranges <;> simp_all [ascending]
    have above := lt_of_ascending h
    have rest := ih (ascending_tail h)
    by_cases below : code < first
    · simp only [inRanges, below, ite_true, Bool.false_eq_true, false_iff]
      rintro ⟨r, hr, hlo, -⟩
      rcases List.mem_cons.1 hr with rfl | hr
      · exact absurd hlo (by omega)
      · have := above r hr
        omega
    · simp only [inRanges, below, ite_false, Bool.or_eq_true, decide_eq_true_eq, rest,
        List.mem_cons, exists_eq_or_imp]
      exact or_congr_left ⟨fun hi => ⟨Nat.le_of_not_lt below, hi⟩, fun hr => hr.2⟩

/-- Whether `c` is blank. -/
def isBlank (c : Char) : Bool := inRanges blankRanges c.toNat

theorem ascending_blankRanges : ascending blankRanges := by decide

/-- The property has twenty-five characters. -/
theorem blank_count :
    blankRanges.foldl (fun n (first, last) => n + (last + 1 - first)) 0 = 25 := by decide

/-- Every blank of the ASCII range is one. -/
theorem isBlank_of_isWhitespace {c : Char} (h : c.isWhitespace) : isBlank c := by
  simp only [Char.isWhitespace, Bool.or_eq_true, decide_eq_true_eq] at h
  rcases h with ((h | h) | h) | h <;> subst h <;> decide

end MultiHop.Text
