/-
MultiHop/Proofs/Rank/Strict.lean

Ranks of the entries of a row.  The rank of a number is one more than the number of positions
that hold a larger one, so ranks are compared by comparing sets of positions: what is above a
number is above every smaller one (`above_subset`), and a number of the row is above the smaller
ones but not above itself.  Hence the ranks of a row have the reversed order of its entries
(`strictRank_le_iff`), the largest entries have the first rank (`strictRank_eq_one_iff`), and
entries that are all different have the ranks from 1 to their number (`strictRank_perm`).
-/
import MultiHop.Proofs.Score.TopK
import MultiHop.Proofs.Single.Value
import MultiHop.Rank.KnownFacts

namespace MultiHop

open Single

variable {row : List Float32} {x y : Float32} {i : Nat}

/-- Positions of a row whose entries are strictly above `x`. -/
def above (row : List Float32) (x : Float32) : Finset Nat :=
  positions (fun a => decide (x < a.2)) row

theorem mem_above : i ∈ above row x ↔ ∃ y, row[i]? = some y ∧ x < y := by
  unfold above
  simp only [mem_positions, decide_eq_true_iff]

theorem strictRank_eq (x : Float32) (row : List Float32) :
    strictRank x row = 1 + (above row x).card := by
  unfold strictRank above
  rw [countP_eq_card]

/-- No entry is above itself. -/
theorem notMem_above (hx : row[i]? = some x) : i ∉ above row x := by
  intro hi
  obtain ⟨y, hy, hlt⟩ := mem_above.1 hi
  rw [hx] at hy
  cases hy
  exact not_lt_self x hlt

theorem above_subset (h : y ≤ x) : above row x ⊆ above row y := by
  intro i hi
  obtain ⟨z, hz, hlt⟩ := mem_above.1 hi
  exact mem_above.2 ⟨z, hz, le_lt_chain h hlt⟩

/-! ### Bounds -/

theorem one_le_strictRank (x : Float32) (row : List Float32) : 1 ≤ strictRank x row := by
  rw [strictRank_eq]
  exact Nat.le_add_right 1 _

/-- An entry has at most as many rivals above it as there are other entries. -/
theorem strictRank_le_length (hx : row[i]? = some x) : strictRank x row ≤ row.length := by
  have hi : i < row.length := (List.getElem?_eq_some_iff.1 hx).1
  have hsub : above row x ⊆ (Finset.range row.length).erase i := by
    intro j hj
    refine Finset.mem_erase.2 ⟨?_, Finset.filter_subset _ _ hj⟩
    rintro rfl
    exact notMem_above hx hj
  have hcard := Finset.card_le_card hsub
  rw [Finset.card_erase_of_mem (Finset.mem_range.2 hi), Finset.card_range] at hcard
  rw [strictRank_eq]
  omega

/-! ### Order -/

/-- The fewer entries are above a number, the lower is its rank. -/
theorem strictRank_le_of_subset {other : List Float32} (h : above row x ⊆ above other y) :
    strictRank x row ≤ strictRank y other := by
  rw [strictRank_eq, strictRank_eq]
  exact Nat.add_le_add_left (Finset.card_le_card h) 1

theorem strictRank_lt (hy : y ∈ row) (h : x < y) : strictRank y row < strictRank x row := by
  obtain ⟨i, hi⟩ := List.mem_iff_getElem?.1 hy
  have hssub : above row y ⊂ above row x :=
    Finset.ssubset_iff_of_subset (above_subset (le_of_less h)) |>.2
      ⟨i, mem_above.2 ⟨y, hi, h⟩, notMem_above hi⟩
  rw [strictRank_eq, strictRank_eq]
  exact Nat.add_lt_add_left (Finset.card_lt_card hssub) 1

section

variable (hnum : ∀ z ∈ row, z.isNaN = false)

include hnum

/-- Of two entries of a row whose entries are all different one is smaller. -/
theorem lt_or_lt_of_pairwise (hdiff : row.Pairwise fun x y => (x != y) = true) {j : Nat}
    (hx : row[i]? = some x) (hy : row[j]? = some y) (hne : i ≠ j) : x < y ∨ y < x := by
  obtain ⟨hi, rfl⟩ := List.getElem?_eq_some_iff.1 hx
  obtain ⟨hj, rfl⟩ := List.getElem?_eq_some_iff.1 hy
  have hxn := hnum row[i] (List.getElem_mem hi)
  have hyn := hnum row[j] (List.getElem_mem hj)
  rcases Nat.lt_or_gt_of_ne hne with hij | hji
  · exact lt_or_lt_of_bne hxn hyn (List.pairwise_iff_getElem.1 hdiff i j hi hj hij)
  · exact (lt_or_lt_of_bne hyn hxn (List.pairwise_iff_getElem.1 hdiff j i hj hi hji)).symm

/-- **Ranks have the reversed order of the entries.** -/
theorem strictRank_le_iff (hx : x ∈ row) (hy : y ∈ row) :
    strictRank x row ≤ strictRank y row ↔ y ≤ x := by
  refine ⟨fun hle => ?_, fun h => strictRank_le_of_subset (above_subset h)⟩
  by_contra hnot
  have hlt := strictRank_lt hy ((not_le_iff (hnum y hy) (hnum x hx)).1 hnot)
  omega

/-- **The largest entries, and no others, have the first rank.** -/
theorem strictRank_eq_one_iff (hx : x ∈ row) :
    strictRank x row = 1 ↔ ∀ y ∈ row, y ≤ x := by
  constructor
  · intro hone y hy
    refine (strictRank_le_iff hnum hx hy).1 ?_
    rw [hone]
    exact one_le_strictRank y row
  · intro hmax
    have hempty : above row x = ∅ := by
      refine Finset.eq_empty_of_forall_notMem fun i hi => ?_
      obtain ⟨y, hy, hlt⟩ := mem_above.1 hi
      exact not_lt_self x (lt_le_chain hlt (hmax y (List.mem_of_getElem? hy)))
    rw [strictRank_eq, hempty, Finset.card_empty]

/-- **Entries that are all different have the ranks from one to their number**, each of them
once. -/
theorem strictRank_perm (hdiff : row.Pairwise fun x y => (x != y) = true) :
    (row.map fun x => strictRank x row).Perm (List.range' 1 row.length) := by
  have hnodup : (row.map fun x => strictRank x row).Nodup := by
    refine List.pairwise_map.2 (hdiff.imp_of_mem fun {x y} hx hy hne => ?_)
    rcases lt_or_lt_of_bne (hnum x hx) (hnum y hy) hne with hlt | hlt
    · exact (strictRank_lt hy hlt).ne'
    · exact (strictRank_lt hx hlt).ne
  have hrange : (row.map fun x => strictRank x row) ⊆ List.range' 1 row.length := by
    intro k hk
    obtain ⟨x, hx, rfl⟩ := List.mem_map.1 hk
    obtain ⟨i, hi⟩ := List.mem_iff_getElem?.1 hx
    have hlow := one_le_strictRank x row
    have hhigh := strictRank_le_length hi
    rw [List.mem_range'_1]
    omega
  refine (hnodup.subperm hrange).perm_of_length_le ?_
  rw [List.length_range', List.length_map]

end

end MultiHop
