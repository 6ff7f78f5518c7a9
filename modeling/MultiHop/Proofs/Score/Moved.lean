/-
MultiHop/Proofs/Score/Moved.lean

Vectors whose entries have been moved by a permutation of positions.  Operations that work
position by position do the same to moved vectors.  Sorting does not: entries of one key are
put in the order of their positions.  But if the list of the best entries is cut cleanly,
then the same entries are kept of a moved vector (`Moved.mem_topKBy_iff`): they are kept
whatever else is, because they have few rivals, and there are as many of them in both lists.
-/
import Mathlib.Logic.Equiv.Basic
import MultiHop.Proofs.Score.TopK

namespace MultiHop

variable {α β γ : Type} {σ : Equiv.Perm ℕ} {xs ys : List α}

/-- The first `n` positions stay the first `n` positions. -/
def KeepsRange (σ : Equiv.Perm ℕ) (n : ℕ) : Prop := ∀ i, σ i < n ↔ i < n

theorem KeepsRange.symm {n : ℕ} (hσ : KeepsRange σ n) : KeepsRange σ.symm n := by
  intro i
  rw [← hσ, Equiv.apply_symm_apply]

theorem keepsRange_swap {n i j : ℕ} (hi : i < n) (hj : j < n) : KeepsRange (Equiv.swap i j) n := by
  intro l
  rw [Equiv.swap_apply_def]
  split
  · next heq => exact iff_of_true hj (heq ▸ hi)
  · split
    · next heq => exact iff_of_true hi (heq ▸ hj)
    · exact Iff.rfl

/-- The entry of `xs` at each position `i` is that of `ys` at `σ i`. -/
structure Moved (σ : Equiv.Perm ℕ) (xs ys : List α) : Prop where
  length_eq : ys.length = xs.length
  getElem? (i : ℕ) : ys[σ i]? = xs[i]?

namespace Moved

theorem mem (h : Moved σ xs ys) {y : α} (hy : y ∈ ys) : y ∈ xs := by
  obtain ⟨j, hj⟩ := List.mem_iff_getElem?.1 hy
  have hi := h.getElem? (σ.symm j)
  rw [Equiv.apply_symm_apply, hj] at hi
  exact List.mem_of_getElem? hi.symm

theorem map (h : Moved σ xs ys) (f : α → β) : Moved σ (xs.map f) (ys.map f) where
  length_eq := by rw [List.length_map, List.length_map, h.length_eq]
  getElem? i := by rw [List.getElem?_map, List.getElem?_map, h.getElem? i]

theorem zipWith {xs' ys' : List β} (h : Moved σ xs ys) (h' : Moved σ xs' ys') (f : α → β → γ) :
    Moved σ (xs.zipWith f xs') (ys.zipWith f ys') where
  length_eq := by rw [List.length_zipWith, List.length_zipWith, h.length_eq, h'.length_eq]
  getElem? i := by
    rw [List.getElem?_zipWith, List.getElem?_zipWith, h.getElem? i, h'.getElem? i]

theorem set (h : Moved σ xs ys) (i : ℕ) (x : α) : Moved σ (xs.set i x) (ys.set (σ i) x) where
  length_eq := by rw [List.length_set, List.length_set, h.length_eq]
  getElem? j := by
    rw [List.getElem?_set', List.getElem?_set', h.getElem? j]
    simp only [σ.injective.eq_iff]

end Moved

theorem moved_replicate {n : ℕ} (hσ : KeepsRange σ n) (x : α) :
    Moved σ (List.replicate n x) (List.replicate n x) where
  length_eq := rfl
  getElem? i := by
    rw [List.getElem?_replicate, List.getElem?_replicate]
    simp only [hσ i]

/-! ### Moving the entries of a vector -/

section

variable {row : List Float32}

/-- The entries of `row`, each at its new position. -/
def moveRow (σ : Equiv.Perm ℕ) (row : List Float32) : List Float32 :=
  (List.range row.length).map fun j => row.getD (σ.symm j) 0

theorem length_moveRow : (moveRow σ row).length = row.length := by
  unfold moveRow
  rw [List.length_map, List.length_range]

theorem moved_moveRow (hσ : KeepsRange σ row.length) :
    Moved σ row (moveRow σ row) where
  length_eq := length_moveRow
  getElem? i := by
    by_cases hi : i < row.length
    · have hj : σ i < (moveRow σ row).length := length_moveRow.symm ▸ (hσ i).2 hi
      rw [List.getElem?_eq_getElem hj, List.getElem?_eq_getElem hi]
      simp [moveRow, hi]
    · have hj : (moveRow σ row).length ≤ σ i := by
        rw [length_moveRow]
        exact not_lt.1 fun h => hi ((hσ i).1 h)
      rw [List.getElem?_eq_none hj, List.getElem?_eq_none (not_lt.1 hi)]

end

/-! ### The best entries of moved vectors -/

section

variable {key : α → Int} {k i : ℕ} {x : α}

/-- Positions of the `k` best entries. -/
def kept (key : α → Int) (k : ℕ) (xs : List α) : Finset ℕ :=
  ((topKBy key k xs).map (·.1)).toFinset

theorem mem_kept : i ∈ kept key k xs ↔ ∃ x, (i, x) ∈ topKBy key k xs := by
  unfold kept
  rw [List.mem_toFinset, List.mem_map]
  constructor
  · rintro ⟨⟨j, x⟩, hx, rfl⟩
    exact ⟨x, hx⟩
  · rintro ⟨x, hx⟩
    exact ⟨(i, x), hx, rfl⟩

theorem card_kept : (kept key k xs).card = min k xs.length := by
  unfold kept
  rw [List.toFinset_card_of_nodup nodup_topKBy, List.length_map, length_topKBy]

/-- An entry that is kept is kept after it has been moved. -/
theorem Moved.mem_topKBy (h : Moved σ xs ys) (hkey : key.Injective)
    (hclean : CutsCleanly key k xs) (hx : (i, x) ∈ topKBy key k xs) :
    (σ i, x) ∈ topKBy key k ys := by
  -- what is as good has been moved from the positions that are kept
  refine MultiHop.mem_topKBy (s := (kept key k xs).image σ)
    ((h.getElem? i).trans (getElem?_of_mem_topKBy hx)) (fun j y hj hle => ?_) ?_
  · have hy := h.getElem? (σ.symm j)
    rw [Equiv.apply_symm_apply, hj] at hy
    have hmem := mem_topKBy_of_key_le hkey hclean hx hy.symm hle
    exact Finset.mem_image.2 ⟨σ.symm j, mem_kept.2 ⟨y, hmem⟩, σ.apply_symm_apply j⟩
  · calc ((kept key k xs).image σ).card ≤ (kept key k xs).card := Finset.card_image_le
      _ = min k xs.length := card_kept
      _ ≤ k := min_le_left _ _

/-- **A clean cut keeps the same entries**, wherever they have been moved. -/
theorem Moved.mem_topKBy_iff (h : Moved σ xs ys) (hkey : key.Injective)
    (hclean : CutsCleanly key k xs) :
    (σ i, x) ∈ topKBy key k ys ↔ (i, x) ∈ topKBy key k xs := by
  refine ⟨fun hx => ?_, h.mem_topKBy hkey hclean⟩
  have hsub : (kept key k xs).image σ ⊆ kept key k ys := by
    intro j hj
    obtain ⟨l, hl, rfl⟩ := Finset.mem_image.1 hj
    obtain ⟨y, hy⟩ := mem_kept.1 hl
    exact mem_kept.2 ⟨y, h.mem_topKBy hkey hclean hy⟩
  have hcard : (kept key k ys).card ≤ ((kept key k xs).image σ).card := by
    rw [Finset.card_image_of_injective _ σ.injective, card_kept, card_kept, h.length_eq]
  have heq := Finset.eq_of_subset_of_card_le hsub hcard
  -- so the position is one of those that are kept, and it has one entry
  have hmem : σ i ∈ (kept key k xs).image σ := heq ▸ mem_kept.2 ⟨x, hx⟩
  obtain ⟨l, hl, hli⟩ := Finset.mem_image.1 hmem
  obtain rfl := σ.injective hli
  obtain ⟨y, hy⟩ := mem_kept.1 hl
  have hentry := (h.getElem? l).symm.trans (getElem?_of_mem_topKBy hx)
  rw [getElem?_of_mem_topKBy hy] at hentry
  cases hentry
  exact hy

end

end MultiHop
