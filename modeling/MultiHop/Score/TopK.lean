/-
MultiHop/Score/TopK.lean

Best entries first.  Entries are put in descending order of a key by insertion,
each behind all that are at least as good, so entries of one key stay in the order
of their positions; the `k` best are then a prefix of one fixed list, whatever
`k` is.
-/

namespace MultiHop

variable {α : Type}

/-! ### Descending order -/

/-- Puts `x` before the first entry whose key is not above the key of `x`. -/
def insertDescending (key : α → Int) (x : α) : List α → List α
  | [] => [x]
  | y :: ys => if key y ≤ key x then x :: y :: ys else y :: insertDescending key x ys

/-- The entries in descending order of `key`; equal keys keep their order. -/
def descending (key : α → Int) : List α → List α
  | [] => []
  | x :: xs => insertDescending key x (descending key xs)

theorem insertDescending_perm (key : α → Int) (x : α) (ys : List α) :
    (insertDescending key x ys).Perm (x :: ys) := by
  induction ys with
  | nil => exact .refl _
  | cons y ys ih =>
    unfold insertDescending
    split
    · exact .refl _
    · exact (ih.cons y).trans (.swap x y ys)

theorem descending_perm (key : α → Int) (xs : List α) : (descending key xs).Perm xs := by
  induction xs with
  | nil => exact .refl _
  | cons x xs ih => exact (insertDescending_perm key x _).trans (ih.cons x)

/-- The `k` best entries of `xs` with their positions, best first. -/
def topKBy (key : α → Int) (k : Nat) (xs : List α) : List (Nat × α) :=
  (descending (fun entry => key entry.2)
    (xs.zipIdx.map fun (x, i) => (i, x))).take k

theorem length_topKBy (key : α → Int) (k : Nat) (xs : List α) :
    (topKBy key k xs).length = min k xs.length := by
  simp [topKBy, (descending_perm _ _).length_eq]

/-! ### Order of single-precision words -/

/-- Rank of a single-precision word in the total order of all words: from negative
NaN over the negative numbers and `-0` to `+0`, the positive numbers and positive
NaN. -/
def totalRank (word : UInt32) : Int :=
  if word.toNat < 0x80000000 then word.toNat else 0x7fffffff - word.toNat

/-- Different words have different ranks. -/
theorem eq_of_totalRank_eq {w w' : UInt32} (h : totalRank w = totalRank w') : w = w' := by
  have hlt : w.toNat < 2 ^ 32 := w.toBitVec.isLt
  have hlt' : w'.toNat < 2 ^ 32 := w'.toBitVec.isLt
  unfold totalRank at h
  apply UInt32.toNat_inj.1
  split at h <;> split at h <;> omega

/-- The `k` best words with their positions, best first in the total order. -/
def topK (k : Nat) (words : List UInt32) : List (Nat × UInt32) := topKBy totalRank k words

/-- Rank of a number among all numbers. -/
def rankOf (x : Float32) : Int := totalRank x.toBits

end MultiHop
