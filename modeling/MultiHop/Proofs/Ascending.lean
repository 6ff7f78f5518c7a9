/-
MultiHop/Proofs/Ascending.lean

Lists without repetition.  Of a history, `eraseDups` keeps every member where it comes first, and
one more entry is one member more at the end or none (`eraseDups_concat`).  A set that is kept as
a strictly ascending list stays so when a member is added (`Ascending.isAscending_insert`), and it
grows by one member at most.
-/
import Mathlib.Data.List.Induction
import Mathlib.Data.List.Nodup
import MultiHop.Ascending
import MultiHop.Id

namespace MultiHop

/-! ### First occurrences -/

section

variable {α : Type} [BEq α] [LawfulBEq α] {x : α} {xs : List α}

theorem eraseDups_concat_of_mem (h : x ∈ xs) : (xs ++ [x]).eraseDups = xs.eraseDups := by
  rw [List.eraseDups_append]
  simp [List.removeAll, h]

theorem eraseDups_concat_of_notMem (h : x ∉ xs) :
    (xs ++ [x]).eraseDups = xs.eraseDups ++ [x] := by
  rw [List.eraseDups_append]
  simp [List.removeAll, List.eraseDups_cons, h]

theorem nodup_eraseDups (xs : List α) : xs.eraseDups.Nodup := by
  induction xs using List.reverseRecOn with
  | nil => exact List.nodup_nil
  | append_singleton xs x ih =>
    by_cases h : x ∈ xs
    · rwa [eraseDups_concat_of_mem h]
    · rw [eraseDups_concat_of_notMem h, List.nodup_append]
      refine ⟨ih, List.nodup_singleton x, ?_⟩
      rintro y hy z hz rfl
      rw [List.mem_singleton.1 hz] at hy
      exact h (List.mem_eraseDups.1 hy)

end

/-! ### Orders -/

instance : Std.TransOrd EntityId where
  eq_swap {a b} := Std.OrientedOrd.eq_swap (a := a.index) (b := b.index)
  isLE_trans {a b c} := Std.TransOrd.isLE_trans (a := a.index) (b := b.index) (c := c.index)

instance : Std.TransOrd RelationId where
  eq_swap {a b} := Std.OrientedOrd.eq_swap (a := a.index) (b := b.index)
  isLE_trans {a b c} := Std.TransOrd.isLE_trans (a := a.index) (b := b.index) (c := c.index)

theorem compare_triple : (compare : Triple → Triple → Ordering) =
    compareLex (compareLex (compareOn (·.head)) (compareOn (·.relation))) (compareOn (·.tail)) :=
  rfl

instance : Std.TransOrd Triple := by
  unfold Std.TransOrd
  rw [compare_triple]
  infer_instance

namespace Ascending

/-! ### Strictly ascending lists -/

variable {α : Type} [Ord α]

/-- Every entry is before all that follow. -/
def IsAscending (s : List α) : Prop := s.Pairwise fun a b => compare a b = .lt

variable {x : α} {s : List α}

theorem isAscending_nil : IsAscending ([] : List α) := .nil

/-- An ascending list has no entry twice. -/
theorem IsAscending.nodup [Std.ReflOrd α] (h : IsAscending s) : s.Nodup := by
  refine h.imp fun {a b} hlt heq => ?_
  rw [heq, Std.ReflOrd.compare_self] at hlt
  cases hlt

/-- **Adding a member keeps the list ascending.** -/
theorem isAscending_insert [Std.TransOrd α] [Std.LawfulEqOrd α] (h : IsAscending s) :
    IsAscending (insert x s) := by
  induction s with
  | nil => exact List.pairwise_singleton _ x
  | cons y ys ih =>
    obtain ⟨hy, hys⟩ := List.pairwise_cons.1 h
    unfold insert
    split
    · next hlt =>
      refine List.pairwise_cons.2 ⟨fun z hz => ?_, h⟩
      rcases List.mem_cons.1 hz with rfl | hz
      · exact hlt
      · exact Std.TransCmp.lt_trans hlt (hy z hz)
    · exact h
    · next hgt =>
      refine List.pairwise_cons.2 ⟨fun z hz => ?_, ih hys⟩
      rcases mem_insert.1 hz with rfl | hz
      · exact Std.OrientedCmp.lt_of_gt hgt
      · exact hy z hz

theorem isAscending_insertAll [Std.TransOrd α] [Std.LawfulEqOrd α] {xs : List α}
    (h : IsAscending s) : IsAscending (insertAll xs s) := by
  induction xs generalizing s with
  | nil => exact h
  | cons x xs ih => exact ih (isAscending_insert h)

theorem isAscending_ofList [Std.TransOrd α] [Std.LawfulEqOrd α] (xs : List α) :
    IsAscending (ofList xs) := isAscending_insertAll isAscending_nil

/-! ### Sizes -/

theorem length_insert_le (x : α) (s : List α) : (insert x s).length ≤ s.length + 1 := by
  induction s with
  | nil => exact Nat.le_refl _
  | cons y ys ih =>
    unfold insert
    split
    · exact Nat.le_refl _
    · exact Nat.le_succ _
    · exact Nat.succ_le_succ ih

theorem length_insertAll_le (xs s : List α) :
    (insertAll xs s).length ≤ xs.length + s.length := by
  induction xs generalizing s with
  | nil => exact Nat.le_add_left _ _
  | cons x xs ih =>
    have hx := length_insert_le x s
    have hxs := ih (insert x s)
    rw [List.length_cons]
    show (insertAll xs (insert x s)).length ≤ _
    omega

/-- A set has no more members than the list that it is made of has entries. -/
theorem length_ofList_le (xs : List α) : (ofList xs).length ≤ xs.length :=
  length_insertAll_le xs []

end Ascending

end MultiHop
