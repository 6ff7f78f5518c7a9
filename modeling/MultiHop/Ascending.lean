/-
MultiHop/Ascending.lean

Finite sets kept as strictly ascending lists.  The list is both the set and the
order in which it is walked through.
-/

namespace MultiHop.Ascending

variable {α : Type} [Ord α]

/-- Adds `x` to an ascending list, unless it is there already. -/
def insert (x : α) : List α → List α
  | [] => [x]
  | y :: ys =>
    match compare x y with
    | .lt => x :: y :: ys
    | .eq => y :: ys
    | .gt => y :: insert x ys

/-- Adds every member of `xs`. -/
def insertAll (xs set : List α) : List α := xs.foldl (fun s x => insert x s) set

/-- The ascending list of the members of `xs`. -/
def ofList (xs : List α) : List α := insertAll xs []

theorem insert_ne_nil (x : α) (s : List α) : insert x s ≠ [] := by
  cases s with
  | nil => simp [insert]
  | cons y ys => simp only [insert]; split <;> simp

/-! ### Members -/

theorem mem_insert [Std.LawfulEqOrd α] {x y : α} {s : List α} :
    y ∈ insert x s ↔ y = x ∨ y ∈ s := by
  induction s with
  | nil => simp [insert]
  | cons z s ih =>
    unfold insert
    split
    · simp
    · next h =>
      obtain rfl := Std.LawfulEqOrd.eq_of_compare h
      simp
    · simp only [List.mem_cons, ih]
      exact or_left_comm

theorem mem_insertAll [Std.LawfulEqOrd α] {xs s : List α} {y : α} :
    y ∈ insertAll xs s ↔ y ∈ xs ∨ y ∈ s := by
  unfold insertAll
  induction xs generalizing s with
  | nil => simp
  | cons x xs ih =>
    simp only [List.foldl_cons, ih, mem_insert, List.mem_cons]
    rw [or_left_comm, or_assoc]

theorem mem_ofList [Std.LawfulEqOrd α] {xs : List α} {y : α} : y ∈ ofList xs ↔ y ∈ xs := by
  simp [ofList, mem_insertAll]

end MultiHop.Ascending
