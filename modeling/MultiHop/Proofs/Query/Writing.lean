/-
MultiHop/Proofs/Query/Writing.lean

What is written is read back.  The reader passes over the blanks that the writer puts after
its commas, so only what is left of a written shape matters, its `compact` word.  That word
is a spelling of the shape (`spells_compact`): the comma that a tuple of one item keeps is the
one that any tuple may end in.

A tuple without items has no spelling.  It is written as two brackets, and wherever these stand
in a shape, the reader comes to the first of them and stops there
(`readItem_of_not_filled`).

Main result: `Shape.read_inverts_text`.
-/
import MultiHop.Proofs.Query.Grammar

namespace MultiHop.Shape

variable {shape item : Shape} {items : List Shape}

/-! ### Written shapes without blanks -/

/-- What counts of a written shape. -/
def compact (shape : Shape) : List Char := shape.chars.filter counts

theorem counts_letter (s : Symbol) : counts s.letter = true := by
  cases s <;> decide

theorem compact_symbol (s : Symbol) : (Shape.symbol s).compact = [s.letter] := by
  unfold compact
  rw [chars, List.filter_cons_of_pos (counts_letter s), List.filter_nil]

theorem compact_empty : (Shape.tuple []).compact = ['(', ')'] := by
  unfold compact
  rw [chars]
  decide

/-- Of a separator only the comma counts. -/
theorem compact_append_charsRest :
    item.compact ++ (charsRest items).filter counts =
      [','].intercalate ((item :: items).map compact) := by
  induction items generalizing item with
  | nil => simp [charsRest]
  | cons next items ih =>
    have hcomma : (charsRest (next :: items)).filter counts =
        ',' :: (next.compact ++ (charsRest items).filter counts) := by
      rw [charsRest, List.cons_append, List.cons_append,
        List.filter_cons_of_pos (by decide), List.filter_cons_of_neg (by decide),
        List.filter_append]
      rfl
    rw [hcomma, ih, List.map_cons, List.map_cons, List.map_cons, List.intercalate_cons_cons]
    simp

/-- A tuple of one item keeps a comma at its end, and no other tuple does. -/
theorem compact_tuple (hne : items ≠ []) :
    ∃ final, (final = [] ∨ final = [',']) ∧ (Shape.tuple items).compact =
      '(' :: [','].intercalate (items.map compact) ++ final ++ [')'] := by
  obtain ⟨item, rest, rfl⟩ := List.exists_cons_of_ne_nil hne
  cases rest with
  | nil =>
    refine ⟨[','], .inr rfl, ?_⟩
    rw [List.map_singleton, List.intercalate_singleton]
    unfold compact
    rw [chars, List.filter_append, List.filter_cons_of_pos (by decide)]
    simp [show ([',', ')'].filter counts) = [',', ')'] by decide]
  | cons next rest =>
    refine ⟨[], .inl rfl, ?_⟩
    rw [← compact_append_charsRest]
    unfold compact
    rw [chars, List.filter_append, List.filter_append, List.filter_cons_of_pos (by decide)]
    · simp [show ([')'].filter counts) = [')'] by decide]
    · simp

/-! ### Shapes that are read back -/

/-- **A written shape is a spelling** if none of its tuples is empty. -/
theorem spells_compact (h : shape.Filled) : shape.Spells shape.compact := by
  induction h with
  | symbol s =>
    rw [compact_symbol]
    exact .symbol s
  | tuple items hne _ ih =>
    obtain ⟨final, hfinal, hword⟩ := compact_tuple hne
    rw [hword]
    refine .tuple items _ final hne ?_ hfinal
    rw [List.forall₂_map_right_iff, List.forall₂_same]
    exact ih

/-! ### Shapes that are not -/

/-- The reader stops at the end of an empty tuple. -/
def StopsAtEmpty (r : Except ReadError Shape) : Prop := ∃ left, r = .error ⟨.emptyTuple, left⟩

/-- In a row of items the reader takes the filled ones before the first that is not. -/
theorem readItem_row_of_not_filled {before : List Shape} {outer : List (List Shape)}
    (hread : ∀ item ∈ items, ¬ item.Filled → ∀ pending rest,
      StopsAtEmpty (readItem pending (item.compact ++ rest)))
    (h : ∃ item ∈ items, ¬ item.Filled) (rest : List Char) :
    StopsAtEmpty
      (readItem (before :: outer) ([','].intercalate (items.map compact) ++ rest)) := by
  induction items generalizing before with
  | nil => simp at h
  | cons item items ih =>
    obtain ⟨hfirst, hothers⟩ := List.forall_mem_cons.1 hread
    by_cases hitem : item.Filled
    · have hlater : ∃ item ∈ items, ¬ item.Filled := by simpa [hitem] using h
      cases items with
      | nil => simp at hlater
      | cons next items =>
        rw [List.map_cons, List.map_cons, List.intercalate_cons_cons, List.append_assoc,
          List.append_assoc, readItem_append_of_spells (spells_compact hitem),
          List.singleton_append, readOn_comma]
        exact ih hothers hlater
    · rw [← compact_append_charsRest, List.append_assoc]
      exact hfirst hitem _ _

/-- **A written shape with an empty tuple is not read**, wherever it stands. -/
theorem readItem_of_not_filled (h : ¬ shape.Filled) (pending : List (List Shape))
    (rest : List Char) : StopsAtEmpty (readItem pending (shape.compact ++ rest)) := by
  induction shape using Shape.induction generalizing pending rest with
  | symbol s => exact absurd (.symbol s) h
  | tuple items ih =>
    by_cases hne : items = []
    · subst hne
      rw [compact_empty]
      exact ⟨rest, by simp [readItem]⟩
    · have hitem : ∃ item ∈ items, ¬ item.Filled := by
        by_contra hall
        exact h (.tuple items hne fun item hmem => by_contra fun hnot => hall ⟨item, hmem, hnot⟩)
      obtain ⟨final, -, hword⟩ := compact_tuple hne
      rw [hword, List.cons_append, List.cons_append, List.cons_append, readItem_open,
        List.append_assoc, List.append_assoc]
      exact readItem_row_of_not_filled (fun item hmem hnot => ih item hmem hnot) hitem _

/-! ### Writing and reading -/

theorem ofText_text : ofText shape.text = readItem [] shape.compact := by
  unfold ofText text compact
  rw [String.toList_ofList]

theorem read_eq_ok_iff {text : String} : read text = .ok shape ↔ ofText text = .ok shape := by
  unfold read
  cases ofText text <;> simp

/-- **Reading inverts writing**, exactly on the shapes without empty tuples.  The text of any
other shape is no structure: the reader stops at an empty tuple.  So a shape that was read
from some text is read from its own text again. -/
theorem read_inverts_text :
    (∀ shape : Shape, read shape.text = .ok shape ↔ shape.Filled) ∧
    (∀ shape : Shape, ¬ shape.Filled →
      ∃ left, read shape.text = .error (.unreadableShape ⟨.emptyTuple, left⟩)) ∧
    ∀ (text : String) (shape : Shape), read text = .ok shape → read shape.text = .ok shape := by
  have hfilled : ∀ (text : String) (shape : Shape), read text = .ok shape → shape.Filled := by
    intro text shape h
    have hspells := (read_sound _).1 [] [] shape .nil (read_eq_ok_iff.1 h)
    exact hspells.filled
  have hback : ∀ shape : Shape, shape.Filled → read shape.text = .ok shape := by
    intro shape h
    rw [read_eq_ok_iff, ofText_text]
    exact readItem_of_spells (spells_compact h)
  refine ⟨fun shape => ⟨hfilled _ _, hback shape⟩, fun shape h => ?_,
    fun text shape h => hback shape (hfilled text shape h)⟩
  obtain ⟨left, hleft⟩ := readItem_of_not_filled h [] []
  rw [List.append_nil, ← ofText_text] at hleft
  refine ⟨left, ?_⟩
  unfold read
  rw [hleft]

example : read (text (.tuple [.symbol .entity, .tuple [.tuple []], .tuple []])) =
    .error (.unreadableShape ⟨.emptyTuple, ",),())".toList⟩) := by
  decide

end MultiHop.Shape
