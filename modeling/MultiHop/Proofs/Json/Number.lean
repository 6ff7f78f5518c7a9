/-
MultiHop/Proofs/Json/Number.lean

Written numbers are read back.  A number is made of runs of decimal digits, each ended by
something that is no digit: the point, the mark of the exponent, or the end
(`digitRun_append`).  Not every value of the type of numbers can be written; one that can has
digits before the point, after it and in the exponent wherever there is one, and no zero before
other digits (`Number.Proper`).

Main result: `Number.ofChars?_written`.
-/
import MultiHop.Json.Token
import MultiHop.Json.Writer

namespace MultiHop.Json

/-! ### Digits -/

/-- Decimal digits, at least one. -/
def IsDigits (ds : List Nat) : Prop := ds ≠ [] ∧ ∀ d ∈ ds, d < 10

instance (ds : List Nat) : Decidable (IsDigits ds) := inferInstanceAs (Decidable (_ ∧ _))

theorem digit?_digitChar : ∀ d < 10, digit? (Nat.digitChar d) = some d := by decide

theorem isNumberChar_digitChar : ∀ d < 10, isNumberChar (Nat.digitChar d) = true := by decide

theorem digitChar_ne_sign : ∀ d < 10, Nat.digitChar d ≠ '-' ∧ Nat.digitChar d ≠ '+' := by decide

/-- A run of digits goes as far as there are digits. -/
theorem digitRun_append {ds : List Nat} (hds : ∀ d ∈ ds, d < 10) {rest : List Char}
    (hrest : digitRun rest = ([], rest)) :
    digitRun (ds.map Nat.digitChar ++ rest) = (ds, rest) := by
  induction ds with
  | nil => exact hrest
  | cons d ds ih =>
    obtain ⟨hd, hds⟩ := List.forall_mem_cons.1 hds
    rw [List.map_cons, List.cons_append, digitRun, digit?_digitChar d hd, ih hds]

/-- No sign stands where a number has its digits. -/
theorem head?_digits {ds : List Nat} (hds : IsDigits ds) (rest : List Char) :
    (ds.map Nat.digitChar ++ rest).head? ≠ some '-' ∧
      (ds.map Nat.digitChar ++ rest).head? ≠ some '+' := by
  obtain ⟨hne, hall⟩ := hds
  cases ds with
  | nil => exact absurd rfl hne
  | cons d ds =>
    obtain ⟨hminus, hplus⟩ := digitChar_ne_sign d (hall d List.mem_cons_self)
    simp [hminus, hplus]

theorem isNumberChar_digits {ds : List Nat} (hds : IsDigits ds) {c : Char}
    (hc : c ∈ ds.map Nat.digitChar) : isNumberChar c = true := by
  obtain ⟨d, hd, rfl⟩ := List.mem_map.1 hc
  exact isNumberChar_digitChar d (hds.2 d hd)

namespace Number

/-! ### Parts of a number -/

/-- The number can be written. -/
structure Proper (n : Number) : Prop where
  whole : IsDigits n.whole
  leading : n.whole.head? = some 0 → n.whole = [0]
  fraction : ∀ ds, n.fraction = some ds → IsDigits ds
  exponent : ∀ negative ds, n.exponent = some (negative, ds) → IsDigits ds

/-- The sign, if there is one. -/
def writtenSign (negative : Bool) : List Char := if negative then ['-'] else []

/-- The point with the digits after it. -/
def writtenFraction : Option (List Nat) → List Char
  | some ds => '.' :: ds.map Nat.digitChar
  | none => []

/-- The exponent with its mark. -/
def writtenExponent : Option (Bool × List Nat) → List Char
  | some (negative, ds) => 'e' :: writtenSign negative ++ ds.map Nat.digitChar
  | none => []

theorem written_eq (n : Number) : n.written = writtenSign n.negative ++ n.whole.map Nat.digitChar ++
    writtenFraction n.fraction ++ writtenExponent n.exponent := rfl

theorem exponent?_written {negative : Bool} {ds : List Nat} (hds : IsDigits ds) :
    exponent? (writtenSign negative ++ ds.map Nat.digitChar) = some (negative, ds) := by
  have hrun : digitRun (ds.map Nat.digitChar ++ []) = (ds, []) := digitRun_append hds.2 rfl
  obtain ⟨hminus, hplus⟩ := head?_digits hds []
  rw [List.append_nil] at hrun hminus hplus
  generalize ds.map Nat.digitChar = cs at hrun hminus hplus
  unfold exponent?
  split
  next negative' cs' hsign =>
    have hpair : (negative, cs) = (negative', cs') := by
      cases negative with
      | true => exact hsign
      | false =>
        simp only [writtenSign, Bool.false_eq_true, if_false, List.nil_append] at hsign
        split at hsign
        · simp at hminus
        · simp at hplus
        · exact hsign
    cases hpair
    rw [hrun]
    obtain ⟨hne, -⟩ := hds
    cases ds with
    | nil => exact absurd rfl hne
    | cons d ds => rfl

theorem tail?_written {e : Option (Bool × List Nat)}
    (he : ∀ negative ds, e = some (negative, ds) → IsDigits ds) :
    tail? (writtenExponent e) = some e := by
  cases e with
  | none => rfl
  | some e =>
    obtain ⟨negative, ds⟩ := e
    show (exponent? (writtenSign negative ++ ds.map Nat.digitChar)).map some = _
    rw [exponent?_written (he negative ds rfl)]
    rfl

theorem digitRun_writtenExponent (e : Option (Bool × List Nat)) :
    digitRun (writtenExponent e) = ([], writtenExponent e) := by
  rcases e with _ | ⟨negative, ds⟩ <;> rfl

theorem digitRun_writtenFraction (f : Option (List Nat)) (e : Option (Bool × List Nat)) :
    digitRun (writtenFraction f ++ writtenExponent e) =
      ([], writtenFraction f ++ writtenExponent e) := by
  cases f with
  | none => exact digitRun_writtenExponent e
  | some ds => rfl

/-! ### Whole numbers -/

/-- **A written number is read back.** -/
theorem ofChars?_written {n : Number} (hn : n.Proper) : ofChars? n.written = some n := by
  obtain ⟨negative, whole, fraction, exponent⟩ := n
  have hwhole : IsDigits whole := hn.whole
  have hleading : whole.head? = some 0 → whole = [0] := hn.leading
  have hfraction : ∀ ds, fraction = some ds → IsDigits ds := hn.fraction
  have htail : tail? (writtenExponent exponent) = some exponent := tail?_written hn.exponent
  have hrun := digitRun_append hwhole.2 (digitRun_writtenFraction fraction exponent)
  obtain ⟨hminus, -⟩ := head?_digits hwhole (writtenFraction fraction ++ writtenExponent exponent)
  rw [written_eq, List.append_assoc, List.append_assoc]
  generalize whole.map Nat.digitChar ++ (writtenFraction fraction ++ writtenExponent exponent) =
    cs at hrun hminus
  unfold ofChars?
  split
  next negative' cs' hsign =>
    -- the sign is read off, since no digits begin with one
    have hpair : (negative, cs) = (negative', cs') := by
      cases negative with
      | true => exact hsign
      | false =>
        simp only [writtenSign, Bool.false_eq_true, if_false, List.nil_append] at hsign
        split at hsign
        · simp at hminus
        · exact hsign
    cases hpair
    rw [hrun]
    -- the cases are: no digits, a zero before others, a point after the digits, and no point
    split
    next h => exact absurd (Prod.mk.inj h).1 hwhole.1
    next h =>
      obtain ⟨rfl, -⟩ := Prod.mk.inj h
      simp at hleading
    next h =>
      obtain ⟨rfl, hrest⟩ := Prod.mk.inj h
      cases fraction with
      | none =>
        rcases exponent with _ | ⟨_, _⟩ <;> simp [writtenFraction, writtenExponent] at hrest
      | some ds =>
        obtain ⟨hne, hall⟩ := hfraction ds rfl
        have hdigits := digitRun_append hall (digitRun_writtenExponent exponent)
        rw [← (List.cons.inj hrest).2]
        split
        next h => exact absurd (Prod.mk.inj (hdigits.symm.trans h)).1 hne
        next h =>
          obtain ⟨rfl, rfl⟩ := Prod.mk.inj (hdigits.symm.trans h)
          rw [htail]
          rfl
    next hpoint h =>
      obtain ⟨rfl, rfl⟩ := Prod.mk.inj h
      cases fraction with
      | none =>
        show (tail? (writtenExponent exponent)).map _ = _
        rw [htail]
        rfl
      | some ds => exact absurd rfl (hpoint _)

theorem written_ne_nil {n : Number} (hn : n.Proper) : n.written ≠ [] := by
  simp [written_eq, hn.whole.1]

/-- Numbers are written in characters of numbers. -/
theorem isNumberChar_written {n : Number} (hn : n.Proper) :
    ∀ c ∈ n.written, isNumberChar c = true := by
  intro c hc
  have hsign : ∀ negative, c ∈ writtenSign negative → isNumberChar c = true := by
    rintro (_ | _) h <;> simp [writtenSign] at h
    rw [h]
    rfl
  simp only [written_eq, List.mem_append] at hc
  obtain ((hc | hc) | hc) | hc := hc
  · exact hsign _ hc
  · exact isNumberChar_digits hn.whole hc
  · cases hf : n.fraction with
    | none => simp [hf, writtenFraction] at hc
    | some ds =>
      rw [hf] at hc
      obtain rfl | hc := List.mem_cons.1 hc
      · rfl
      · exact isNumberChar_digits (hn.fraction ds hf) hc
  · cases he : n.exponent with
    | none => simp [he, writtenExponent] at hc
    | some e =>
      rw [he] at hc
      obtain rfl | hc := List.mem_cons.1 hc
      · rfl
      · obtain hc | hc := List.mem_append.1 hc
        · exact hsign _ hc
        · exact isNumberChar_digits (hn.exponent e.1 e.2 he) hc

end Number

end MultiHop.Json
