/-
MultiHop/Proofs/Json/Text.lean

Written values are read back.  A text without blanks is a row of tokens, so writing and
reading meet in the tokens of a value (`Json.tokens`): the characters of a written value are
scanned into them (`Json.scans`), and from them the value is read, whatever containers stand
open around it (`Json.reads`).

A character inside a string is written in one of three ways (`writtenChar_cases`): by itself,
by a letter after a backslash, or by its four digits.  Digits are read as a unit and not as the
character that they stand for; so the value that comes back is not quite the one that was
written (`Json.reread`), but its strings have the same texts.

A number has no end of its own: it takes all the characters that numbers are made of, and only
something else ends it.  So a value is scanned before the end of the text or before a mark
(`Json.Stops`), and nothing else ever follows one.  Values of which a number cannot be written
are left out (`Json.Proper`).

Main result: `Json.ofText?_text`.
-/
import MultiHop.Json.Reader
import MultiHop.Proofs.Json.Number

namespace MultiHop.Json

/-! ### Characters -/

theorem hexDigit?_digitChar : ∀ d < 16, hexDigit? (Nat.digitChar d) = some d := by decide

/-- Four hexadecimal digits write the number of which they are the digits. -/
theorem hexUnit?_digitChar (n : Nat) :
    hexUnit? (Nat.digitChar (n / 0x1000 % 16)) (Nat.digitChar (n / 0x100 % 16))
      (Nat.digitChar (n / 0x10 % 16)) (Nat.digitChar (n % 16)) = some (n % 0x10000) := by
  have hdigit : ∀ n, hexDigit? (Nat.digitChar (n % 16)) = some (n % 16) := fun n =>
    hexDigit?_digitChar _ (Nat.mod_lt _ (by decide))
  have hvalue : ((n / 0x1000 % 16 * 16 + n / 0x100 % 16) * 16 + n / 0x10 % 16) * 16 + n % 16 =
      n % 0x10000 := by omega
  simp only [hexUnit?, hdigit, hvalue]

/-- A character is written by a letter that stands for it, by its digits, or by itself. -/
theorem writtenChar_cases (c : Char) :
    (∃ e, escaped? e = some c ∧ writtenChar c = ['\\', e]) ∨
      (c.toNat < 0x20 ∧ writtenChar c = '\\' :: 'u' :: hex4 c.toNat) ∨
      0x20 ≤ c.toNat ∧ c ≠ '"' ∧ c ≠ '\\' ∧ writtenChar c = [c] := by
  unfold writtenChar
  split
  · exact .inl ⟨'"', rfl, rfl⟩
  · exact .inl ⟨'\\', rfl, rfl⟩
  · exact .inl ⟨'b', rfl, rfl⟩
  · exact .inl ⟨'f', rfl, rfl⟩
  · exact .inl ⟨'n', rfl, rfl⟩
  · exact .inl ⟨'r', rfl, rfl⟩
  · exact .inl ⟨'t', rfl, rfl⟩
  next hquote hslash _ _ _ _ _ =>
    by_cases hlow : c.toNat < 0x20
    · exact .inr (.inl ⟨hlow, if_pos hlow⟩)
    · exact .inr (.inr ⟨Nat.le_of_not_lt hlow, hquote, hslash, if_neg hlow⟩)

/-! ### Tokens -/

@[simp] theorem pend_nil (rest : Option (List Token)) : pend [] rest = rest := by
  cases rest <;> rfl

/-- A mark ends the number before it. -/
theorem tokens?_taken_mark {c : Char} {t : Token} (h : mark? c = some t) (taken cs : List Char) :
    tokens? taken (c :: cs) = pend taken ((tokens? [] cs).map (t :: ·)) := by
  unfold mark? at h
  split at h <;> cases h <;> simp [tokens?, isNumberChar, isSpace, mark?]

theorem tokens?_mark {c : Char} {t : Token} (h : mark? c = some t) (cs : List Char) :
    tokens? [] (c :: cs) = (tokens? [] cs).map (t :: ·) := by
  rw [tokens?_taken_mark h, pend_nil]

/-- Characters of numbers are taken until others come. -/
theorem tokens?_numberChars {ds : List Char} (hds : ∀ c ∈ ds, isNumberChar c = true)
    (taken cs : List Char) :
    tokens? taken (ds ++ cs) = tokens? (ds.reverse ++ taken) cs := by
  induction ds generalizing taken with
  | nil => rfl
  | cons c ds ih =>
    obtain ⟨hc, hds⟩ := List.forall_mem_cons.1 hds
    rw [List.cons_append, tokens?, if_pos hc, ih hds, List.reverse_cons, List.append_assoc]
    · rfl
    -- no character of numbers begins a word or a string
    all_goals
      intros
      subst c
      contradiction

/-- The text is at its end, or a mark comes next. -/
def Stops (cs : List Char) : Prop := ∀ c ∈ cs.head?, ∃ t, mark? c = some t

theorem stops_nil : Stops [] := by simp [Stops]

theorem stops_mark {c : Char} {t : Token} (h : mark? c = some t) (cs : List Char) :
    Stops (c :: cs) := by
  simp [Stops, h]

theorem tokens?_taken {cs : List Char} (hcs : Stops cs) (taken : List Char) :
    tokens? taken cs = pend taken (tokens? [] cs) := by
  cases cs with
  | nil =>
    show pendingNumber? taken = pend taken (some [])
    unfold pend
    cases pendingNumber? taken <;> simp
  | cons c cs =>
    obtain ⟨t, ht⟩ := hcs c rfl
    rw [tokens?_taken_mark ht, tokens?_mark ht]

theorem pend_written {n : Number} (hn : n.Proper) (rest : Option (List Token)) :
    pend n.written.reverse rest = rest.map (.number n :: ·) := by
  have hpending : pendingNumber? n.written.reverse = some [.number n] := by
    rw [pendingNumber?, List.reverse_reverse, Number.ofChars?_written hn]
    simp [Number.written_ne_nil hn]
  cases rest with
  | none => simp [pend]
  | some ts => simp [pend, hpending]

theorem stringTokens?_unit (u : Nat) (taken : List Piece) (cs : List Char) :
    stringTokens? taken ('\\' :: 'u' :: hex4 u ++ cs) =
      stringTokens? (.unit (u % 0x10000) :: taken) cs := by
  simp only [hex4, List.map_cons, List.map_nil, List.cons_append, List.nil_append]
  rw [stringTokens?]
  simp only [hexUnit?_digitChar]

theorem stringTokens?_escaped {e c : Char} (h : escaped? e = some c) (taken : List Piece)
    (cs : List Char) :
    stringTokens? taken ('\\' :: e :: cs) = stringTokens? (.char c :: taken) cs := by
  have hu : e ≠ 'u' := by rintro rfl; contradiction
  rw [stringTokens?]
  · rw [h]
  · rintro a b c d cs rfl rfl
    exact hu rfl

theorem stringTokens?_char {c : Char} (hc : 0x20 ≤ c.toNat) (hquote : c ≠ '"')
    (hslash : c ≠ '\\') (taken : List Piece) (cs : List Char) :
    stringTokens? taken (c :: cs) = stringTokens? (.char c :: taken) cs := by
  rw [stringTokens?]
  · rw [if_neg (by simp [hslash]; omega)]
  · exact hquote
  all_goals (intros; contradiction)

/-! ### Strings -/

/-- What a piece of a string is read back as: a character that is written by its digits comes
back as a unit. -/
def Piece.reread : Piece → Piece
  | .char c => if writtenChar c = '\\' :: 'u' :: hex4 c.toNat then .unit c.toNat else .char c
  | .unit u => .unit (u % 0x10000)

theorem Piece.reread_char (c : Char) :
    (Piece.char c).reread = .char c ∨
      c.toNat < 0x20 ∧ (Piece.char c).reread = .unit c.toNat := by
  unfold reread
  obtain ⟨e, he, hc⟩ | ⟨hlow, hc⟩ | ⟨hhigh, hquote, hslash, hc⟩ := writtenChar_cases c
  · exact .inl (if_neg (by simp [hc, hex4]))
  · exact .inr ⟨hlow, if_pos hc⟩
  · exact .inl (if_neg (by simp [hc]))

theorem stringTokens?_writtenPiece (p : Piece) (taken : List Piece) (cs : List Char) :
    stringTokens? taken (writtenPiece p ++ cs) = stringTokens? (p.reread :: taken) cs := by
  cases p with
  | unit u => exact stringTokens?_unit u taken cs
  | char c =>
    simp only [writtenPiece, Piece.reread]
    obtain ⟨e, he, hc⟩ | ⟨hlow, hc⟩ | ⟨hhigh, hquote, hslash, hc⟩ := writtenChar_cases c
    · rw [hc, if_neg (by simp [hex4])]
      exact stringTokens?_escaped he taken cs
    · rw [hc, if_pos rfl, stringTokens?_unit, Nat.mod_eq_of_lt (by omega)]
    · rw [hc, if_neg (by simp)]
      exact stringTokens?_char hhigh hquote hslash taken cs

namespace Literal

/-- What a string is read back as. -/
def reread (s : Literal) : Literal := s.map Piece.reread

theorem chars?_unit_cons {u : Nat} (h : u < 0xD800) (ps : Literal) :
    chars? (.unit u :: ps) = (chars? ps).map (Char.ofNat u :: ·) := by
  have hlead : isLead u = false := by simp [isLead]; omega
  have htrail : isTrail u = false := by simp [isTrail]; omega
  rcases ps with _ | ⟨_ | _, ps⟩ <;> simp [chars?, hlead, htrail]

theorem chars?_reread (cs : List Char) : chars? (reread (cs.map .char)) = some cs := by
  induction cs with
  | nil => rfl
  | cons c cs ih =>
    rw [List.map_cons, reread, List.map_cons, ← reread]
    obtain hc | ⟨hlow, hc⟩ := Piece.reread_char c
    · rw [hc, chars?, ih, Option.map_some]
    · rw [hc, chars?_unit_cons (by omega), ih, Option.map_some, Char.ofNat_toNat]

/-- **A text comes back as it was written.** -/
@[simp] theorem text?_reread_ofString (s : String) : (ofString s).reread.text? = some s := by
  rw [text?, ofString, chars?_reread, Option.map_some, String.ofList_toList]

end Literal

theorem stringTokens?_written (s : Literal) (taken : List Piece) (cs : List Char) :
    stringTokens? taken (s.flatMap writtenPiece ++ '"' :: cs) =
      (tokens? [] cs).map (.string (taken.reverse ++ s.reread) :: ·) := by
  induction s generalizing taken with
  | nil => simp [stringTokens?, Literal.reread]
  | cons p s ih =>
    rw [List.flatMap_cons, List.append_assoc, stringTokens?_writtenPiece, ih]
    simp [Literal.reread]

theorem tokens?_writtenString (s : Literal) (cs : List Char) :
    tokens? [] (writtenString s ++ cs) = (tokens? [] cs).map (.string s.reread :: ·) := by
  unfold writtenString
  rw [List.cons_append, List.cons_append, List.append_assoc, tokens?, pend_nil]
  exact stringTokens?_written s [] cs

/-! ### Values -/

/-- Induction over values: one case for each kind, with all that an array or an object holds. -/
@[elab_as_elim]
theorem induction {motive : Json → Prop} (null : motive .null) (bool : ∀ b, motive (.bool b))
    (number : ∀ n, motive (.number n)) (string : ∀ s, motive (.string s))
    (array : ∀ items, (∀ v ∈ items, motive v) → motive (.array items))
    (object : ∀ fields, (∀ f ∈ fields, motive f.2) → motive (.object fields)) (v : Json) :
    motive v :=
  @Json.rec motive (fun items => ∀ v ∈ items, motive v) (fun fields => ∀ f ∈ fields, motive f.2)
    (fun f => motive f.2) null bool number string array object
    (fun _ h => nomatch h) (fun _ _ hv hvs => List.forall_mem_cons.2 ⟨hv, hvs⟩)
    (fun _ h => nomatch h) (fun _ _ hf hfs => List.forall_mem_cons.2 ⟨hf, hfs⟩)
    (fun _ _ hv => hv) v

mutual

/-- What a value is read back as. -/
def reread : Json → Json
  | .null => .null
  | .bool b => .bool b
  | .number n => .number n
  | .string s => .string s.reread
  | .array items => .array (rereadItems items)
  | .object fields => .object (rereadFields fields)

/-- The same for the items of an array. -/
def rereadItems : List Json → List Json
  | [] => []
  | v :: vs => reread v :: rereadItems vs

/-- The same for the fields of an object. -/
def rereadFields : List (Literal × Json) → List (Literal × Json)
  | [] => []
  | (k, v) :: fs => (k.reread, reread v) :: rereadFields fs

end

theorem rereadItems_eq_map (items : List Json) : rereadItems items = items.map reread := by
  induction items with
  | nil => rfl
  | cons v vs ih => rw [rereadItems, ih, List.map_cons]

mutual

/-- Tokens of a value. -/
def tokens : Json → List Token
  | .null => [.null]
  | .bool b => [.bool b]
  | .number n => [.number n]
  | .string s => [.string s]
  | .array [] => [.openArray, .closeArray]
  | .array (v :: vs) => .openArray :: tokens v ++ itemTokens vs ++ [.closeArray]
  | .object [] => [.openObject, .closeObject]
  | .object ((k, v) :: fs) =>
    .openObject :: .string k :: .colon :: tokens v ++ fieldTokens fs ++ [.closeObject]

/-- Tokens of the items after the first one, each after a comma. -/
def itemTokens : List Json → List Token
  | [] => []
  | v :: vs => .comma :: tokens v ++ itemTokens vs

/-- Tokens of the fields after the first one, each after a comma. -/
def fieldTokens : List (Literal × Json) → List Token
  | [] => []
  | (k, v) :: fs => .comma :: .string k :: .colon :: tokens v ++ fieldTokens fs

end

/-! ### Scanning -/

/-- A value of which every number can be written. -/
inductive Proper : Json → Prop
  | null : Proper .null
  | bool (b : Bool) : Proper (.bool b)
  | number {n : Number} : n.Proper → Proper (.number n)
  | string (s : Literal) : Proper (.string s)
  | array {items : List Json} : (∀ v ∈ items, Proper v) → Proper (.array items)
  | object {fields : List (Literal × Json)} :
      (∀ f ∈ fields, Proper f.2) → Proper (.object fields)

/-- The characters of a value, before what may follow one, are scanned into its tokens. -/
def Scans (v : Json) : Prop :=
  ∀ cs, Stops cs →
    tokens? [] (v.written ++ cs) = (tokens? [] cs).map (v.reread.tokens ++ ·)

theorem stops_writtenItems (items : List Json) {cs : List Char} (hcs : Stops cs) :
    Stops (writtenItems items ++ cs) := by
  cases items with
  | nil => exact hcs
  | cons v vs => exact stops_mark rfl _

theorem stops_writtenFields (fields : List (Literal × Json)) {cs : List Char} (hcs : Stops cs) :
    Stops (writtenFields fields ++ cs) := by
  cases fields with
  | nil => exact hcs
  | cons f fs => exact stops_mark rfl _

theorem tokens?_writtenItems {items : List Json} (h : ∀ v ∈ items, v.Scans) {cs : List Char}
    (hcs : Stops cs) :
    tokens? [] (writtenItems items ++ cs) =
      (tokens? [] cs).map (itemTokens (rereadItems items) ++ ·) := by
  induction items with
  | nil => simp [writtenItems, rereadItems, itemTokens]
  | cons v vs ih =>
    obtain ⟨hv, hvs⟩ := List.forall_mem_cons.1 h
    simp only [writtenItems, rereadItems, itemTokens, List.cons_append, List.append_assoc]
    rw [tokens?_mark rfl, hv _ (stops_writtenItems vs hcs), ih hvs]
    simp [Function.comp_def]

theorem tokens?_writtenFields {fields : List (Literal × Json)} (h : ∀ f ∈ fields, f.2.Scans)
    {cs : List Char} (hcs : Stops cs) :
    tokens? [] (writtenFields fields ++ cs) =
      (tokens? [] cs).map (fieldTokens (rereadFields fields) ++ ·) := by
  induction fields with
  | nil => simp [writtenFields, rereadFields, fieldTokens]
  | cons f fs ih =>
    obtain ⟨hf, hfs⟩ := List.forall_mem_cons.1 h
    simp only [writtenFields, rereadFields, fieldTokens, List.cons_append, List.append_assoc]
    rw [tokens?_mark rfl, tokens?_writtenString, tokens?_mark rfl,
      hf _ (stops_writtenFields fs hcs), ih hfs]
    simp [Function.comp_def]

/-- **A written value is scanned into its tokens**, whatever may follow it. -/
theorem scans {v : Json} (hv : v.Proper) : v.Scans := by
  induction hv with
  | null => intro cs _; simp [written, tokens?, reread, tokens]
  | bool b => intro cs _; cases b <;> simp [written, tokens?, reread, tokens]
  | @number n hn =>
    intro cs hcs
    rw [written, tokens?_numberChars (Number.isNumberChar_written hn), List.append_nil,
      tokens?_taken hcs, pend_written hn]
    simp [reread, tokens]
  | string s => exact fun cs _ => tokens?_writtenString s cs
  | @array items _ ih =>
    intro cs _
    cases items with
    | nil =>
      simp only [written, reread, rereadItems, tokens, List.cons_append, List.nil_append]
      rw [tokens?_mark rfl, tokens?_mark rfl]
      simp [Function.comp_def]
    | cons v vs =>
      obtain ⟨hv, hvs⟩ := List.forall_mem_cons.1 ih
      have hclose : Stops (']' :: cs) := stops_mark rfl cs
      simp only [written, reread, rereadItems, tokens, List.cons_append, List.append_assoc,
        List.nil_append]
      rw [tokens?_mark rfl, hv _ (stops_writtenItems vs hclose), tokens?_writtenItems hvs hclose,
        tokens?_mark rfl]
      simp [Function.comp_def]
  | @object fields _ ih =>
    intro cs _
    cases fields with
    | nil =>
      simp only [written, reread, rereadFields, tokens, List.cons_append, List.nil_append]
      rw [tokens?_mark rfl, tokens?_mark rfl]
      simp [Function.comp_def]
    | cons f fs =>
      obtain ⟨hf, hfs⟩ := List.forall_mem_cons.1 ih
      have hclose : Stops ('\x7d' :: cs) := stops_mark rfl cs
      simp only [written, reread, rereadFields, tokens, List.cons_append, List.append_assoc,
        List.nil_append]
      rw [tokens?_mark rfl, tokens?_writtenString, tokens?_mark rfl,
        hf _ (stops_writtenFields fs hclose), tokens?_writtenFields hfs hclose, tokens?_mark rfl]
      simp [Function.comp_def]

/-! ### Reading -/

/-- The tokens of a value, before any others and inside any containers, are read as it. -/
def Reads (v : Json) : Prop :=
  ∀ stack ts, readValue stack (v.tokens ++ ts) = readOn stack v ts

/-- An array that holds something is opened before its first item; no value begins with the
mark that would close it. -/
theorem readValue_openArray (v : Json) (stack : List Frame) (ts : List Token) :
    readValue stack (.openArray :: (v.tokens ++ ts)) =
      readValue (.array [] :: stack) (v.tokens ++ ts) := by
  cases v with
  | array items => cases items <;> simp [tokens, readValue]
  | object fields => rcases fields with _ | ⟨⟨k, v⟩, fs⟩ <;> simp [tokens, readValue]
  | _ => simp [tokens, readValue]

theorem readOn_itemTokens {items : List Json} (h : ∀ v ∈ items, v.Reads) (done : List Json)
    (v : Json) (stack : List Frame) (ts : List Token) :
    readOn (.array done :: stack) v (itemTokens items ++ .closeArray :: ts) =
      readOn stack (.array (done.reverse ++ v :: items)) ts := by
  induction items generalizing done v with
  | nil => simp [itemTokens, readOn]
  | cons w vs ih =>
    obtain ⟨hw, hvs⟩ := List.forall_mem_cons.1 h
    simp only [itemTokens, List.cons_append, List.append_assoc]
    rw [readOn, hw, ih hvs]
    simp

theorem readOn_fieldTokens {fields : List (Literal × Json)} (h : ∀ f ∈ fields, f.2.Reads)
    (done : List (Literal × Json)) (k : Literal) (v : Json) (stack : List Frame)
    (ts : List Token) :
    readOn (.object done k :: stack) v (fieldTokens fields ++ .closeObject :: ts) =
      readOn stack (.object (done.reverse ++ (k, v) :: fields)) ts := by
  induction fields generalizing done k v with
  | nil => simp [fieldTokens, readOn]
  | cons f fs ih =>
    obtain ⟨hf, hfs⟩ := List.forall_mem_cons.1 h
    simp only [fieldTokens, List.cons_append, List.append_assoc]
    rw [readOn, hf, ih hfs]
    simp

/-- **The tokens of a value are read as that value**, whatever stands around them. -/
theorem reads (v : Json) : v.Reads := by
  induction v using Json.induction with
  | null => intro stack ts; simp [tokens, readValue]
  | bool b => intro stack ts; simp [tokens, readValue]
  | number n => intro stack ts; simp [tokens, readValue]
  | string s => intro stack ts; simp [tokens, readValue]
  | array items ih =>
    intro stack ts
    cases items with
    | nil => simp [tokens, readValue]
    | cons v vs =>
      obtain ⟨hv, hvs⟩ := List.forall_mem_cons.1 ih
      simp only [tokens, List.cons_append, List.append_assoc, List.nil_append]
      rw [readValue_openArray, hv, readOn_itemTokens hvs]
      rfl
  | object fields ih =>
    intro stack ts
    cases fields with
    | nil => simp [tokens, readValue]
    | cons f fs =>
      obtain ⟨hf, hfs⟩ := List.forall_mem_cons.1 ih
      simp only [tokens, List.cons_append, List.append_assoc, List.nil_append]
      rw [readValue, hf, readOn_fieldTokens hfs]
      rfl

/-- **A written value is read back.** -/
theorem ofText?_text {v : Json} (hv : v.Proper) : ofText? v.text = some v.reread := by
  have hscan := scans hv [] stops_nil
  have hread := reads v.reread [] []
  rw [List.append_nil] at hscan hread
  have hend : tokens? [] [] = some [] := rfl
  rw [hend, Option.map_some, List.append_nil] at hscan
  unfold ofText? text
  rw [String.toList_ofList, hscan]
  exact hread

/-- A control comes back as a unit, and a line feed has a letter. -/
example : ofText? (ofString "\x01\né").text = some (.string [.unit 1, .char '\n', .char 'é']) := by
  rfl

end MultiHop.Json
