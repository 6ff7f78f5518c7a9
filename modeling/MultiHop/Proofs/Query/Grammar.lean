/-
MultiHop/Proofs/Query/Grammar.lean

The grammar of shapes.  A symbol is spelled by its letter; a tuple is spelled by spellings
of its items, at least one, with single commas between them, in brackets and perhaps with
one more comma before the closing one:

    Spells s word

The reader accepts exactly the words of this grammar.  It never looks back, so what it has
read and not yet closed is an opening, the text of its unfinished tuples (`Opens`); and
what it goes on to read completes that text to a spelling of its answer
(`read_sound`).  Conversely it takes a spelled item as a whole, whatever follows
(`readItem_append_of_spells`).  Since a reader has one answer, no word spells two shapes
(`Spells.unique`).

Main result: `Shape.ofText_reads_grammar`.
-/
import MultiHop.Proofs.Consult
import MultiHop.Proofs.Query.Binding

namespace MultiHop

theorem Symbol.letter_of_ofLetter? {c : Char} {s : Symbol} (h : ofLetter? c = some s) :
    s.letter = c := by
  unfold ofLetter? at h
  split at h <;> cases h <;> rfl

namespace Shape

/-! ### Spellings -/

/-- `word` is a way to write the shape without blanks and quotes. -/
inductive Spells : Shape → List Char → Prop
  | symbol (s : Symbol) : Spells (.symbol s) [s.letter]
  | tuple (items : List Shape) (words : List (List Char)) (final : List Char) :
    items ≠ [] → List.Forall₂ Spells items words → final = [] ∨ final = [','] →
      Spells (.tuple items) ('(' :: [','].intercalate words ++ final ++ [')'])

/-- No tuple of the shape is empty. -/
inductive Filled : Shape → Prop
  | symbol (s : Symbol) : Filled (.symbol s)
  | tuple (items : List Shape) :
    items ≠ [] → (∀ item ∈ items, Filled item) → Filled (.tuple items)

/-- Only shapes without empty tuples are spelled. -/
theorem Spells.filled {shape : Shape} {word : List Char} (h : shape.Spells word) :
    shape.Filled := by
  induction shape using Shape.induction generalizing word with
  | symbol s => exact .symbol s
  | tuple items ih =>
    cases h with
    | tuple _ words final hne hitems _ =>
      refine .tuple items hne fun item hitem => ?_
      obtain ⟨spelling, -, hspelled⟩ := Consult.exists_of_forall₂ hitems.flip item hitem
      exact ih item hitem hspelled

/-! ### The reader takes what is spelled -/

theorem readItem_letter (pending : List (List Shape)) (s : Symbol) (rest : List Char) :
    readItem pending (s.letter :: rest) = readOn pending (.symbol s) rest := by
  cases s <;> simp [readItem, Symbol.letter, Symbol.ofLetter?]

theorem readItem_open (pending : List (List Shape)) (rest : List Char) :
    readItem pending ('(' :: rest) = readItem ([] :: pending) rest := by
  simp [readItem]

/-- After a comma the reader is where it was, with one more item read. -/
theorem readOn_comma (items : List Shape) (outer : List (List Shape)) (item : Shape)
    (rest : List Char) :
    readOn (items :: outer) item (',' :: rest) = readItem ((item :: items) :: outer) rest := by
  simp [readOn]

/-- Once its last item is read, a tuple is closed, also after one more comma. -/
theorem readOn_close (items : List Shape) (outer : List (List Shape)) (item : Shape)
    {final : List Char} (hfinal : final = [] ∨ final = [',']) (rest : List Char) :
    readOn (items :: outer) item (final ++ ')' :: rest) =
      readOn outer (.tuple (item :: items).reverse) rest := by
  rcases hfinal with rfl | rfl
  · simp [readOn]
  · simp [readOn, readItem]

/-- The items of a tuple are read one after the other, if each of them is taken as a
whole. -/
theorem readItem_intercalate {items : List Shape} {words : List (List Char)}
    (hread : ∀ item ∈ items, ∀ word, item.Spells word → ∀ pending rest,
      readItem pending (word ++ rest) = readOn pending item rest)
    (hitems : List.Forall₂ Spells items words) (hne : items ≠ []) {final : List Char}
    (hfinal : final = [] ∨ final = [',']) (before : List Shape) (outer : List (List Shape))
    (rest : List Char) :
    readItem (before :: outer) ([','].intercalate words ++ (final ++ ')' :: rest)) =
      readOn outer (.tuple (before.reverse ++ items)) rest := by
  induction hitems generalizing before with
  | nil => exact absurd rfl hne
  | @cons item word items words hitem hitems ih =>
    obtain ⟨hfirst, hothers⟩ := List.forall_mem_cons.1 hread
    cases hitems with
    | nil =>
      rw [List.intercalate_singleton, hfirst word hitem, readOn_close _ _ _ hfinal,
        List.reverse_cons]
    | @cons item' word' items words hitem' hitems =>
      rw [List.intercalate_cons_cons, List.append_assoc, List.append_assoc, hfirst word hitem,
        List.singleton_append, readOn_comma, ih hothers (List.cons_ne_nil _ _), List.reverse_cons,
        List.append_assoc, List.singleton_append]

/-- **A spelled item is taken as a whole**, whatever follows and wherever it stands. -/
theorem readItem_append_of_spells {shape : Shape} {word : List Char} (h : shape.Spells word)
    (pending : List (List Shape)) (rest : List Char) :
    readItem pending (word ++ rest) = readOn pending shape rest := by
  induction shape using Shape.induction generalizing word pending rest with
  | symbol s =>
    cases h
    exact readItem_letter pending s rest
  | tuple items ih =>
    cases h with
    | tuple _ words final hne hitems hfinal =>
      have hread := readItem_intercalate (fun item hitem word hword => ih item hitem hword)
        hitems hne hfinal [] pending rest
      rw [List.cons_append, List.cons_append, List.cons_append, readItem_open, List.append_assoc,
        List.append_assoc, List.singleton_append, hread]
      rfl

theorem readItem_of_spells {shape : Shape} {word : List Char} (h : shape.Spells word) :
    readItem [] word = .ok shape := by
  have hread := readItem_append_of_spells h [] []
  rw [List.append_nil] at hread
  rw [hread]
  simp [readOn]

/-- **A word spells one shape**: the reader has one answer. -/
theorem Spells.unique {shape shape' : Shape} {word : List Char} (h : shape.Spells word)
    (h' : shape'.Spells word) : shape = shape' := by
  have hread := readItem_of_spells h
  rw [readItem_of_spells h'] at hread
  exact (Except.ok.inj hread).symm

/-! ### What the reader takes is spelled -/

/-- Words with a comma after each of them. -/
def followed (words : List (List Char)) : List Char := words.flatMap (· ++ [','])

theorem intercalate_concat (words : List (List Char)) (word : List Char) :
    [','].intercalate (words ++ [word]) = followed words ++ word := by
  induction words with
  | nil => simp [followed]
  | cons first words ih =>
    have hne : words ++ [word] ≠ [] := by simp
    rw [List.cons_append, List.intercalate_cons_of_ne_nil hne, ih]
    simp [followed]

theorem followed_concat (words : List (List Char)) (word : List Char) :
    followed (words ++ [word]) = followed words ++ word ++ [','] := by
  simp [followed]

/-- `before` is the text of the unfinished tuples in `pending`: of each an opening bracket
and the items read so far, each with its comma. -/
inductive Opens : List (List Shape) → List Char → Prop
  | nil : Opens [] []
  | cons (items : List Shape) (outer : List (List Shape)) (words : List (List Char))
    (before : List Char) : Opens outer before → List.Forall₂ Spells items.reverse words →
      Opens (items :: outer) (before ++ '(' :: followed words)

theorem forall₂_reverse_cons {items : List Shape} {words : List (List Char)} {item : Shape}
    {word : List Char} (hitems : List.Forall₂ Spells items.reverse words)
    (hitem : item.Spells word) :
    List.Forall₂ Spells (item :: items).reverse (words ++ [word]) := by
  rw [List.reverse_cons]
  exact List.rel_append hitems (.cons hitem .nil)

/-- A tuple may be closed after an item … -/
theorem spells_close {items : List Shape} {words : List (List Char)} {item : Shape}
    {word : List Char} (hitems : List.Forall₂ Spells items.reverse words)
    (hitem : item.Spells word) :
    (Shape.tuple (item :: items).reverse).Spells ('(' :: followed words ++ word ++ [')']) := by
  have hspells := Spells.tuple _ _ [] (by simp) (forall₂_reverse_cons hitems hitem) (.inl rfl)
  rw [intercalate_concat] at hspells
  simpa using hspells

/-- … and after the comma that follows it. -/
theorem spells_close_comma {items : List Shape} {words : List (List Char)} (hne : items ≠ [])
    (hitems : List.Forall₂ Spells items.reverse words) :
    (Shape.tuple items.reverse).Spells ('(' :: followed words ++ [')']) := by
  obtain ⟨words, word, rfl⟩ : ∃ ws w, words = ws ++ [w] := by
    refine ⟨words.dropLast, words.getLast ?_, (List.dropLast_append_getLast ?_).symm⟩ <;>
    · intro hnil
      rw [hnil, List.forall₂_nil_right_iff, List.reverse_eq_nil_iff] at hitems
      exact hne hitems
  have hspells := Spells.tuple _ _ [','] (by simpa using hne) hitems (.inr rfl)
  rw [intercalate_concat] at hspells
  rw [followed_concat]
  simpa using hspells

/-- **What is read completes what is open.**  Where an item should stand, the rest of the
text completes the opening to a spelling of the answer; after an item it does so with that
item in between. -/
theorem read_sound (cs : List Char) :
    (∀ pending before shape, Opens pending before → readItem pending cs = .ok shape →
      shape.Spells (before ++ cs)) ∧
    ∀ pending before item word shape, Opens pending before → item.Spells word →
      readOn pending item cs = .ok shape → shape.Spells (before ++ word ++ cs) := by
  induction cs with
  | nil =>
    constructor
    · intro pending before shape _ hread
      simp [readItem] at hread
    · intro pending before item word shape hopens hitem hread
      cases hopens with
      | nil =>
        simp only [readOn, Except.ok.injEq] at hread
        subst hread
        simpa using hitem
      | cons => simp [readOn] at hread
  | cons c cs ih =>
    obtain ⟨ihItem, ihOn⟩ := ih
    constructor
    · intro pending before shape hopens hread
      unfold readItem at hread
      split at hread
      · next heq => cases heq
      · next heq =>
        -- a tuple is opened
        cases heq
        simpa [followed] using ihItem _ _ _ (.cons [] pending [] before hopens .nil) hread
      · next heq =>
        cases heq
        cases hopens with
        | nil => cases hread
        | cons items outer words before hopens hitems =>
          -- a tuple is closed after a comma
          cases items with
          | nil => cases hread
          | cons item items =>
            have hclosed := spells_close_comma (List.cons_ne_nil item items) hitems
            simpa using ihOn _ _ _ _ _ hopens hclosed hread
      · next heq =>
        cases heq
        split at hread
        · next s hs =>
          have hletter := Symbol.letter_of_ofLetter? hs
          have hspells := ihOn _ _ _ _ _ hopens (.symbol s) hread
          rw [hletter] at hspells
          simpa using hspells
        · cases hread
    · intro pending before item word shape hopens hitem hread
      cases hopens with
      | nil => simp [readOn] at hread
      | cons items outer words before hopens hitems =>
        simp only [readOn] at hread
        split at hread
        · next hc =>
          -- the item is followed by a comma
          subst hc
          have hnext := Opens.cons (item :: items) outer (words ++ [word]) before hopens
            (forall₂_reverse_cons hitems hitem)
          have hspells := ihItem _ _ _ hnext hread
          rw [followed_concat] at hspells
          simpa using hspells
        · split at hread
          · next hc =>
            subst hc
            simpa using ihOn _ _ _ _ _ hopens (spells_close hitems hitem) hread
          · cases hread

/-- An error points at a rest of the text. -/
theorem rest_suffix (cs : List Char) :
    (∀ pending e, readItem pending cs = .error e → e.rest <:+ cs) ∧
      ∀ pending item e, readOn pending item cs = .error e → e.rest <:+ cs := by
  induction cs with
  | nil =>
    constructor
    · intro pending e hread
      simp only [readItem, Except.error.injEq] at hread
      subst hread
      exact List.suffix_refl []
    · intro pending item e hread
      cases pending with
      | nil => simp [readOn] at hread
      | cons items outer =>
        simp only [readOn, Except.error.injEq] at hread
        subst hread
        exact List.suffix_refl []
  | cons c cs ih =>
    obtain ⟨ihItem, ihOn⟩ := ih
    have hlater : ∀ {rest : List Char}, rest <:+ cs → rest <:+ c :: cs := fun h =>
      h.trans (List.suffix_cons c cs)
    constructor
    · intro pending e hread
      unfold readItem at hread
      split at hread
      · next heq => cases heq
      · next heq =>
        cases heq
        exact hlater (ihItem _ _ hread)
      · next heq =>
        cases heq
        split at hread
        · cases hread
          exact List.suffix_refl _
        · cases hread
          exact List.suffix_cons _ _
        · exact hlater (ihOn _ _ _ hread)
      · next heq =>
        cases heq
        split at hread
        · exact hlater (ihOn _ _ _ hread)
        · cases hread
          exact List.suffix_refl _
    · intro pending item e hread
      cases pending with
      | nil =>
        simp only [readOn, Except.error.injEq] at hread
        subst hread
        exact List.suffix_refl _
      | cons items outer =>
        simp only [readOn] at hread
        split at hread
        · exact hlater (ihItem _ _ hread)
        · split at hread
          · exact hlater (ihOn _ _ _ hread)
          · cases hread
            exact List.suffix_refl _

/-! ### The grammar -/

/-- **The reader accepts exactly the grammar.**  A text denotes a shape when the text,
without blanks and quotes, spells it; a word spells one shape at most, and none with an empty
tuple.  Every text is either read or refused, with a rest of it as the place. -/
theorem ofText_reads_grammar :
    (∀ (text : String) (shape : Shape),
      ofText text = .ok shape ↔ shape.Spells (text.toList.filter counts)) ∧
    (∀ (shape shape' : Shape) (word : List Char),
      shape.Spells word → shape'.Spells word → shape = shape') ∧
    (∀ (text : String) (shape : Shape), ofText text = .ok shape → shape.Filled) ∧
    ∀ text : String, (∃ shape, ofText text = .ok shape) ∨
      ∃ e, ofText text = .error e ∧ e.rest <:+ text.toList.filter counts := by
  have hread : ∀ (text : String) (shape : Shape), ofText text = .ok shape →
      shape.Spells (text.toList.filter counts) := by
    intro text shape h
    exact (read_sound _).1 [] [] shape .nil h
  refine ⟨fun text shape => ⟨hread text shape, readItem_of_spells⟩,
    fun shape shape' word h h' => h.unique h', fun text shape h => (hread text shape h).filled,
    fun text => ?_⟩
  cases h : ofText text with
  | ok shape => exact .inl ⟨shape, rfl⟩
  | error e => exact .inr ⟨e, rfl, (rest_suffix _).1 [] e h⟩

example : ofText "('e', (r ,n,),)" =
    .ok (.tuple [.symbol .entity, .tuple [.symbol .relation, .symbol .negation]]) := by
  decide

end Shape

end MultiHop
