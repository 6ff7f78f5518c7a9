/-
MultiHop/Proofs/Index.lean

Names and positions over whole histories.  What a vocabulary becomes by taking names in is
fixed by the names alone: those that come for the first time, in the order in which they come
(`Vocabulary.names_insertAll`).  More names only ever continue the list, so a position that was
told once is right for ever (`Vocabulary.position?_insertAll`).  A list of names is taken as a
vocabulary just as it stands, unless it repeats a name (`Vocabulary.ofNames_cases`).

A register tells positions from a table of its own.  One insertion keeps the table inverse to
the list of names, and the position that it tells is the one that the vocabulary then has
(`Register.Keeps.insert`); so after any history a register is a vocabulary with a look-up
(`Register.keeps_insertAll`), and a list is a register just when it is a vocabulary
(`Register.ofNames_cases`).

An index takes in the names of a triple one by one, so its two vocabularies are those of two
histories (`Index.ofTriples_eq`).

Main result: `Index.numbered_as_first_seen`.
-/
import Mathlib.Data.List.Induction
import MultiHop.Index
import MultiHop.Proofs.Ascending
import MultiHop.Register

namespace MultiHop

/-! ### Vocabularies -/

namespace Vocabulary

variable {v w : Vocabulary} {name other : String} {i : Nat}

theorem position?_cases (v : Vocabulary) (name : String) :
    (name ∉ v.names ∧ v.position? name = none) ∨
      name ∈ v.names ∧ ∃ i, v.position? name = some i ∧ i < v.size := by
  cases h : v.position? name with
  | none => exact .inl ⟨position?_eq_none_iff.1 h, rfl⟩
  | some i =>
    have hi := position?_eq_some_iff.1 h
    exact .inr ⟨List.mem_of_getElem? hi, i, rfl, (List.getElem?_eq_some_iff.1 hi).1⟩

theorem eq_of_position? {a b : String} (ha : v.position? a = some i)
    (hb : v.position? b = some i) : a = b :=
  Option.some.inj ((position?_eq_some_iff.1 ha).symm.trans (position?_eq_some_iff.1 hb))

theorem insert_of_mem (h : name ∈ v.names) : v.insert name = v := dif_pos h

theorem names_insert_of_notMem (h : name ∉ v.names) :
    (v.insert name).names = v.names ++ [name] := by
  rw [names_insert, if_neg h]

/-- A name that comes for the first time gets the next position. -/
theorem position?_insert_self (h : name ∉ v.names) :
    (v.insert name).position? name = some v.size := by
  rw [position?_eq_some_iff, name?, names_insert_of_notMem h]
  exact List.getElem?_concat_length

theorem insertAll_append (v : Vocabulary) (names later : List String) :
    v.insertAll (names ++ later) = (v.insertAll names).insertAll later := List.foldl_append

theorem insertAll_concat (v : Vocabulary) (names : List String) (name : String) :
    v.insertAll (names ++ [name]) = (v.insertAll names).insert name := insertAll_append v names _

/-- Names are only ever added at the end. -/
theorem names_prefix_insert (v : Vocabulary) (name : String) :
    v.names <+: (v.insert name).names := by
  rw [names_insert]
  split
  · exact List.prefix_refl _
  · exact List.prefix_append _ _

theorem names_prefix_insertAll (v : Vocabulary) (names : List String) :
    v.names <+: (v.insertAll names).names := by
  induction names generalizing v with
  | nil => exact List.prefix_refl _
  | cons name names ih => exact (names_prefix_insert v name).trans (ih (v.insert name))

/-- What stands at a position stays there … -/
theorem name?_insertAll (h : v.name? i = some name) (names : List String) :
    (v.insertAll names).name? i = some name := by
  obtain ⟨added, hadded⟩ := names_prefix_insertAll v names
  obtain ⟨hlt, -⟩ := List.getElem?_eq_some_iff.1 h
  rw [name?, ← hadded, List.getElem?_append_left hlt]
  exact h

/-- … and so a position once told is right for ever. -/
theorem position?_insertAll (h : v.position? name = some i) (names : List String) :
    (v.insertAll names).position? name = some i :=
  position?_eq_some_iff.2 (name?_insertAll (position?_eq_some_iff.1 h) names)

theorem position?_insert_of_ne (h : name ∉ v.names) (hne : other ≠ name) :
    (v.insert name).position? other = v.position? other := by
  rcases v.position?_cases other with ⟨hnot, hpos⟩ | ⟨-, i, hpos, -⟩
  · rw [hpos, position?_eq_none_iff, names_insert_of_notMem h]
    simp [hnot, hne]
  · rw [hpos]
    exact position?_insertAll hpos [name]

/-- **A vocabulary holds the names of its history**, each where it comes first. -/
theorem names_insertAll (history : List String) :
    (empty.insertAll history).names = history.eraseDups := by
  induction history using List.reverseRecOn with
  | nil => rfl
  | append_singleton history name ih =>
    rw [insertAll_concat, names_insert, ih]
    split
    · next h => rw [eraseDups_concat_of_mem (List.mem_eraseDups.1 h)]
    · next h => rw [eraseDups_concat_of_notMem (mt List.mem_eraseDups.2 h)]

theorem eq_of_names_eq (h : v.names = w.names) : v = w := by
  cases v; cases w; congr

theorem ofNames_concat (names : List String) (name : String) :
    ofNames (names ++ [name]) = (ofNames names).bind fun v =>
      if name ∈ v.names then .error (.invalid (.duplicateName name)) else .ok (v.insert name) := by
  unfold ofNames
  rw [List.foldlM_append]
  refine bind_congr fun v => ?_
  simp only [List.foldlM_cons, List.foldlM_nil, bind_pure]

/-- **A list of names is a vocabulary just as it stands, or it repeats a name and is refused.** -/
theorem ofNames_cases (names : List String) :
    (∃ v, ofNames names = .ok v ∧ v.names = names) ∨
      ¬ names.Nodup ∧ ∃ name ∈ names, ofNames names = .error (.invalid (.duplicateName name)) := by
  induction names using List.reverseRecOn with
  | nil => exact .inl ⟨empty, rfl, rfl⟩
  | append_singleton names name ih =>
    rw [ofNames_concat]
    rcases ih with ⟨v, hv, hnames⟩ | ⟨hdup, other, hmem, herror⟩
    · rw [hv, Except.bind]
      by_cases hknown : name ∈ v.names
      · rw [if_pos hknown]
        rw [hnames] at hknown
        refine .inr ⟨fun hnodup => ?_, name, by simp, rfl⟩
        exact (List.nodup_append.1 hnodup).2.2 name hknown name List.mem_cons_self rfl
      · rw [if_neg hknown]
        exact .inl ⟨_, rfl, by rw [names_insert_of_notMem hknown, hnames]⟩
    · rw [herror]
      refine .inr ⟨fun hnodup => hdup (List.nodup_append.1 hnodup).1, other, ?_, rfl⟩
      exact List.mem_append_left _ hmem

theorem ofNames_eq_ok_iff {names : List String} : ofNames names = .ok v ↔ v.names = names := by
  rcases ofNames_cases names with ⟨w, hw, hnames⟩ | ⟨hdup, name, -, herror⟩
  · rw [hw]
    exact ⟨fun h => by cases h; exact hnames, fun h => by rw [eq_of_names_eq (hnames.trans h.symm)]⟩
  · rw [herror]
    exact ⟨fun h => (nomatch h), fun h => absurd (h ▸ v.nodup) hdup⟩

end Vocabulary

/-! ### Registers -/

namespace Register

variable {r : Register} {v : Vocabulary} {name : String}

/-- The register has the names of the vocabulary, and its table tells their positions. -/
structure Keeps (r : Register) (v : Vocabulary) : Prop where
  names_eq : r.names = v.names
  position?_eq (name : String) : r.position? name = v.position? name

theorem keeps_empty : empty.Keeps .empty where
  names_eq := rfl
  position?_eq _ := rfl

/-- Names and positions of a register are inverse. -/
theorem Keeps.position?_eq_some_iff {i : Nat} (h : r.Keeps v) :
    r.position? name = some i ↔ r.name? i = some name := by
  rw [h.position?_eq, Vocabulary.position?_eq_some_iff, name?, h.names_eq, Vocabulary.name?]

/-- What one insertion does: a known name changes nothing, and any other name is written to
the end of the list and into the table. -/
theorem insert_cases (r : Register) (name : String) :
    (∃ i, r.position? name = some i ∧ r.insert name = (i, r)) ∨
      r.position? name = none ∧
        r.insert name = (r.size, ⟨r.names ++ [name], (name, r.size) :: r.positions⟩) := by
  unfold insert
  cases h : r.position? name with
  | none => exact .inr ⟨rfl, rfl⟩
  | some i => exact .inl ⟨i, rfl, rfl⟩

/-- **One insertion keeps both stores right**, and the position that it tells is the one that
the name has from then on. -/
theorem Keeps.insert (h : r.Keeps v) (name : String) :
    (r.insert name).2.Keeps (v.insert name) ∧
      (v.insert name).position? name = some (r.insert name).1 := by
  obtain ⟨hnames, hpositions⟩ := h
  rcases r.insert_cases name with ⟨i, hknown, hinsert⟩ | ⟨hnew, hinsert⟩
  · rw [hpositions] at hknown
    have hmem : name ∈ v.names :=
      List.mem_of_getElem? (Vocabulary.position?_eq_some_iff.1 hknown)
    rw [hinsert, Vocabulary.insert_of_mem hmem]
    exact ⟨⟨hnames, hpositions⟩, hknown⟩
  · rw [hpositions, Vocabulary.position?_eq_none_iff] at hnew
    have hsize : r.size = v.size := congrArg List.length hnames
    rw [hinsert, hsize, Vocabulary.position?_insert_self hnew]
    refine ⟨⟨?_, fun other => ?_⟩, rfl⟩
    · rw [hnames, Vocabulary.names_insert_of_notMem hnew]
    · -- the new entry of the table hides nothing but the name itself
      unfold position?
      rw [List.lookup_cons]
      by_cases hother : other = name
      · rw [hother, beq_self_eq_true, Vocabulary.position?_insert_self hnew]
      · rw [beq_eq_false_iff_ne.2 hother, Vocabulary.position?_insert_of_ne hnew hother]
        exact hpositions other

theorem Keeps.insertAll (h : r.Keeps v) (names : List String) :
    (r.insertAll names).Keeps (v.insertAll names) := by
  induction names generalizing r v with
  | nil => exact h
  | cons name names ih => exact ih (h.insert name).1

/-- **After any history a register keeps what the vocabulary holds.** -/
theorem keeps_insertAll (history : List String) :
    (empty.insertAll history).Keeps (Vocabulary.empty.insertAll history) :=
  keeps_empty.insertAll history

theorem names_insertAll (history : List String) :
    (empty.insertAll history).names = history.eraseDups := by
  rw [(keeps_insertAll history).names_eq, Vocabulary.names_insertAll]

theorem position?_eq_some_iff {history : List String} {i : Nat} :
    (empty.insertAll history).position? name = some i ↔ history.eraseDups[i]? = some name := by
  rw [(keeps_insertAll history).position?_eq, Vocabulary.position?_eq_some_iff, Vocabulary.name?,
    Vocabulary.names_insertAll]

theorem position?_of_notMem {history : List String} (h : name ∉ history) :
    (empty.insertAll history).position? name = none := by
  rw [(keeps_insertAll history).position?_eq, Vocabulary.position?_eq_none_iff,
    Vocabulary.names_insertAll, List.mem_eraseDups]
  exact h

/-- What an insertion tells is the position of the name from then on. -/
theorem position?_insertAll_concat (history : List String) (name : String) :
    (empty.insertAll (history ++ [name])).position? name =
      some ((empty.insertAll history).insert name).1 := by
  rw [(keeps_insertAll _).position?_eq, Vocabulary.insertAll_concat]
  exact ((keeps_insertAll history).insert name).2

theorem position?_append {history : List String} {i : Nat}
    (h : (empty.insertAll history).position? name = some i) (later : List String) :
    (empty.insertAll (history ++ later)).position? name = some i := by
  rw [(keeps_insertAll _).position?_eq] at h ⊢
  rw [Vocabulary.insertAll_append]
  exact Vocabulary.position?_insertAll h later

theorem name?_append {history : List String} {i : Nat}
    (h : (empty.insertAll history).name? i = some name) (later : List String) :
    (empty.insertAll (history ++ later)).name? i = some name := by
  unfold name? at h ⊢
  rw [names_insertAll] at h ⊢
  exact position?_eq_some_iff.1 (position?_append (position?_eq_some_iff.2 h) later)

theorem ofNames_concat (names : List String) (name : String) :
    ofNames (names ++ [name]) = (ofNames names).bind (·.enrol name) := by
  unfold ofNames
  rw [List.foldlM_append]
  refine bind_congr fun r => ?_
  simp only [List.foldlM_cons, List.foldlM_nil, bind_pure]

/-- **A register is built of a list of names just as a vocabulary is**, with the same error. -/
theorem ofNames_cases (names : List String) :
    (∃ e, Vocabulary.ofNames names = .error e ∧ ofNames names = .error e) ∨
      ∃ v r, Vocabulary.ofNames names = .ok v ∧ ofNames names = .ok r ∧ r.Keeps v := by
  induction names using List.reverseRecOn with
  | nil => exact .inr ⟨.empty, empty, rfl, rfl, keeps_empty⟩
  | append_singleton names name ih =>
    rw [Vocabulary.ofNames_concat, ofNames_concat]
    rcases ih with ⟨e, hv, hr⟩ | ⟨v, r, hv, hr, hkeeps⟩
    · rw [hv, hr]
      exact .inl ⟨e, rfl, rfl⟩
    · rw [hv, hr, Except.bind, Except.bind, enrol, hkeeps.position?_eq]
      rcases v.position?_cases name with ⟨hnew, hpos⟩ | ⟨hknown, i, hpos, -⟩
      · rw [hpos, if_neg hnew]
        exact .inr ⟨_, _, rfl, rfl, (hkeeps.insert name).1⟩
      · rw [hpos, if_pos hknown]
        exact .inl ⟨_, rfl, rfl⟩

theorem keeps_ofNames (v : Vocabulary) : ∃ r, ofNames v.names = .ok r ∧ r.Keeps v := by
  have hv := Vocabulary.ofNames_eq_ok_iff.2 (rfl : v.names = v.names)
  rcases ofNames_cases v.names with ⟨e, herror, -⟩ | ⟨w, r, hw, hr, hkeeps⟩
  · rw [hv] at herror
    cases herror
  · rw [hv] at hw
    cases hw
    exact ⟨r, hr, hkeeps⟩

end Register

/-! ### Indices -/

namespace Index

variable {index : Index} {a b : String}

theorem entity_eq_ok_iff {e : EntityId} :
    index.entity a = .ok e ↔ index.entities.position? a = some e.index := by
  unfold entity
  cases index.entities.position? a with
  | none => simp
  | some i => cases e; simp

theorem relation_eq_ok_iff {r : RelationId} :
    index.relation a = .ok r ↔ index.relations.position? a = some r.index := by
  unfold relation
  cases index.relations.position? a with
  | none => simp
  | some i => cases r; simp

/-- Names of the entities of triples, in the order in which they are taken in. -/
def entityMentions (triples : List NamedTriple) : List String :=
  triples.flatMap fun t => [t.head, t.tail]

/-- Names of the relations of triples, in the order in which they are taken in. -/
def relationMentions (triples : List NamedTriple) : List String := triples.map (·.relation)

theorem foldl_insert (index : Index) (triples : List NamedTriple) :
    triples.foldl insert index = ⟨index.entities.insertAll (entityMentions triples),
      index.relations.insertAll (relationMentions triples)⟩ := by
  induction triples generalizing index with
  | nil => rfl
  | cons t triples ih => exact ih (index.insert t)

/-- **An index holds two histories**, that of its entities and that of its relations. -/
theorem ofTriples_eq (triples : List NamedTriple) :
    ofTriples triples = ⟨Vocabulary.empty.insertAll (entityMentions triples),
      Vocabulary.empty.insertAll (relationMentions triples)⟩ :=
  foldl_insert _ triples

/-- More triples do the same as if they came later. -/
theorem ofTriples_append (triples more : List NamedTriple) :
    ofTriples (triples ++ more) =
      ⟨(ofTriples triples).entities.insertAll (entityMentions more),
        (ofTriples triples).relations.insertAll (relationMentions more)⟩ := by
  unfold ofTriples
  rw [List.foldl_append, foldl_insert]

theorem entity_ofTriples_iff {triples : List NamedTriple} {e : EntityId} :
    (ofTriples triples).entity a = .ok e ↔
      (entityMentions triples).eraseDups[e.index]? = some a := by
  rw [entity_eq_ok_iff, Vocabulary.position?_eq_some_iff, Vocabulary.name?, ofTriples_eq,
    Vocabulary.names_insertAll]

theorem relation_ofTriples_iff {triples : List NamedTriple} {r : RelationId} :
    (ofTriples triples).relation a = .ok r ↔
      (relationMentions triples).eraseDups[r.index]? = some a := by
  rw [relation_eq_ok_iff, Vocabulary.position?_eq_some_iff, Vocabulary.name?, ofTriples_eq,
    Vocabulary.names_insertAll]

theorem entity_append {triples : List NamedTriple} {e : EntityId}
    (h : (ofTriples triples).entity a = .ok e) (more : List NamedTriple) :
    (ofTriples (triples ++ more)).entity a = .ok e := by
  rw [entity_eq_ok_iff] at h ⊢
  rw [ofTriples_append]
  exact Vocabulary.position?_insertAll h _

theorem relation_append {triples : List NamedTriple} {r : RelationId}
    (h : (ofTriples triples).relation a = .ok r) (more : List NamedTriple) :
    (ofTriples (triples ++ more)).relation a = .ok r := by
  rw [relation_eq_ok_iff] at h ⊢
  rw [ofTriples_append]
  exact Vocabulary.position?_insertAll h _

theorem triple_eq_ok_iff {t : NamedTriple} {x : Triple} :
    index.triple t = .ok x ↔ index.entity t.head = .ok x.head ∧
      index.relation t.relation = .ok x.relation ∧ index.entity t.tail = .ok x.tail := by
  unfold triple
  cases index.entity t.head with
  | error e => simp [bind, Except.bind]
  | ok head =>
    cases index.relation t.relation with
    | error e => simp [bind, Except.bind]
    | ok relation =>
      cases index.entity t.tail with
      | error e => simp [bind, Except.bind]
      | ok tail => cases x; simp [bind, Except.bind, pure, Except.pure]

/-- Every triple that an index is made of has its three names in it. -/
theorem exists_triple {triples : List NamedTriple} {t : NamedTriple} (ht : t ∈ triples) :
    ∃ x, (ofTriples triples).triple t = .ok x := by
  have hmention : ∀ a ∈ [t.head, t.tail], a ∈ (entityMentions triples).eraseDups := fun a ha =>
    List.mem_eraseDups.2 (List.mem_flatMap.2 ⟨t, ht, ha⟩)
  obtain ⟨i, hi⟩ := List.mem_iff_getElem?.1 (hmention t.head (by simp))
  obtain ⟨j, hj⟩ := List.mem_iff_getElem?.1 (hmention t.tail (by simp))
  obtain ⟨k, hk⟩ := List.mem_iff_getElem?.1
    (List.mem_eraseDups.2 (List.mem_map_of_mem (f := (·.relation)) ht))
  refine ⟨⟨⟨i⟩, ⟨k⟩, ⟨j⟩⟩, triple_eq_ok_iff.2 ⟨?_, ?_, ?_⟩⟩
  · exact entity_ofTriples_iff.2 hi
  · exact relation_ofTriples_iff.2 hk
  · exact entity_ofTriples_iff.2 hj

/-- **Names are numbered as they are first seen**, over whole histories.  A register holds the
names of its history without repeats, and its positions and names are inverse; an insertion
tells the position that its name has from then on, and no later one changes a position or a
name.  The vocabularies of an index are kept by the registers of the names of its triples; so
its entities and relations are numbered as they are first seen, every triple of it is found,
and more triples change none of its positions. -/
theorem numbered_as_first_seen :
    (∀ history : List String,
      (Register.empty.insertAll history).names = history.eraseDups ∧
      (∀ name i, (Register.empty.insertAll history).position? name = some i ↔
        (Register.empty.insertAll history).name? i = some name) ∧
      ∀ name, name ∉ history → (Register.empty.insertAll history).position? name = none) ∧
    (∀ (history : List String) (name : String),
      (Register.empty.insertAll (history ++ [name])).position? name =
        some ((Register.empty.insertAll history).insert name).1) ∧
    (∀ history later : List String,
      (∀ name i, (Register.empty.insertAll history).position? name = some i →
        (Register.empty.insertAll (history ++ later)).position? name = some i) ∧
      ∀ i name, (Register.empty.insertAll history).name? i = some name →
        (Register.empty.insertAll (history ++ later)).name? i = some name) ∧
    (∀ triples : List NamedTriple,
      (Register.empty.insertAll (entityMentions triples)).Keeps (ofTriples triples).entities ∧
      (Register.empty.insertAll (relationMentions triples)).Keeps (ofTriples triples).relations ∧
      (∀ a e, (ofTriples triples).entity a = .ok e ↔
        (entityMentions triples).eraseDups[e.index]? = some a) ∧
      (∀ a r, (ofTriples triples).relation a = .ok r ↔
        (relationMentions triples).eraseDups[r.index]? = some a) ∧
      ∀ t ∈ triples, ∃ x, (ofTriples triples).triple t = .ok x) ∧
    ∀ triples more : List NamedTriple,
      (∀ a e, (ofTriples triples).entity a = .ok e →
        (ofTriples (triples ++ more)).entity a = .ok e) ∧
      (∀ a r, (ofTriples triples).relation a = .ok r →
        (ofTriples (triples ++ more)).relation a = .ok r) ∧
      ∀ t x, (ofTriples triples).triple t = .ok x →
        (ofTriples (triples ++ more)).triple t = .ok x := by
  refine ⟨fun history => ⟨Register.names_insertAll history, fun name i => ?_,
      fun name => Register.position?_of_notMem⟩,
    Register.position?_insertAll_concat,
    fun history later => ⟨fun name i h => Register.position?_append h later,
      fun i name h => Register.name?_append h later⟩,
    fun triples => ⟨?_, ?_, fun a e => entity_ofTriples_iff, fun a r => relation_ofTriples_iff,
      fun t => exists_triple⟩,
    fun triples more => ⟨fun a e h => entity_append h more, fun a r h => relation_append h more,
      fun t x h => ?_⟩⟩
  · rw [Register.name?, Register.names_insertAll, Register.position?_eq_some_iff]
  · rw [ofTriples_eq]
    exact Register.keeps_insertAll _
  · rw [ofTriples_eq]
    exact Register.keeps_insertAll _
  · obtain ⟨hhead, hrelation, htail⟩ := triple_eq_ok_iff.1 h
    exact triple_eq_ok_iff.2
      ⟨entity_append hhead more, relation_append hrelation more, entity_append htail more⟩

end Index

end MultiHop
