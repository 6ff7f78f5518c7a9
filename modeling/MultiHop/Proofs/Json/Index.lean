/-
MultiHop/Proofs/Json/Index.lean

Written indices are read back.  An index is written as a record of two lists of names, without
the tables that lead from names to positions; reading builds the tables anew, from lists that
may come from anywhere.

A record gives its fields by position or by key, and what it gives for a field is what is
looked into (`Json.gives_iff_of_record?`).  A vocabulary is read from a list of texts just
when no text repeats (`Vocabulary.ofJson?_eq_some_iff`), so a text that repeats a name in
either list is no index.  What has been written is a record of the two lists again
(`Index.ofJson?_reread_toJson`).

Main result: `Index.text_faithful`.
-/
import MultiHop.Json.Graph
import MultiHop.Proofs.Index
import MultiHop.Proofs.Json.Text

namespace MultiHop

/-! ### Lists -/

section

variable {α β : Type} {f : α → Option β} {xs : List α} {ys : List β}

theorem mapM_eq_some_iff : xs.mapM f = some ys ↔ xs.map f = ys.map some := by
  induction xs generalizing ys with
  | nil => cases ys <;> simp
  | cons x xs ih =>
    rw [List.mapM_cons, List.map_cons]
    cases ys with
    | nil => cases f x <;> cases xs.mapM f <;> simp
    | cons y ys =>
      rw [List.map_cons, List.cons.injEq, ← ih]
      cases f x <;> cases xs.mapM f <;> simp

/-- What stands at a place is what was read there. -/
theorem getElem?_of_mapM (h : xs.mapM f = some ys) (i : Nat) :
    (xs[i]?).map f = (ys[i]?).map some := by
  rw [← List.getElem?_map, mapM_eq_some_iff.1 h, List.getElem?_map]

theorem mem_iff_of_mapM (h : xs.mapM f = some ys) {y : β} : y ∈ ys ↔ ∃ x ∈ xs, f x = some y := by
  rw [← List.mem_map, mapM_eq_some_iff.1 h, List.mem_map]
  simp

end

namespace Json

/-! ### Records -/

/-- The record gives a value for the field `name`, the one at `place` in the order of the
fields: as an array by its position, and as an object by its key. -/
inductive Gives (place : Nat) (name : String) : Json → Json → Prop
  | item {items : List Json} {v : Json} : items[place]? = some v → Gives place name (.array items) v
  | field {fields : List (Literal × Json)} {k : Literal} {v : Json} :
      (k, v) ∈ fields → k.text? = some name → Gives place name (.object fields) v

theorem mem_iff_of_keyed? {fields : List (Literal × Json)} {texts : List (String × Json)}
    (h : keyed? fields = some texts) {name : String} {v : Json} :
    (name, v) ∈ texts ↔ ∃ k, (k, v) ∈ fields ∧ k.text? = some name := by
  rw [mem_iff_of_mapM h]
  constructor
  · rintro ⟨⟨k, w⟩, hmem, hkw⟩
    obtain ⟨a, ha, haw⟩ := Option.map_eq_some_iff.1 hkw
    cases haw
    exact ⟨k, hmem, ha⟩
  · rintro ⟨k, hmem, hk⟩
    exact ⟨(k, v), hmem, by simp only [hk, Option.map_some]⟩

theorem eq_some_iff_of_field? {texts : List (String × Json)} {name : String}
    {found : Option Json} (h : field? texts name = some found) {v : Json} :
    found = some v ↔ (name, v) ∈ texts := by
  have hfilter : ((name, v) ∈ texts.filter fun f => f.1 == name) ↔ (name, v) ∈ texts := by
    simp [List.mem_filter]
  rw [← hfilter]
  unfold field? at h
  split at h
  · next hnone => simp [← Option.some.inj h, hnone]
  · next a w hone =>
    have ha : a = name := by
      have hmem := List.mem_filter.1 (hone ▸ List.mem_singleton_self (a, w))
      exact eq_of_beq hmem.2
    simp [← Option.some.inj h, hone, ha, eq_comm]
  · contradiction

/-- **What a record is read as for a field is what it gives there.** -/
theorem gives_iff_of_record? {names : List String} {v : Json} {found : List (Option Json)}
    (h : v.record? names = some found) {place : Nat} {name : String}
    (hplace : names[place]? = some name) {w : Json} :
    v.Gives place name w ↔ found[place]? = some (some w) := by
  cases v with
  | array items =>
    simp only [record?] at h
    split at h
    · rw [← Option.some.inj h]
      constructor
      · rintro ⟨hw⟩
        obtain ⟨hlt, -⟩ := List.getElem?_eq_some_iff.1 hw
        rw [List.getElem?_append_left (by rwa [List.length_map]), List.getElem?_map, hw,
          Option.map_some]
      · intro hw
        by_cases hlt : place < items.length
        · rw [List.getElem?_append_left (by rwa [List.length_map]), List.getElem?_map] at hw
          obtain ⟨_, hitem, hsome⟩ := Option.map_eq_some_iff.1 hw
          exact .item (Option.some.inj hsome ▸ hitem)
        · rw [List.getElem?_append_right (by rw [List.length_map]; omega)] at hw
          have hnone := List.eq_of_mem_replicate (List.mem_of_getElem? hw)
          contradiction
    · contradiction
  | object fields =>
    simp only [record?] at h
    split at h
    · next texts htexts =>
      have hentry := getElem?_of_mapM h place
      rw [hplace, Option.map_some] at hentry
      obtain ⟨entry, hget, hfield⟩ := Option.map_eq_some_iff.1 hentry.symm
      rw [hget, Option.some.injEq, eq_some_iff_of_field? hfield.symm, mem_iff_of_keyed? htexts]
      constructor
      · rintro ⟨⟩
        exact ⟨_, ‹_›, ‹_›⟩
      · rintro ⟨k, hmem, hk⟩
        exact .field hmem hk
    · contradiction
  | _ => simp [record?] at h

theorem required?_eq_some_iff {α : Type} {read : Json → Option α} {found : Option Json} {a : α} :
    required? read found = some a ↔ ∃ v, found = some v ∧ read v = some a := by
  cases found <;> simp [required?]

/-- The value is an array in which one text stands at two places. -/
def Repeats (v : Json) : Prop :=
  ∃ items : List Json, v = .array items ∧
    ∃ (i j : Nat) (a b : Json) (s : String), i < j ∧ items[i]? = some a ∧ items[j]? = some b ∧
      a.text? = some s ∧ b.text? = some s

theorem Repeats.not_nodup {v : Json} {names : List String} (hv : v.Repeats)
    (h : v.list? text? = some names) : ¬ names.Nodup := by
  obtain ⟨items, rfl, i, j, a, b, s, hij, hi, hj, ha, hb⟩ := hv
  have hname : ∀ {i : Nat} {a : Json}, items[i]? = some a → a.text? = some s →
      names[i]? = some s := by
    intro i a hi ha
    have hget := getElem?_of_mapM h i
    rw [hi, Option.map_some, ha] at hget
    obtain ⟨_, hname, hs⟩ := Option.map_eq_some_iff.1 hget.symm
    rwa [Option.some.inj hs] at hname
  have hsi := hname hi ha
  intro hnodup
  obtain ⟨hlt, -⟩ := List.getElem?_eq_some_iff.1 hsi
  exact absurd ((List.getElem?_inj hlt hnodup).1 (hsi.trans (hname hj hb).symm)) (by omega)

end Json

/-! ### Vocabularies -/

namespace Vocabulary

variable {v : Vocabulary} {j : Json}

/-- **A vocabulary is read from the list of its names**, and from no other. -/
theorem ofJson?_eq_some_iff : ofJson? j = some v ↔ j.list? Json.text? = some v.names := by
  unfold ofJson?
  cases j.list? Json.text? with
  | none => simp
  | some names =>
    rw [Option.some.injEq, eq_comm (b := v.names), ← ofNames_eq_ok_iff]
    show (ofNames names).toOption = some v ↔ _
    cases ofNames names <;> simp [Except.toOption]

theorem ofJson?_of_repeats (h : j.Repeats) : ofJson? j = none := by
  cases hj : ofJson? j with
  | none => rfl
  | some v => exact absurd v.nodup (h.not_nodup (ofJson?_eq_some_iff.1 hj))

theorem proper_toJson (v : Vocabulary) : v.toJson.Proper := by
  refine .array fun w hw => ?_
  obtain ⟨name, -, rfl⟩ := List.mem_map.1 hw
  exact .string _

theorem ofJson?_reread_toJson (v : Vocabulary) : ofJson? v.toJson.reread = some v := by
  rw [ofJson?_eq_some_iff, toJson, Json.reread, Json.rereadItems_eq_map, Json.list?,
    mapM_eq_some_iff]
  simp [Function.comp_def, Json.ofString, Json.reread, Json.text?]

end Vocabulary

/-! ### Indices -/

namespace Index

variable {index : Index} {j : Json}

theorem ofJson?_eq_some_iff : ofJson? j = some index ↔
    ∃ es rs, j.record? ["entities", "relations"] = some [some es, some rs] ∧
      Vocabulary.ofJson? es = some index.entities ∧
      Vocabulary.ofJson? rs = some index.relations := by
  unfold ofJson?
  constructor
  · intro h
    split at h
    · next es rs hrecord =>
      simp only [Option.bind_eq_bind, Option.bind_eq_some_iff] at h
      obtain ⟨entities, hentities, relations, hrelations, h⟩ := h
      obtain ⟨es, rfl, hes⟩ := Json.required?_eq_some_iff.1 hentities
      obtain ⟨rs, rfl, hrs⟩ := Json.required?_eq_some_iff.1 hrelations
      cases h
      exact ⟨es, rs, hrecord, hes, hrs⟩
    · contradiction
  · rintro ⟨es, rs, hrecord, hes, hrs⟩
    simp [hrecord, Json.required?, hes, hrs]

/-- A record in which a list repeats a name is no index. -/
theorem ofJson?_of_repeats {place : Nat} {name : String} {names : Json}
    (hplace : ["entities", "relations"][place]? = some name) (hgives : j.Gives place name names)
    (h : names.Repeats) : ofJson? j = none := by
  cases hj : ofJson? j with
  | none => rfl
  | some index =>
    obtain ⟨es, rs, hrecord, hes, hrs⟩ := ofJson?_eq_some_iff.1 hj
    have hnames := (Json.gives_iff_of_record? hrecord hplace).1 hgives
    have hnone := Vocabulary.ofJson?_of_repeats h
    match place, hnames with
    | 0, hnames =>
      cases hnames
      rw [hes] at hnone
      contradiction
    | 1, hnames =>
      cases hnames
      rw [hrs] at hnone
      contradiction

theorem proper_toJson (index : Index) : index.toJson.Proper := by
  refine .object fun f hf => ?_
  rcases List.mem_cons.1 hf with rfl | hf
  · exact index.entities.proper_toJson
  · rw [List.mem_singleton.1 hf]
    exact index.relations.proper_toJson

theorem ofJson?_reread_toJson (index : Index) : ofJson? index.toJson.reread = some index := by
  rw [ofJson?_eq_some_iff]
  refine ⟨index.entities.toJson.reread, index.relations.toJson.reread, ?_,
    Vocabulary.ofJson?_reread_toJson _, Vocabulary.ofJson?_reread_toJson _⟩
  simp [toJson, Json.reread, Json.rereadFields, Json.record?, Json.keyed?, Json.field?]

theorem ofText_eq_ok_iff {s : String} :
    ofText s = .ok index ↔ ∃ j, Json.ofText? s = some j ∧ ofJson? j = some index := by
  rw [ofText, readable_eq_ok_iff, Option.bind_eq_some_iff]

/-- What is read as an index gives two lists, and their texts are its names. -/
theorem gives_names (h : ofJson? j = some index) :
    (∃ es, j.Gives 0 "entities" es ∧ es.list? Json.text? = some index.entities.names) ∧
      ∃ rs, j.Gives 1 "relations" rs ∧ rs.list? Json.text? = some index.relations.names := by
  obtain ⟨es, rs, hrecord, hes, hrs⟩ := ofJson?_eq_some_iff.1 h
  exact ⟨⟨es, (Json.gives_iff_of_record? hrecord rfl).2 rfl, Vocabulary.ofJson?_eq_some_iff.1 hes⟩,
    rs, (Json.gives_iff_of_record? hrecord rfl).2 rfl, Vocabulary.ofJson?_eq_some_iff.1 hrs⟩

theorem ofText_text (index : Index) : ofText index.text = .ok index :=
  ofText_eq_ok_iff.2
    ⟨_, Json.ofText?_text index.proper_toJson, index.ofJson?_reread_toJson⟩

/-- **An index survives its text**, and no text makes a broken one.  Whatever its names are,
an index is read back from its own text; and the tables that were left out are built anew as
they were, whatever registers the names were kept in.  Whatever text is read as an index, it
gives the two lists of names, and the registers that are built of them lead from names to
positions and back.  A text that repeats a name in one of its two lists is refused. -/
theorem text_faithful :
    (∀ index : Index, ofText index.text = .ok index ∧
      ∀ v ∈ [index.entities, index.relations], ∀ kept : Register, kept.Keeps v →
        ∃ r, Register.ofNames v.names = .ok r ∧ r.names = kept.names ∧
          ∀ name, r.position? name = kept.position? name) ∧
    (∀ s index, ofText s = .ok index →
      (∃ j es rs, Json.ofText? s = some j ∧
        j.Gives 0 "entities" es ∧ es.list? Json.text? = some index.entities.names ∧
        j.Gives 1 "relations" rs ∧ rs.list? Json.text? = some index.relations.names) ∧
      ∀ v ∈ [index.entities, index.relations],
        (∀ name i, v.position? name = some i ↔ v.name? i = some name) ∧
        ∃ r, Register.ofNames v.names = .ok r ∧ r.names = v.names ∧
          ∀ name i, r.position? name = some i ↔ r.name? i = some name) ∧
    ∀ s j names, Json.ofText? s = some j →
      (j.Gives 0 "entities" names ∨ j.Gives 1 "relations" names) → names.Repeats →
      ofText s = .error .unreadable := by
  refine ⟨fun index => ⟨ofText_text index, fun v _ kept hkept => ?_⟩,
    fun s index hindex => ⟨?_, fun v _ => ⟨fun name i => Vocabulary.position?_eq_some_iff, ?_⟩⟩,
    fun s j names hj hgives hrepeats => ?_⟩
  · obtain ⟨r, hr, hkeeps⟩ := Register.keeps_ofNames v
    refine ⟨r, hr, hkeeps.names_eq.trans hkept.names_eq.symm, fun name => ?_⟩
    rw [hkeeps.position?_eq, hkept.position?_eq]
  · obtain ⟨j, hj, hread⟩ := ofText_eq_ok_iff.1 hindex
    obtain ⟨⟨es, hes, hentities⟩, rs, hrs, hrelations⟩ := gives_names hread
    exact ⟨j, es, rs, hj, hes, hentities, hrs, hrelations⟩
  · obtain ⟨r, hr, hkeeps⟩ := Register.keeps_ofNames v
    exact ⟨r, hr, hkeeps.names_eq, fun name i => hkeeps.position?_eq_some_iff⟩
  · have hnone : ofJson? j = none := by
      rcases hgives with hgives | hgives
      · exact ofJson?_of_repeats rfl hgives hrepeats
      · exact ofJson?_of_repeats rfl hgives hrepeats
    rw [ofText, hj, Option.bind_some, hnone]
    rfl

/-- Names that are empty, quoted or not printable keep their positions; and one name is refused
the second time though it is spelled in another way. -/
theorem text_faithful_spellings :
    (∃ r, Register.ofNames ["", "\"\\", "\x01é"] = .ok r ∧ r.position? "\"\\" = some 1 ∧
      r.name? 1 = some "\"\\") ∧
    ofText "\x7b\"entities\":[\"a\",\"\\u0061\"],\"relations\":[]\x7d" =
      .error .unreadable := by
  have hkeeps := Register.keeps_insertAll ["", "\"\\", "\x01é"]
  generalize hv : Vocabulary.empty.insertAll ["", "\"\\", "\x01é"] = v at hkeeps
  have hnames : v.names = ["", "\"\\", "\x01é"] := by rw [← hv]; decide
  obtain ⟨hread, hrebuilt⟩ := text_faithful.1 ⟨v, .empty⟩
  obtain ⟨r, hr, -, hposition⟩ := hrebuilt v List.mem_cons_self _ hkeeps
  obtain ⟨-, r', hr', -, hinverse⟩ := (text_faithful.2.1 _ _ hread).2 v List.mem_cons_self
  obtain rfl : r = r' := Except.ok.inj (hr.symm.trans hr')
  have hone : r.position? "\"\\" = some 1 := by rw [hposition]; decide
  refine ⟨⟨r, hnames ▸ hr, hone, (hinverse _ 1).1 hone⟩, ?_⟩
  refine text_faithful.2.2 _
    (.object [(.ofString "entities", .array [.string [.char 'a'], .string [.unit 0x61]]),
      (.ofString "relations", .array [])]) _ rfl (.inl (.field List.mem_cons_self rfl))
    ⟨_, rfl, 0, 1, _, _, "a", by decide, rfl, rfl, rfl, rfl⟩

end Index

end MultiHop
