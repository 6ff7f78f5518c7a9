/-
MultiHop/Proofs/Json/Payload.lean

Payloads as JSON.  A payload is written without saying what is a name and what is a tuple, and
a reader has to find that out from the value alone: strings are names and arrays are tuples
(`Json.Spells`).  Nothing else has a place in a payload, however deep inside it stands
(`Json.Foreign`).

So reading is the inverse of writing on all payloads that are not too deep
(`Payload.ofText_text`), and every text is judged by the value that it writes
(`Payload.ofText_eq_ok_iff`).

Main result: `Payload.text_faithful_nested`.
-/
import MultiHop.Json.Query
import MultiHop.Proofs.Json.Text

namespace MultiHop

namespace Json

/-! ### Nested arrays of strings -/

/-- A value stands for a payload: a string for the name that is its text, and an array for the
tuple of what its items stand for. -/
inductive Spells : Json → Payload → Prop
  | name {s : Literal} {a : String} : s.text? = some a → Spells (.string s) (.name a)
  | empty : Spells (.array []) (.tuple [])
  | item {v : Json} {vs : List Json} {p : Payload} {ps : List Payload} :
    Spells v p → Spells (.array vs) (.tuple ps) → Spells (.array (v :: vs)) (.tuple (p :: ps))

/-- A value is, or has among its items at any depth, something that is neither a string nor an
array. -/
inductive Foreign : Json → Prop
  | null : Foreign .null
  | bool (b : Bool) : Foreign (.bool b)
  | number (n : Number) : Foreign (.number n)
  | object (fields : List (Literal × Json)) : Foreign (.object fields)
  | item {items : List Json} {v : Json} : v ∈ items → Foreign v → Foreign (.array items)

variable {v : Json} {p : Payload} {items : List Json} {ps : List Payload}

theorem Spells.of_mem (h : Spells (.array items) (.tuple ps)) (hv : v ∈ items) :
    ∃ p, v.Spells p := by
  induction items generalizing ps with
  | nil => contradiction
  | cons w vs ih =>
    cases h with
    | @item _ _ p ps hw hvs =>
      obtain rfl | hv := List.mem_cons.1 hv
      · exact ⟨p, hw⟩
      · exact ih hvs hv

/-- Nothing foreign stands for a payload. -/
theorem Foreign.not_spells (h : v.Foreign) (p : Payload) : ¬ v.Spells p := by
  induction h generalizing p with
  | item hv _ ih =>
    intro hspells
    cases p with
    | name a => cases hspells
    | tuple ps =>
      obtain ⟨q, hq⟩ := hspells.of_mem hv
      exact ih q hq
  | _ => nofun

/-! ### What is read back -/

theorem depth_reread (v : Json) : v.reread.depth = v.depth := by
  induction v using Json.induction with
  | array items ih =>
    have hitems : depthItems (rereadItems items) = depthItems items := by
      induction items with
      | nil => rfl
      | cons v vs ihs =>
        obtain ⟨hv, hvs⟩ := List.forall_mem_cons.1 ih
        simp only [rereadItems, depthItems, hv, ihs hvs]
    simp only [reread, depth, hitems]
  | object fields ih =>
    have hfields : depthFields (rereadFields fields) = depthFields fields := by
      induction fields with
      | nil => rfl
      | cons f fs ihs =>
        obtain ⟨hf, hfs⟩ := List.forall_mem_cons.1 ih
        simp only [rereadFields, depthFields, hf, ihs hfs]
    simp only [reread, depth, hfields]
  | _ => rfl

theorem Foreign.reread (h : v.Foreign) : v.reread.Foreign := by
  induction h with
  | null => exact .null
  | bool b => exact .bool b
  | number n => exact .number n
  | object fields => exact .object _
  | @item items v hv _ ih =>
    rw [Json.reread, rereadItems_eq_map]
    exact .item (List.mem_map_of_mem hv) ih

end Json

namespace Payload

open Json (Spells)

/-! ### Values of payloads -/

mutual

/-- How deep tuples are nested. -/
def depth : Payload → Nat
  | .name _ => 0
  | .tuple items => depthItems items + 1

/-- The greatest depth among some payloads. -/
def depthItems : List Payload → Nat
  | [] => 0
  | p :: ps => max (depth p) (depthItems ps)

end

/-- Induction over payloads: a tuple with all that it holds. -/
@[elab_as_elim]
theorem induction {motive : Payload → Prop} (name : ∀ a, motive (.name a))
    (tuple : ∀ items, (∀ p ∈ items, motive p) → motive (.tuple items)) (p : Payload) : motive p :=
  @Payload.rec motive (fun items => ∀ p ∈ items, motive p) name tuple (fun _ h => nomatch h)
    (fun _ _ hp hps => List.forall_mem_cons.2 ⟨hp, hps⟩) p

theorem itemsToJson_eq_map (items : List Payload) : itemsToJson items = items.map toJson := by
  induction items with
  | nil => rfl
  | cons p ps ih => rw [itemsToJson, ih, List.map_cons]

theorem proper_toJson (p : Payload) : p.toJson.Proper := by
  induction p using Payload.induction with
  | name a => exact .string _
  | tuple items ih =>
    rw [toJson, itemsToJson_eq_map]
    refine .array fun v hv => ?_
    obtain ⟨p, hp, rfl⟩ := List.mem_map.1 hv
    exact ih p hp

@[simp] theorem depth_toJson (p : Payload) : p.toJson.depth = p.depth := by
  induction p using Payload.induction with
  | name a => rfl
  | tuple items ih =>
    have hitems : Json.depthItems (itemsToJson items) = depthItems items := by
      induction items with
      | nil => rfl
      | cons p ps ihs =>
        obtain ⟨hp, hps⟩ := List.forall_mem_cons.1 ih
        simp only [itemsToJson, Json.depthItems, depthItems, hp, ihs hps]
    simp only [toJson, Json.depth, depth, hitems]

/-- What was written for a payload stands for it when it is read back. -/
theorem spells_reread_toJson (p : Payload) : p.toJson.reread.Spells p := by
  induction p using Payload.induction with
  | name a => exact .name (Json.Literal.text?_reread_ofString a)
  | tuple items ih =>
    induction items with
    | nil => exact .empty
    | cons p ps ihs =>
      obtain ⟨hp, hps⟩ := List.forall_mem_cons.1 ih
      exact .item hp (ihs hps)

/-! ### Reading -/

variable {v : Json} {p : Payload} {s : String}

/-- **A value is read as the payload for which it stands**, and as no other. -/
theorem ofJson?_eq_some_iff : ofJson? v = some p ↔ v.Spells p := by
  induction v using Json.induction generalizing p with
  | string s =>
    rw [ofJson?, Option.map_eq_some_iff]
    constructor
    · rintro ⟨a, ha, rfl⟩
      exact .name ha
    · rintro ⟨ha⟩
      exact ⟨_, ha, rfl⟩
  | array items ih =>
    -- an array is spelled item by item, so the items are an induction of their own
    have hitems : ∀ ps, ofItems? items = some ps ↔ Spells (.array items) (.tuple ps) := by
      induction items with
      | nil =>
        intro ps
        rw [ofItems?, Option.some.injEq, eq_comm]
        constructor
        · rintro rfl
          exact .empty
        · rintro ⟨⟩
          rfl
      | cons v vs ihs =>
        obtain ⟨hv, hvs⟩ := List.forall_mem_cons.1 ih
        intro ps
        rw [ofItems?]
        constructor
        · intro h
          split at h
          next p ps hp hps =>
            cases h
            exact .item (hv.1 hp) ((ihs hvs ps).1 hps)
          next => contradiction
        · rintro ⟨⟩
          next p ps hp hps => rw [hv.2 hp, (ihs hvs ps).2 hps]
    rw [ofJson?, Option.map_eq_some_iff]
    constructor
    · rintro ⟨ps, hps, rfl⟩
      exact (hitems ps).1 hps
    · intro h
      cases p with
      | name a => cases h
      | tuple ps => exact ⟨ps, (hitems ps).2 h, rfl⟩
  | _ =>
    rw [ofJson?]
    exact ⟨nofun, nofun⟩

theorem ofText_eq_ok_iff :
    ofText s = .ok p ↔
      ∃ v, Json.ofText? s = some v ∧ v.depth ≤ Json.depthLimit ∧ v.Spells p := by
  unfold ofText
  rw [readable_eq_ok_iff]
  cases Json.ofText? s with
  | none => simp
  | some v => simp [ofJson?_eq_some_iff]

theorem ofText_text (h : p.depth ≤ Json.depthLimit) : ofText p.toJson.text = .ok p :=
  ofText_eq_ok_iff.2 ⟨_, Json.ofText?_text p.proper_toJson,
    by rwa [Json.depth_reread, depth_toJson], p.spells_reread_toJson⟩

theorem ofText_of_foreign (hs : Json.ofText? s = some v)
    (hv : v.Foreign ∨ Json.depthLimit < v.depth) : ofText s = .error .unreadable := by
  refine readable_eq_error fun p hp => ?_
  obtain ⟨w, hw, hdepth, hspells⟩ := ofText_eq_ok_iff.1 hp
  obtain rfl : v = w := Option.some.inj (hs.symm.trans hw)
  obtain hforeign | hdeep := hv
  · exact hforeign.not_spells p hspells
  · omega

/-- **Payloads are nested arrays of strings and nothing else.**  A payload whose tuples nest at
most 127 deep is read back from its text, whatever its names are and however many items its
tuples have.  A text is read as a payload just when it writes a value that nests at most 127
deep and stands for that payload.  A value that has a number, a truth value, a null or an object
anywhere, or nests deeper, is refused, in its own text and in every text that writes it. -/
theorem text_faithful_nested :
    (∀ p : Payload, p.depth ≤ 127 → ofText p.toJson.text = .ok p) ∧
    (∀ s p, ofText s = .ok p ↔
      ∃ v, Json.ofText? s = some v ∧ v.depth ≤ 127 ∧ v.Spells p) ∧
    (∀ v : Json, v.Proper → (v.Foreign ∨ 127 < v.depth) →
      ofText v.text = .error .unreadable) ∧
    ∀ s v, Json.ofText? s = some v → (v.Foreign ∨ 127 < v.depth) →
      ofText s = .error .unreadable := by
  refine ⟨fun p h => ofText_text h, fun s p => ofText_eq_ok_iff, fun v hproper hv => ?_,
    fun s v hs hv => ofText_of_foreign hs hv⟩
  refine ofText_of_foreign (Json.ofText?_text hproper) ?_
  rw [Json.depth_reread]
  exact hv.imp_left Json.Foreign.reread

/-- `n` tuples around an empty one. -/
def nested : Nat → Payload
  | 0 => .tuple []
  | n + 1 => .tuple [nested n]

@[simp] theorem depth_nested (n : Nat) : (nested n).depth = n + 1 := by
  induction n with
  | zero => rfl
  | succ n ih => simp [nested, depth, depthItems, ih]

/-- Quotes, controls and empty tuples come back; a number among the names and the 128th bracket
are refused. -/
theorem text_faithful_nested_spellings :
    ofText (Payload.tuple [.name "\"\\\n\x01é", .tuple [], .name ""]).toJson.text =
      .ok (.tuple [.name "\"\\\n\x01é", .tuple [], .name ""]) ∧
    ofText (nested 126).toJson.text = .ok (nested 126) ∧
    ofText (nested 127).toJson.text = .error .unreadable ∧
    ofText " [\"A\", [1.5e3]]" = .error .unreadable := by
  obtain ⟨hread, -, hrefused, htext⟩ := text_faithful_nested
  have hnumber : (Json.array [.ofString "A",
      .array [.number ⟨false, [1], some [5], some (false, [3])⟩]]).Foreign :=
    .item (List.mem_cons_of_mem _ List.mem_cons_self) (.item List.mem_cons_self (.number _))
  refine ⟨hread _ (by decide), hread _ (by simp), hrefused _ (proper_toJson _) (.inr (by simp)),
    htext _ _ (by rfl) (.inl hnumber)⟩

end Payload

end MultiHop
