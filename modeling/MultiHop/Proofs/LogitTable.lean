/-
MultiHop/Proofs/LogitTable.lean

What a table tells after a history of writes.  A model may be asked for one logit in five
ways: among all tails, alone, among all heads, among all relations, and in a batch
(`Model.Tells`).  A model without ways of its own, whose tails and single triples are taken
from the same numbers, tells the same in all five (`Model.Stores.tells`), and a table is such
a model.

A write fits a table or it does not, and this depends only on the sizes of the table, which
no write changes.  A write that fits puts its row on top of the others; one that does not is
refused and leaves the table as it was.  So the row for a pair is that of the last write that
fits and is for this pair (`LogitTable.toList_row_writeAll`).
-/
import Mathlib.Data.List.Induction
import MultiHop.LogitTable
import MultiHop.Proofs.Consult

namespace MultiHop

open Consult

/-! ### Five ways to ask for a logit -/

/-- However a model is asked for the logit of a triple, it answers `x`. -/
structure Model.Tells (m : Model) (h : EntityId) (r : RelationId) (e : EntityId)
    (x : Float32) : Prop where
  tails : ∃ row, (m.askTails h r).result = .ok row ∧ row[e.index]? = some x
  triple : (m.askTriple h r e).result = .ok x
  heads : ∃ row, (m.askHeads r e).result = .ok row ∧ row[h.index]? = some x
  relations : ∃ row, (m.askRelations h e).result = .ok row ∧ row[r.index]? = some x
  batch (heads : List EntityId) : (∀ h' ∈ heads, h'.index < m.entityCount) →
    ∃ b, (m.askBatch heads r).result = .ok b ∧ b.rows.length = heads.length ∧
      ∀ i : Nat, heads[i]? = some h → ∃ row, b.rows[i]? = some row ∧ row[e.index]? = some x

namespace Model

variable {m : Model} {value : EntityId → RelationId → EntityId → Float32} {h e : EntityId}
  {r : RelationId}

/-- The model has no ways of its own, and gives out the numbers of `value`. -/
structure Stores (m : Model) (value : EntityId → RelationId → EntityId → Float32) : Prop where
  tails (h : EntityId) (r : RelationId) : h.index < m.entityCount → r.index < m.relationCount →
    m.tails h r = .ok (m.entities.map (value h r))
  triple (h : EntityId) (r : RelationId) (e : EntityId) : h.index < m.entityCount →
    r.index < m.relationCount → e.index < m.entityCount → m.triple h r e = .ok (value h r e)
  ownHeads : m.ownHeads = none
  ownRelations : m.ownRelations = none
  ownBatch : m.ownBatch = none

theorem index_lt_of_mem_entities (h : e ∈ m.entities) : e.index < m.entityCount := by
  simp only [entities, List.mem_map, List.mem_range] at h
  obtain ⟨i, hi, rfl⟩ := h
  exact hi

theorem getElem?_entities (h : e.index < m.entityCount) : m.entities[e.index]? = some e := by
  simp [entities, h]

theorem index_lt_of_mem_relations (h : r ∈ m.relations) : r.index < m.relationCount := by
  simp only [relations, List.mem_map, List.mem_range] at h
  obtain ⟨i, hi, rfl⟩ := h
  exact hi

theorem getElem?_relations (h : r.index < m.relationCount) : m.relations[r.index]? = some r := by
  simp [relations, h]

namespace Stores

theorem getElem?_row (he : e.index < m.entityCount) :
    (m.entities.map (value h r))[e.index]? = some (value h r e) := by
  rw [List.getElem?_map, getElem?_entities he, Option.map_some]

theorem askTriple_ends (hm : m.Stores value) (hh : h.index < m.entityCount)
    (hr : r.index < m.relationCount) (he : e.index < m.entityCount) :
    (m.askTriple h r e).Ends (· = value h r e) fun _ => False := by
  unfold askTriple
  rw [hm.triple h r e hh hr he]
  exact rfl

theorem askRow_ends (hm : m.Stores value) (hh : h.index < m.entityCount)
    (hr : r.index < m.relationCount) :
    (m.askRow r h).Ends (fun row => row.val = m.entities.map (value h r)) fun _ => False := by
  have htails : (m.askTails h r).result = .ok (m.entities.map (value h r)) :=
    hm.tails h r hh hr
  refine ends_bind_of_ok htails ?_
  split
  · exact ends_pure rfl
  · next hne => exact absurd (by simp [entities]) hne

theorem heads (hm : m.Stores value) (hh : h.index < m.entityCount)
    (hr : r.index < m.relationCount) (he : e.index < m.entityCount) :
    ∃ row, (m.askHeads r e).result = .ok row ∧ row[h.index]? = some (value h r e) := by
  have hall : ∀ h ∈ m.entities, (m.askTriple h r e).Ends (· = value h r e) fun _ => False :=
    fun h hmem => hm.askTriple_ends (index_lt_of_mem_entities hmem) hr he
  obtain ⟨row, hrow, -, hget⟩ := exists_ok_mapM hall
  obtain ⟨x, hx, rfl⟩ := hget h.index h (getElem?_entities hh)
  refine ⟨row, ?_, hx⟩
  rw [askHeads, hm.ownHeads]
  exact hrow

theorem relations (hm : m.Stores value) (hh : h.index < m.entityCount)
    (hr : r.index < m.relationCount) (he : e.index < m.entityCount) :
    ∃ row, (m.askRelations h e).result = .ok row ∧ row[r.index]? = some (value h r e) := by
  have hall : ∀ r ∈ m.relations, (m.askTriple h r e).Ends (· = value h r e) fun _ => False :=
    fun r hmem => hm.askTriple_ends hh (index_lt_of_mem_relations hmem) he
  obtain ⟨row, hrow, -, hget⟩ := exists_ok_mapM hall
  obtain ⟨x, hx, rfl⟩ := hget r.index r (getElem?_relations hr)
  refine ⟨row, ?_, hx⟩
  rw [askRelations, hm.ownRelations]
  exact hrow

theorem batch (hm : m.Stores value) {heads : List EntityId}
    (hheads : ∀ h ∈ heads, h.index < m.entityCount) (hr : r.index < m.relationCount)
    (he : e.index < m.entityCount) :
    ∃ b, (m.askBatch heads r).result = .ok b ∧ b.rows.length = heads.length ∧
      ∀ i : Nat, heads[i]? = some h → ∃ row, b.rows[i]? = some row ∧
        row[e.index]? = some (value h r e) := by
  obtain ⟨rows, hrows, hlen, hget⟩ := exists_ok_mapM fun h hmem => hm.askRow_ends (hheads h hmem) hr
  rw [askBatch, hm.ownBatch]
  refine ⟨_, result_bind_eq_ok_iff.2 ⟨rows, hrows, rfl⟩, (List.length_map _).trans hlen,
    fun i hi => ?_⟩
  obtain ⟨row, hrow, hval⟩ := hget i h hi
  refine ⟨row.val, by rw [List.getElem?_map, hrow, Option.map_some], ?_⟩
  rw [hval, getElem?_row he]

/-- **A model that gives out the same numbers for tails and for single triples tells them
however it is asked.** -/
theorem tells (hm : m.Stores value) (hh : h.index < m.entityCount)
    (hr : r.index < m.relationCount) (he : e.index < m.entityCount) :
    m.Tells h r e (value h r e) where
  tails := ⟨_, hm.tails h r hh hr, getElem?_row he⟩
  triple := hm.triple h r e hh hr he
  heads := hm.heads hh hr he
  relations := hm.relations hh hr he
  batch _ hheads := hm.batch hheads hr he

end Stores

end Model

/-! ### Writes -/

/-- What the entries of a write are. -/
inductive Scale where
  | logit
  | probability
deriving DecidableEq, Repr

/-- A request to set a row of a table. -/
structure Write where
  scale : Scale
  head : EntityId
  relation : RelationId
  entries : List Float32

namespace Write

/-- The row of logits that a write asks for. -/
def row [Elementary] (w : Write) : List Float32 :=
  match w.scale with
  | .logit => w.entries
  | .probability => w.entries.map logit

theorem length_row [Elementary] (w : Write) : w.row.length = w.entries.length := by
  unfold row
  split
  · rfl
  · exact List.length_map logit

/-- The write is for known positions, has an entry for each of `n` entities, and writes no
probability outside the unit interval. -/
structure Fits (w : Write) (n k : Nat) : Prop where
  head : w.head.index < n
  relation : w.relation.index < k
  length : w.entries.length = n
  probabilities : w.scale = .probability → ∀ p ∈ w.entries, IsProbability p

theorem fits_iff {w : Write} {n k : Nat} :
    w.Fits n k ↔ w.head.index < n ∧ w.relation.index < k ∧ w.entries.length = n ∧
      (w.scale = .probability → ∀ p ∈ w.entries, IsProbability p) :=
  ⟨fun ⟨hh, hr, hlen, hp⟩ => ⟨hh, hr, hlen, hp⟩, fun ⟨hh, hr, hlen, hp⟩ => ⟨hh, hr, hlen, hp⟩⟩

instance (w : Write) (n k : Nat) : Decidable (w.Fits n k) := decidable_of_iff' _ fits_iff

/-- The write sets the row for a pair. -/
def Sets (w : Write) (n k : Nat) (h : EntityId) (r : RelationId) : Prop :=
  (h, r) = (w.head, w.relation) ∧ w.Fits n k

instance (w : Write) (n k : Nat) (h : EntityId) (r : RelationId) : Decidable (w.Sets n k h r) :=
  inferInstanceAs (Decidable (_ ∧ _))

/-- The last write of a history that sets the row for a pair. -/
def last? (n k : Nat) (ws : List Write) (h : EntityId) (r : RelationId) : Option Write :=
  (ws.filter fun w => w.Sets n k h r).getLast?

theorem last?_concat (n k : Nat) (ws : List Write) (w : Write) (h : EntityId) (r : RelationId) :
    last? n k (ws ++ [w]) h r = if w.Sets n k h r then some w else last? n k ws h r := by
  unfold last?
  rw [List.filter_append]
  by_cases hw : w.Sets n k h r
  · simp [hw]
  · simp [hw]

end Write

namespace LogitTable

/-! ### Setting a row -/

variable {t : LogitTable} {h e : EntityId} {r : RelationId}

theorem checkEntity_eq_ok_iff {u : Unit} :
    t.checkEntity e = .ok u ↔ e.index < t.entityCount := by
  unfold checkEntity
  split <;> simp_all

theorem checkRelation_eq_ok_iff {u : Unit} :
    t.checkRelation r = .ok u ↔ r.index < t.relationCount := by
  unfold checkRelation
  split <;> simp_all

/-- The table with another row on top. -/
def put (t : LogitTable) (h : EntityId) (r : RelationId) (logits : List Float32)
    (hlen : logits.length = t.entityCount) : LogitTable :=
  { t with rows := ((h, r), ⟨logits.toArray, hlen⟩) :: t.rows }

theorem checkRow_eq_ok_iff {logits : List Float32} {row : Vector Float32 t.entityCount} :
    t.checkRow h r logits = .ok row ↔ h.index < t.entityCount ∧ r.index < t.relationCount ∧
      ∃ hlen : logits.length = t.entityCount, ⟨logits.toArray, hlen⟩ = row := by
  unfold checkRow
  simp only [except_bind_eq_ok_iff, checkEntity_eq_ok_iff, checkRelation_eq_ok_iff]
  constructor
  · rintro ⟨-, hh, -, hr, h⟩
    split at h
    · next hlen => exact ⟨hh, hr, hlen, Except.ok.inj h⟩
    · cases h
  · rintro ⟨hh, hr, hlen, rfl⟩
    refine ⟨(), hh, (), hr, ?_⟩
    rw [dif_pos hlen]
    rfl

theorem insert_eq_ok_iff {logits : List Float32} {t' : LogitTable} :
    t.insert h r logits = (.ok (), t') ↔ h.index < t.entityCount ∧ r.index < t.relationCount ∧
      ∃ hlen : logits.length = t.entityCount, t.put h r logits hlen = t' := by
  unfold insert
  cases hrow : t.checkRow h r logits with
  | ok row =>
    obtain ⟨hh, hr, hlen, rfl⟩ := checkRow_eq_ok_iff.1 hrow
    exact ⟨fun heq => ⟨hh, hr, hlen, congrArg Prod.snd heq⟩,
      fun ⟨_, _, _, heq⟩ => congrArg (Prod.mk _) heq⟩
  | error e =>
    refine ⟨nofun, ?_⟩
    rintro ⟨hh, hr, hlen, -⟩
    rw [checkRow_eq_ok_iff.2 ⟨hh, hr, hlen, rfl⟩] at hrow
    cases hrow

/-- A row that is refused has not been set. -/
theorem insert_of_error {logits : List Float32} {e : GraphError}
    (herror : (t.insert h r logits).1 = .error e) : (t.insert h r logits).2 = t := by
  unfold insert at herror ⊢
  split at herror
  · cases herror
  · rfl

theorem toList_row_put (t : LogitTable) (h' : EntityId) (r' : RelationId) (logits : List Float32)
    (hlen : logits.length = t.entityCount) :
    ((t.put h' r' logits hlen).row h r).toList =
      if (h, r) = (h', r') then logits else (t.row h r).toList := by
  unfold row put
  rw [List.lookup_cons]
  split
  · next heq => simp [eq_of_beq heq]
  · next hne => rw [if_neg (ne_of_beq_false hne)]

/-! ### A table as a model -/

/-- Logit of a triple. -/
def entry (t : LogitTable) (h : EntityId) (r : RelationId) (e : EntityId) : Float32 :=
  (t.row h r).toList[e.index]?.getD t.defaultLogit

theorem getElem?_row (t : LogitTable) (h : EntityId) (r : RelationId)
    (he : e.index < t.entityCount) : (t.row h r).toList[e.index]? = some (t.entry h r e) := by
  have hlt : e.index < (t.row h r).toList.length := by rwa [Vector.length_toList]
  unfold entry
  rw [List.getElem?_eq_getElem hlt, Option.getD_some]

theorem toList_row (t : LogitTable) (h : EntityId) (r : RelationId) :
    (t.row h r).toList = t.model.entities.map (t.entry h r) := by
  apply List.ext_getElem?
  intro i
  by_cases hi : i < t.entityCount
  · have hentity : t.model.entities[i]? = some ⟨i⟩ := Model.getElem?_entities (e := ⟨i⟩) hi
    rw [t.getElem?_row h r (e := ⟨i⟩) hi, List.getElem?_map, hentity, Option.map_some]
  · rw [List.getElem?_eq_none, List.getElem?_eq_none]
    · simpa [Model.entities, model] using hi
    · simpa using hi

/-- A table gives out the numbers of its rows. -/
theorem stores_model (t : LogitTable) : t.model.Stores t.entry where
  tails h r hh hr := by
    refine except_bind_eq_ok_iff.2 ⟨(), checkEntity_eq_ok_iff.2 hh, ?_⟩
    refine except_bind_eq_ok_iff.2 ⟨(), checkRelation_eq_ok_iff.2 hr, ?_⟩
    exact congrArg Except.ok (t.toList_row h r)
  triple h r e hh hr he := by
    refine except_bind_eq_ok_iff.2 ⟨(), checkEntity_eq_ok_iff.2 hh, ?_⟩
    refine except_bind_eq_ok_iff.2 ⟨(), checkRelation_eq_ok_iff.2 hr, ?_⟩
    have he : e.index < t.entityCount := he
    have hentry : (t.row h r)[e.index] = t.entry h r e := by
      have hrow := t.getElem?_row h r he
      rw [Vector.getElem?_toList, Vector.getElem?_eq_getElem he] at hrow
      exact Option.some.inj hrow
    rw [dif_pos he, hentry]
    rfl
  ownHeads := rfl
  ownRelations := rfl
  ownBatch := rfl

section Histories

variable [Elementary]

/-! ### One write -/

/-- Carries a write out: how that ends, and the table as it is afterwards. -/
def attempt (t : LogitTable) (w : Write) : Except GraphError Unit × LogitTable :=
  match w.scale with
  | .logit => t.insert w.head w.relation w.entries
  | .probability => t.insertProbabilities w.head w.relation w.entries

/-- The table after a write, however that ends. -/
def write (t : LogitTable) (w : Write) : LogitTable := (t.attempt w).2

variable {w : Write}

/-- **A write is carried out exactly if it fits.** -/
theorem attempt_eq_ok_iff {t' : LogitTable} :
    t.attempt w = (.ok (), t') ↔ ∃ hw : w.Fits t.entityCount t.relationCount,
      t.put w.head w.relation w.row (w.length_row.trans hw.length) = t' := by
  obtain ⟨scale, head, relation, entries⟩ := w
  cases scale with
  | logit =>
    refine insert_eq_ok_iff.trans ⟨?_, ?_⟩
    · rintro ⟨hh, hr, hlen, rfl⟩
      exact ⟨⟨hh, hr, hlen, nofun⟩, rfl⟩
    · rintro ⟨⟨hh, hr, hlen, -⟩, rfl⟩
      exact ⟨hh, hr, hlen, rfl⟩
  | probability =>
    show t.insertProbabilities head relation entries = (.ok (), t') ↔ _
    unfold insertProbabilities
    cases hfind : entries.find? fun p => !decide (IsProbability p) with
    | some p =>
      -- the entry that is refused keeps the write from fitting
      have hp : ¬ IsProbability p := by simpa using List.find?_some hfind
      have hmem : p ∈ entries := List.mem_of_find?_eq_some hfind
      exact ⟨nofun, fun ⟨hw, _⟩ => absurd (hw.probabilities rfl p hmem) hp⟩
    | none =>
      have hall : ∀ p ∈ entries, IsProbability p := by simpa using hfind
      refine insert_eq_ok_iff.trans ⟨?_, ?_⟩
      · rintro ⟨hh, hr, hlen, rfl⟩
        exact ⟨⟨hh, hr, (List.length_map _).symm.trans hlen, fun _ => hall⟩, rfl⟩
      · rintro ⟨⟨hh, hr, hlen, -⟩, rfl⟩
        exact ⟨hh, hr, (List.length_map _).trans hlen, rfl⟩

theorem write_of_fits (hw : w.Fits t.entityCount t.relationCount) :
    t.write w = t.put w.head w.relation w.row (w.length_row.trans hw.length) :=
  congrArg Prod.snd (attempt_eq_ok_iff.2 ⟨hw, rfl⟩)

/-- A write that does not fit is refused. -/
theorem attempt_eq_error_iff :
    (∃ err, (t.attempt w).1 = .error err) ↔ ¬ w.Fits t.entityCount t.relationCount := by
  cases h : (t.attempt w).1 with
  | ok u =>
    obtain ⟨hw, -⟩ := attempt_eq_ok_iff.1 (Prod.ext h rfl)
    simp [hw]
  | error err =>
    have hw : ¬ w.Fits t.entityCount t.relationCount := fun hw => by
      rw [attempt_eq_ok_iff.2 ⟨hw, rfl⟩] at h
      cases h
    simp [hw]

/-- **A write that is refused leaves the table as it was.** -/
theorem write_of_error {err : GraphError} (herr : (t.attempt w).1 = .error err) :
    t.write w = t := by
  obtain ⟨scale, head, relation, entries⟩ := w
  cases scale with
  | logit => exact insert_of_error herr
  | probability =>
    unfold write
    unfold attempt insertProbabilities at herr ⊢
    cases hfind : entries.find? fun p => !decide (IsProbability p) with
    | some p => rfl
    | none =>
      rw [hfind] at herr
      exact insert_of_error herr

theorem write_of_not_fits (hw : ¬ w.Fits t.entityCount t.relationCount) : t.write w = t := by
  obtain ⟨err, herr⟩ := attempt_eq_error_iff.2 hw
  exact write_of_error herr

/-- No write changes the sizes of a table. -/
theorem sizes_write (t : LogitTable) (w : Write) :
    (t.write w).entityCount = t.entityCount ∧ (t.write w).relationCount = t.relationCount := by
  by_cases hw : w.Fits t.entityCount t.relationCount
  · rw [write_of_fits hw]
    exact ⟨rfl, rfl⟩
  · rw [write_of_not_fits hw]
    exact ⟨rfl, rfl⟩

/-- The row for a pair is the one that a write sets, or the one that was there. -/
theorem toList_row_write (t : LogitTable) (w : Write) (h : EntityId) (r : RelationId) :
    ((t.write w).row h r).toList =
      if w.Sets t.entityCount t.relationCount h r then w.row else (t.row h r).toList := by
  by_cases hw : w.Fits t.entityCount t.relationCount
  · rw [write_of_fits hw, toList_row_put]
    exact if_congr ⟨fun hpair => ⟨hpair, hw⟩, fun hsets => hsets.1⟩ rfl rfl
  · rw [write_of_not_fits hw, if_neg fun hsets => hw hsets.2]

/-! ### Histories -/

/-- The table after a history of writes, the first one first. -/
def writeAll (t : LogitTable) (ws : List Write) : LogitTable := ws.foldl write t

/-- The row for a pair after a history: that of the last write that sets it; if none does,
the one that the table had from the start; and else the default for every tail. -/
def rowAfter (t : LogitTable) (ws : List Write) (h : EntityId) (r : RelationId) :
    List Float32 :=
  match Write.last? t.entityCount t.relationCount ws h r with
  | some w => w.row
  | none =>
    match t.rows.lookup (h, r) with
    | some row => row.toList
    | none => List.replicate t.entityCount t.defaultLogit

theorem writeAll_cons (t : LogitTable) (w : Write) (ws : List Write) :
    t.writeAll (w :: ws) = (t.write w).writeAll ws := rfl

theorem writeAll_append (t : LogitTable) (ws ws' : List Write) :
    t.writeAll (ws ++ ws') = (t.writeAll ws).writeAll ws' := List.foldl_append ..

theorem writeAll_concat (t : LogitTable) (ws : List Write) (w : Write) :
    t.writeAll (ws ++ [w]) = (t.writeAll ws).write w := t.writeAll_append ws [w]

theorem sizes_writeAll (t : LogitTable) (ws : List Write) :
    (t.writeAll ws).entityCount = t.entityCount ∧
      (t.writeAll ws).relationCount = t.relationCount := by
  induction ws generalizing t with
  | nil => exact ⟨rfl, rfl⟩
  | cons w ws ih =>
    obtain ⟨hentities, hrelations⟩ := sizes_write t w
    exact ⟨(ih _).1.trans hentities, (ih _).2.trans hrelations⟩

theorem rowAfter_nil (t : LogitTable) (h : EntityId) (r : RelationId) :
    t.rowAfter [] h r = (t.row h r).toList := by
  show (match t.rows.lookup (h, r) with
    | some row => row.toList
    | none => List.replicate t.entityCount t.defaultLogit) = _
  unfold row
  cases t.rows.lookup (h, r) with
  | some row => rfl
  | none => exact Vector.toList_replicate.symm

theorem rowAfter_concat (t : LogitTable) (ws : List Write) (w : Write) (h : EntityId)
    (r : RelationId) : t.rowAfter (ws ++ [w]) h r =
      if w.Sets t.entityCount t.relationCount h r then w.row else t.rowAfter ws h r := by
  unfold rowAfter
  rw [Write.last?_concat]
  by_cases hw : w.Sets t.entityCount t.relationCount h r
  · rw [if_pos hw, if_pos hw]
  · rw [if_neg hw, if_neg hw]

/-- **The row for a pair is that of the last write that sets it.** -/
theorem toList_row_writeAll (t : LogitTable) (ws : List Write) (h : EntityId)
    (r : RelationId) : ((t.writeAll ws).row h r).toList = t.rowAfter ws h r := by
  induction ws using List.reverseRecOn with
  | nil => exact (t.rowAfter_nil h r).symm
  | append_singleton ws w ih =>
    rw [writeAll_concat, toList_row_write, rowAfter_concat, ih]
    -- the writes before it have not changed what fits
    obtain ⟨hentities, hrelations⟩ := t.sizes_writeAll ws
    exact if_congr (by rw [hentities, hrelations]) rfl rfl

/-- A write that does not fit might as well not be in a history. -/
theorem writeAll_of_not_fits (hw : ¬ w.Fits t.entityCount t.relationCount)
    (ws ws' : List Write) : t.writeAll (ws ++ w :: ws') = t.writeAll (ws ++ ws') := by
  obtain ⟨hentities, hrelations⟩ := t.sizes_writeAll ws
  have hsame : (t.writeAll ws).write w = t.writeAll ws :=
    write_of_not_fits (by rwa [hentities, hrelations])
  rw [writeAll_append, writeAll_cons, hsame, writeAll_append]

/-! ### What a table tells -/

/-- **A table tells the same however it is asked, after any history.**  What it tells is the
entry of the row that the last write for the pair put down, or of the row that was there before
any of them.  A write is refused exactly if it does not fit the table.  One that is refused
leaves the table as it was, so whatever comes before and after it, it might as well not have
been tried. -/
theorem tells_after_history (t : LogitTable) (ws : List Write) :
    (∀ h r e, h.index < t.entityCount → r.index < t.relationCount → e.index < t.entityCount →
      ∃ x, (t.rowAfter ws h r)[e.index]? = some x ∧ (t.writeAll ws).model.Tells h r e x) ∧
    ∀ w : Write,
      ((∃ err, ((t.writeAll ws).attempt w).1 = .error err) ↔
        ¬ w.Fits t.entityCount t.relationCount) ∧
      (∀ err, ((t.writeAll ws).attempt w).1 = .error err →
        ((t.writeAll ws).attempt w).2 = t.writeAll ws) ∧
      (¬ w.Fits t.entityCount t.relationCount →
        ∀ ws', t.writeAll (ws ++ w :: ws') = t.writeAll (ws ++ ws')) := by
  obtain ⟨hentities, hrelations⟩ := t.sizes_writeAll ws
  refine ⟨fun h r e hh hr he => ?_, fun w => ⟨?_, fun _ herr => write_of_error herr,
    fun hw ws' => writeAll_of_not_fits hw ws ws'⟩⟩
  · rw [← hentities] at hh he
    rw [← hrelations] at hr
    refine ⟨_, ?_, (t.writeAll ws).stores_model.tells hh hr he⟩
    rw [← toList_row_writeAll]
    exact (t.writeAll ws).getElem?_row h r he
  · rw [← hentities, ← hrelations]
    exact attempt_eq_error_iff

end Histories

/-- Three writes for one pair; the last one has a number that is no probability. -/
def refusedLast : List Write :=
  [⟨.probability, ⟨0⟩, ⟨0⟩, [0, 1]⟩, ⟨.logit, ⟨0⟩, ⟨0⟩, [1, 3]⟩, ⟨.probability, ⟨0⟩, ⟨0⟩, [0, 2]⟩]

/-- The table tells what the second of the three writes put down. -/
theorem tells_after_refusal :
    @Model.Tells (@writeAll .platform (.empty 2 1 (-10)) refusedLast).model ⟨0⟩ ⟨0⟩ ⟨1⟩ 3 := by
  obtain ⟨x, hx, htells⟩ := (@tells_after_history .platform (.empty 2 1 (-10)) refusedLast).1
    ⟨0⟩ ⟨0⟩ ⟨1⟩ Nat.zero_lt_two Nat.zero_lt_one Nat.one_lt_two
  have hlast : @rowAfter .platform (.empty 2 1 (-10)) refusedLast ⟨0⟩ ⟨0⟩ = [1, 3] := by
    decide +kernel
  rw [hlast] at hx
  cases hx
  exact htells

end LogitTable

end MultiHop
