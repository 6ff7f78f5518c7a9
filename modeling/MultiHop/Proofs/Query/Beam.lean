/-
MultiHop/Proofs/Query/Beam.lean

What a beam makes of its entities.  A hop of a beam gives every tail its best witness:
the least degree that is above the meet of what an entity carries with what it leads to,
for every entity of the beam (`Beam.hop_answers`).  The rows that were asked for, their
order and how they were folded are gone from this statement, so beams that hold different
entities can be compared by it.

A beam that holds every entity of another one, with at least the same degree, leads to
every tail with at least the same degree (`Beam.hop_relates`).  A wider beam of the same
set is above a narrower one (`Beam.below_of_le`), and a beam of everything is above every
beam of a subset (`Beam.below_of_subset`).

All this is about models that reply to heads together as they do one by one.  For beams in
order less will do: a model that has its own row for each head of a batch, whatever the other
heads are (`Model.Rowwise`), makes of a beam what the model of these rows makes of it.
-/
import MultiHop.Proofs.Fuzzy.Order
import MultiHop.Proofs.Query.WellFormed

namespace MultiHop

open Consult Single

/-! ### Related lists -/

section

variable {α β γ : Type} {xs : List α} {ys : List β} {zs : List γ}

theorem forall₂_trans {P : α → β → Prop} {Q : β → γ → Prop} {S : α → γ → Prop}
    (hS : ∀ a b c, P a b → Q b c → S a c) (hP : List.Forall₂ P xs ys)
    (hQ : List.Forall₂ Q ys zs) : List.Forall₂ S xs zs := by
  induction hP generalizing zs with
  | nil =>
    cases hQ
    exact .nil
  | cons hab _ ih =>
    cases hQ with
    | cons hbc hrest => exact .cons (hS _ _ _ hab hbc) (ih hrest)

theorem eq_map_of_forall₂ {f : α → β} (h : List.Forall₂ (fun x y => f x = y) xs ys) :
    ys = xs.map f := by
  rw [← List.forall₂_map_left_iff (R := Eq), List.forall₂_eq_eq_eq] at h
  exact h.symm

theorem forall_mem_iff_of_forall₂ {P : α → Prop} {Q : β → Prop}
    (h : List.Forall₂ (fun a b => P a ↔ Q b) xs ys) : (∀ a ∈ xs, P a) ↔ ∀ b ∈ ys, Q b := by
  induction h with
  | nil => simp
  | cons hab _ ih => rw [List.forall_mem_cons, List.forall_mem_cons, hab, ih]

end

/-! ### Coherent models -/

namespace Model

variable {m : Model} {h : EntityId} {r : RelationId} {heads : List EntityId}

/-- The model answers every request within range with one number per entity, and heads
that are asked for together get the same replies as one by one. -/
def Coherent (m : Model) : Prop :=
  m.Replies fun h r row => m.tails h r = .ok row ∧ ∀ x ∈ row, x.isNaN = false

theorem Coherent.wellShaped (hm : m.Coherent) : m.WellShaped := by
  refine hm.mono ?_
  rintro h r row - ⟨-, hrow⟩
  exact hrow

theorem coherent_swap : swap.Coherent where
  tails h r _ _ := by
    refine ⟨_, rfl, ?_, rfl, ?_⟩
    · split <;> rfl
    · split <;> decide +kernel
  batch _ hown := by cases hown

/-- Three entities, each of which leads to the next one. -/
def cycle : Model where
  entityCount := 3
  relationCount := 1
  tails h _ := .ok ((List.range 3).map fun t =>
    if t = (h.index + 1) % 3 then infinity else -infinity)
  triple h _ t := .ok (if t.index = (h.index + 1) % 3 then infinity else -infinity)

theorem coherent_cycle : cycle.Coherent where
  tails h r _ _ := by
    refine ⟨_, rfl, rfl, rfl, ?_⟩
    simp only [List.forall_mem_map]
    intro t _
    split <;> decide +kernel
  batch _ hown := by cases hown

/-- What a head leads to through a relation, if the model is asked for it alone. -/
def Leads [Elementary] (m : Model) (h : EntityId) (r : RelationId) (v : FuzzySet) : Prop :=
  ∃ row, m.tails h r = .ok row ∧ FuzzySet.ofLogits row = .ok v

theorem Leads.unique [Elementary] {v w : FuzzySet} (hv : m.Leads h r v) (hw : m.Leads h r w) :
    v = w := by
  obtain ⟨row, hrow, hv⟩ := hv
  obtain ⟨row', hrow', hw⟩ := hw
  rw [hrow] at hrow'
  cases hrow'
  rw [hv] at hw
  exact Except.ok.inj hw

/-- A coherent model leads somewhere from every head within range. -/
theorem Coherent.yields_leads [Elementary] (laws : Elementary.Bounded) (hm : m.Coherent) :
    m.Yields m.Leads :=
  hm.mono fun _ _ row _ hrow => by
    obtain ⟨v, hv, -⟩ := FuzzySet.ofLogits_eq laws hrow.2
    exact ⟨v, hv, row, hrow.1, hv⟩

theorem forM_checkEntity_ends :
    (ofExcept (heads.forM m.checkEntity)).Ends (fun _ => ∀ h ∈ heads, h.index < m.entityCount)
      fun _ => True := by
  induction heads with
  | nil => exact ends_pure (by simp)
  | cons h heads ih =>
    show (ofExcept (m.checkEntity h >>= fun _ => heads.forM m.checkEntity)).Ends _ _
    rw [ofExcept_bind]
    refine (checkEntity_ends.mono (fun _ hh => hh) fun _ _ => trivial).bind fun _ hh => ?_
    exact ih.mono (fun _ hrest => List.forall_mem_cons.2 ⟨hh, hrest⟩) fun _ _ => trivial

/-- An answer to several hops has, for each head, what this head leads to alone. -/
theorem hops_answer [Elementary] (hm : m.Coherent) : (m.hops heads r).Ends
    (fun rows => List.Forall₂ (fun h v => v.size = m.entityCount ∧ m.Leads h r v) heads rows)
    fun _ => True := by
  refine forM_checkEntity_ends.bind fun _ hh => ?_
  refine (checkRelation_ends.mono (fun _ hr => hr) fun _ _ => trivial).bind fun _ hr => ?_
  refine ends_bind_of_ok (a := ()) rfl ?_
  refine ((askBatch_replies hm hh hr).mono (fun _ h => h) fun _ => False.elim).bind
    fun batch hbatch => ?_
  obtain ⟨hcolumns, hrows⟩ := hbatch
  split
  · show (ofExcept (batch.rows.mapM FuzzySet.ofLogits)).Ends _ _
    rw [ofExcept_mapM]
    have hsets : ∀ row ∈ batch.rows, (ofExcept (FuzzySet.ofLogits row)).Ends
        (fun v => row.length = m.entityCount ∧ FuzzySet.ofLogits row = .ok v)
        fun _ => True := by
      intro row hrow
      exact ends_ofExcept (fun v hv => ⟨(batch.length_row row hrow).trans hcolumns, hv⟩)
        fun _ _ => trivial
    refine (ends_mapM hsets).mono (fun rows hall => ?_) fun _ _ => trivial
    -- from heads to rows of logits, and from these to fuzzy sets
    refine forall₂_trans (fun h row v hrow hv => ?_) hrows hall
    exact ⟨(FuzzySet.size_ofLogits hv.2).trans hv.1, row, hrow.1, hv.2⟩
  · exact ends_fail trivial

end Model

/-! ### The best witness -/

namespace Beam

variable {b b' : Beam} {t : TNorm} {n k k' i : Nat} {p c : Float32}

theorem foldl_larger_le_iff {rows : List (List Float32)} {best : List Float32}
    (hrows : ∀ row ∈ rows, ∀ p ∈ row, IsProbability p) (hbest : ∀ p ∈ best, IsProbability p)
    (hp : (rows.foldl (fun best row => best.zipWith larger row) best)[i]? = some p) :
    ∃ p₀, best[i]? = some p₀ ∧
      ∀ c, p ≤ c ↔ p₀ ≤ c ∧ ∀ row ∈ rows, ∃ q, row[i]? = some q ∧ q ≤ c := by
  induction rows generalizing best with
  | nil => exact ⟨p, hp, by simp⟩
  | cons row rows ih =>
    obtain ⟨hrow, hrest⟩ := List.forall_mem_cons.1 hrows
    have hnext : ∀ p ∈ best.zipWith larger row, IsProbability p := by
      intro p hp
      obtain ⟨x, hx, y, hy, rfl⟩ := exists_of_mem_zipWith hp
      exact isProbability_larger (hbest x hx) (hrow y hy)
    obtain ⟨p₁, hp₁, hiff⟩ := ih hrest hnext hp
    -- the position is in all vectors so far, because it is in the last one
    obtain ⟨x, y, hx, hy, rfl⟩ := List.getElem?_zipWith_eq_some.1 hp₁
    refine ⟨x, hx, fun c => ?_⟩
    have hxn := (hbest x (List.mem_of_getElem? hx)).isNaN
    have hyn := (hrow y (List.mem_of_getElem? hy)).isNaN
    rw [hiff, larger_le_iff hxn hyn, and_assoc, List.forall_mem_cons]
    simp only [hy, Option.some.injEq, exists_eq_left']

/-- **The best witness is the least bound** of zero and all rows. -/
theorem bestWitness_le_iff {rows : List (List Float32)}
    (hrows : ∀ row ∈ rows, ∀ p ∈ row, IsProbability p)
    (hp : (bestWitness n rows)[i]? = some p) :
    p ≤ c ↔ 0 ≤ c ∧ ∀ row ∈ rows, ∃ q, row[i]? = some q ∧ q ≤ c := by
  have hzero : ∀ p ∈ List.replicate n (0 : Float32), IsProbability p := by
    intro p hp
    rw [(List.mem_replicate.1 hp).2]
    exact isProbability_zero
  obtain ⟨p₀, hp₀, hiff⟩ := foldl_larger_le_iff hrows hzero hp
  rw [hiff, List.eq_of_mem_replicate (List.mem_of_getElem? hp₀)]

/-! ### What a beam leads to -/

/-- `p` is the least degree that is above the meet of what an entity of the beam carries
with the degree `t` in what it leads to. -/
def IsBest [Elementary] (b : Beam) (m : Model) (r : RelationId) (norm : TNorm) (t : EntityId)
    (p : Float32) : Prop :=
  ∀ c, p ≤ c ↔ 0 ≤ c ∧ ∀ entry ∈ b.entries,
    ∃ v q, m.Leads entry.1 r v ∧ v.degree? t = some q ∧ norm.meet entry.2 q ≤ c

variable [Elementary] {m : Model} {r : RelationId}

/-- **A beam leads to best witnesses**, whatever entities it holds. -/
theorem hop_answers (hm : m.Coherent) (hc : ∀ c ∈ b.carried, IsProbability c) :
    (b.hop m r t).Ends
      (fun v => v.size = m.entityCount ∧ ∀ e p, v.degree? e = some p → b.IsBest m r t e p)
      fun _ => True := by
  unfold hop
  split
  · next hempty =>
    have hnil : b.entries = [] := List.isEmpty_iff.1 hempty
    refine ends_pure ⟨FuzzySet.size_empty _, fun e p hp c => ?_⟩
    rw [List.eq_of_mem_replicate (List.mem_of_getElem? hp), hnil]
    simp
  · refine ((Model.hops_answer hm).mono (fun _ h => h) fun _ _ => trivial).mapError.bind
      fun rows hrows => ?_
    refine ends_bind_of_ok (by rw [witnesses_eq hrows.length_eq.symm]; rfl) ?_
    have hprob := isProbability_of_mem_zipWith t rows hc
    show (Consult.mapError _ (ofExcept (FuzzySet.ofDegrees _))).Ends _ _
    rw [FuzzySet.ofDegrees_eq (isProbability_bestWitness hprob)]
    refine ends_pure ⟨?_, fun e p hp c => ?_⟩
    · refine length_bestWitness (length_of_mem_zipWith fun v hv => ?_)
      obtain ⟨h, -, hv, -⟩ := exists_of_forall₂ hrows v hv
      exact hv
    · rw [bestWitness_le_iff hprob hp]
      refine and_congr_right fun _ => (forall_mem_iff_of_forall₂ ?_).symm
      -- entity by entity: its row is what it leads to, met with what it carries
      refine (forall₂_zipWith hrows).imp ?_
      rintro entry _ ⟨v, ⟨-, hv⟩, rfl⟩
      constructor
      · rintro ⟨w, q, hw, hq, hle⟩
        cases hv.unique hw
        exact ⟨_, by rw [List.getElem?_map]; exact congrArg _ hq, hle⟩
      · rintro ⟨_, hmap, hle⟩
        rw [List.getElem?_map] at hmap
        obtain ⟨q, hq, rfl⟩ := Option.map_eq_some_iff.1 hmap
        exact ⟨v, q, hv, hq, hle⟩

/-! ### Beams in order -/

/-- Every entity of `b` is in `b'`, where it carries at least as much. -/
def Below (b b' : Beam) : Prop :=
  ∀ entry ∈ b.entries, ∃ c, (entry.1, c) ∈ b'.entries ∧ AtMost entry.2 c

/-- **A larger beam leads further**: to every tail with at least the same degree. -/
theorem hop_relates (hm : m.Coherent) (hb : b.Below b')
    (hc : ∀ c ∈ b.carried, IsProbability c) (hc' : ∀ c ∈ b'.carried, IsProbability c) :
    (b.hop m r t).Relates (b'.hop m r t) (· ⊆ ·) := by
  refine (hop_answers hm hc).relates (hop_answers hm hc') ?_
  rintro v w ⟨hvsize, hv⟩ ⟨hwsize, hw⟩
  refine List.forall₂_iff_get.2 ⟨hvsize.trans hwsize.symm, fun i hi hi' => ?_⟩
  have hp := hv ⟨i⟩ _ (List.getElem?_eq_getElem hi)
  have hp' := hw ⟨i⟩ _ (List.getElem?_eq_getElem hi')
  have hprob := w.probable _ (List.getElem_mem hi')
  refine ⟨v.probable _ (List.getElem_mem hi), hprob, (hp _).2 ⟨hprob.1, ?_⟩⟩
  intro entry hentry
  obtain ⟨c, hmem, hle⟩ := hb entry hentry
  -- the same entity is a witness in the larger beam
  obtain ⟨u, q, hu, hq, hbound⟩ := ((hp' _).1 (le_self hprob.isNaN)).2 _ hmem
  have hqq := atMost_self (u.probable q (List.mem_of_getElem? hq))
  exact ⟨u, q, hu, hq, le_chain (t.atMost_meet hle hqq).le hbound⟩

omit [Elementary] in
/-- A wider beam of the same set holds what a narrower one holds. -/
theorem below_of_le {v : FuzzySet} (h : k ≤ k') : (ofSet v k).Below (ofSet v k') := by
  rintro ⟨e, p⟩ hentry
  refine ⟨p, ?_, atMost_self (v.probable p (List.mem_of_getElem? (degree_of_mem_ofSet hentry)))⟩
  exact mem_ofSet.2 ((List.take_prefix_take_left h).subset (mem_ofSet.1 hentry))

omit [Elementary] in
/-- A beam of everything is above every beam of a subset. -/
theorem below_of_subset {v w : FuzzySet} (h : v ⊆ w) (hk : w.size ≤ k') :
    (ofSet v k).Below (ofSet w k') := by
  rintro ⟨e, p⟩ hentry
  obtain ⟨hlt, rfl⟩ := List.getElem?_eq_some_iff.1 (degree_of_mem_ofSet hentry)
  have hlt' : e.index < w.size := hlt.trans_eq (FuzzySet.size_eq_of_subset h)
  refine ⟨w.degrees[e.index], ?_, ?_⟩
  · exact mem_ofSet_of_size_le hk (List.getElem?_eq_getElem hlt')
  · exact List.Forall₂.get h hlt hlt'

end Beam

/-! ### Rows of a batch -/

namespace Model

variable {m : Model} {row : EntityId → RelationId → List Float32} {heads : List EntityId}
  {r : RelationId}

/-- In every batch within range, each head gets the row that `row` has for it. -/
def HasRows (m : Model) (row : EntityId → RelationId → List Float32) : Prop :=
  ∀ (heads : List EntityId) (r : RelationId), (∀ h ∈ heads, h.index < m.entityCount) →
    r.index < m.relationCount →
      ∀ b, (m.askBatch heads r).result = .ok b → b.rows = heads.map (row · r)

/-- A row of a batch depends on its own head and the relation, and not on the heads that are
asked for together with it. -/
def Rowwise (m : Model) : Prop := ∃ row, m.HasRows row

/-- The model that replies to each head with its row, one head after the other. -/
def ofRows (m : Model) (row : EntityId → RelationId → List Float32) : Model :=
  { m with
    tails := fun h r => .ok (row h r)
    ownBatch := none }

/-- Batches are row by row if they are scored head by head. -/
theorem WellShaped.rowwise (hm : m.WellShaped) (hown : m.ownBatch = none) : m.Rowwise := by
  have htails : m.Replies fun h r row => (m.tails h r).toOption.getD [] = row := {
    tails := fun h r hh hr => by
      obtain ⟨row, hrow, hlen, -⟩ := hm.tails h r hh hr
      exact ⟨row, hrow, hlen, by rw [hrow]; rfl⟩
    batch := fun _ hown' => by
      rw [hown] at hown'
      cases hown' }
  exact ⟨_, fun heads r hh hr b hb =>
    eq_map_of_forall₂ ((askBatch_replies htails hh hr).of_ok hb).2⟩

/-- The rows of the batches of one head are proper replies. -/
theorem HasRows.coherent_ofRows (hm : m.WellShaped) (hrows : m.HasRows row) :
    (m.ofRows row).Coherent where
  tails h r hh hr := by
    have hh' : ∀ h' ∈ [h], h'.index < m.entityCount := List.forall_mem_singleton.2 hh
    obtain ⟨b, hb, hcolumns, hall⟩ := (askBatch_replies hm hh' hr).exists_ok
    have hb' : b.rows = [row h r] := hrows [h] r hh' hr b hb
    rw [hb'] at hall
    have hlen := b.length_row (row h r) (hb' ▸ List.mem_singleton_self _)
    exact ⟨_, rfl, hlen.trans hcolumns, rfl, (List.forall₂_cons.1 hall).1⟩
  batch _ hown := by cases hown

theorem HasRows.result_askBatch (hm : m.WellShaped) (hrows : m.HasRows row)
    (hh : ∀ h ∈ heads, h.index < m.entityCount) (hr : r.index < m.relationCount) :
    (m.askBatch heads r).result = ((m.ofRows row).askBatch heads r).result := by
  obtain ⟨⟨columns, rows, hlen⟩, hb, hcolumns, -⟩ := (askBatch_replies hm hh hr).exists_ok
  obtain ⟨⟨columns', rows', hlen'⟩, hb', hcolumns', hall⟩ :=
    (askBatch_replies (hrows.coherent_ofRows hm) hh hr).exists_ok
  -- a batch is given by its columns and its rows, and both models agree in them
  have heq : rows = heads.map (row · r) := hrows heads r hh hr _ hb
  have heq' : rows' = heads.map (row · r) :=
    eq_map_of_forall₂ (hall.imp fun h row hrow => Except.ok.inj hrow.1)
  cases hcolumns.trans hcolumns'.symm
  cases heq.trans heq'.symm
  rw [hb, hb']

/-- Hops end as if the model had nothing but these rows. -/
theorem HasRows.result_hops [Elementary] (hm : m.WellShaped) (hrows : m.HasRows row) :
    (m.hops heads r).result = ((m.ofRows row).hops heads r).result := by
  -- both models make the same checks, and behind them all positions are within range
  refine result_bind_congr rfl fun _ hentities => ?_
  refine result_bind_congr rfl fun _ hrelation => result_bind_congr rfl fun _ _ => ?_
  have hh := forM_checkEntity_ends.of_ok hentities
  have hr := checkRelation_ends.of_ok hrelation
  exact result_bind_congr (hrows.result_askBatch hm hh hr) fun _ _ => rfl

end Model

namespace Beam

variable [Elementary] {b b' : Beam} {t : TNorm} {m : Model} {r : RelationId}

theorem result_hop_ofRows {row : EntityId → RelationId → List Float32} (hm : m.WellShaped)
    (hrows : m.HasRows row) : (b.hop m r t).result = (b.hop (m.ofRows row) r t).result := by
  unfold hop
  split
  · rfl
  · exact result_bind_congr (result_mapError_congr _ (hrows.result_hops hm)) fun _ _ => rfl

/-- **A larger beam leads further** also in a model whose batches are row by row. -/
theorem hop_relates_of_rowwise (hm : m.WellShaped) (hrows : m.Rowwise) (hb : b.Below b')
    (hc : ∀ c ∈ b.carried, IsProbability c) (hc' : ∀ c ∈ b'.carried, IsProbability c) :
    (b.hop m r t).Relates (b'.hop m r t) (· ⊆ ·) := by
  obtain ⟨row, hrow⟩ := hrows
  intro v w hv hw
  rw [result_hop_ofRows hm hrow] at hv hw
  exact hop_relates (hrow.coherent_ofRows hm) hb hc hc' v w hv hw

end Beam

end MultiHop
