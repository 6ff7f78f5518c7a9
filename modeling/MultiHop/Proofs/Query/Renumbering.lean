/-
MultiHop/Proofs/Query/Renumbering.lean

Renumbering the entities renumbers the answers.  A permutation `σ` of positions moves the
entities of a query and of a model alike; the answer then has at `σ i` what it had at `i`:

    Moved σ v.degrees w.degrees

Hops from anchors and connectives work position by position, so the only place where
positions matter is a beam: of equal degrees it prefers the earlier entity, and it folds the
rows of its entities in its own order.  If its cut is clean, both runs keep the same entities
(`Beam.renumbered_ofSet`), and what they lead to is a least bound, in which no order is left
(`Beam.IsBest`).  A least bound determines a number up to the sign of zero, and no degree is
negative zero, so a hop of the beam moves with the entities too (`Beam.hop_moves`), and by
induction the whole evaluation does (`Model.evaluate_moves`).

Main result: `Reasoner.evaluate_renumber`.
-/
import MultiHop.Proofs.Query.Pruning
import MultiHop.Proofs.Query.Unsigned
import MultiHop.Proofs.Score.Moved

namespace MultiHop

open Consult

/-! ### Renumbered queries -/

/-- The same entity at its new position. -/
def EntityId.move (σ : Equiv.Perm ℕ) (e : EntityId) : EntityId := ⟨σ e.index⟩

@[simp] theorem EntityId.move_symm_move (σ : Equiv.Perm ℕ) (e : EntityId) :
    (e.move σ).move σ.symm = e :=
  congrArg EntityId.mk (σ.symm_apply_apply e.index)

@[simp] theorem EntityId.move_move_symm (σ : Equiv.Perm ℕ) (e : EntityId) :
    (e.move σ.symm).move σ = e :=
  congrArg EntityId.mk (σ.apply_symm_apply e.index)

namespace QueryOver

section

variable {E E' R : Type} (f : E → E')

mutual

/-- Replaces every anchor. -/
def mapAnchors : QueryOver E R → QueryOver E' R
  | .entity e => .entity (f e)
  | .projection q r => .projection (mapAnchors q) r
  | .intersection qs => .intersection (mapAnchorsAll qs)
  | .union qs => .union (mapAnchorsAll qs)
  | .negation q => .negation (mapAnchors q)

/-- The same for several queries. -/
def mapAnchorsAll : List (QueryOver E R) → List (QueryOver E' R)
  | [] => []
  | q :: qs => mapAnchors q :: mapAnchorsAll qs

end

theorem mapAnchorsAll_eq_map (qs : List (QueryOver E R)) :
    mapAnchorsAll f qs = qs.map (mapAnchors f) := by
  induction qs with
  | nil => simp only [mapAnchorsAll, List.map_nil]
  | cons q qs ih => simp only [mapAnchorsAll, List.map_cons, ih]

variable {f}

theorem mapAnchors_ne_entity {q : QueryOver E R} (hq : ∀ h, q ≠ .entity h) (h' : E') :
    q.mapAnchors f ≠ .entity h' := by
  cases q with
  | entity h => exact absurd rfl (hq h)
  | _ => simp [mapAnchors]

theorem Proper.mapAnchors {okE : E → Prop} {okE' : E' → Prop} {okR : R → Prop}
    (hf : ∀ e, okE e → okE' (f e)) {q : QueryOver E R} (hq : q.Proper okE okR) :
    (q.mapAnchors f).Proper okE' okR := by
  induction hq with
  | entity e he =>
    simp only [QueryOver.mapAnchors]
    exact .entity _ (hf e he)
  | projection q r _ hr ih =>
    simp only [QueryOver.mapAnchors]
    exact .projection _ r ih hr
  | intersection qs hne _ ih =>
    simp only [QueryOver.mapAnchors, mapAnchorsAll_eq_map]
    exact .intersection _ (mt List.map_eq_nil_iff.1 hne) (List.forall_mem_map.2 ih)
  | union qs hne _ ih =>
    simp only [QueryOver.mapAnchors, mapAnchorsAll_eq_map]
    exact .union _ (mt List.map_eq_nil_iff.1 hne) (List.forall_mem_map.2 ih)
  | negation q _ ih =>
    simp only [QueryOver.mapAnchors]
    exact .negation _ ih

end

/-- Every query from which a beam is taken satisfies `source`. -/
inductive EverySource {E R : Type} (source : QueryOver E R → Prop) : QueryOver E R → Prop
  | entity (e : E) : EverySource source (.entity e)
  | anchored (h : E) (r : R) : EverySource source (.projection (.entity h) r)
  | projection (q : QueryOver E R) (r : R) :
    source q → EverySource source q → EverySource source (.projection q r)
  | intersection (qs : List (QueryOver E R)) :
    (∀ q ∈ qs, EverySource source q) → EverySource source (.intersection qs)
  | union (qs : List (QueryOver E R)) :
    (∀ q ∈ qs, EverySource source q) → EverySource source (.union qs)
  | negation (q : QueryOver E R) : EverySource source q → EverySource source (.negation q)

end QueryOver

/-- The same query over entities at their new positions. -/
abbrev Query.renumber (σ : Equiv.Perm ℕ) (q : Query) : Query := q.mapAnchors (EntityId.move σ)

/-! ### Renumbered models -/

/-- The same batch with columns at their new positions. -/
def Batch.renumber (σ : Equiv.Perm ℕ) (b : Batch) : Batch where
  columns := b.columns
  rows := b.rows.map (moveRow σ)
  length_row := by
    intro row hrow
    obtain ⟨row, hmem, rfl⟩ := List.mem_map.1 hrow
    exact length_moveRow.trans (b.length_row row hmem)

namespace Model

/-- The same model over entities at their new positions. -/
def renumber (σ : Equiv.Perm ℕ) (m : Model) : Model where
  entityCount := m.entityCount
  relationCount := m.relationCount
  tails h r := (m.tails (h.move σ.symm) r).map (moveRow σ)
  triple h r t := m.triple (h.move σ.symm) r (t.move σ.symm)
  ownHeads := m.ownHeads.map fun reply r t => (reply r (t.move σ.symm)).map (moveRow σ)
  ownRelations := m.ownRelations.map fun reply h t =>
    reply (h.move σ.symm) (t.move σ.symm)
  ownBatch := m.ownBatch.map fun reply heads r =>
    (reply (heads.map (EntityId.move σ.symm)) r).map (Batch.renumber σ)

variable {m : Model} {σ : Equiv.Perm ℕ} {h : EntityId} {r : RelationId}

theorem tails_renumber (h : EntityId) (r : RelationId) :
    (m.renumber σ).tails (h.move σ) r = (m.tails h r).map (moveRow σ) := by
  show (m.tails ((h.move σ).move σ.symm) r).map (moveRow σ) = _
  rw [EntityId.move_symm_move]

theorem isNaN_of_mem_moveRow {n : ℕ} (hσ : KeepsRange σ n) {row : List Float32}
    (hlen : row.length = n) (hrow : ∀ x ∈ row, x.isNaN = false) :
    ∀ x ∈ moveRow σ row, x.isNaN = false := by
  subst hlen
  intro x hx
  exact hrow x ((moved_moveRow hσ).mem hx)

/-- **A renumbered model answers as well as the model itself.** -/
theorem coherent_renumber (hm : m.Coherent) (hσ : KeepsRange σ m.entityCount) :
    (m.renumber σ).Coherent where
  tails h r hh hr := by
    obtain ⟨row, hrow, hlen, -, hn⟩ := hm.tails (h.move σ.symm) r ((hσ.symm _).2 hh) hr
    have hreply : (m.renumber σ).tails h r = .ok (moveRow σ row) :=
      congrArg (Except.map (moveRow σ)) hrow
    exact ⟨moveRow σ row, hreply, length_moveRow.trans hlen, hreply,
      isNaN_of_mem_moveRow hσ hlen hn⟩
  batch reply hown heads r hh hr := by
    obtain ⟨reply, hreply, rfl⟩ := Option.map_eq_some_iff.1 hown
    have hrange : ∀ h ∈ heads.map (EntityId.move σ.symm), h.index < m.entityCount :=
      List.forall_mem_map.2 fun h hmem => (hσ.symm _).2 (hh h hmem)
    -- each row has one entry per entity, so it may be moved
    have hlong := hm.mono fun _ _ _ hlen hrow => And.intro hlen hrow
    obtain ⟨b, hb, hcolumns, hrows⟩ := hlong.batch reply hreply _ r hrange hr
    refine ⟨b.renumber σ, congrArg (Except.map (Batch.renumber σ)) hb, hcolumns, ?_⟩
    show List.Forall₂ _ heads (b.rows.map (moveRow σ))
    rw [List.forall₂_map_right_iff]
    refine (List.forall₂_map_left_iff.1 hrows).imp ?_
    rintro h row ⟨hlen, hrow, hn⟩
    exact ⟨congrArg (Except.map (moveRow σ)) hrow, isNaN_of_mem_moveRow hσ hlen hn⟩

/-! ### What a head leads to -/

section

variable [Elementary] (laws : Elementary.Bounded)

include laws

/-- What a head leads to has moved with the entities. -/
theorem leads_moves (hm : m.Coherent) (hσ : KeepsRange σ m.entityCount)
    (hh : h.index < m.entityCount) (hr : r.index < m.relationCount) {v w : FuzzySet}
    (hv : m.Leads h r v) (hw : (m.renumber σ).Leads (h.move σ) r w) :
    Moved σ v.degrees w.degrees := by
  obtain ⟨row, hrow, hlen, -, hn⟩ := hm.tails h r hh hr
  have hmoved : Moved σ row (moveRow σ row) := moved_moveRow (hlen ▸ hσ)
  have hreply : (m.renumber σ).tails (h.move σ) r = .ok (moveRow σ row) := by
    rw [tails_renumber, hrow]
    rfl
  obtain ⟨v', hv', hdegrees⟩ := FuzzySet.ofLogits_eq laws hn
  obtain ⟨w', hw', hdegrees'⟩ :=
    FuzzySet.ofLogits_eq laws (isNaN_of_mem_moveRow hσ hlen hn)
  rw [hv.unique ⟨row, hrow, hv'⟩, hw.unique ⟨_, hreply, hw'⟩, hdegrees, hdegrees']
  exact hmoved.map sigmoid

/-- The degree that a head leads to is found at the new place of the tail. -/
theorem exists_leads_iff (hm : m.Coherent) (hσ : KeepsRange σ m.entityCount)
    (hh : h.index < m.entityCount) (hr : r.index < m.relationCount) {t : EntityId}
    {P : Float32 → Prop} :
    (∃ w q, (m.renumber σ).Leads (h.move σ) r w ∧ w.degree? (t.move σ) = some q ∧ P q) ↔
      ∃ v q, m.Leads h r v ∧ v.degree? t = some q ∧ P q := by
  obtain ⟨-, -, -, v, -, hv⟩ := (hm.yields_leads laws).tails h r hh hr
  obtain ⟨-, -, -, w, -, hw⟩ :=
    ((coherent_renumber hm hσ).yields_leads laws).tails (h.move σ) r ((hσ _).2 hh) hr
  have hdegree : w.degree? (t.move σ) = v.degree? t :=
    (leads_moves laws hm hσ hh hr hv hw).getElem? t.index
  constructor
  · rintro ⟨w', q, hw', hq, hP⟩
    cases hw.unique hw'
    exact ⟨v, q, hv, hdegree.symm.trans hq, hP⟩
  · rintro ⟨v', q, hv', hq, hP⟩
    cases hv.unique hv'
    exact ⟨w, q, hw, hdegree.trans hq, hP⟩

end

end Model

/-! ### Renumbered beams -/

namespace Beam

variable {σ : Equiv.Perm ℕ} {b b' : Beam} {n k : ℕ}

/-- The entities of `b'` are those of `b` at their new positions, and they carry the same.
Nothing is said of the order in which they are held. -/
def Renumbered (σ : Equiv.Perm ℕ) (b b' : Beam) : Prop :=
  ∀ e c, (e.move σ, c) ∈ b'.entries ↔ (e, c) ∈ b.entries

/-- **If its cut is clean, a beam is renumbered with its set.** -/
theorem renumbered_ofSet {v w : FuzzySet} (h : Moved σ v.degrees w.degrees)
    (hclean : CutsCleanly rankOf k v.degrees) :
    (ofSet v k).Renumbered σ (ofSet w k) := by
  intro e c
  rw [mem_ofSet, mem_ofSet]
  exact h.mem_topKBy_iff (fun _ _ => Single.eq_of_rankOf_eq) hclean

theorem Renumbered.exists_of_mem (h : b.Renumbered σ b') {entry : EntityId × Float32}
    (hentry : entry ∈ b'.entries) : ∃ e, entry.1 = e.move σ ∧ (e, entry.2) ∈ b.entries := by
  refine ⟨entry.1.move σ.symm, (EntityId.move_move_symm σ _).symm, (h _ _).1 ?_⟩
  rwa [EntityId.move_move_symm]

theorem Renumbered.unsigned (h : b.Renumbered σ b') (hσ : KeepsRange σ n)
    (hb : b.Unsigned n) : b'.Unsigned n := by
  rintro ⟨e', c⟩ hentry
  obtain ⟨e, rfl, hmem⟩ := h.exists_of_mem hentry
  obtain ⟨hlt, hc⟩ := hb _ hmem
  exact ⟨(hσ e.index).2 hlt, hc⟩

variable [Elementary] {m : Model} {r : RelationId} {t : TNorm} {e : EntityId}
  {p p' : Float32}

variable (laws : Elementary.Bounded)

include laws

/-- What is best in one beam is best in a renumbered one. -/
theorem Renumbered.isBest (h : b.Renumbered σ b') (hm : m.Coherent)
    (hσ : KeepsRange σ m.entityCount) (hb : b.Unsigned m.entityCount)
    (hr : b.entries ≠ [] → r.index < m.relationCount)
    (hp : b'.IsBest (m.renumber σ) r t (e.move σ) p) : b.IsBest m r t e p := by
  have hwitness : ∀ e' c, (e', c) ∈ b.entries → ∀ bound : Float32,
      (∃ w q, (m.renumber σ).Leads (e'.move σ) r w ∧ w.degree? (e.move σ) = some q ∧
        t.meet c q ≤ bound) ↔
        ∃ v q, m.Leads e' r v ∧ v.degree? e = some q ∧ t.meet c q ≤ bound :=
    fun e' c hmem bound => Model.exists_leads_iff laws hm hσ (hb _ hmem).1
      (hr (List.ne_nil_of_mem hmem))
  intro bound
  rw [hp bound]
  refine and_congr_right fun _ => ⟨fun hall => ?_, fun hall => ?_⟩
  · rintro ⟨e', c⟩ hmem
    exact (hwitness e' c hmem bound).1 (hall _ ((h e' c).2 hmem))
  · rintro ⟨e'', c⟩ hentry
    obtain ⟨e', rfl, hmem⟩ := h.exists_of_mem hentry
    exact (hwitness e' c hmem bound).2 (hall _ hmem)

/-- **A renumbered beam leads to renumbered degrees**, in whatever order the rows of its
entities are folded. -/
theorem hop_moves (h : b.Renumbered σ b') (hm : m.Coherent)
    (hσ : KeepsRange σ m.entityCount) (hb : b.Unsigned m.entityCount) :
    (b.hop m r t).Relates (b'.hop (m.renumber σ) r t) fun v w =>
      Moved σ v.degrees w.degrees := by
  have hm' := Model.coherent_renumber hm hσ
  have hb' := h.unsigned hσ hb
  have hbest := ((hop_answers (r := r) (t := t) hm hb.isProbability).and
    (hop_unsigned laws hm.wellShaped hb)).and hop_covers
  have hbest' := (hop_answers (r := r) (t := t) hm' hb'.isProbability).and
    (hop_unsigned laws hm'.wellShaped hb')
  refine hbest.relates hbest' ?_
  rintro v w ⟨⟨⟨hvsize, hv⟩, hvsign⟩, -, hr⟩ ⟨⟨hwsize, hw⟩, hwsign⟩
  refine ⟨hwsize.trans hvsize.symm, fun i => ?_⟩
  by_cases hi : i < m.entityCount
  · have hp := List.getElem?_eq_getElem (hi.trans_eq hvsize.symm)
    have hp' := List.getElem?_eq_getElem (((hσ i).2 hi).trans_eq hwsize.symm)
    have hsame := h.isBest laws hm hσ hb hr (hw (EntityId.move σ ⟨i⟩) _ hp')
    rw [hp, hp']
    exact congrArg some (hsame.unique (hv ⟨i⟩ _ hp) (hwsign _ (List.getElem_mem _))
      (hvsign _ (List.getElem_mem _)))
  · rw [List.getElem?_eq_none (hvsize.trans_le (not_lt.1 hi)),
      List.getElem?_eq_none (hwsize.trans_le (not_lt.1 (mt (hσ i).1 hi)))]

end Beam

/-! ### Renumbered evaluations -/

section

variable {σ : Equiv.Perm ℕ} {op : Float32 → Float32 → Float32} {xs ys : List Float32}

/-- Moved probabilities. -/
def MovedProbabilities (σ : Equiv.Perm ℕ) (xs ys : List Float32) : Prop :=
  Moved σ xs ys ∧ ∀ p ∈ xs, IsProbability p

theorem MovedProbabilities.zipWith
    (hop : ∀ a b, IsProbability a → IsProbability b → IsProbability (op a b))
    {v w : FuzzySet} (hx : MovedProbabilities σ xs ys)
    (hvw : Moved σ v.degrees w.degrees) :
    MovedProbabilities σ (xs.zipWith op v.degrees) (ys.zipWith op w.degrees) := by
  refine ⟨hx.1.zipWith hvw op, fun p hp => ?_⟩
  obtain ⟨x, hxmem, y, hy, rfl⟩ := exists_of_mem_zipWith hp
  exact hop x y (hx.2 x hxmem) (v.probable y hy)

/-- Moved probabilities are admitted as they are. -/
theorem FuzzySet.ofDegrees_moves (h : MovedProbabilities σ xs ys) :
    (ofExcept (ofDegrees xs)).Relates (ofExcept (ofDegrees ys)) fun v w =>
      Moved σ v.degrees w.degrees := by
  rw [ofDegrees_eq h.2, ofDegrees_eq fun p hp => h.2 p (h.1.mem hp)]
  exact relates_pure h.1

end

namespace Model

variable [Elementary] {m : Model} {s : Settings} {σ : Equiv.Perm ℕ}
  {op : Float32 → Float32 → Float32}

theorem evaluateAll_moves
    (hop : ∀ a b, IsProbability a → IsProbability b → IsProbability (op a b)) {q : Query}
    {qs : List Query}
    (h : ∀ p ∈ q :: qs, (m.evaluate s p).Relates ((m.renumber σ).evaluate s (p.renumber σ))
      fun v w => Moved σ v.degrees w.degrees) :
    (m.evaluateAll s op q qs).Relates
      ((m.renumber σ).evaluateAll s op (q.renumber σ) (qs.map (Query.renumber σ))) fun v w =>
        Moved σ v.degrees w.degrees := by
  refine evaluateAll_relates (T := MovedProbabilities σ)
    (fun xs ys v w hx hvw => hx.zipWith hop hvw) (fun v w hvw => ⟨hvw, v.probable⟩)
    (fun xs ys hx => FuzzySet.ofDegrees_moves hx) ?_
  show List.Forall₂ _ (q :: qs) ((q :: qs).map (Query.renumber σ))
  rw [List.forall₂_map_right_iff, List.forall₂_same]
  exact h

/-- A beam that is taken from an answer to the query is cut cleanly. -/
def CleanSource (m : Model) (s : Settings) (q : Query) : Prop :=
  ∀ v, (m.evaluate s q).result = .ok v → CutsCleanly rankOf s.width v.degrees

/-- **Evaluation moves with the entities**, as long as every beam is cut cleanly. -/
theorem evaluate_moves (laws : Elementary.Bounded) (signs : Elementary.Unsigned)
    (hm : m.Coherent) (hσ : KeepsRange σ m.entityCount) (hs : s.negation.Admits s.lambda)
    {q : Query} (hq : q.EverySource (m.CleanSource s)) :
    (m.evaluate s q).Relates ((m.renumber σ).evaluate s (q.renumber σ)) fun v w =>
      Moved σ v.degrees w.degrees := by
  have hcal := Settings.calibrated laws hs
  induction q using QueryOver.induction with
  | entity e =>
    simp only [Query.renumber, QueryOver.mapAnchors, evaluate]
    refine Relates.mapError (FuzzySet.singleton_ends.relates FuzzySet.singleton_ends ?_)
    rintro v w ⟨-, hv⟩ ⟨-, hw⟩
    rw [hv, hw]
    exact (moved_replicate hσ 0).set e.index 1
  | anchored h r =>
    simp only [Query.renumber, QueryOver.mapAnchors, evaluate]
    refine Relates.mapError ((hop_replies (hm.yields_leads laws)).relates
      (hop_replies ((coherent_renumber hm hσ).yields_leads laws)) ?_)
    rintro v w ⟨hh, hr, -, hv⟩ ⟨-, -, -, hw⟩
    exact leads_moves laws hm hσ hh hr hv hw
  | projection q r hne ih =>
    obtain ⟨hclean, hsources⟩ : m.CleanSource s q ∧ q.EverySource (m.CleanSource s) := by
      cases hq with
      | anchored h _ => exact absurd rfl (hne h)
      | projection _ _ hclean hsources => exact ⟨hclean, hsources⟩
    simp only [Query.renumber, QueryOver.mapAnchors]
    rw [evaluate_projection r hne,
      evaluate_projection r (QueryOver.mapAnchors_ne_entity hne)]
    -- the source is moved, unsigned and cut cleanly, so its beam is renumbered
    have hsource := ((ih hsources).and_ends (evaluate_unsigned laws signs hm.wellShaped hs q)
      ends_trivial).and_ends (ends_of_result hclean fun _ _ => trivial) ends_trivial
    refine hsource.bind fun v w hvw => Relates.mapError ?_
    obtain ⟨⟨hmoved, ⟨hsize, hunsigned⟩, -⟩, hcut, -⟩ := hvw
    exact Beam.hop_moves laws (Beam.renumbered_ofSet hmoved hcut) hm hσ
      (Beam.unsigned_ofSet hsize hunsigned _)
  | intersection qs ih =>
    have hqs : ∀ q ∈ qs, q.EverySource (m.CleanSource s) := by
      cases hq
      assumption
    cases qs with
    | nil =>
      simp only [evaluate]
      exact relates_fail
    | cons q qs =>
      simp only [Query.renumber, QueryOver.mapAnchors, QueryOver.mapAnchorsAll]
      rw [evaluate_intersection, evaluate_intersection, QueryOver.mapAnchorsAll_eq_map]
      exact evaluateAll_moves hcal.meet fun p hp => ih p hp (hqs p hp)
  | union qs ih =>
    have hqs : ∀ q ∈ qs, q.EverySource (m.CleanSource s) := by
      cases hq
      assumption
    cases qs with
    | nil =>
      simp only [evaluate]
      exact relates_fail
    | cons q qs =>
      simp only [Query.renumber, QueryOver.mapAnchors, QueryOver.mapAnchorsAll]
      rw [evaluate_union, evaluate_union, QueryOver.mapAnchorsAll_eq_map]
      exact evaluateAll_moves hcal.join fun p hp => ih p hp (hqs p hp)
  | negation q ih =>
    have hsources : q.EverySource (m.CleanSource s) := by
      cases hq
      assumption
    simp only [Query.renumber, QueryOver.mapAnchors, evaluate]
    refine (ih hsources).bind fun v w hvw => Relates.mapError (FuzzySet.ofDegrees_moves ?_)
    exact ⟨hvw.map _, List.forall_mem_map.2 fun a ha => hcal.complement a (v.probable a ha)⟩

end Model

/-! ### Reasoners -/

/-- Two hops, the second of which goes through a beam. -/
def Query.thereAndBack : Query := .projection (.projection (.entity ⟨0⟩) ⟨0⟩) ⟨0⟩

namespace Reasoner

/-- The same reasoner over a model whose entities are at their new positions. -/
def renumber (σ : Equiv.Perm ℕ) (r : Reasoner) : Reasoner := { r with
  model := r.model.renumber σ }

/-- **Renumbering the entities renumbers the answers.**  Take a well-formed query, each of
whose beams is cut between two different degrees, or holds nothing.  If its entities and
those of the model are moved, then the degree of each entity is found at the new position,
and it is exactly the same. -/
theorem evaluate_renumber [Elementary] (laws : Elementary.Bounded)
    (signs : Elementary.Unsigned) (r : Reasoner) (hm : r.model.Coherent) {σ : Equiv.Perm ℕ}
    (hσ : KeepsRange σ r.model.entityCount) {q : Query}
    (hwf : q.WellFormed r.model.entityCount r.model.relationCount)
    (hq : q.EverySource (r.model.CleanSource r.settings)) :
    ∃ v w, (r.evaluate q).result = .ok v ∧
      ((r.renumber σ).evaluate (q.renumber σ)).result = .ok w ∧
      ∀ e : EntityId, e.index < r.model.entityCount →
        ∃ p, v.degree? e = some p ∧ w.degree? (e.move σ) = some p := by
  have hm' := Model.coherent_renumber hm hσ
  have hwf' : (q.renumber σ).WellFormed r.model.entityCount r.model.relationCount :=
    hwf.mapAnchors fun e he => (hσ e.index).2 he
  obtain ⟨v, hv⟩ := exists_answer laws r hm.wellShaped r.settings.width hwf
  obtain ⟨w, hw⟩ := exists_answer laws (r.renumber σ) hm'.wellShaped r.settings.width hwf'
  have hmoved := Model.evaluate_moves laws signs hm hσ r.admits hq v w hv hw
  refine ⟨v, w, hv, hw, fun e he => ?_⟩
  have hsize := (r.model.evaluate_covers r.settings q).of_ok hv
  have hp := List.getElem?_eq_getElem (he.trans_eq hsize.symm)
  exact ⟨_, hp, (hmoved.getElem? e.index).trans hp⟩

theorem evaluate_renumber_swap :
    ∃ v w, (@evaluate Elementary.steep .swap .thereAndBack).result = .ok v ∧
      (@evaluate Elementary.steep (renumber (Equiv.swap 0 1) .swap)
        (.renumber (Equiv.swap 0 1) .thereAndBack)).result = .ok w ∧
      ∃ p, v.degree? ⟨0⟩ = some p ∧ w.degree? ⟨1⟩ = some p := by
  have hσ : KeepsRange (Equiv.swap 0 1) 2 := keepsRange_swap Nat.zero_lt_two Nat.one_lt_two
  have hclean : @Model.CleanSource Elementary.steep .swap swap.settings
      (.projection (.entity ⟨0⟩) ⟨0⟩) := by
    intro v hv
    have hdegrees : (@Model.evaluate Elementary.steep .swap swap.settings
        (.projection (.entity ⟨0⟩) ⟨0⟩)).result.map (·.degrees) = .ok [0, 1] := by
      decide +kernel
    rw [hv] at hdegrees
    have hdegrees : v.degrees = [0, 1] := Except.ok.inj hdegrees
    rw [hdegrees]
    exact .inr (by decide +kernel)
  obtain ⟨v, w, hv, hw, hdegree⟩ := @evaluate_renumber Elementary.steep
    Elementary.bounded_steep Elementary.unsigned_steep .swap Model.coherent_swap
    (Equiv.swap 0 1) hσ .thereAndBack
    (.projection _ _ (.projection _ _ (.entity _ Nat.zero_lt_two) Nat.zero_lt_one) Nat.zero_lt_one)
    (.projection _ _ hclean (.anchored _ _))
  exact ⟨v, w, hv, hw, hdegree ⟨0⟩ Nat.zero_lt_two⟩

-- of two entities of one degree a beam of one keeps the first, wherever they have been moved
example : (@evaluate Elementary.steep .swap .fromEither).result.map (·.degrees) = .ok [0, 1] ∧
    (@evaluate Elementary.steep (renumber (Equiv.swap 0 1) .swap)
      (.renumber (Equiv.swap 0 1) .fromEither)).result.map (·.degrees) = .ok [0, 1] := by
  decide +kernel

end Reasoner

end MultiHop
