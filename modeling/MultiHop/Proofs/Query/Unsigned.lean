/-
MultiHop/Proofs/Query/Unsigned.lean

No answer has a degree that is negative zero.  Replies are made into degrees by the sigmoid,
which has no sign, and neither connectives nor beams bring one in.  So answers can be compared
by size alone: of two degrees of one size both are the same word.  In particular there is one
best witness (`Beam.IsBest.unique`).

Main result: `Model.evaluate_unsigned`.
-/
import MultiHop.Proofs.Fuzzy.Sign
import MultiHop.Proofs.Query.Beam

namespace MultiHop

open Consult

/-! ### Hops -/

theorem Model.WellShaped.yields_unsigned [Elementary] (laws : Elementary.Bounded) {m : Model}
    (hm : m.WellShaped) : m.Yields fun _ _ v => v.IsUnsigned :=
  hm.mono fun _ _ _ _ hrow => by
    obtain ⟨v, hv, -⟩ := FuzzySet.ofLogits_eq laws hrow
    exact ⟨v, hv, FuzzySet.isUnsigned_of_ofLogits laws hrow hv⟩

/-- A coherent model leads from every head within range to an unsigned degree for each
entity. -/
theorem Model.Coherent.exists_leads [Elementary] (laws : Elementary.Bounded) {m : Model}
    {h : EntityId} {r : RelationId} (hm : m.Coherent) (hh : h.index < m.entityCount)
    (hr : r.index < m.relationCount) :
    ∃ v, m.Leads h r v ∧ v.size = m.entityCount ∧ v.IsUnsigned := by
  obtain ⟨row, hrow, hlen, -, hn⟩ := hm.tails h r hh hr
  obtain ⟨v, hv, -⟩ := FuzzySet.ofLogits_eq laws hn
  exact ⟨v, ⟨row, hrow, hv⟩, (FuzzySet.size_ofLogits hv).trans hlen,
    FuzzySet.isUnsigned_of_ofLogits laws hn hv⟩

namespace Beam

variable {b : Beam} {t : TNorm} {n : ℕ}

/-- The entities of the beam are among the first `n`, and what they carry are unsigned
probabilities. -/
def Unsigned (b : Beam) (n : ℕ) : Prop :=
  ∀ entry ∈ b.entries, entry.1.index < n ∧ IsProbability entry.2 ∧ Single.IsUnsigned entry.2

theorem Unsigned.index_lt (hb : b.Unsigned n) : ∀ h ∈ b.entities, h.index < n :=
  List.forall_mem_map.2 fun entry hentry => (hb entry hentry).1

theorem Unsigned.isProbability (hb : b.Unsigned n) : ∀ c ∈ b.carried, IsProbability c :=
  List.forall_mem_map.2 fun entry hentry => (hb entry hentry).2.1

theorem Unsigned.isUnsigned (hb : b.Unsigned n) : ∀ c ∈ b.carried, Single.IsUnsigned c :=
  List.forall_mem_map.2 fun entry hentry => (hb entry hentry).2.2

theorem unsigned_ofSet {v : FuzzySet} (hsize : v.size = n) (hv : v.IsUnsigned) (k : ℕ) :
    (ofSet v k).Unsigned n := by
  intro entry hentry
  have hmem := List.mem_of_getElem? (degree_of_mem_ofSet hentry)
  have hlt := index_lt_of_mem_ofSet hsize entry.1 (List.mem_map_of_mem hentry)
  exact ⟨hlt, v.probable _ hmem, hv _ hmem⟩

variable [Elementary] {m : Model} {r : RelationId}

/-- What a beam of unsigned degrees leads to is unsigned. -/
theorem hop_unsigned (laws : Elementary.Bounded) (hm : m.WellShaped)
    (hb : b.Unsigned m.entityCount) : (b.hop m r t).Ends (·.IsUnsigned) fun _ => True := by
  by_cases hempty : b.entries = []
  · rw [hop, if_pos (List.isEmpty_iff.2 hempty)]
    exact ends_pure fun p hp => (List.mem_replicate.1 hp).2 ▸ Single.isUnsigned_zero
  · refine (hop_replies (hm.yields_unsigned laws) hempty hb.index_lt hb.isProbability).mono
      (fun v hv => ?_) fun _ _ => trivial
    obtain ⟨-, -, rows, hrows, hdegrees⟩ := hv
    unfold FuzzySet.IsUnsigned
    rw [hdegrees]
    refine forall_mem_bestWitness Single.isUnsigned_zero (fun _ _ => isUnsigned_larger) ?_
    -- a witness is the meet of a degree that is carried with one that is led to
    intro row hrow p hp
    obtain ⟨c, hc, w, hw, rfl⟩ := exists_of_mem_zipWith hrow
    obtain ⟨q, hq, rfl⟩ := List.mem_map.1 hp
    obtain ⟨h, -, -, hunsigned⟩ := exists_of_forall₂ hrows w hw
    exact t.isUnsigned_meet (hb.isProbability c hc) (w.probable q hq) (hb.isUnsigned c hc)
      (hunsigned q hq)

/-- There is at most one best degree without a sign. -/
theorem IsBest.unique {e : EntityId} {p p' : Float32} (hp : b.IsBest m r t e p)
    (hp' : b.IsBest m r t e p') (hu : Single.IsUnsigned p) (hu' : Single.IsUnsigned p') :
    p = p' := by
  have hle : p ≤ p' := (hp p').2 ((hp' p').1 (Single.le_self hu'.isNaN))
  have hge : p' ≤ p := (hp' p).2 ((hp p).1 (Single.le_self hu.isNaN))
  exact hu.eq_of_le_of_le hu' hle hge

end Beam

/-! ### Evaluation -/

namespace Model

variable [Elementary] {m : Model} {s : Settings}

section

variable {op : Float32 → Float32 → Float32} {n : Nat}

omit [Elementary] in
/-- Unsigned probabilities stay unsigned probabilities. -/
theorem gathers_unsigned
    (hprob : ∀ a b, IsProbability a → IsProbability b → IsProbability (op a b))
    (hop : ∀ a b, IsProbability a → IsProbability b → Single.IsUnsigned a →
      Single.IsUnsigned b → Single.IsUnsigned (op a b)) :
    Gathers op n (fun _ v => v.size = n ∧ v.IsUnsigned) fun _ xs =>
      xs.length = n ∧ (∀ p ∈ xs, IsProbability p) ∧ ∀ p ∈ xs, Single.IsUnsigned p where
  size _ _ h := h.1
  length _ _ h := h.1
  step done q xs v hxs hv := by
    obtain ⟨hlen, hp, hu⟩ := hxs
    refine ⟨length_zipWith_eq hlen hv.1, fun p hmem => ?_, fun p hmem => ?_⟩ <;>
      obtain ⟨x, hx, y, hy, rfl⟩ := exists_of_mem_zipWith hmem
    · exact hprob x y (hp x hx) (v.probable y hy)
    · exact hop x y (hp x hx) (v.probable y hy) (hu x hx) (hv.2 y hy)

theorem evaluateAll_unsigned
    (hprob : ∀ a b, IsProbability a → IsProbability b → IsProbability (op a b))
    (hop : ∀ a b, IsProbability a → IsProbability b → Single.IsUnsigned a →
      Single.IsUnsigned b → Single.IsUnsigned (op a b)) {q : Query} {qs : List Query}
    (h : ∀ p ∈ q :: qs, (m.evaluate s p).Ends (fun v => v.size = n ∧ v.IsUnsigned)
      fun _ => True) :
    (m.evaluateAll s op q qs).Ends (fun v => v.size = n ∧ v.IsUnsigned) fun _ => True := by
  refine evaluateAll_gathers (gathers_unsigned hprob hop) h (fun v hv => ?_) fun xs hxs => ?_
  · exact ⟨hv.1, v.probable, hv.2⟩
  · obtain ⟨hlen, hp, hu⟩ := hxs
    rw [FuzzySet.ofDegrees_eq hp]
    exact ends_pure ⟨hlen, hu⟩

end

/-- **Answers are unsigned**, and they cover every entity. -/
theorem evaluate_unsigned (laws : Elementary.Bounded) (signs : Elementary.Unsigned)
    (hm : m.WellShaped) (hs : s.negation.Admits s.lambda) (q : Query) :
    (m.evaluate s q).Ends (fun v => v.size = m.entityCount ∧ v.IsUnsigned)
      fun _ => True := by
  have hcal := Settings.calibrated laws hs
  induction q using QueryOver.induction with
  | entity e =>
    refine Ends.mapError (FuzzySet.singleton_ends.mono (fun v hv => ?_) fun _ _ => trivial)
    refine ⟨?_, FuzzySet.isUnsigned_of_singleton hv.2⟩
    rw [FuzzySet.size, hv.2, List.length_set, List.length_replicate]
  | anchored h r =>
    exact Ends.mapError ((hop_replies (hm.yields_unsigned laws)).mono (fun v hv => hv.2.2)
      fun _ _ => trivial)
  | projection q r hq ih =>
    rw [evaluate_projection r hq]
    refine ih.bind fun source hsource => Ends.mapError ?_
    obtain ⟨hsize, hunsigned⟩ := hsource
    have hcovers := (Beam.hop_covers (b := .ofSet source s.width) (m := m) (r := r)
      (t := s.tnorm)).and (Beam.hop_unsigned laws hm (Beam.unsigned_ofSet hsize hunsigned _))
    exact hcovers.mono (fun v hv => ⟨hv.1.1, hv.2⟩) fun _ _ => trivial
  | intersection qs ih =>
    cases qs with
    | nil => exact ends_fail trivial
    | cons q qs =>
      rw [evaluate_intersection]
      exact evaluateAll_unsigned hcal.meet (fun _ _ => s.tnorm.isUnsigned_meet) ih
  | union qs ih =>
    cases qs with
    | nil => exact ends_fail trivial
    | cons q qs =>
      rw [evaluate_union]
      exact evaluateAll_unsigned hcal.join (fun _ _ => s.tnorm.isUnsigned_join) ih
  | negation q ih =>
    simp only [evaluate]
    refine ih.bind fun source hsource => Ends.mapError ?_
    have hprob : ∀ p ∈ source.degrees.map (s.negation.complement s.lambda), IsProbability p :=
      List.forall_mem_map.2 fun a ha => hcal.complement a (source.probable a ha)
    rw [FuzzySet.ofDegrees_eq hprob]
    refine ends_pure ⟨(List.length_map _).trans hsource.1, List.forall_mem_map.2 fun a ha => ?_⟩
    exact Negation.isUnsigned_complement laws signs hs (source.probable a ha)

end Model

end MultiHop
