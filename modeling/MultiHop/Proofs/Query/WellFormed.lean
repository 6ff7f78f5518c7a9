/-
MultiHop/Proofs/Query/WellFormed.lean

Evaluation succeeds exactly on well-formed queries.  A query is well formed when its
entities and relations are within range and every connective has an operand.  If the
model replies within range with numbers, these are the only things that can go wrong:
no connective and no beam makes anything that is refused.

One induction proves both directions (`Model.evaluate_ends`): an answer only comes from
a well-formed query, and an error names a flaw of one that is not.  The first half needs
beams that are not empty, because an empty beam is not sent anywhere and so its relation
is not looked at.
-/
import MultiHop.Proofs.Query.Evaluation
import MultiHop.Proofs.Score.TopK

namespace MultiHop

open Consult
open Single (infinity)

/-! ### Flaws -/

/-- A flaw of a query: a position out of range, or a connective without operands. -/
inductive Flaw (n k : Nat) : Fault QueryError → Prop
  | outOfRange (e : GraphError) : OutOfRange n k e → Flaw n k (.error (.graph e))
  | noOperands (c : Connective) : Flaw n k (.error (.malformed (.noOperands c)))

/-! ### Settings that keep to the unit interval -/

/-- No connective leaves the unit interval, nor does what a beam makes of its rows. -/
structure Settings.Calibrated [Elementary] (s : Settings) : Prop where
  meet (a b : Float32) : IsProbability a → IsProbability b → IsProbability (s.tnorm.meet a b)
  join (a b : Float32) : IsProbability a → IsProbability b → IsProbability (s.tnorm.join a b)
  complement (a : Float32) :
    IsProbability a → IsProbability (s.negation.complement s.lambda a)
  beam (b : Beam) (n : Nat) (rows : List FuzzySet) (ws : List (List Float32)) :
    (∀ c ∈ b.carried, IsProbability c) → b.witnesses s.tnorm rows = .ok ws →
      ∀ p ∈ Beam.bestWitness n ws, IsProbability p

theorem Settings.calibrated [Elementary] (laws : Elementary.Bounded) {s : Settings}
    (hs : s.negation.Admits s.lambda) : s.Calibrated where
  meet _ _ ha hb := s.tnorm.isProbability_meet ha hb
  join _ _ ha hb := s.tnorm.isProbability_join ha hb
  complement _ ha := Negation.isProbability_complement laws hs ha
  beam b n rows ws hc hws := by
    unfold Beam.witnesses at hws
    split at hws
    · cases hws
      exact Beam.isProbability_bestWitness (Beam.isProbability_of_mem_zipWith s.tnorm rows hc)
    · cases hws

/-! ### Beams of fuzzy sets -/

namespace Beam

variable {s : FuzzySet} {k n : Nat}

theorem mem_ofSet {e : EntityId} {p : Float32} :
    (e, p) ∈ (ofSet s k).entries ↔ (e.index, p) ∈ topKBy rankOf k s.degrees := by
  unfold ofSet FuzzySet.best
  constructor
  · intro h
    obtain ⟨entry, hmem, heq⟩ := List.mem_map.1 h
    cases heq
    exact hmem
  · intro h
    exact List.mem_map.2 ⟨(e.index, p), h, rfl⟩

/-- A beam that may hold every entity does. -/
theorem mem_ofSet_of_size_le {e : EntityId} {p : Float32} (hk : s.size ≤ k)
    (hp : s.degree? e = some p) : (e, p) ∈ (ofSet s k).entries :=
  mem_ofSet.2 (mem_topKBy_of_length_le hk hp)

theorem degree_of_mem_ofSet {e : EntityId} {p : Float32} (h : (e, p) ∈ (ofSet s k).entries) :
    s.degrees[e.index]? = some p :=
  getElem?_of_mem_topKBy (mem_ofSet.1 h)

theorem index_lt_of_mem_ofSet (hs : s.size = n) :
    ∀ e ∈ (ofSet s k).entities, e.index < n := by
  intro e he
  obtain ⟨⟨e, p⟩, hmem, rfl⟩ := List.mem_map.1 he
  exact hs ▸ (List.getElem?_eq_some_iff.1 (degree_of_mem_ofSet hmem)).1

theorem isProbability_of_mem_ofSet : ∀ c ∈ (ofSet s k).carried, IsProbability c := by
  intro c hc
  obtain ⟨⟨e, p⟩, hmem, rfl⟩ := List.mem_map.1 hc
  exact s.probable p (List.mem_of_getElem? (degree_of_mem_ofSet hmem))

end Beam

/-! ### Evaluation -/

/-- The model answers every request within range with one number per entity. -/
def Model.WellShaped (m : Model) : Prop :=
  m.Replies fun _ _ row => ∀ x ∈ row, x.isNaN = false

theorem Model.WellShaped.yields [Elementary] (laws : Elementary.Bounded) {m : Model}
    (hm : m.WellShaped) : m.Yields fun _ _ _ => True :=
  hm.mono fun _ _ _ _ hrow => by
    obtain ⟨v, hv, -⟩ := FuzzySet.ofLogits_eq laws hrow
    exact ⟨v, hv, trivial⟩

namespace Model

open QueryOver

variable [Elementary] {m : Model} {s : Settings}

omit [Elementary] in
/-- Probabilities stay probabilities, and all operands so far are well formed. -/
theorem gathers_wellFormed {op : Float32 → Float32 → Float32}
    (hop : ∀ a b, IsProbability a → IsProbability b → IsProbability (op a b)) (n width : Nat)
    (W : Query → Prop) :
    Gathers op n (fun q v => v.size = n ∧ (0 < width → W q)) fun done xs =>
      xs.length = n ∧ (∀ p ∈ xs, IsProbability p) ∧ (0 < width → ∀ q ∈ done, W q) where
  size _ _ h := h.1
  length _ _ h := h.1
  step done q xs v hxs hv := by
    obtain ⟨hlen, hprob, hdone⟩ := hxs
    refine ⟨length_zipWith_eq hlen hv.1, fun p hp => ?_, fun hw => ?_⟩
    · obtain ⟨x, hx, y, hy, rfl⟩ := exists_of_mem_zipWith hp
      exact hop x y (hprob x hx) (v.probable y hy)
    · exact List.forall_mem_append.2 ⟨hdone hw, List.forall_mem_singleton.2 (hv.2 hw)⟩

theorem evaluateAll_ends {op : Float32 → Float32 → Float32}
    (hop : ∀ a b, IsProbability a → IsProbability b → IsProbability (op a b))
    {W : Query → Prop} {F : Fault QueryError → Prop} {n : Nat} {q : Query} {qs : List Query}
    (h : ∀ p ∈ q :: qs, (m.evaluate s p).Ends (fun v => v.size = n ∧ (0 < s.width → W p))
      fun f => ¬ W p ∧ F f) :
    (m.evaluateAll s op q qs).Ends
      (fun v => v.size = n ∧ (0 < s.width → ∀ p ∈ q :: qs, W p))
      fun f => ¬ (∀ p ∈ q :: qs, W p) ∧ F f := by
  -- one flawed operand is enough for the connective to be flawed
  have hall : ∀ p ∈ q :: qs, (m.evaluate s p).Ends
      (fun v => v.size = n ∧ (0 < s.width → W p)) fun f => ¬ (∀ p ∈ q :: qs, W p) ∧ F f :=
    fun p hp => (h p hp).mono (fun _ h => h) fun f hf => ⟨fun hall => hf.1 (hall p hp), hf.2⟩
  refine evaluateAll_gathers (gathers_wellFormed hop n s.width W) hall (fun v hv => ?_)
    fun xs hxs => ?_
  · exact ⟨hv.1, v.probable, fun hw => List.forall_mem_singleton.2 (hv.2 hw)⟩
  · obtain ⟨hlen, hprob, hwf⟩ := hxs
    rw [FuzzySet.ofDegrees_eq hprob]
    exact ends_pure ⟨hlen, hwf⟩

/-- An answer only comes from a well-formed query, if beams are not empty, and an error
names a flaw of a query that is not well formed. -/
theorem evaluate_ends (laws : Elementary.Bounded) (hm : m.WellShaped) (hs : s.Calibrated)
    (q : Query) :
    (m.evaluate s q).Ends (fun v => v.size = m.entityCount ∧
        (0 < s.width → q.WellFormed m.entityCount m.relationCount))
      fun f => ¬ q.WellFormed m.entityCount m.relationCount ∧
        Flaw m.entityCount m.relationCount f := by
  have hyields := hm.yields laws
  induction q using QueryOver.induction with
  | entity e =>
    rw [wellFormed_entity]
    refine Ends.mapError (FuzzySet.singleton_ends.mono (fun v hv => ⟨?_, fun _ => hv.1⟩)
      fun err herr => ⟨not_lt.2 herr.1, .outOfRange _ (.inl ⟨e, herr⟩)⟩)
    rw [FuzzySet.size, hv.2, List.length_set, List.length_replicate]
  | anchored h r =>
    rw [wellFormed_projection, wellFormed_entity]
    refine Ends.mapError ((hop_replies hyields).mono
      (fun v hv => ⟨hv.2.2.1, fun _ => ⟨hv.1, hv.2.1⟩⟩) fun e he => ⟨?_, .outOfRange e he.2⟩)
    rintro ⟨hh, hr⟩
    rcases he.1 with hout | hout
    · exact absurd hh (not_lt.2 hout)
    · exact absurd hr (not_lt.2 hout)
  | projection q r hq ih =>
    rw [evaluate_projection r hq, wellFormed_projection]
    refine (ih.mono (fun _ h => h) fun f hf => ⟨fun hall => hf.1 hall.1, hf.2⟩).bind
      fun source hsource => Ends.mapError ?_
    obtain ⟨hsize, hwf⟩ := hsource
    by_cases hne : (Beam.ofSet source s.width).entries = []
    · -- the relation is not looked at, but the width must have been zero
      rw [Beam.hop, if_pos (List.isEmpty_iff.2 hne)]
      refine ends_pure ⟨FuzzySet.size_empty _, fun hw => absurd hne ?_⟩
      exact Beam.entries_ofSet_ne_nil hw (hsize ▸ (hwf hw).pos)
    · refine (Beam.hop_replies hyields hne (Beam.index_lt_of_mem_ofSet hsize)
        Beam.isProbability_of_mem_ofSet).mono
        (fun v hv => ⟨hv.2.1, fun hw => ⟨hwf hw, hv.1⟩⟩) ?_
      rintro f ⟨hout, rfl⟩
      exact ⟨fun hall => absurd hall.2 (not_lt.2 hout), .outOfRange _ (.inr ⟨r, hout, rfl⟩)⟩
  | intersection qs ih =>
    rw [wellFormed_intersection]
    cases qs with
    | nil => exact ends_fail ⟨fun hall => hall.1 rfl, .noOperands _⟩
    | cons q qs =>
      rw [evaluate_intersection]
      exact (evaluateAll_ends hs.meet ih).mono
        (fun v hv => ⟨hv.1, fun hw => ⟨List.cons_ne_nil q qs, hv.2 hw⟩⟩)
        fun f hf => ⟨fun hall => hf.1 hall.2, hf.2⟩
  | union qs ih =>
    rw [wellFormed_union]
    cases qs with
    | nil => exact ends_fail ⟨fun hall => hall.1 rfl, .noOperands _⟩
    | cons q qs =>
      rw [evaluate_union]
      exact (evaluateAll_ends hs.join ih).mono
        (fun v hv => ⟨hv.1, fun hw => ⟨List.cons_ne_nil q qs, hv.2 hw⟩⟩)
        fun f hf => ⟨fun hall => hf.1 hall.2, hf.2⟩
  | negation q ih =>
    rw [wellFormed_negation]
    simp only [evaluate]
    refine ih.bind fun source hsource => ?_
    have hprob : ∀ p ∈ source.degrees.map (s.negation.complement s.lambda), IsProbability p := by
      intro p hp
      obtain ⟨a, ha, rfl⟩ := List.mem_map.1 hp
      exact hs.complement a (source.probable a ha)
    rw [FuzzySet.ofDegrees_eq hprob]
    exact ends_pure ⟨(List.length_map _).trans hsource.1, hsource.2⟩

end Model

/-! ### Reasoners -/

theorem Reasoner.admits (r : Reasoner) : r.settings.negation.Admits r.settings.lambda :=
  (Settings.validate_eq_ok_iff.1 r.usable).2

/-- The same reasoner with beams of width `k`. -/
def Reasoner.withWidth (r : Reasoner) (k : Nat) (hk : k < r.model.entityCount) : Reasoner :=
  { r with
    settings := { r.settings with width := k }
    usable := Settings.validate_eq_ok_iff.2 ⟨r.entities_eq ▸ hk, r.admits⟩ }

/-- **Evaluation succeeds exactly on well-formed queries.**  For the others the error
names a flaw; in particular no number is ever refused, because the connectives and beams
of a reasoner keep to the unit interval. -/
theorem Reasoner.evaluate_ok_iff_wellFormed [Elementary] (laws : Elementary.Bounded)
    (r : Reasoner) (hwidth : 1 ≤ r.settings.width) (hm : r.model.WellShaped) (q : Query) :
    ((∃ v, (r.evaluate q).result = .ok v) ↔
        q.WellFormed r.model.entityCount r.model.relationCount) ∧
      (¬ q.WellFormed r.model.entityCount r.model.relationCount →
        ∃ f, (r.evaluate q).result = .error f ∧
          Flaw r.model.entityCount r.model.relationCount f) ∧
      r.settings.Calibrated := by
  have hcal := Settings.calibrated laws r.admits
  have hends := r.model.evaluate_ends laws hm hcal q
  cases hres : (r.evaluate q).result with
  | ok v =>
    have hwf := (hends.of_ok hres).2 hwidth
    exact ⟨⟨fun _ => hwf, fun _ => ⟨v, rfl⟩⟩, fun hnot => absurd hwf hnot, hcal⟩
  | error f =>
    obtain ⟨hnot, hflaw⟩ := hends.of_error hres
    refine ⟨⟨?_, fun hwf => absurd hwf hnot⟩, fun _ => ⟨f, rfl, hflaw⟩, hcal⟩
    rintro ⟨v, hv⟩
    cases hv

/-- Two entities, and a relation that leads from each to the other. -/
def Model.swap : Model where
  entityCount := 2
  relationCount := 1
  tails h _ := .ok (if h.index = 0 then [-infinity, infinity] else [infinity, -infinity])
  triple h _ t := .ok (if h.index = t.index then -infinity else infinity)

theorem Model.wellShaped_swap : Model.swap.WellShaped where
  tails h r _ _ := by
    refine ⟨_, rfl, ?_, ?_⟩
    · split <;> rfl
    · split <;> decide +kernel
  batch _ hown := by cases hown

/-- A reasoner over it. -/
def Reasoner.swap : Reasoner where
  model := .swap
  index := ⟨⟨["left", "right"], by decide⟩, ⟨["other"], by decide⟩⟩
  settings := ⟨.product, .sugeno, 1, 1, false⟩
  usable := by decide +kernel
  entities_eq := rfl
  relations_eq := rfl

theorem Reasoner.evaluate_ok_swap :
    ∃ v, (@Reasoner.evaluate Elementary.steep .swap
      (.negation (.projection (.projection (.entity ⟨0⟩) ⟨0⟩) ⟨0⟩))).result = .ok v :=
  (@evaluate_ok_iff_wellFormed Elementary.steep Elementary.bounded_steep .swap le_rfl
    Model.wellShaped_swap _).1.2
    (.negation _ (.projection _ _ (.projection _ _ (.entity _ Nat.zero_lt_two) Nat.zero_lt_one)
      Nat.zero_lt_one))

end MultiHop
