/-
MultiHop/Proofs/Query/DirectHop.lean

Two ways through a relation.  A hop from an anchor asks the model for one head, and the
reply is the answer.  A connective whose only operand is the anchor denotes the same
singleton, but a hop from it goes through a beam.  The beam keeps the member of the
singleton, which carries one, and next to it as many other entities as fit, which carry
zero:

    b.PointsTo h

Both ways lead to the same degrees.  One is neutral for conjunction and zero is absorbing, so
what the member leads to is the best witness, and the rows of the others add nothing to it
(`Beam.PointsTo.isBest`).  That makes the degrees equal in size, and they are the same words,
because neither way brings in a sign (`Beam.PointsTo.hop_ends`).

Main result: `Reasoner.evaluate_directHop`.
-/
import MultiHop.Proofs.Query.Crisp
import MultiHop.Proofs.Query.Unsigned

namespace MultiHop

open Consult

/-- A truth value decides whether the other operand of a conjunction counts. -/
theorem TNorm.meet_of_isTruth (t : TNorm) {a p : Float32} {P : Prop} (hp : IsTruth p P)
    (pa : IsProbability a) (ha : Single.IsUnsigned a) :
    P ∧ t.meet p a = a ∨ ¬ P ∧ t.meet p a = 0 := by
  rcases hp with ⟨hP, rfl⟩ | ⟨hP, rfl⟩
  · exact .inl ⟨hP, t.one_meet pa ha⟩
  · exact .inr ⟨hP, t.zero_meet pa ha⟩

/-! ### Beams of singletons -/

namespace Beam

variable {b : Beam} {h : EntityId} {n k : Nat} {v : FuzzySet}

/-- The beam holds `h`, which carries one, and whatever else it holds carries zero. -/
structure PointsTo (b : Beam) (h : EntityId) : Prop where
  mem : (h, 1) ∈ b.entries
  isTruth (entry : EntityId × Float32) : entry ∈ b.entries → IsTruth entry.2 (entry.1 = h)

/-- **A beam of a singleton points to its member**, whatever else is needed to fill it. -/
theorem pointsTo_ofSet (hv : Indicates n v.degrees {h}) (hh : h.index < n) (hk : 1 ≤ k) :
    (ofSet v k).PointsTo h where
  mem := by
    have hrange : ∀ e ∈ ({h} : Set EntityId), e.index < n := by
      rintro e rfl
      exact hh
    exact mem_ofSet_of_crisp hv hrange ((Set.ncard_singleton h).trans_le hk) rfl
  isTruth entry hentry := isTruth_of_mem_ofSet hv entry hentry

variable [Elementary] {m : Model} {r : RelationId} {t : TNorm}

/-- **What `h` leads to is the best witness** of a beam that points to `h`. -/
theorem PointsTo.isBest (laws : Elementary.Bounded) (hb : b.PointsTo h) (hm : m.Coherent)
    (hrange : ∀ e ∈ b.entities, e.index < m.entityCount) (hr : r.index < m.relationCount)
    (hv : m.Leads h r v) (hsize : v.size = m.entityCount) (hsign : v.IsUnsigned)
    {e : EntityId} {p : Float32} (hp : v.degree? e = some p) : b.IsBest m r t e p := by
  have hmem : p ∈ v.degrees := List.mem_of_getElem? hp
  have hprob := v.probable p hmem
  intro c
  constructor
  · intro hpc
    have hc : 0 ≤ c := Single.le_chain hprob.1 hpc
    refine ⟨hc, fun entry hentry => ?_⟩
    obtain ⟨w, hw, hwsize, hwsign⟩ :=
      hm.exists_leads laws (hrange entry.1 (List.mem_map_of_mem hentry)) hr
    have he : e.index < w.degrees.length := by
      have hlt : e.index < v.size := (List.getElem?_eq_some_iff.1 hp).1
      rw [hsize, ← hwsize] at hlt
      exact hlt
    have hq := List.getElem?_eq_getElem he
    refine ⟨w, _, hw, hq, ?_⟩
    rcases t.meet_of_isTruth (hb.isTruth entry hentry) (w.probable _ (List.getElem_mem he))
      (hwsign _ (List.getElem_mem he)) with ⟨heq, hmeet⟩ | ⟨-, hmeet⟩ <;> rw [hmeet]
    · -- this is the row of `h` itself
      rw [heq] at hw
      obtain rfl := hv.unique hw
      obtain rfl : p = _ := Option.some.inj (hp.symm.trans hq)
      exact hpc
    · exact hc
  · rintro ⟨-, hall⟩
    obtain ⟨w, q, hw, hq, hle⟩ := hall (h, 1) hb.mem
    obtain rfl := hv.unique hw
    obtain rfl : p = q := Option.some.inj (hp.symm.trans hq)
    rwa [t.one_meet hprob (hsign p hmem)] at hle

/-- **A beam that points to `h` leads where `h` leads**, to the very same degrees. -/
theorem PointsTo.hop_ends (laws : Elementary.Bounded) (hb : b.PointsTo h) (hm : m.Coherent)
    (hu : b.Unsigned m.entityCount) (hr : r.index < m.relationCount) (hv : m.Leads h r v)
    (hsize : v.size = m.entityCount) (hsign : v.IsUnsigned) :
    (b.hop m r t).Ends (· = v) fun _ => False := by
  have hreplies := hop_replies (r := r) (t := t) (hm.yields_leads laws)
    (List.ne_nil_of_mem hb.mem) hu.index_lt hu.isProbability
  have hends := (hreplies.and (hop_answers hm hu.isProbability)).and
    (hop_unsigned laws hm.wellShaped hu)
  refine hends.mono (fun w hw => ?_) fun f hf => absurd hr (not_lt.2 hf.1.1.1)
  obtain ⟨⟨-, hwsize, hbest⟩, hwsign⟩ := hw
  refine FuzzySet.ext (List.ext_getElem (hwsize.trans hsize.symm) fun i hi hi' => ?_)
  have hp := hbest ⟨i⟩ _ (List.getElem?_eq_getElem hi)
  have hp' := hb.isBest laws hm hu.index_lt hr hv hsize hsign (t := t) (e := ⟨i⟩)
    (List.getElem?_eq_getElem hi')
  exact hp.unique hp' (hwsign _ (List.getElem_mem hi)) (hsign _ (List.getElem_mem hi'))

end Beam

/-! ### Evaluation -/

namespace Model

variable [Elementary] {m : Model} {s : Settings}

/-- A connective with one operand adds nothing to it. -/
theorem evaluateAll_singleton (op : Float32 → Float32 → Float32) (q : Query) :
    m.evaluateAll s op q [] = m.evaluate s q := by
  have hadmit : ∀ v : FuzzySet,
      Evaluation.ofGraph (.ofExcept (FuzzySet.ofDegrees v.degrees)) = Pure.pure v := by
    intro v
    rw [FuzzySet.ofDegrees_eq v.probable]
    rfl
  simp only [evaluateAll, evaluateOn, pure_bind, hadmit, bind_pure]

/-- A hop from any query that denotes a singleton leads where the member leads. -/
theorem evaluate_projection_of_singleton (laws : Elementary.Bounded) (hm : m.Coherent)
    (hk : 1 ≤ s.width) {h : EntityId} {r : RelationId} (hh : h.index < m.entityCount)
    (hr : r.index < m.relationCount) {v : FuzzySet} (hv : m.Leads h r v)
    (hsize : v.size = m.entityCount) (hsign : v.IsUnsigned) {q : Query}
    (hq : ∀ e, q ≠ .entity e) (hsame : m.evaluate s q = m.evaluate s (.entity h)) :
    (m.evaluate s (.projection q r)).Ends (· = v) fun _ => False := by
  rw [evaluate_projection r hq, hsame]
  have hsource : (m.evaluate s (.entity h)).Ends
      (fun w => w.degrees = (List.replicate m.entityCount 0).set h.index 1) fun _ => False :=
    Ends.mapError (FuzzySet.singleton_ends.mono (fun w hw => hw.2)
      fun _ herr => absurd hh (not_lt.2 herr.1))
  refine hsource.bind fun w hw => Ends.mapError ?_
  have hindicates : Indicates m.entityCount w.degrees {h} := hw ▸ indicates_singleton _ h
  exact (Beam.pointsTo_ofSet hindicates hh hk).hop_ends laws hm
    (Beam.unsigned_ofSet hindicates.1 (FuzzySet.isUnsigned_of_singleton hw) _) hr hv hsize hsign

end Model

/-! ### Reasoners -/

namespace Reasoner

/-- A reasoner over three entities in a circle, whose beams are as wide as they may be. -/
def cycle : Reasoner where
  model := .cycle
  index := ⟨⟨["first", "second", "third"], by decide⟩, ⟨["next"], by decide⟩⟩
  settings := ⟨.minimum, .standard, 0, 2, false⟩
  usable := by decide +kernel
  entities_eq := rfl
  relations_eq := rfl

/-- **The direct way and the way through a beam lead to the same answer.**  Asked for one hop
from an entity, from the intersection of this entity alone and from its union alone, a
reasoner returns what the entity leads to, each time the very same degrees. -/
theorem evaluate_directHop [Elementary] (laws : Elementary.Bounded) (r : Reasoner)
    (hm : r.model.Coherent) (hwidth : 1 ≤ r.settings.width) {h : EntityId} {rel : RelationId}
    (hh : h.index < r.model.entityCount) (hrel : rel.index < r.model.relationCount) :
    ∃ v, r.model.Leads h rel v ∧
      (r.evaluate (.projection (.entity h) rel)).result = .ok v ∧
      (r.evaluate (.projection (.intersection [.entity h]) rel)).result = .ok v ∧
      (r.evaluate (.projection (.union [.entity h]) rel)).result = .ok v := by
  obtain ⟨v, hv, hsize, hsign⟩ := hm.exists_leads laws hh hrel
  refine ⟨v, hv, Ends.result_eq ?_, Ends.result_eq ?_, Ends.result_eq ?_⟩
  · -- the model is asked for the one head
    refine Ends.mapError ((Model.hop_replies (hm.yields_leads laws)).mono
      (fun w hw => hw.2.2.2.unique hv) fun _ hout => ?_)
    exact hout.1.elim (absurd hh ∘ not_lt.2) (absurd hrel ∘ not_lt.2)
  · refine Model.evaluate_projection_of_singleton laws hm hwidth hh hrel hv hsize hsign nofun ?_
    rw [Model.evaluate_intersection, Model.evaluateAll_singleton]
  · refine Model.evaluate_projection_of_singleton laws hm hwidth hh hrel hv hsize hsign nofun ?_
    rw [Model.evaluate_union, Model.evaluateAll_singleton]

/-- The beam of the last entity also holds the first one, which carries zero. -/
theorem evaluate_directHop_cycle :
    ∃ v, @Model.Leads Elementary.steep .cycle ⟨2⟩ ⟨0⟩ v ∧
      (@evaluate Elementary.steep cycle (.projection (.entity ⟨2⟩) ⟨0⟩)).result = .ok v ∧
      (@evaluate Elementary.steep cycle
        (.projection (.intersection [.entity ⟨2⟩]) ⟨0⟩)).result = .ok v ∧
      (@evaluate Elementary.steep cycle
        (.projection (.union [.entity ⟨2⟩]) ⟨0⟩)).result = .ok v :=
  @evaluate_directHop Elementary.steep Elementary.bounded_steep cycle Model.coherent_cycle
    one_le_two ⟨2⟩ ⟨0⟩ (Nat.lt_succ_self 2) Nat.zero_lt_one

end Reasoner

end MultiHop
