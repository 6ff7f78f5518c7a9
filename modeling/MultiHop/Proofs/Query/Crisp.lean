/-
MultiHop/Proofs/Query/Crisp.lean

Evaluation over a classical graph is exact.  If all logits are infinite, a model is a
graph: a triple is a fact when its logit is positive.  Then a query denotes a set of
entities in the classical way, and the degrees that evaluation returns are the truth
values of membership in that set (`Reasoner.evaluate_crisp`), for every t-norm, negation
and parameter.

The simulation goes kind by kind.  Only beams need a condition, that there are no more
answers than the beam is wide: then the order of the beam keeps all of them
(`Beam.mem_ofSet_of_crisp`), and whatever else is in the beam carries zero and adds
nothing to the best witness (`Beam.isTruthAt_bestWitness`).
-/
import Mathlib.Data.Set.Card
import MultiHop.Proofs.Fuzzy.Crisp
import MultiHop.Proofs.Query.WellFormed

namespace MultiHop

open Consult
open Single (infinity)

/-! ### Truth values at a position -/

/-- The list has the truth value of `P` at position `i`. -/
def IsTruthAt (xs : List Float32) (i : Nat) (P : Prop) : Prop :=
  ∃ p, xs[i]? = some p ∧ IsTruth p P

section

variable {xs ys : List Float32} {i : Nat} {P Q : Prop}

theorem IsTruthAt.congr (h : IsTruthAt xs i P) (hPQ : P ↔ Q) : IsTruthAt xs i Q := by
  obtain ⟨p, hp, ht⟩ := h
  exact ⟨p, hp, ht.congr hPQ⟩

theorem IsTruthAt.isProbability {p : Float32} (h : IsTruthAt xs i P) (hp : xs[i]? = some p) :
    IsProbability p := by
  obtain ⟨q, hq, ht⟩ := h
  cases hp.symm.trans hq
  exact ht.isProbability

end

/-- The list holds, for each of `n` entities, the truth value of its membership in `S`. -/
def Indicates (n : Nat) (xs : List Float32) (S : Set EntityId) : Prop :=
  xs.length = n ∧ ∀ e : EntityId, e.index < n → IsTruthAt xs e.index (e ∈ S)

section

variable {n : Nat} {xs ys : List Float32} {S T : Set EntityId}

theorem Indicates.isProbability (h : Indicates n xs S) : ∀ p ∈ xs, IsProbability p := by
  intro p hp
  obtain ⟨i, hi⟩ := List.mem_iff_getElem?.1 hp
  have hlt : i < n := h.1 ▸ (List.getElem?_eq_some_iff.1 hi).1
  exact (h.2 ⟨i⟩ hlt).isProbability hi

theorem Indicates.congr (h : Indicates n xs S) (hST : ∀ e : EntityId, e.index < n →
    (e ∈ S ↔ e ∈ T)) : Indicates n xs T :=
  ⟨h.1, fun e he => (h.2 e he).congr (hST e he)⟩

theorem Indicates.map {f : Float32 → Float32}
    (hf : ∀ {a P}, IsTruth a P → IsTruth (f a) (¬ P)) (h : Indicates n xs S) :
    Indicates n (xs.map f) Sᶜ := by
  refine ⟨(List.length_map _).trans h.1, fun e he => ?_⟩
  obtain ⟨p, hp, ht⟩ := h.2 e he
  exact ⟨f p, by rw [List.getElem?_map, hp]; rfl, hf ht⟩

theorem Indicates.zipWith {op : Float32 → Float32 → Float32} {c : Prop → Prop → Prop}
    (hop : ∀ {a b P Q}, IsTruth a P → IsTruth b Q → IsTruth (op a b) (c P Q))
    (hx : Indicates n xs S) (hy : Indicates n ys T) :
    Indicates n (xs.zipWith op ys) {e | c (e ∈ S) (e ∈ T)} := by
  refine ⟨length_zipWith_eq hx.1 hy.1, fun e he => ?_⟩
  obtain ⟨p, hp, hP⟩ := hx.2 e he
  obtain ⟨q, hq, hQ⟩ := hy.2 e he
  exact ⟨op p q, by rw [List.getElem?_zipWith, hp, hq], hop hP hQ⟩

theorem indicates_empty (n : Nat) : Indicates n (List.replicate n 0) ∅ :=
  ⟨List.length_replicate, fun _ he => ⟨0, List.getElem?_replicate_of_lt he, isTruth_zero⟩⟩

theorem indicates_singleton (n : Nat) (a : EntityId) :
    Indicates n ((List.replicate n 0).set a.index 1) {a} := by
  refine ⟨by rw [List.length_set, List.length_replicate], fun e he => ?_⟩
  by_cases h : a.index = e.index
  · refine ⟨1, ?_, .inl ⟨congrArg EntityId.mk h.symm, rfl⟩⟩
    rw [h, List.getElem?_set_self (by rwa [List.length_replicate])]
  · refine ⟨0, ?_, .inr ⟨fun heq => h (congrArg EntityId.index heq).symm, rfl⟩⟩
    rw [List.getElem?_set_ne h, List.getElem?_replicate_of_lt he]

end

/-! ### Classical denotation -/

namespace Model

/-- The graph that a model stands for: a triple is a fact when its logit is positive
infinity. -/
def Fact (m : Model) (h : EntityId) (r : RelationId) (t : EntityId) : Prop :=
  ∃ row, m.tails h r = .ok row ∧ row[t.index]? = some infinity

/-- All logits within range are infinite, and heads that are asked for together get the
same replies as one by one. -/
def Crisp (m : Model) : Prop :=
  m.Replies fun h r row => m.tails h r = .ok row ∧ ∀ x ∈ row, x = infinity ∨ x = -infinity

mutual

/-- The classical answers to a query. -/
def denote (m : Model) : Query → Set EntityId
  | .entity e => {e}
  | .projection q r => {t | ∃ h ∈ denote m q, m.Fact h r t}
  | .intersection qs => {e | ∀ s ∈ denoteAll m qs, e ∈ s}
  | .union qs => {e | ∃ s ∈ denoteAll m qs, e ∈ s}
  | .negation q => {e | e.index < m.entityCount ∧ e ∉ denote m q}

/-- The classical answers to several queries. -/
def denoteAll (m : Model) : List Query → List (Set EntityId)
  | [] => []
  | q :: qs => denote m q :: denoteAll m qs

end

variable {m : Model} {e : EntityId} {q : Query} {qs : List Query}

theorem denoteAll_eq_map : m.denoteAll qs = qs.map m.denote := by
  induction qs with
  | nil => rfl
  | cons q qs ih => rw [denoteAll, ih]; rfl

theorem mem_denote_entity {a : EntityId} : e ∈ m.denote (.entity a) ↔ e = a := by
  rw [denote]; exact Iff.rfl

theorem mem_denote_projection {r : RelationId} :
    e ∈ m.denote (.projection q r) ↔ ∃ h ∈ m.denote q, m.Fact h r e := by
  rw [denote]; exact Iff.rfl

theorem mem_denote_intersection :
    e ∈ m.denote (.intersection qs) ↔ ∀ q ∈ qs, e ∈ m.denote q := by
  rw [denote, denoteAll_eq_map]
  exact List.forall_mem_map

theorem mem_denote_union : e ∈ m.denote (.union qs) ↔ ∃ q ∈ qs, e ∈ m.denote q := by
  rw [denote, denoteAll_eq_map]
  simp only [Set.mem_ofPred_eq, List.mem_map, exists_exists_and_eq_and]

theorem mem_denote_negation :
    e ∈ m.denote (.negation q) ↔ e.index < m.entityCount ∧ e ∉ m.denote q := by
  rw [denote]; exact Iff.rfl

/-- No hop from anything but an anchor has more than `k` classical sources. -/
inductive FitsBeam (m : Model) (k : Nat) : Query → Prop
  | entity (e : EntityId) : FitsBeam m k (.entity e)
  | anchored (h : EntityId) (r : RelationId) : FitsBeam m k (.projection (.entity h) r)
  | projection (q : Query) (r : RelationId) :
    FitsBeam m k q → (m.denote q).ncard ≤ k → FitsBeam m k (.projection q r)
  | intersection (qs : List Query) :
    (∀ q ∈ qs, FitsBeam m k q) → FitsBeam m k (.intersection qs)
  | union (qs : List Query) : (∀ q ∈ qs, FitsBeam m k q) → FitsBeam m k (.union qs)
  | negation (q : Query) : FitsBeam m k q → FitsBeam m k (.negation q)

/-- Classical answers are within range. -/
theorem index_lt_of_mem_denote (hm : m.Crisp)
    (hwf : q.WellFormed m.entityCount m.relationCount) :
    ∀ e ∈ m.denote q, e.index < m.entityCount := by
  induction hwf with
  | entity a ha => exact fun e he => mem_denote_entity.1 he ▸ ha
  | projection q r _ hr ih =>
    intro t ht
    obtain ⟨h, hh, row, hrow, hfact⟩ := mem_denote_projection.1 ht
    obtain ⟨row', hrow', hlen, -⟩ := hm.tails h r (ih h hh) hr
    cases hrow.symm.trans hrow'
    exact hlen ▸ (List.getElem?_eq_some_iff.1 hfact).1
  | intersection qs hne _ ih =>
    intro e he
    obtain ⟨q, hq⟩ := List.exists_mem_of_ne_nil qs hne
    exact ih q hq e (mem_denote_intersection.1 he q hq)
  | union qs _ _ ih =>
    intro e he
    obtain ⟨q, hq, he⟩ := mem_denote_union.1 he
    exact ih q hq e he
  | negation q _ _ => exact fun e he => (mem_denote_negation.1 he).1

end Model

/-! ### Beams of truth values -/

namespace Beam

variable {n k : Nat} {v : FuzzySet} {S : Set EntityId} {e : EntityId}

theorem finite_of_index_lt (hS : ∀ e ∈ S, e.index < n) : S.Finite := by
  have hinj : Set.InjOn EntityId.index (Set.preimage EntityId.index {i | i < n}) :=
    fun a _ b _ h => congrArg EntityId.mk h
  exact ((Set.finite_lt_nat n).preimage hinj).subset hS

/-- A beam that is wide enough keeps every member. -/
theorem mem_ofSet_of_crisp (hv : Indicates n v.degrees S) (hS : ∀ e ∈ S, e.index < n)
    (hk : S.ncard ≤ k) (he : e ∈ S) : (e, 1) ∈ (ofSet v k).entries := by
  have hfin := finite_of_index_lt hS
  obtain ⟨p, hp, ht⟩ := hv.2 e (hS e he)
  obtain ⟨-, rfl⟩ | ⟨hnot, -⟩ := ht
  · -- what ranks as high as 1 is a member, and there are at most `k` members
    refine mem_ofSet.2 (mem_topKBy (s := hfin.toFinset.image EntityId.index) hp
      (fun j y hy hle => ?_) ?_)
    · have hj : j < n := hv.1 ▸ (List.getElem?_eq_some_iff.1 hy).1
      obtain ⟨q, hq, hqt⟩ := hv.2 ⟨j⟩ hj
      cases hy.symm.trans hq
      exact Finset.mem_image.2 ⟨⟨j⟩, hfin.mem_toFinset.2 (hqt.of_rankOf_le hle), rfl⟩
    · refine Finset.card_image_le.trans ?_
      rwa [← Set.ncard_eq_toFinset_card S hfin]
  · exact absurd he hnot

theorem isTruth_of_mem_ofSet (hv : Indicates n v.degrees S) :
    ∀ entry ∈ (ofSet v k).entries, IsTruth entry.2 (entry.1 ∈ S) := by
  intro entry hentry
  have hp := degree_of_mem_ofSet hentry
  have hlt : entry.1.index < n := hv.1 ▸ (List.getElem?_eq_some_iff.1 hp).1
  obtain ⟨p, hp', ht⟩ := hv.2 entry.1 hlt
  cases hp.symm.trans hp'
  exact ht

/-- The best witness at a position is the disjunction of all witnesses there. -/
theorem isTruthAt_bestWitness {α : Type} {i : Nat} {R : α → Prop} {entries : List α}
    {rows : List (List Float32)} (hi : i < n)
    (h : List.Forall₂ (fun a row => IsTruthAt row i (R a)) entries rows) :
    IsTruthAt (bestWitness n rows) i (∃ a ∈ entries, R a) := by
  unfold bestWitness
  -- what the fold has reached is true when `P` is, and `P` grows row by row
  suffices hall : ∀ (best : List Float32) (P : Prop), IsTruthAt best i P →
      IsTruthAt (rows.foldl (fun best row => best.zipWith larger row) best) i
        (P ∨ ∃ a ∈ entries, R a) by
    have hstart : IsTruthAt (List.replicate n 0) i False :=
      ⟨0, List.getElem?_replicate_of_lt hi, isTruth_zero⟩
    exact (hall _ _ hstart).congr (by rw [false_or])
  induction h with
  | nil => exact fun best P hbest => hbest.congr (by simp)
  | @cons a row entries rows hrow _ ih =>
    intro best P hbest
    obtain ⟨p, hp, hpt⟩ := hbest
    obtain ⟨q, hq, hqt⟩ := hrow
    refine (ih _ (P ∨ R a) ⟨larger p q, ?_, isTruth_larger hpt hqt⟩).congr ?_
    · rw [List.getElem?_zipWith, hp, hq]
    · rw [List.exists_mem_cons_iff, or_assoc]

end Beam

/-! ### Simulation -/

namespace Model

variable [Elementary] {m : Model} {s : Settings}

/-- A row of infinite logits becomes the indicator of the tails. -/
theorem indicates_fact (laws : Elementary.Crisp) {h : EntityId} {r : RelationId}
    {row : List Float32} (htails : m.tails h r = .ok row)
    (hrow : ∀ x ∈ row, x = infinity ∨ x = -infinity) :
    ∃ v, FuzzySet.ofLogits row = .ok v ∧ Indicates row.length v.degrees {t | m.Fact h r t} := by
  obtain ⟨v, hv, hdegrees⟩ := FuzzySet.ofLogits_crisp laws hrow
  refine ⟨v, hv, FuzzySet.size_ofLogits hv, fun t ht => ?_⟩
  obtain ⟨x, hx⟩ : ∃ x, row[t.index]? = some x := ⟨_, List.getElem?_eq_getElem ht⟩
  refine ⟨sigmoid x, by rw [hdegrees, List.getElem?_map, hx]; rfl, ?_⟩
  -- the sigmoid is true at infinity, which is where the fact is
  refine (isTruth_sigmoid laws (hrow x (List.mem_of_getElem? hx))).congr ⟨?_, ?_⟩
  · rintro rfl
    exact ⟨row, htails, hx⟩
  · rintro ⟨row', hrow', hfact⟩
    cases htails.symm.trans hrow'
    exact Option.some.inj (hx.symm.trans hfact)

/-- The rows of a classical graph are its relations. -/
theorem Crisp.yields (laws : Elementary.Crisp) (hm : m.Crisp) :
    m.Yields fun h r v => Indicates m.entityCount v.degrees {t | m.Fact h r t} :=
  hm.mono fun _ _ _ hlen ⟨htails, hrow⟩ => hlen ▸ indicates_fact laws htails hrow

omit [Elementary] in
/-- Each witness is true when its entity is a source and the triple is a fact. -/
theorem witnesses_isTruthAt (norm : TNorm) {b : Beam} {S : Set EntityId} {r : RelationId}
    {n : Nat} {rows : List FuzzySet}
    (hb : ∀ entry ∈ b.entries, IsTruth entry.2 (entry.1 ∈ S))
    (hrows : List.Forall₂ (fun h v => Indicates n v.degrees {t | m.Fact h r t}) b.entities rows)
    {t : EntityId} (ht : t.index < n) :
    List.Forall₂ (fun entry row => IsTruthAt row t.index (entry.1 ∈ S ∧ m.Fact entry.1 r t))
      b.entries (b.carried.zipWith (fun c row => row.degrees.map (norm.meet c)) rows) := by
  have hboth := List.forall₂_and_left _ _ |>.2 ⟨hb, forall₂_zipWith
    (f := fun c (row : FuzzySet) => row.degrees.map (norm.meet c)) hrows⟩
  refine hboth.imp ?_
  rintro entry _ ⟨hcarried, v, hv, rfl⟩
  obtain ⟨p, hp, hfact⟩ := hv.2 t ht
  exact ⟨norm.meet entry.2 p, by rw [List.getElem?_map, hp]; rfl, norm.isTruth_meet hcarried hfact⟩

/-- A beam that is wide enough leads to the relational image. -/
theorem hop_indicates (laws : Elementary.Crisp) (hm : m.Crisp) {source : FuzzySet}
    {S : Set EntityId} {r : RelationId} (hr : r.index < m.relationCount)
    (hsource : Indicates m.entityCount source.degrees S)
    (hS : ∀ e ∈ S, e.index < m.entityCount) (hk : S.ncard ≤ s.width) :
    ((Beam.ofSet source s.width).hop m r s.tnorm).Ends
      (fun v => Indicates m.entityCount v.degrees {t | ∃ h ∈ S, m.Fact h r t})
      fun _ => False := by
  by_cases hne : (Beam.ofSet source s.width).entries = []
  · -- an empty beam has kept every source, so there are none
    rw [Beam.hop, if_pos (List.isEmpty_iff.2 hne)]
    refine ends_pure ((indicates_empty _).congr fun t _ => ⟨False.elim, ?_⟩)
    rintro ⟨h, hh, -⟩
    have hmem := Beam.mem_ofSet_of_crisp hsource hS hk hh
    rw [hne] at hmem
    exact absurd hmem List.not_mem_nil
  · refine (Beam.hop_replies (hm.yields laws) hne (Beam.index_lt_of_mem_ofSet hsource.1)
      Beam.isProbability_of_mem_ofSet).mono (fun v hv => ?_)
      fun f hf => absurd hr (not_lt.2 hf.1)
    obtain ⟨-, hsize, rows, hrows, hdegrees⟩ := hv
    refine ⟨hsize, fun t ht => ?_⟩
    rw [hdegrees]
    have hwitnesses := witnesses_isTruthAt s.tnorm (Beam.isTruth_of_mem_ofSet hsource)
      (hrows.imp fun h v hv => hv.2) ht
    refine (Beam.isTruthAt_bestWitness ht hwitnesses).congr ⟨?_, ?_⟩
    · rintro ⟨entry, -, hmem, hfact⟩
      exact ⟨entry.1, hmem, hfact⟩
    · -- every source is in the beam
      rintro ⟨h, hh, hfact⟩
      exact ⟨(h, 1), Beam.mem_ofSet_of_crisp hsource hS hk hh, hh, hfact⟩

omit [Elementary] in
/-- The meet of the truth values so far is the truth value of the intersection. -/
theorem gathers_intersection (norm : TNorm) (n : Nat) :
    Gathers norm.meet n (fun q v => Indicates n v.degrees (m.denote q)) fun done xs =>
      Indicates n xs (m.denote (.intersection done)) where
  size _ _ h := h.1
  length _ _ h := h.1
  step done q xs v hxs hv := by
    refine (hxs.zipWith (c := And) norm.isTruth_meet hv).congr fun e _ => ?_
    simp only [mem_denote_intersection, Set.mem_ofPred_eq, List.forall_mem_append,
      List.forall_mem_singleton]

omit [Elementary] in
/-- The join of the truth values so far is the truth value of the union. -/
theorem gathers_union (norm : TNorm) (n : Nat) :
    Gathers norm.join n (fun q v => Indicates n v.degrees (m.denote q)) fun done xs =>
      Indicates n xs (m.denote (.union done)) where
  size _ _ h := h.1
  length _ _ h := h.1
  step done q xs v hxs hv := by
    refine (hxs.zipWith (c := Or) norm.isTruth_join hv).congr fun e _ => ?_
    simp only [mem_denote_union, Set.mem_ofPred_eq, List.mem_append, List.mem_singleton,
      or_and_right, exists_or, exists_eq_left]

omit [Elementary] in
/-- A vector of truth values passes the check at the end of a connective. -/
theorem ofDegrees_indicates {n : Nat} {xs : List Float32} {S : Set EntityId}
    (h : Indicates n xs S) :
    (Evaluation.ofGraph (.ofExcept (FuzzySet.ofDegrees xs))).Ends
      (fun v => Indicates n v.degrees S) fun _ => False := by
  rw [FuzzySet.ofDegrees_eq h.isProbability]
  exact h

/-- **Evaluation simulates the classical denotation.** -/
theorem evaluate_indicates (laws : Elementary.Crisp) (hm : m.Crisp)
    (hs : s.negation.Admits s.lambda) {q : Query}
    (hwf : q.WellFormed m.entityCount m.relationCount) (hfits : m.FitsBeam s.width q) :
    (m.evaluate s q).Ends (fun v => Indicates m.entityCount v.degrees (m.denote q))
      fun _ => False := by
  induction q using QueryOver.induction with
  | entity e =>
    refine Ends.mapError (FuzzySet.singleton_ends.mono (fun v hv => ?_)
      fun _ herr => absurd (QueryOver.wellFormed_entity.1 hwf) (not_lt.2 herr.1))
    rw [hv.2]
    exact (indicates_singleton _ e).congr fun _ _ => mem_denote_entity.symm
  | anchored h r =>
    obtain ⟨hh, hr⟩ := QueryOver.wellFormed_projection.1 hwf
    rw [QueryOver.wellFormed_entity] at hh
    refine Ends.mapError ((hop_replies (hm.yields laws)).mono (fun v hv => ?_) fun f hf => ?_)
    · obtain ⟨-, -, -, hv⟩ := hv
      refine hv.congr fun t _ => ?_
      rw [mem_denote_projection]
      exact ⟨fun hfact => ⟨h, mem_denote_entity.2 rfl, hfact⟩,
        fun ⟨_, hmem, hfact⟩ => mem_denote_entity.1 hmem ▸ hfact⟩
    · rcases hf.1 with hout | hout
      · exact absurd hh (not_lt.2 hout)
      · exact absurd hr (not_lt.2 hout)
  | projection q r hq ih =>
    obtain ⟨hwq, hr⟩ := QueryOver.wellFormed_projection.1 hwf
    obtain ⟨hfq, hk⟩ : m.FitsBeam s.width q ∧ (m.denote q).ncard ≤ s.width := by
      cases hfits with
      | anchored h _ => exact absurd rfl (hq h)
      | projection _ _ hfq hk => exact ⟨hfq, hk⟩
    rw [evaluate_projection r hq]
    refine (ih hwq hfq).bind fun source hsource => Ends.mapError ?_
    refine (hop_indicates laws hm hr hsource (index_lt_of_mem_denote hm hwq) hk).mono
      (fun v hv => ?_) fun _ => False.elim
    exact hv.congr fun _ _ => mem_denote_projection.symm
  | intersection qs ih =>
    obtain ⟨hne, hwqs⟩ := QueryOver.wellFormed_intersection.1 hwf
    have hfqs : ∀ q ∈ qs, m.FitsBeam s.width q := by cases hfits; assumption
    obtain ⟨q, qs, rfl⟩ := List.exists_cons_of_ne_nil hne
    rw [evaluate_intersection]
    refine evaluateAll_gathers (gathers_intersection s.tnorm m.entityCount)
      (fun p hp => ih p hp (hwqs p hp) (hfqs p hp)) (fun v hv => hv.congr fun e _ => ?_)
      fun _ => ofDegrees_indicates
    rw [mem_denote_intersection, List.forall_mem_singleton]
  | union qs ih =>
    obtain ⟨hne, hwqs⟩ := QueryOver.wellFormed_union.1 hwf
    have hfqs : ∀ q ∈ qs, m.FitsBeam s.width q := by cases hfits; assumption
    obtain ⟨q, qs, rfl⟩ := List.exists_cons_of_ne_nil hne
    rw [evaluate_union]
    refine evaluateAll_gathers (gathers_union s.tnorm m.entityCount)
      (fun p hp => ih p hp (hwqs p hp) (hfqs p hp)) (fun v hv => hv.congr fun e _ => ?_)
      fun _ => ofDegrees_indicates
    simp only [mem_denote_union, List.mem_singleton, exists_eq_left]
  | negation q ih =>
    have hfq : m.FitsBeam s.width q := by cases hfits; assumption
    simp only [evaluate]
    refine (ih (QueryOver.wellFormed_negation.1 hwf) hfq).bind fun source hsource => ?_
    refine ofDegrees_indicates ((hsource.map (Negation.isTruth_complement laws hs)).congr
      fun e he => ?_)
    rw [mem_denote_negation]
    exact ⟨fun hnot => ⟨he, hnot⟩, fun h => h.2⟩

end Model

/-- **Evaluation over a classical graph is exact.**  A well-formed query whose hops have no
more sources than the beam is wide is answered with degree 1 for every classical answer
and degree 0 for every other entity. -/
theorem Reasoner.evaluate_crisp [Elementary] (laws : Elementary.Crisp) (r : Reasoner)
    (hm : r.model.Crisp) (q : Query)
    (hwf : q.WellFormed r.model.entityCount r.model.relationCount)
    (hfits : r.model.FitsBeam r.settings.width q) :
    ∃ v, (r.evaluate q).result = .ok v ∧ v.size = r.model.entityCount ∧
      ∀ e : EntityId, e.index < r.model.entityCount →
        (e ∈ r.model.denote q → v.degree? e = some 1) ∧
          (e ∉ r.model.denote q → v.degree? e = some 0) := by
  obtain ⟨v, hv, hsize, htruth⟩ :=
    (r.model.evaluate_indicates laws hm r.admits hwf hfits).exists_ok
  refine ⟨v, hv, hsize, fun e he => ?_⟩
  obtain ⟨p, hp, ⟨hmem, rfl⟩ | ⟨hnot, rfl⟩⟩ := htruth e he
  · exact ⟨fun _ => hp, fun hnot => absurd hmem hnot⟩
  · exact ⟨fun hmem => absurd hmem hnot, fun _ => hp⟩

theorem Model.crisp_swap : Model.swap.Crisp where
  tails h r _ _ := by
    refine ⟨_, rfl, ?_, rfl, ?_⟩
    · split <;> rfl
    · split <;> decide +kernel
  batch _ hown := by cases hown

theorem Model.mem_denote_not_left {e : EntityId} :
    e ∈ Model.swap.denote (.negation (.entity ⟨0⟩)) ↔ e = ⟨1⟩ := by
  rw [mem_denote_negation, mem_denote_entity]
  constructor
  · rintro ⟨hlt, hne⟩
    obtain ⟨i⟩ := e
    have hlt : i < 2 := hlt
    have hpos : i ≠ 0 := fun h => hne (congrArg _ h)
    exact congrArg _ (by omega)
  · rintro rfl
    exact ⟨Nat.one_lt_two, by decide⟩

theorem Reasoner.evaluate_crisp_swap :
    ∃ v, (@Reasoner.evaluate Elementary.steep .swap
        (.projection (.negation (.entity ⟨0⟩)) ⟨0⟩)).result = .ok v ∧
      v.degree? ⟨0⟩ = some 1 ∧ v.degree? ⟨1⟩ = some 0 := by
  have hcard : (Model.swap.denote (.negation (.entity ⟨0⟩))).ncard ≤ 1 := by
    rw [show Model.swap.denote (.negation (.entity ⟨0⟩)) = {⟨1⟩} from
      Set.ext fun _ => Model.mem_denote_not_left, Set.ncard_singleton]
  obtain ⟨v, hv, -, hdegrees⟩ := @evaluate_crisp Elementary.steep Elementary.crisp_steep .swap
    Model.crisp_swap _ (.projection _ _ (.negation _ (.entity _ Nat.zero_lt_two))
      Nat.zero_lt_one) (.projection _ _ (.negation _ (.entity _)) hcard)
  refine ⟨v, hv, (hdegrees ⟨0⟩ Nat.zero_lt_two).1 ?_, (hdegrees ⟨1⟩ Nat.one_lt_two).2 ?_⟩
  · exact Model.mem_denote_projection.2
      ⟨⟨1⟩, Model.mem_denote_not_left.2 rfl, [infinity, -infinity], rfl, rfl⟩
  · rw [Model.mem_denote_projection]
    rintro ⟨h, hh, row, hrow, hfact⟩
    cases Model.mem_denote_not_left.1 hh
    cases hrow
    exact absurd hfact (by decide +kernel)

end MultiHop
