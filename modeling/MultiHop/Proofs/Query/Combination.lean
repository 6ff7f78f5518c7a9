/-
MultiHop/Proofs/Query/Combination.lean

The answer to a connective, entity by entity.  `m.HasDegree s e q p` says that the query `q`
has an answer and that the entity `e` is in it to the degree `p`.  The degree in the answer to
a connective is the combination of the degrees in the answers to its operands, and there is
an answer as soon as all operands have one (`Model.hasDegree_query`,
`Model.exists_ok_query_iff`): admitting the combined vector, and nested results again, changes
nothing.  The same is said of negation (`Model.hasDegree_negation`).

These equivalences are how laws of connectives become laws of queries.  Answers cover the same
entities, so two of them are equal if their degrees are (`Model.eq_of_hasDegree`).
-/
import MultiHop.Proofs.Fuzzy.Combination
import MultiHop.Proofs.Query.Unsigned

namespace MultiHop

open Consult

/-- The query that a connective makes of operands. -/
def Connective.query : Connective → List Query → Query
  | intersection, qs => .intersection qs
  | union, qs => .union qs

theorem combined_append_singleton {op : Float32 → Float32 → Float32} {ps : List Float32}
    (p : Float32) (hne : ps ≠ []) : combined op (ps ++ [p]) = op (combined op ps) p := by
  cases ps with
  | nil => exact absurd rfl hne
  | cons q ps =>
    show (ps ++ [p]).foldl op q = op (ps.foldl op q) p
    rw [List.foldl_append]
    rfl

theorem ne_nil_of_forall₂ {α β : Type} {S : α → β → Prop} {xs : List α} {ys : List β}
    (h : List.Forall₂ S xs ys) (hne : xs ≠ []) : ys ≠ [] := by
  rintro rfl
  exact hne (List.forall₂_nil_right_iff.1 h)

theorem isProbability_op (t : TNorm) (c : Connective) {a b : Float32} (ha : IsProbability a)
    (hb : IsProbability b) : IsProbability (t.op c a b) := by
  cases c with
  | intersection => exact t.isProbability_meet ha hb
  | union => exact t.isProbability_join ha hb

namespace Model

variable [Elementary] {m : Model} {s : Settings} {c : Connective} {q q' : Query}
  {qs qs' : List Query} {e : EntityId} {p p' u : Float32} {v w : FuzzySet}

theorem evaluate_query (c : Connective) (q : Query) (qs : List Query) :
    m.evaluate s (c.query (q :: qs)) = m.evaluateAll s (s.tnorm.op c) q qs := by
  cases c with
  | intersection => exact evaluate_intersection q qs
  | union => exact evaluate_union q qs

theorem evaluate_query_nil (c : Connective) :
    m.evaluate s (c.query []) = Evaluation.malformed (.noOperands c) := by
  cases c with
  | intersection => simp only [Connective.query, evaluate]
  | union => simp only [Connective.query, evaluate]

/-! ### Degrees in an answer -/

theorem size_of_ok (hv : (m.evaluate s q).result = .ok v) : v.size = m.entityCount := by
  have hsize := (m.evaluate_covers s q).of_ok hv
  exact hsize

/-- The answer to `q` has the entity `e` to the degree `p`. -/
def HasDegree (m : Model) (s : Settings) (e : EntityId) (q : Query) (p : Float32) : Prop :=
  ∃ v, (m.evaluate s q).result = .ok v ∧ v.degree? e = some p

theorem HasDegree.degree?_eq (h : m.HasDegree s e q p) (hv : (m.evaluate s q).result = .ok v) :
    v.degree? e = some p := by
  obtain ⟨v', hv', hp⟩ := h
  obtain rfl : v = v' := Except.ok.inj (hv.symm.trans hv')
  exact hp

theorem HasDegree.unique (h : m.HasDegree s e q p) (h' : m.HasDegree s e q p') : p = p' := by
  obtain ⟨v, hv, hp⟩ := h'
  exact Option.some.inj ((h.degree?_eq hv).symm.trans hp)

theorem HasDegree.index_lt (h : m.HasDegree s e q p) : e.index < m.entityCount := by
  obtain ⟨v, hv, hp⟩ := h
  have hlt : e.index < v.size := (List.getElem?_eq_some_iff.1 hp).1
  rwa [size_of_ok hv] at hlt

/-- An answer has every entity to some degree. -/
theorem exists_hasDegree (hv : (m.evaluate s q).result = .ok v) (he : e.index < m.entityCount) :
    ∃ p, m.HasDegree s e q p := by
  have hlt : e.index < v.size := (size_of_ok hv).symm ▸ he
  exact ⟨_, v, hv, List.getElem?_eq_getElem hlt⟩

/-- Answers with the same degrees are equal. -/
theorem eq_of_hasDegree (hv : (m.evaluate s q).result = .ok v)
    (hw : (m.evaluate s q').result = .ok w)
    (h : ∀ e p, m.HasDegree s e q p → m.HasDegree s e q' p) : v = w := by
  have hsize : v.size = w.size := (size_of_ok hv).trans (size_of_ok hw).symm
  refine FuzzySet.ext (List.ext_getElem hsize fun i hi hi' => ?_)
  have hp : m.HasDegree s ⟨i⟩ q v.degrees[i] := ⟨v, hv, List.getElem?_eq_getElem hi⟩
  have hp' : m.HasDegree s ⟨i⟩ q' w.degrees[i] := ⟨w, hw, List.getElem?_eq_getElem hi'⟩
  exact (h ⟨i⟩ _ hp).unique hp'

theorem HasDegree.isDegree (laws : Elementary.Bounded) (signs : Elementary.Unsigned)
    (hm : m.WellShaped) (hs : s.negation.Admits s.lambda) (h : m.HasDegree s e q p) :
    IsDegree p := by
  obtain ⟨v, hv, hp⟩ := h
  have hmem : p ∈ v.degrees := List.mem_of_getElem? hp
  exact ⟨v.probable p hmem, ((m.evaluate_unsigned laws signs hm hs q).of_ok hv).2 p hmem⟩

/-! ### Degrees of operands -/

theorem forall₂_unique {ps ps' : List Float32} (h : List.Forall₂ (m.HasDegree s e) qs ps)
    (h' : List.Forall₂ (m.HasDegree s e) qs ps') : ps = ps' := by
  induction h generalizing ps' with
  | nil => cases h'; rfl
  | cons hp _ ih =>
    cases h' with
    | cons hp' hps' => rw [hp.unique hp', ih hps']

theorem exists_forall₂_hasDegree (h : ∀ q ∈ qs, ∃ p, m.HasDegree s e q p) :
    ∃ ps, List.Forall₂ (m.HasDegree s e) qs ps := by
  induction qs with
  | nil => exact ⟨[], .nil⟩
  | cons q qs ih =>
    obtain ⟨⟨p, hp⟩, hqs⟩ := List.forall_mem_cons.1 h
    obtain ⟨ps, hps⟩ := ih hqs
    exact ⟨p :: ps, .cons hp hps⟩

theorem exists_mem_of_forall₂ {ps : List Float32} (h : List.Forall₂ (m.HasDegree s e) qs ps)
    (hq : q ∈ qs) : ∃ p ∈ ps, m.HasDegree s e q p :=
  exists_of_forall₂ h.flip q hq

/-- The degrees in the answers to some queries are the members of a list. -/
theorem mem_iff_of_forall₂ {ps : List Float32} (h : List.Forall₂ (m.HasDegree s e) qs ps) :
    p ∈ ps ↔ ∃ q ∈ qs, m.HasDegree s e q p := by
  constructor
  · intro hp
    exact exists_of_forall₂ h p hp
  · rintro ⟨q, hq, hqp⟩
    obtain ⟨p', hp', hqp'⟩ := exists_mem_of_forall₂ h hq
    rwa [hqp.unique hqp']

theorem isDegree_of_forall₂ (laws : Elementary.Bounded) (signs : Elementary.Unsigned)
    (hm : m.WellShaped) (hs : s.negation.Admits s.lambda) {ps : List Float32}
    (h : List.Forall₂ (m.HasDegree s e) qs ps) : ∀ p ∈ ps, IsDegree p := by
  intro p hp
  obtain ⟨q, -, hq⟩ := (mem_iff_of_forall₂ h).1 hp
  exact hq.isDegree laws signs hm hs

/-! ### Connectives -/

/-- The vector `xs` has one entry per entity, which is the combination of the degrees in the
answers to the operands in `done`, of which there is one at least. -/
structure Combines (m : Model) (s : Settings) (c : Connective) (done : List Query)
    (xs : List Float32) : Prop where
  length : xs.length = m.entityCount
  probable : ∀ p ∈ xs, IsProbability p
  nonempty : done ≠ []
  answered : ∀ q ∈ done, ∃ v, (m.evaluate s q).result = .ok v
  combined (e : EntityId) (u : Float32) : xs[e.index]? = some u →
    ∃ ps, List.Forall₂ (m.HasDegree s e) done ps ∧ u = combined (s.tnorm.op c) ps

theorem combines_singleton (c : Connective) (hv : (m.evaluate s q).result = .ok v) :
    m.Combines s c [q] v.degrees where
  length := size_of_ok hv
  probable := v.probable
  nonempty := List.cons_ne_nil q []
  answered := List.forall_mem_singleton.2 ⟨v, hv⟩
  combined _ u hu := ⟨[u], .cons ⟨v, hv, hu⟩ .nil, rfl⟩

/-- One operand more. -/
theorem Combines.append {done : List Query} {xs : List Float32} (hxs : m.Combines s c done xs)
    (hv : (m.evaluate s q).result = .ok v) :
    m.Combines s c (done ++ [q]) (xs.zipWith (s.tnorm.op c) v.degrees) where
  length := length_zipWith_eq hxs.length (size_of_ok hv)
  probable p hp := by
    obtain ⟨x, hx, y, hy, rfl⟩ := exists_of_mem_zipWith hp
    exact isProbability_op s.tnorm c (hxs.probable x hx) (v.probable y hy)
  nonempty := List.append_ne_nil_of_left_ne_nil hxs.nonempty [q]
  answered := List.forall_mem_append.2 ⟨hxs.answered, List.forall_mem_singleton.2 ⟨v, hv⟩⟩
  combined e u hu := by
    obtain ⟨a, b, ha, hb, rfl⟩ := List.getElem?_zipWith_eq_some.1 hu
    obtain ⟨ps, hps, rfl⟩ := hxs.combined e a ha
    exact ⟨ps ++ [b], List.rel_append hps (.cons ⟨v, hv, hb⟩ .nil),
      (combined_append_singleton b (ne_nil_of_forall₂ hps hxs.nonempty)).symm⟩

theorem gathers_combines (c : Connective) : Gathers (s.tnorm.op c) m.entityCount
    (fun q v => (m.evaluate s q).result = .ok v) (m.Combines s c) where
  size _ _ hv := size_of_ok hv
  length _ _ hxs := hxs.length
  step _ _ _ _ hxs hv := hxs.append hv

/-- An answer to a connective is made of answers to all operands; a failure shows that one of
them has none. -/
theorem evaluate_query_ends (m : Model) (s : Settings) (c : Connective) (qs : List Query) :
    (m.evaluate s (c.query qs)).Ends (fun w => m.Combines s c qs w.degrees)
      fun _ => ¬ (qs ≠ [] ∧ ∀ q ∈ qs, ∃ v, (m.evaluate s q).result = .ok v) := by
  cases qs with
  | nil =>
    rw [evaluate_query_nil]
    exact ends_fail fun h => h.1 rfl
  | cons q qs =>
    rw [evaluate_query]
    have hgathers := gathers_combines (m := m) (s := s) c
    refine evaluateAll_gathers hgathers (fun q' hq' => ?_)
      (fun v hv => combines_singleton c hv) fun xs hxs => ?_
    · refine ends_of_result (fun v hv => hv) ?_
      rintro f hf ⟨-, hall⟩
      obtain ⟨v, hv⟩ := hall q' hq'
      rw [hf] at hv
      cases hv
    · rw [FuzzySet.ofDegrees_eq hxs.probable]
      exact ends_pure hxs

/-- **A connective has an answer if and only if it has operands and all of them have one.** -/
theorem exists_ok_query_iff : (∃ w, (m.evaluate s (c.query qs)).result = .ok w) ↔
    qs ≠ [] ∧ ∀ q ∈ qs, ∃ v, (m.evaluate s q).result = .ok v := by
  have hends := m.evaluate_query_ends s c qs
  cases hres : (m.evaluate s (c.query qs)).result with
  | ok w =>
    have hw := hends.of_ok hres
    exact ⟨fun _ => ⟨hw.nonempty, hw.answered⟩, fun _ => ⟨w, rfl⟩⟩
  | error f =>
    refine ⟨?_, fun h => absurd h (hends.of_error (e := f) hres)⟩
    rintro ⟨w, hw⟩
    cases hw

/-- **The degree in the answer to a connective** is the combination of those in the answers to
its operands. -/
theorem hasDegree_query : m.HasDegree s e (c.query qs) u ↔
    qs ≠ [] ∧ ∃ ps, List.Forall₂ (m.HasDegree s e) qs ps ∧ u = combined (s.tnorm.op c) ps := by
  have hends := m.evaluate_query_ends s c qs
  constructor
  · rintro ⟨w, hw, hu⟩
    have hcombines := hends.of_ok hw
    exact ⟨hcombines.nonempty, hcombines.combined e u hu⟩
  · rintro ⟨hne, ps, hps, rfl⟩
    have hok : ∀ q ∈ qs, ∃ v, (m.evaluate s q).result = .ok v := by
      intro q hq
      obtain ⟨p, -, v, hv, -⟩ := exists_mem_of_forall₂ hps hq
      exact ⟨v, hv⟩
    obtain ⟨w, hw⟩ := (exists_ok_query_iff (c := c)).2 ⟨hne, hok⟩
    -- the connective covers `e` because its first operand does
    obtain ⟨q, hq⟩ := List.exists_mem_of_ne_nil qs hne
    obtain ⟨p, -, hp⟩ := exists_mem_of_forall₂ hps hq
    obtain ⟨u, hu⟩ := exists_hasDegree hw hp.index_lt
    obtain ⟨ps', hps', rfl⟩ := (hends.of_ok hw).combined e u (hu.degree?_eq hw)
    rw [forall₂_unique hps hps']
    exact hu

/-! ### Negation -/

section

variable (laws : Elementary.Bounded) (hs : s.negation.Admits s.lambda)

include laws hs

theorem evaluate_negation_of_ok (hv : (m.evaluate s q).result = .ok v) :
    ∃ w, (m.evaluate s (.negation q)).result = .ok w ∧
      w.degrees = v.degrees.map (s.negation.complement s.lambda) := by
  have hprob : ∀ p ∈ v.degrees.map (s.negation.complement s.lambda), IsProbability p :=
    List.forall_mem_map.2 fun a ha =>
      Negation.isProbability_complement laws hs (v.probable a ha)
  refine ⟨⟨_, hprob⟩, ?_, rfl⟩
  simp only [evaluate]
  rw [bind_of_ok hv, FuzzySet.ofDegrees_eq hprob]
  rfl

/-- **The degree in the answer to a negation** is the complement. -/
theorem hasDegree_negation : m.HasDegree s e (.negation q) u ↔
    ∃ p, m.HasDegree s e q p ∧ u = s.negation.complement s.lambda p := by
  constructor
  · rintro ⟨w, hw, hu⟩
    have hw' := hw
    simp only [evaluate] at hw'
    obtain ⟨v, hv, -⟩ := result_bind_eq_ok_iff.1 hw'
    obtain ⟨w', hw', hdegrees⟩ := evaluate_negation_of_ok laws hs hv
    obtain rfl : w = w' := Except.ok.inj (hw.symm.trans hw')
    unfold FuzzySet.degree? at hu
    rw [hdegrees, List.getElem?_map] at hu
    obtain ⟨p, hp, rfl⟩ := Option.map_eq_some_iff.1 hu
    exact ⟨p, ⟨v, hv, hp⟩, rfl⟩
  · rintro ⟨p, ⟨v, hv, hp⟩, rfl⟩
    obtain ⟨w, hw, hdegrees⟩ := evaluate_negation_of_ok laws hs hv
    refine ⟨w, hw, ?_⟩
    unfold FuzzySet.degree? at hp ⊢
    rw [hdegrees, List.getElem?_map, hp]
    rfl

end

end Model

end MultiHop
