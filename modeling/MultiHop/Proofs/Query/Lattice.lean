/-
MultiHop/Proofs/Query/Lattice.lean

Laws of intersections and unions.  With minimum and maximum the answer to a connective is, entity
by entity, the least or the greatest of the degrees in the answers to its operands.  Operands
of operands that are the same connective may be counted as its own:

    (.intersection [a, .intersection [b, a], c]).operands .intersection = [a, b, a, c]

and the answer depends on which operands there are and on nothing else (`Model.isExtreme_operands`).
So order, repetition and grouping are all one law.  The standard negation turns intersections
into unions of negations, and unions into intersections.

With the product these laws fail, because it is rounded, and two are left: the first two
operands may change places, and a connective that is the first operand of itself may be opened.

Main result: `Reasoner.evaluate_lattice`.
-/
import MultiHop.Proofs.Query.Combination
import MultiHop.Proofs.Query.DirectHop

namespace MultiHop

namespace QueryOver

mutual

/-- The operands of a query as one of the connective `c`, at any depth; a query that is not made
by `c` is its own operand. -/
def operands (c : Connective) : Query → List Query
  | .intersection qs =>
    match c with
    | .intersection => operandsAll c qs
    | .union => [.intersection qs]
  | .union qs =>
    match c with
    | .intersection => [.union qs]
    | .union => operandsAll c qs
  | .entity e => [.entity e]
  | .projection q r => [.projection q r]
  | .negation q => [.negation q]

/-- The same for several queries, one after the other. -/
def operandsAll (c : Connective) : List Query → List Query
  | [] => []
  | q :: qs => operands c q ++ operandsAll c qs

end

theorem operandsAll_eq_flatMap (c : Connective) (qs : List Query) :
    operandsAll c qs = qs.flatMap (·.operands c) := by
  induction qs with
  | nil => simp only [operandsAll, List.flatMap_nil]
  | cons q qs ih => simp only [operandsAll, List.flatMap_cons, ih]

theorem operands_query (c : Connective) (qs : List Query) :
    (c.query qs).operands c = qs.flatMap (·.operands c) := by
  cases c <;> simp only [Connective.query, operands, operandsAll_eq_flatMap]

example (a b c : EntityId) :
    operands .intersection (.intersection [.entity a, .intersection [.entity b, .entity a],
      .union [.entity c]]) = [.entity a, .entity b, .entity a, .union [.entity c]] := rfl

/-- A connective of well-formed operands is well formed. -/
theorem wellFormed_query {c : Connective} {n k : Nat} {qs : List Query} (hne : qs ≠ [])
    (h : ∀ q ∈ qs, WellFormed n k q) : WellFormed n k (c.query qs) := by
  cases c with
  | intersection => exact .intersection qs hne h
  | union => exact .union qs hne h

end QueryOver

open QueryOver

namespace Model

variable [Elementary] {m : Model} {s : Settings} {c : Connective} {q q' : Query}
  {qs qs' ps : List Query} {e : EntityId} {p u : Float32}

/-- The degrees in the answers to some queries. -/
def degreesOf (m : Model) (s : Settings) (e : EntityId) (qs : List Query) : Set Float32 :=
  {p | ∃ q ∈ qs, m.HasDegree s e q p}

/-! ### The first operand -/

section

variable (laws : Elementary.Bounded) (signs : Elementary.Unsigned) (hm : m.WellShaped)
  (hs : s.negation.Admits s.lambda)

/-- A connective that is the first operand of itself may be opened. -/
theorem hasDegree_query_nested (hu : m.HasDegree s e (c.query (c.query ps :: qs)) u) :
    m.HasDegree s e (c.query (ps ++ qs)) u := by
  obtain ⟨-, ws, hws, rfl⟩ := hasDegree_query.1 hu
  cases hws with
  | cons hw hws =>
    obtain ⟨hne, vs, hvs, rfl⟩ := hasDegree_query.1 hw
    rw [combined_nested _ (ne_nil_of_forall₂ hvs hne)]
    exact hasDegree_query.2 ⟨List.append_ne_nil_of_left_ne_nil hne qs, _,
      List.rel_append hvs hws, rfl⟩

include laws signs hm hs

/-- The first two operands may change places. -/
theorem hasDegree_query_swap (hu : m.HasDegree s e (c.query (q :: q' :: qs)) u) :
    m.HasDegree s e (c.query (q' :: q :: qs)) u := by
  obtain ⟨-, ps, hps, rfl⟩ := hasDegree_query.1 hu
  cases hps with
  | cons hp hps =>
    cases hps with
    | cons hp' hps =>
      rw [combined_swap s.tnorm c (hp.isDegree laws signs hm hs) (hp'.isDegree laws signs hm hs)]
      exact hasDegree_query.2 ⟨List.cons_ne_nil _ _, _, .cons hp' (.cons hp hps), rfl⟩

/-! ### Minimum and maximum -/

theorem isDegree_of_mem_degreesOf : ∀ p ∈ m.degreesOf s e qs, IsDegree p := by
  rintro p ⟨q, -, hp⟩
  exact hp.isDegree laws signs hm hs

theorem isExtreme_self (c : Connective) (hp : m.HasDegree s e q p) :
    c.IsExtreme (m.degreesOf s e [q]) p := by
  have hle := (hp.isDegree laws signs hm hs).le_self
  have hmem : p ∈ m.degreesOf s e [q] := ⟨q, List.mem_singleton_self q, hp⟩
  have honly : ∀ x ∈ m.degreesOf s e [q], x = p := by
    rintro x ⟨q', hq', hx⟩
    obtain rfl := List.mem_singleton.1 hq'
    exact hx.unique hp
  cases c with
  | intersection => exact ⟨hmem, fun x hx => (honly x hx).symm ▸ hle⟩
  | union => exact ⟨hmem, fun x hx => (honly x hx).symm ▸ hle⟩

/-- The extreme one of the degrees that are extreme for each operand. -/
theorem isExtreme_query (ht : s.tnorm = .minimum) (hp : m.HasDegree s e (c.query qs) p)
    (h : ∀ q ∈ qs, ∀ x, m.HasDegree s e q x →
      c.IsExtreme (m.degreesOf s e (q.operands c)) x) :
    c.IsExtreme (m.degreesOf s e ((c.query qs).operands c)) p := by
  obtain ⟨hne, ps, hps, rfl⟩ := hasDegree_query.1 hp
  have hextreme := isExtreme_combined (c := c) (ne_nil_of_forall₂ hps hne)
    (isDegree_of_forall₂ laws signs hm hs hps)
  rw [ht, operands_query]
  refine hextreme.of_extremes ?_ ?_
  · intro x hx
    obtain ⟨q, hq, hqx⟩ := (mem_iff_of_forall₂ hps).1 hx
    refine ⟨m.degreesOf s e (q.operands c), ?_, h q hq x hqx⟩
    rintro y ⟨o, ho, hy⟩
    exact ⟨o, List.mem_flatMap.2 ⟨q, hq, ho⟩, hy⟩
  · rintro y ⟨o, ho, hy⟩
    obtain ⟨q, hq, ho⟩ := List.mem_flatMap.1 ho
    obtain ⟨x, hx, hqx⟩ := exists_mem_of_forall₂ hps hq
    exact ⟨x, hx, m.degreesOf s e (q.operands c), ⟨o, ho, hy⟩, h q hq x hqx⟩

/-- **The least or the greatest.**  With minimum and maximum the degree in the answer to a query
is extreme among the degrees in the answers to its operands, at whatever depth they are. -/
theorem isExtreme_operands (ht : s.tnorm = .minimum) (c : Connective)
    (hp : m.HasDegree s e q p) : c.IsExtreme (m.degreesOf s e (q.operands c)) p := by
  induction q using QueryOver.induction generalizing p with
  | intersection qs ih =>
    cases c with
    | intersection =>
      exact isExtreme_query laws signs hm hs ht hp fun q hq x hx => ih q hq hx
    | union => simpa only [operands] using isExtreme_self laws signs hm hs .union hp
  | union qs ih =>
    cases c with
    | intersection =>
      simpa only [operands] using isExtreme_self laws signs hm hs .intersection hp
    | union => exact isExtreme_query laws signs hm hs ht hp fun q hq x hx => ih q hq hx
  | _ => simpa only [operands] using isExtreme_self laws signs hm hs c hp

/-- Queries with the same operands have the same degrees. -/
theorem hasDegree_of_operands (ht : s.tnorm = .minimum)
    (hsame : ∀ o, o ∈ q.operands c ↔ o ∈ q'.operands c) (hp : m.HasDegree s e q p)
    (hp' : m.HasDegree s e q' u) : p = u := by
  have hset : m.degreesOf s e (q.operands c) = m.degreesOf s e (q'.operands c) := by
    unfold degreesOf
    simp only [hsame]
  have hextreme := isExtreme_operands laws signs hm hs ht c hp
  rw [hset] at hextreme
  exact hextreme.unique (isDegree_of_mem_degreesOf laws signs hm hs)
    (isExtreme_operands laws signs hm hs ht c hp')

/-- De Morgan: the standard negation of a connective is the other connective of negations. -/
theorem hasDegree_negation_query (ht : s.tnorm = .minimum) (hn : s.negation = .standard)
    (hu : m.HasDegree s e (.negation (c.query qs)) u) :
    m.HasDegree s e (c.dual.query (qs.map .negation)) u := by
  obtain ⟨p, hp, rfl⟩ := (hasDegree_negation laws hs).1 hu
  obtain ⟨hne, ps, hps, rfl⟩ := hasDegree_query.1 hp
  have hcomplement : ∀ p, s.negation.complement s.lambda p = 1 - p := by
    intro p
    rw [hn]
    rfl
  have hnegated : List.Forall₂ (m.HasDegree s e) (qs.map .negation) (ps.map fun p => 1 - p) := by
    rw [List.forall₂_map_left_iff, List.forall₂_map_right_iff]
    exact hps.imp fun q p hp => (hasDegree_negation laws hs).2 ⟨p, hp, (hcomplement p).symm⟩
  refine hasDegree_query.2 ⟨by simpa using hne, _, hnegated, ?_⟩
  rw [hcomplement, ht]
  exact one_sub_combined c (ne_nil_of_forall₂ hps hne) (isDegree_of_forall₂ laws signs hm hs hps)

end

end Model

/-! ### Reasoners -/

namespace Reasoner

variable [Elementary] {r : Reasoner} {c : Connective} {q q' : Query} {ps qs qs' : List Query}

/-- The query mentions what the reasoner's model covers, and its connectives have operands. -/
abbrev Understands (r : Reasoner) (q : Query) : Prop :=
  q.WellFormed r.model.entityCount r.model.relationCount

/-- Both queries have an answer, and it is the same one. -/
def SameAnswer (r : Reasoner) (q q' : Query) : Prop :=
  ∃ v, (r.evaluate q).result = .ok v ∧ (r.evaluate q').result = .ok v

section

variable (laws : Elementary.Bounded) (signs : Elementary.Unsigned) (hm : r.model.WellShaped)

include laws hm

theorem exists_ok_of_understands (hq : r.Understands q) : ∃ v, (r.evaluate q).result = .ok v := by
  have hends := r.model.evaluate_ends laws hm (Settings.calibrated laws r.admits) q
  cases hres : (r.evaluate q).result with
  | ok v => exact ⟨v, rfl⟩
  | error f => exact absurd hq (hends.of_error hres).1

/-- Queries with the same degrees have the same answer. -/
theorem sameAnswer_of_hasDegree (hq : r.Understands q) (hq' : r.Understands q')
    (h : ∀ e p, r.model.HasDegree r.settings e q p → r.model.HasDegree r.settings e q' p) :
    r.SameAnswer q q' := by
  obtain ⟨v, hv⟩ := exists_ok_of_understands laws hm hq
  obtain ⟨w, hw⟩ := exists_ok_of_understands laws hm hq'
  obtain rfl := Model.eq_of_hasDegree hv hw h
  exact ⟨v, hv, hw⟩

include signs

/-- Queries with the same operands have the same answer. -/
theorem sameAnswer_of_operands (ht : r.settings.tnorm = .minimum) (hq : r.Understands q)
    (hq' : r.Understands q') (hsame : ∀ o, o ∈ q.operands c ↔ o ∈ q'.operands c) :
    r.SameAnswer q q' := by
  obtain ⟨w, hw⟩ := exists_ok_of_understands laws hm hq'
  refine sameAnswer_of_hasDegree laws hm hq hq' fun e p hp => ?_
  obtain ⟨u, hu⟩ := Model.exists_hasDegree hw hp.index_lt
  rwa [Model.hasDegree_of_operands laws signs hm r.admits ht hsame hp hu]

/-- Neither the order nor repetition of the operands makes a difference. -/
theorem sameAnswer_of_mem_iff (ht : r.settings.tnorm = .minimum) (hne : qs ≠ [])
    (hqs : ∀ q ∈ qs, r.Understands q) (hsame : ∀ q, q ∈ qs ↔ q ∈ qs') :
    r.SameAnswer (c.query qs) (c.query qs') := by
  have hne' : qs' ≠ [] := by
    obtain ⟨q, hq⟩ := List.exists_mem_of_ne_nil qs hne
    exact List.ne_nil_of_mem ((hsame q).1 hq)
  have hqs' : ∀ q ∈ qs', r.Understands q := fun q hq => hqs q ((hsame q).2 hq)
  apply sameAnswer_of_operands laws signs hm ht (wellFormed_query hne hqs)
    (wellFormed_query hne' hqs') (c := c)
  intro o
  simp only [operands_query, List.mem_flatMap, hsame]

theorem sameAnswer_negation_query (ht : r.settings.tnorm = .minimum)
    (hn : r.settings.negation = .standard) (hne : qs ≠ []) (hqs : ∀ q ∈ qs, r.Understands q) :
    r.SameAnswer (.negation (c.query qs)) (c.dual.query (qs.map .negation)) := by
  apply sameAnswer_of_hasDegree laws hm
  · exact .negation _ (wellFormed_query hne hqs)
  · refine wellFormed_query (by simpa using hne) (List.forall_mem_map.2 fun q hq => ?_)
    exact .negation q (hqs q hq)
  · intro e p hp
    exact Model.hasDegree_negation_query laws signs hm r.admits ht hn hp

theorem sameAnswer_swap (hqs : ∀ p ∈ q :: q' :: qs, r.Understands p) :
    r.SameAnswer (c.query (q :: q' :: qs)) (c.query (q' :: q :: qs)) := by
  have hqs' : ∀ p ∈ q' :: q :: qs, r.Understands p := fun p hp =>
    hqs p ((List.Perm.swap q q' qs).mem_iff.1 hp)
  apply sameAnswer_of_hasDegree laws hm (wellFormed_query (List.cons_ne_nil _ _) hqs)
    (wellFormed_query (List.cons_ne_nil _ _) hqs')
  intro e p hp
  exact Model.hasDegree_query_swap laws signs hm r.admits hp

omit signs in
theorem sameAnswer_nested (hne : ps ≠ []) (hall : ∀ p ∈ ps ++ qs, r.Understands p) :
    r.SameAnswer (c.query (c.query ps :: qs)) (c.query (ps ++ qs)) := by
  obtain ⟨hps, hqs⟩ := List.forall_mem_append.1 hall
  apply sameAnswer_of_hasDegree laws hm
  · exact wellFormed_query (List.cons_ne_nil _ _)
      (List.forall_mem_cons.2 ⟨wellFormed_query hne hps, hqs⟩)
  · exact wellFormed_query (List.append_ne_nil_of_left_ne_nil hne qs) hall
  · intro e p hp
    exact Model.hasDegree_query_nested hp

end

/-- **Lattice laws.**  Let the operands be well formed, and let there be one at least.  With
minimum and maximum, intersections and unions of the same operands have the same answer, in
whatever order, however often and in whatever groups the operands occur, and the standard
negation of an intersection is the union of the negations, and the other way round.  With
either t-norm the first two operands may change places, and a connective that is the first
operand of itself may be opened. -/
theorem evaluate_lattice (laws : Elementary.Bounded) (signs : Elementary.Unsigned)
    (r : Reasoner) (hm : r.model.WellShaped) (c : Connective) :
    (r.settings.tnorm = .minimum →
      (∀ qs qs', qs ≠ [] → (∀ q ∈ qs, r.Understands q) → (∀ q, q ∈ qs ↔ q ∈ qs') →
        r.SameAnswer (c.query qs) (c.query qs')) ∧
      (∀ q q', r.Understands q → r.Understands q' →
        (∀ o, o ∈ q.operands c ↔ o ∈ q'.operands c) → r.SameAnswer q q') ∧
      (r.settings.negation = .standard → ∀ qs, qs ≠ [] → (∀ q ∈ qs, r.Understands q) →
        r.SameAnswer (.negation (c.query qs)) (c.dual.query (qs.map .negation)))) ∧
    (∀ q q' qs, (∀ p ∈ q :: q' :: qs, r.Understands p) →
      r.SameAnswer (c.query (q :: q' :: qs)) (c.query (q' :: q :: qs))) ∧
    ∀ ps qs, ps ≠ [] → (∀ p ∈ ps ++ qs, r.Understands p) →
      r.SameAnswer (c.query (c.query ps :: qs)) (c.query (ps ++ qs)) := by
  refine ⟨fun ht => ⟨?_, ?_, ?_⟩, ?_, ?_⟩
  · intro qs qs' hne hqs hsame
    exact sameAnswer_of_mem_iff laws signs hm ht hne hqs hsame
  · intro q q' hq hq' hsame
    exact sameAnswer_of_operands laws signs hm ht hq hq' hsame
  · intro hn qs hne hqs
    exact sameAnswer_negation_query laws signs hm ht hn hne hqs
  · intro q q' qs hqs
    exact sameAnswer_swap laws signs hm hqs
  · intro ps qs hne hall
    exact sameAnswer_nested laws hm hne hall

omit [Elementary] in
/-- An anchor and what it leads to, in other groups, and negated. -/
theorem evaluate_lattice_cycle :
    @SameAnswer Elementary.steep cycle
        (.intersection [.entity ⟨0⟩, .projection (.entity ⟨2⟩) ⟨0⟩])
        (.intersection [.intersection [.projection (.entity ⟨2⟩) ⟨0⟩, .entity ⟨0⟩], .entity ⟨0⟩]) ∧
      @SameAnswer Elementary.steep cycle
        (.negation (.intersection [.entity ⟨0⟩, .projection (.entity ⟨2⟩) ⟨0⟩]))
        (.union [.negation (.entity ⟨0⟩), .negation (.projection (.entity ⟨2⟩) ⟨0⟩)]) := by
  have hanchor : cycle.Understands (.entity ⟨0⟩) := .entity _ (Nat.succ_pos 2)
  have hhop : cycle.Understands (.projection (.entity ⟨2⟩) ⟨0⟩) :=
    .projection _ _ (.entity _ (Nat.lt_succ_self 2)) Nat.zero_lt_one
  have hpair : ∀ {q q'}, cycle.Understands q → cycle.Understands q' →
      ∀ p ∈ [q, q'], cycle.Understands p :=
    fun hq hq' => List.forall_mem_cons.2 ⟨hq, List.forall_mem_singleton.2 hq'⟩
  have hnested := wellFormed_query (c := .intersection) (List.cons_ne_nil _ _)
    (hpair hhop hanchor)
  obtain ⟨hminimum, -⟩ := @evaluate_lattice Elementary.steep Elementary.bounded_steep
    Elementary.unsigned_steep cycle Model.coherent_cycle.wellShaped .intersection
  obtain ⟨-, hgroups, hnegation⟩ := hminimum rfl
  constructor
  · refine hgroups _ _ (wellFormed_query (c := .intersection) (List.cons_ne_nil _ _)
      (hpair hanchor hhop)) (wellFormed_query (c := .intersection) (List.cons_ne_nil _ _)
        (hpair hnested hanchor)) fun o => ?_
    simp only [operands, operandsAll, List.append_nil, List.cons_append,
      List.nil_append, List.mem_cons, List.not_mem_nil, or_false]
    tauto
  · exact hnegation rfl _ (List.cons_ne_nil _ _) (hpair hanchor hhop)

end Reasoner

end MultiHop
