/-
MultiHop/Proofs/Query/Basic.lean

Queries as trees.  Induction over queries gives every operand of a connective its own
hypothesis.  A query is proper when what it mentions is and every connective has an
operand; resolving the names of a proper query fails exactly with the first one that is
unknown, from left to right, and otherwise gives a proper query (`resolve_resolves`).

The relations of a query are those it hops through (`inr_mem_leaves_iff`).  Not every hop
looks at its relation, so `InRange` asks only for the positions that evaluation comes to.
-/
import MultiHop.Query.Basic

namespace MultiHop

namespace QueryOver

variable {E R : Type}

/-! ### Induction -/

/-- Induction over queries: hops from anchors are told from other hops, and an operand of
a connective is a member of a list. -/
@[elab_as_elim]
theorem induction {motive : QueryOver E R → Prop} (entity : ∀ e, motive (.entity e))
    (anchored : ∀ h r, motive (.projection (.entity h) r))
    (projection : ∀ q r, (∀ h, q ≠ .entity h) → motive q → motive (.projection q r))
    (intersection : ∀ qs, (∀ q ∈ qs, motive q) → motive (.intersection qs))
    (union : ∀ qs, (∀ q ∈ qs, motive q) → motive (.union qs))
    (negation : ∀ q, motive q → motive (.negation q)) (q : QueryOver E R) : motive q := by
  refine @QueryOver.rec E R motive (fun qs => ∀ q ∈ qs, motive q)
    entity (fun q r ih => ?_) intersection union negation (fun q hq => absurd hq List.not_mem_nil)
    (fun q qs ihq ihqs p hp => ?_) q
  · cases q with
    | entity h => exact anchored h r
    | _ => exact projection _ r nofun ih
  · rcases List.mem_cons.1 hp with rfl | hp
    · exact ihq
    · exact ihqs p hp

/-! ### Proper queries -/

/-- Every entity satisfies `okE`, every relation satisfies `okR`, and every connective has
an operand. -/
inductive Proper (okE : E → Prop) (okR : R → Prop) : QueryOver E R → Prop
  | entity (e : E) : okE e → Proper okE okR (.entity e)
  | projection (q : QueryOver E R) (r : R) :
    Proper okE okR q → okR r → Proper okE okR (.projection q r)
  | intersection (qs : List (QueryOver E R)) :
    qs ≠ [] → (∀ q ∈ qs, Proper okE okR q) → Proper okE okR (.intersection qs)
  | union (qs : List (QueryOver E R)) :
    qs ≠ [] → (∀ q ∈ qs, Proper okE okR q) → Proper okE okR (.union qs)
  | negation (q : QueryOver E R) : Proper okE okR q → Proper okE okR (.negation q)

/-- The entities of a query are among the first `n`, its relations among the first `k`,
and every connective has an operand. -/
abbrev WellFormed (n k : Nat) (q : Query) : Prop :=
  q.Proper (fun e => e.index < n) fun r => r.index < k

section

variable {n k : Nat} {e : EntityId} {r : RelationId} {q : Query} {qs : List Query}

theorem wellFormed_entity : WellFormed n k (.entity e) ↔ e.index < n :=
  ⟨fun h => by cases h; assumption, fun h => .entity e h⟩

theorem wellFormed_projection :
    WellFormed n k (.projection q r) ↔ WellFormed n k q ∧ r.index < k :=
  ⟨fun h => by cases h with | projection _ _ hq hr => exact ⟨hq, hr⟩,
    fun h => .projection q r h.1 h.2⟩

theorem wellFormed_intersection :
    WellFormed n k (.intersection qs) ↔ qs ≠ [] ∧ ∀ q ∈ qs, WellFormed n k q :=
  ⟨fun h => by cases h with | intersection _ hne hqs => exact ⟨hne, hqs⟩,
    fun h => .intersection qs h.1 h.2⟩

theorem wellFormed_union :
    WellFormed n k (.union qs) ↔ qs ≠ [] ∧ ∀ q ∈ qs, WellFormed n k q :=
  ⟨fun h => by cases h with | union _ hne hqs => exact ⟨hne, hqs⟩, fun h => .union qs h.1 h.2⟩

theorem wellFormed_negation : WellFormed n k (.negation q) ↔ WellFormed n k q :=
  ⟨fun h => by cases h; assumption, fun h => .negation q h⟩

/-- A well-formed query mentions an entity. -/
theorem WellFormed.pos (h : q.WellFormed n k) : 0 < n := by
  induction h with
  | entity e he => exact Nat.zero_lt_of_lt he
  | projection q r _ _ ih => exact ih
  | intersection qs hne _ ih =>
    obtain ⟨q, hq⟩ := List.exists_mem_of_ne_nil qs hne
    exact ih q hq
  | union qs hne _ ih =>
    obtain ⟨q, hq⟩ := List.exists_mem_of_ne_nil qs hne
    exact ih q hq
  | negation q _ ih => exact ih

end

/-! ### Resolving names -/

mutual

/-- Entities and relations of a query in the order in which they are resolved. -/
def leaves : QueryOver E R → List (E ⊕ R)
  | .entity e => [.inl e]
  | .projection q r => leaves q ++ [.inr r]
  | .intersection qs => leavesAll qs
  | .union qs => leavesAll qs
  | .negation q => leaves q

/-- The same for several queries, one after the other. -/
def leavesAll : List (QueryOver E R) → List (E ⊕ R)
  | [] => []
  | q :: qs => leaves q ++ leavesAll qs

end

theorem leavesAll_eq_flatMap (qs : List (QueryOver E R)) : leavesAll qs = qs.flatMap leaves := by
  induction qs with
  | nil => simp only [leavesAll, List.flatMap_nil]
  | cons q qs ih => simp only [leavesAll, List.flatMap_cons, ih]

/-! ### Hops -/

/-- Where a hop starts: at an anchor, or at the entities of a beam. -/
inductive HopSource where
  | anchor
  | beam
deriving DecidableEq, Repr

mutual

/-- Relations of a query in the order in which they are hopped through, each with the place
where its hop starts. -/
def relations : QueryOver E R → List (HopSource × R)
  | .entity _ => []
  | .projection (.entity _) r => [(.anchor, r)]
  | .projection q r => relations q ++ [(.beam, r)]
  | .intersection qs => relationsAll qs
  | .union qs => relationsAll qs
  | .negation q => relations q

/-- The same for several queries, one after the other. -/
def relationsAll : List (QueryOver E R) → List (HopSource × R)
  | [] => []
  | q :: qs => relations q ++ relationsAll qs

end

theorem relations_projection {q : QueryOver E R} (r : R) (hq : ∀ h, q ≠ .entity h) :
    (QueryOver.projection q r).relations = q.relations ++ [(.beam, r)] := by
  cases q with
  | entity h => exact absurd rfl (hq h)
  | _ => simp only [relations]

theorem relationsAll_eq_flatMap (qs : List (QueryOver E R)) :
    relationsAll qs = qs.flatMap relations := by
  induction qs with
  | nil => simp only [relationsAll, List.flatMap_nil]
  | cons q qs ih => simp only [relationsAll, List.flatMap_cons, ih]

theorem inr_mem_leavesAll_iff {qs : List (QueryOver E R)} {r : R}
    (h : ∀ q ∈ qs, .inr r ∈ q.leaves ↔ ∃ source, (source, r) ∈ q.relations) :
    .inr r ∈ leavesAll qs ↔ ∃ source, (source, r) ∈ relationsAll qs := by
  simp only [leavesAll_eq_flatMap, relationsAll_eq_flatMap, List.mem_flatMap]
  constructor
  · rintro ⟨q, hq, hr⟩
    obtain ⟨source, hs⟩ := (h q hq).1 hr
    exact ⟨source, q, hq, hs⟩
  · rintro ⟨source, q, hq, hs⟩
    exact ⟨q, hq, (h q hq).2 ⟨source, hs⟩⟩

/-- The relations of a query are those it hops through. -/
theorem inr_mem_leaves_iff {q : QueryOver E R} {r : R} :
    .inr r ∈ q.leaves ↔ ∃ source, (source, r) ∈ q.relations := by
  induction q using QueryOver.induction with
  | entity e => simp [leaves, relations]
  | anchored h r' => simp [leaves, relations]
  | projection q r' hq ih =>
    rw [relations_projection r' hq]
    simp [leaves, ih, exists_or]
  | intersection qs ih =>
    simp only [leaves, relations]
    exact inr_mem_leavesAll_iff ih
  | union qs ih =>
    simp only [leaves, relations]
    exact inr_mem_leavesAll_iff ih
  | negation q ih => simpa only [leaves, relations] using ih

/-- Number of hops of a query that start at an anchor, or at a beam. -/
def hopsFrom (source : HopSource) (q : QueryOver E R) : Nat :=
  q.relations.countP fun hop => hop.1 == source

theorem length_relationsAll {qs : List (QueryOver E R)}
    (h : ∀ q ∈ qs, q.relations.length = q.hops) : (relationsAll qs).length = hopsAll qs := by
  induction qs with
  | nil => simp only [relationsAll, hopsAll, List.length_nil]
  | cons q qs ih =>
    obtain ⟨hq, hqs⟩ := List.forall_mem_cons.1 h
    simp only [relationsAll, hopsAll, List.length_append, hq, ih hqs]

theorem length_relations (q : QueryOver E R) : q.relations.length = q.hops := by
  induction q using QueryOver.induction with
  | entity e => simp only [relations, hops, List.length_nil]
  | anchored h r => simp only [relations, hops, List.length_singleton]
  | projection q r hq ih =>
    rw [relations_projection r hq, List.length_append, ih, hops, Nat.add_comm]
    rfl
  | intersection qs ih => simpa only [relations, hops] using length_relationsAll ih
  | union qs ih => simpa only [relations, hops] using length_relationsAll ih
  | negation q ih => simpa only [relations, hops] using ih

/-- Every hop starts at an anchor or at a beam. -/
theorem hopsFrom_add_hopsFrom (q : QueryOver E R) :
    q.hopsFrom .anchor + q.hopsFrom .beam = q.hops := by
  have hbeam : q.hopsFrom .beam =
      q.relations.countP fun hop => decide ¬ (hop.1 == .anchor) = true := by
    apply List.countP_congr
    rintro ⟨source, r⟩ -
    cases source <;> simp
  rw [hbeam, ← length_relations]
  exact (List.length_eq_countP_add_countP _).symm

/-! ### Positions that evaluation comes to -/

/-- With beams of the given width, every position that evaluation comes to is among the
first `n` entities, of which there are some, or the first `k` relations. -/
structure InRange (n k width : Nat) (q : Query) : Prop where
  pos : 0 < n
  entity (e : EntityId) : .inl e ∈ q.leaves → e.index < n
  relation (source : HopSource) (r : RelationId) :
    (source, r) ∈ q.relations → source = .anchor ∨ 0 < width → r.index < k

variable {n k width : Nat} {h e : EntityId} {r : RelationId} {q : Query} {qs : List Query}

theorem inRange_entity (he : e.index < n) : InRange n k width (.entity e) where
  pos := Nat.zero_lt_of_lt he
  entity e' hmem := by
    simp only [leaves, List.mem_singleton] at hmem
    cases hmem
    exact he
  relation source r hmem := by simp [relations] at hmem

theorem inRange_anchored (hh : h.index < n) (hr : r.index < k) :
    InRange n k width (.projection (.entity h) r) where
  pos := Nat.zero_lt_of_lt hh
  entity e hmem := by
    simp only [leaves, List.mem_append, List.mem_singleton, reduceCtorEq, or_false] at hmem
    cases hmem
    exact hh
  relation source r' hmem _ := by
    simp only [relations, List.mem_singleton] at hmem
    cases hmem
    exact hr

theorem inRange_projection (hne : ∀ h, q ≠ .entity h) (hq : q.InRange n k width)
    (hr : 0 < width → r.index < k) : InRange n k width (.projection q r) where
  pos := hq.pos
  entity e hmem := by
    simp only [leaves, List.mem_append, List.mem_singleton, reduceCtorEq, or_false] at hmem
    exact hq.entity e hmem
  relation source r' hmem hsource := by
    rw [relations_projection r hne, List.mem_append, List.mem_singleton] at hmem
    rcases hmem with hmem | heq
    · exact hq.relation source r' hmem hsource
    · cases heq
      exact hr (hsource.resolve_left (by decide))

/-- A connective comes to what its operands come to. -/
theorem inRange_operands (hne : qs ≠ []) (hqs : ∀ q ∈ qs, q.InRange n k width)
    (hleaves : q.leaves = leavesAll qs) (hrelations : q.relations = relationsAll qs) :
    q.InRange n k width where
  pos := by
    obtain ⟨p, hp⟩ := List.exists_mem_of_ne_nil qs hne
    exact (hqs p hp).pos
  entity e hmem := by
    rw [hleaves, leavesAll_eq_flatMap, List.mem_flatMap] at hmem
    obtain ⟨p, hp, hmem⟩ := hmem
    exact (hqs p hp).entity e hmem
  relation source r hmem hsource := by
    rw [hrelations, relationsAll_eq_flatMap, List.mem_flatMap] at hmem
    obtain ⟨p, hp, hmem⟩ := hmem
    exact (hqs p hp).relation source r hmem hsource

end QueryOver

section Resolves

variable {ι ε α β : Type} {missing : ι → Option ε}

/-- The computation `r` looks `leaves` up, one after the other: it fails with the first
error among them, and without any it has an answer that satisfies `P`. -/
def Resolves (missing : ι → Option ε) (leaves : List ι) (r : Except ε α) (P : α → Prop) :
    Prop :=
  match leaves.findSome? missing with
  | some e => r = .error e
  | none => ∃ a, r = .ok a ∧ P a

theorem resolves_pure {P : α → Prop} {a : α} (h : P a) :
    Resolves missing [] (.ok a : Except ε α) P := ⟨a, rfl, h⟩

theorem Resolves.bind {l₁ l₂ : List ι} {r : Except ε α} {f : α → Except ε β} {P : α → Prop}
    {Q : β → Prop} (hr : Resolves missing l₁ r P)
    (hf : ∀ a, P a → Resolves missing l₂ (f a) Q) :
    Resolves missing (l₁ ++ l₂) (r >>= f) Q := by
  unfold Resolves at hr ⊢
  -- the first error of all is one of the first part, if there is one
  rw [List.findSome?_append]
  cases h : l₁.findSome? missing with
  | some e =>
    rw [h] at hr
    rw [hr]
    rfl
  | none =>
    rw [h] at hr
    obtain ⟨a, rfl, ha⟩ := hr
    exact hf a ha

theorem Resolves.map {l : List ι} {r : Except ε α} {f : α → β} {P : α → Prop} {Q : β → Prop}
    (hr : Resolves missing l r P) (hf : ∀ a, P a → Q (f a)) :
    Resolves missing l (r >>= fun a => .ok (f a)) Q := by
  have h : Resolves missing (l ++ []) (r >>= fun a => .ok (f a)) Q :=
    hr.bind fun a ha => resolves_pure (hf a ha)
  rwa [List.append_nil] at h

end Resolves

namespace QueryOver

variable {E R E' R' ε : Type} {entity : E → Except ε E'} {relation : R → Except ε R'}
  {missing : E ⊕ R → Option ε} {okE : E' → Prop} {okR : R' → Prop}

theorem resolveAll_resolves {qs : List (QueryOver E R)}
    (h : ∀ q ∈ qs, Resolves missing q.leaves (q.resolve entity relation) (Proper okE okR)) :
    Resolves missing (leavesAll qs) (resolveAll entity relation qs)
      fun qs' => qs'.length = qs.length ∧ ∀ q ∈ qs', Proper okE okR q := by
  induction qs with
  | nil => exact resolves_pure ⟨rfl, nofun⟩
  | cons q qs ih =>
    obtain ⟨hq, hqs⟩ := List.forall_mem_cons.1 h
    refine hq.bind fun q' hq' => (ih hqs).map fun qs' hqs' => ?_
    exact ⟨congrArg (· + 1) hqs'.1, List.forall_mem_cons.2 ⟨hq', hqs'.2⟩⟩

/-- **Names are resolved from left to right**: the first unknown one is the error, and
without any the query stays proper. -/
theorem resolve_resolves
    (hentity : ∀ e, Resolves missing [.inl e] (entity e) okE)
    (hrelation : ∀ r, Resolves missing [.inr r] (relation r) okR) {q : QueryOver E R}
    (hq : q.Proper (fun _ => True) fun _ => True) :
    Resolves missing q.leaves (q.resolve entity relation) (Proper okE okR) := by
  induction hq with
  | entity e _ => exact (hentity e).map fun e' he' => .entity e' he'
  | projection q r _ _ ih =>
    exact ih.bind fun q' hq' => (hrelation r).map fun r' hr' => .projection q' r' hq' hr'
  | intersection qs hne _ ih =>
    refine (resolveAll_resolves ih).map fun qs' hqs' => .intersection qs' ?_ hqs'.2
    exact List.ne_nil_of_length_pos (hqs'.1 ▸ List.length_pos_iff.2 hne)
  | union qs hne _ ih =>
    refine (resolveAll_resolves ih).map fun qs' hqs' => .union qs' ?_ hqs'.2
    exact List.ne_nil_of_length_pos (hqs'.1 ▸ List.length_pos_iff.2 hne)
  | negation q _ ih => exact ih.map fun q' hq' => .negation q' hq'

end QueryOver

end MultiHop
