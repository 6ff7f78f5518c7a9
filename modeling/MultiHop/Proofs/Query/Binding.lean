/-
MultiHop/Proofs/Query/Binding.lean

What payloads are bound to.  Comparing a payload with a shape accepts exactly the
payloads that conform to it (`Payload.fit_eq_ok_iff`).  Every kind of query has a shape
whose conforming payloads stand for a query (`QueryKind.lowers`), and the names of that
query are looked up in the order in which they stand in the payload; so a name that is
unknown and stands leftmost is the one that is reported
(`Query.ofPayload_of_conforms`).

The shapes are built from few parts, a row of siblings with one of three closings, and
there is one lemma for each closing.
-/
import Mathlib.Data.List.Forall2
import MultiHop.Proofs.Index
import MultiHop.Proofs.Query.Basic
import MultiHop.Query.Binding

namespace MultiHop

/-- Induction over shapes: an item of a tuple is a member of a list. -/
@[elab_as_elim]
theorem Shape.induction {motive : Shape → Prop} (symbol : ∀ s, motive (.symbol s))
    (tuple : ∀ items, (∀ item ∈ items, motive item) → motive (.tuple items)) (shape : Shape) :
    motive shape := by
  refine @Shape.rec motive (fun items => ∀ item ∈ items, motive item)
    symbol tuple (fun item hitem => absurd hitem List.not_mem_nil)
    (fun item items ih ihs other hother => ?_) shape
  rcases List.mem_cons.1 hother with rfl | hother
  · exact ih
  · exact ihs other hother

namespace Payload

/-! ### Conforming payloads -/

/-- A payload is laid out like a shape: tuples of as many items, a name for each entity
and relation, and the markers of negation and union. -/
inductive Conforms : Shape → Payload → Prop
  | entity (a : String) : Conforms (.symbol .entity) (.name a)
  | relation (r : String) : Conforms (.symbol .relation) (.name r)
  | negation : Conforms (.symbol .negation) (.name "n")
  | union : Conforms (.symbol .union) (.name "u")
  | tuple (shapes : List Shape) (items : List Payload) :
    List.Forall₂ Conforms shapes items → Conforms (.tuple shapes) (.tuple items)

theorem conforms_tuple {shapes : List Shape} {items : List Payload} :
    Conforms (.tuple shapes) (.tuple items) ↔ List.Forall₂ Conforms shapes items :=
  ⟨fun h => by cases h; assumption, .tuple shapes items⟩

theorem standsAt_iff {s : Symbol} {p : Payload} :
    standsAt s p = true ↔ Conforms (.symbol s) p := by
  constructor
  · intro h
    cases p with
    | tuple items => cases s <;> cases h
    | name a =>
      cases s with
      | entity => exact .entity a
      | relation => exact .relation a
      | negation => rw [show a = "n" from eq_of_beq h]; exact .negation
      | union => rw [show a = "u" from eq_of_beq h]; exact .union
  · rintro (_ | _) <;> rfl

theorem fitAll_eq_ok_iff {shapes : List Shape}
    (h : ∀ s ∈ shapes, ∀ path p, fit path s p = .ok () ↔ Conforms s p) {path : List Nat}
    {position : Nat} {items : List Payload} (hlen : shapes.length = items.length) :
    fitAll path position shapes items = .ok () ↔ List.Forall₂ Conforms shapes items := by
  induction shapes generalizing position items with
  | nil =>
    cases items with
    | nil => exact ⟨fun _ => .nil, fun _ => rfl⟩
    | cons item items => cases hlen
  | cons s shapes ih =>
    cases items with
    | nil => cases hlen
    | cons item items =>
      obtain ⟨hs, hshapes⟩ := List.forall_mem_cons.1 h
      rw [List.forall₂_cons, ← hs (position :: path), ← ih hshapes (Nat.succ.inj hlen), fitAll]
      cases fit (position :: path) s item with
      | ok u => exact ⟨fun h => ⟨rfl, h⟩, fun h => h.2⟩
      | error m => exact ⟨nofun, fun h => nomatch h.1⟩

/-- **Exactly the conforming payloads fit.** -/
theorem fit_eq_ok_iff (shape : Shape) (path : List Nat) (p : Payload) :
    fit path shape p = .ok () ↔ Conforms shape p := by
  induction shape using Shape.induction generalizing path p with
  | symbol s =>
    rw [← standsAt_iff, fit]
    split
    · next h => exact ⟨fun _ => h, fun _ => rfl⟩
    · next h => exact ⟨nofun, fun h' => absurd h' h⟩
  | tuple shapes ih =>
    cases p with
    | name a => exact ⟨nofun, nofun⟩
    | tuple items =>
      rw [conforms_tuple, fit]
      split
      · next hlen => exact fitAll_eq_ok_iff ih hlen
      · next hlen => exact ⟨nofun, fun h => absurd h.length_eq hlen⟩

/-! ### Names in order -/

mutual

/-- Entity and relation names of a payload, from left to right. -/
def slots : Shape → Payload → List (String ⊕ String)
  | .symbol .entity, .name a => [.inl a]
  | .symbol .relation, .name r => [.inr r]
  | .tuple shapes, .tuple items => slotsAll shapes items
  | _, _ => []

/-- The same for the items of a tuple, one after the other. -/
def slotsAll : List Shape → List Payload → List (String ⊕ String)
  | shape :: shapes, item :: items => slots shape item ++ slotsAll shapes items
  | _, _ => []

end

/-- Relation names of a chain of steps. -/
def stepLeaves : List Step → List (String ⊕ String)
  | [] => []
  | .hop r :: steps => .inr r :: stepLeaves steps
  | .negate :: steps => stepLeaves steps

/-- A query over names in which every connective has an operand. -/
abbrev Full (q : NamedQuery) : Prop := q.Proper (fun _ => True) fun _ => True

/-- Conforming payloads stand for a query, whose names are those of the payload in the
same order. -/
def Lowers (shape : Shape) : Prop :=
  ∀ p, Conforms shape p → ∃ q, query? shape p = some q ∧ q.leaves = slots shape p ∧ Full q

/-- The shape is that of a query and does not look like a closing. -/
structure Sibling (shape : Shape) : Prop where
  lowers : Lowers shape
  ne_relation : shape.firstSymbol? ≠ some .relation
  ne_union : shape.firstSymbol? ≠ some .union

/-! ### Rows of siblings -/

theorem row?_cons {shape : Shape} (h : Sibling shape) (shapes : List Shape) (item : Payload)
    (items : List Payload) {q : NamedQuery} {row : Row} (hq : query? shape item = some q)
    (hrow : row? shapes items = some row) :
    row? (shape :: shapes) (item :: items) = some ⟨q :: row.siblings, row.closing⟩ := by
  obtain ⟨-, hr, hu⟩ := h
  -- the shape is neither of the two closings that are tried first
  rw [row?]
  · rw [hq, hrow]
  · rintro shapes items rfl
    exact absurd rfl hr
  · rintro shapes rfl
    exact absurd rfl hu

theorem row?_append {shapes closing : List Shape} {items last : List Payload} {c : Closing}
    (hs : ∀ s ∈ shapes, Sibling s) (hc : List.Forall₂ Conforms shapes items)
    (hlast : row? closing last = some ⟨[], c⟩) :
    ∃ qs, row? (shapes ++ closing) (items ++ last) = some ⟨qs, c⟩ ∧
      qs.length = shapes.length ∧ QueryOver.leavesAll qs = slotsAll shapes items ∧
      ∀ q ∈ qs, Full q := by
  induction hc with
  | nil => exact ⟨[], hlast, rfl, rfl, nofun⟩
  | @cons s p shapes items hp _ ih =>
    obtain ⟨hsib, hrest⟩ := List.forall_mem_cons.1 hs
    obtain ⟨qs, hrow, hlen, hleaves, hfull⟩ := ih hrest
    obtain ⟨q, hq, hqleaves, hqfull⟩ := hsib.lowers p hp
    refine ⟨q :: qs, row?_cons hsib _ p _ hq hrow, congrArg (· + 1) hlen, ?_,
      List.forall_mem_cons.2 ⟨hqfull, hfull⟩⟩
    rw [QueryOver.leavesAll, slotsAll, hqleaves, hleaves]

theorem forall₂_append_left {α β : Type} {R : α → β → Prop} {l₁ l₂ : List α} {u : List β}
    (h : List.Forall₂ R (l₁ ++ l₂) u) :
    ∃ u₁ u₂, u = u₁ ++ u₂ ∧ List.Forall₂ R l₁ u₁ ∧ List.Forall₂ R l₂ u₂ := by
  induction l₁ generalizing u with
  | nil => exact ⟨[], u, rfl, .nil, h⟩
  | cons a l₁ ih =>
    cases h with
    | cons hab hrest =>
      obtain ⟨u₁, u₂, rfl, h₁, h₂⟩ := ih hrest
      exact ⟨_ :: u₁, u₂, rfl, .cons hab h₁, h₂⟩

theorem slotsAll_append {shapes closing : List Shape} {items last : List Payload}
    (hc : List.Forall₂ Conforms shapes items) :
    slotsAll (shapes ++ closing) (items ++ last) =
      slotsAll shapes items ++ slotsAll closing last := by
  induction hc with
  | nil => rfl
  | cons _ _ ih => rw [List.cons_append, List.cons_append, slotsAll, slotsAll, ih,
      List.append_assoc]

/-- A row lowers when its closing does: what is left is to say which query the row
stands for. -/
theorem lowers_row {shapes closing : List Shape} (hs : ∀ s ∈ shapes, Sibling s)
    (hclosing : ∀ last, List.Forall₂ Conforms closing last → ∃ c, row? closing last =
      some ⟨[], c⟩ ∧ ∀ qs : List NamedQuery, qs.length = shapes.length → (∀ q ∈ qs, Full q) →
        (Row.query ⟨qs, c⟩).leaves = QueryOver.leavesAll qs ++ slotsAll closing last ∧
          Full (Row.query ⟨qs, c⟩)) :
    Lowers (.tuple (shapes ++ closing)) := by
  intro p hp
  cases hp with
  | tuple _ items hitems =>
    obtain ⟨first, last, rfl, hfirst, hlast⟩ := forall₂_append_left hitems
    obtain ⟨c, hc, hquery⟩ := hclosing last hlast
    obtain ⟨qs, hrow, hlen, hleaves, hfull⟩ := row?_append hs hfirst hc
    obtain ⟨hqleaves, hqfull⟩ := hquery qs hlen hfull
    refine ⟨Row.query ⟨qs, c⟩, by rw [query?, hrow]; rfl, ?_, hqfull⟩
    rw [hqleaves, slots, slotsAll_append hfirst, hleaves]

/-! ### The three closings -/

theorem lowers_intersection {shapes : List Shape} (hne : shapes ≠ [])
    (hs : ∀ s ∈ shapes, Sibling s) : Lowers (.tuple shapes) := by
  rw [← List.append_nil shapes]
  refine lowers_row hs fun last hlast => ?_
  cases hlast
  refine ⟨.intersection, rfl, fun qs hlen hfull => ⟨(List.append_nil _).symm, ?_⟩⟩
  exact .intersection qs (List.ne_nil_of_length_pos (hlen ▸ List.length_pos_iff.2 hne)) hfull

theorem lowers_union {shapes : List Shape} (hne : shapes ≠ [])
    (hs : ∀ s ∈ shapes, Sibling s) : Lowers (.tuple (shapes ++ [.symbols [.union]])) := by
  refine lowers_row hs fun last hlast => ?_
  obtain ⟨p, rfl⟩ : ∃ p, last = [p] := List.length_eq_one_iff.1 hlast.length_eq.symm
  refine ⟨.union, rfl, fun qs hlen hfull => ⟨?_, ?_⟩⟩
  · cases hlast with
    | cons hp _ =>
      cases hp with
      | tuple _ items hitems =>
        cases hitems with
        | cons hu hnil => cases hu; cases hnil; exact (List.append_nil _).symm
  · exact .union qs (List.ne_nil_of_length_pos (hlen ▸ List.length_pos_iff.2 hne)) hfull

theorem steps?_eq {hops : List Symbol} (h : ∀ s ∈ hops, s = .relation ∨ s = .negation)
    {items : List Payload} (hc : List.Forall₂ Conforms (hops.map .symbol) items) :
    ∃ steps, steps? (hops.map .symbol) items = some steps ∧
      stepLeaves steps = slotsAll (hops.map .symbol) items := by
  induction hops generalizing items with
  | nil => cases hc; exact ⟨[], rfl, rfl⟩
  | cons s hops ih =>
    obtain ⟨hs, hhops⟩ := List.forall_mem_cons.1 h
    rw [List.map_cons] at hc ⊢
    cases hc with
    | cons hp hrest =>
      obtain ⟨steps, hsteps, hleaves⟩ := ih hhops hrest
      rcases hs with rfl | rfl
      · cases hp with
        | relation r =>
          refine ⟨.hop r :: steps, by rw [steps?, hsteps]; rfl, ?_⟩
          rw [stepLeaves, hleaves, slotsAll, slots]
          rfl
      · cases hp with
        | negation => exact ⟨.negate :: steps, by rw [steps?, hsteps]; rfl, hleaves⟩

theorem foldl_after (steps : List Step) {q : NamedQuery} (h : Full q) :
    (steps.foldl Step.after q).leaves = q.leaves ++ stepLeaves steps ∧
      Full (steps.foldl Step.after q) := by
  induction steps generalizing q with
  | nil => exact ⟨(List.append_nil _).symm, h⟩
  | cons step steps ih =>
    cases step with
    | hop r =>
      obtain ⟨hleaves, hfull⟩ := ih (q := .projection q r) (.projection q r h trivial)
      refine ⟨hleaves.trans ?_, hfull⟩
      rw [QueryOver.leaves, stepLeaves, List.append_assoc]
      rfl
    | negate =>
      obtain ⟨hleaves, hfull⟩ := ih (q := .negation q) (.negation q h)
      refine ⟨hleaves.trans ?_, hfull⟩
      rw [QueryOver.leaves, stepLeaves]

theorem lowers_chain {shapes : List Shape} (hne : shapes ≠ []) (hs : ∀ s ∈ shapes, Sibling s)
    {hops : List Symbol} (hhops : ∀ s ∈ hops, s = .relation ∨ s = .negation) :
    Lowers (.tuple (shapes ++ [.symbols (.relation :: hops)])) := by
  refine lowers_row hs fun last hlast => ?_
  have hall : ∀ s ∈ Symbol.relation :: hops, s = .relation ∨ s = .negation :=
    List.forall_mem_cons.2 ⟨.inl rfl, hhops⟩
  obtain ⟨p, rfl⟩ : ∃ p, last = [p] := List.length_eq_one_iff.1 hlast.length_eq.symm
  cases hlast with
  | cons hp _ =>
    cases hp with
    | tuple _ items hitems =>
      obtain ⟨steps, hsteps, hleaves⟩ := steps?_eq hall hitems
      refine ⟨.chain steps, ?_, fun qs hlen hfull => ?_⟩
      · show (steps? ((Symbol.relation :: hops).map .symbol) items).map
          (fun steps => (⟨[], .chain steps⟩ : Row)) = _
        rw [hsteps]
        rfl
      have hslots : slotsAll [.symbols (.relation :: hops)] [.tuple items] = stepLeaves steps :=
        (List.append_nil _).trans hleaves.symm
      rw [hslots]
      -- a single sibling is sent through the chain itself, several in their intersection
      match qs, hlen with
      | [], hlen => exact absurd (List.length_eq_zero_iff.1 hlen.symm) hne
      | [q], _ =>
        obtain ⟨hq, hqfull⟩ := foldl_after steps (hfull q List.mem_cons_self)
        exact ⟨hq.trans (congrArg (· ++ _) (List.append_nil _).symm), hqfull⟩
      | q :: q' :: qs, _ =>
        exact foldl_after steps (.intersection _ (List.cons_ne_nil _ _) hfull)

/-! ### Kinds of queries -/

theorem sibling_entity : Sibling (.symbol .entity) where
  lowers p hp := by
    cases hp with
    | entity a => exact ⟨.entity a, by rw [query?], by rw [QueryOver.leaves, slots], .entity a trivial⟩
  ne_relation := nofun
  ne_union := nofun

theorem lowers_anchored {hops : List Symbol} (hhops : ∀ s ∈ hops, s = .relation ∨ s = .negation) :
    Lowers (.anchored (.relation :: hops)) := by
  have hs : ∀ s ∈ [Shape.symbol .entity], Sibling s :=
    List.forall_mem_singleton.2 sibling_entity
  exact lowers_chain (List.cons_ne_nil _ _) hs hhops

theorem sibling_anchored (hops : List Symbol) (hhops : ∀ s ∈ hops, s = .relation ∨ s = .negation) :
    Sibling (.anchored (.relation :: hops)) :=
  ⟨lowers_anchored hhops, nofun, nofun⟩

theorem siblings_pair {a b : Shape} (ha : Sibling a) (hb : Sibling b) :
    ∀ s ∈ [a, b], Sibling s :=
  List.forall_mem_cons.2 ⟨ha, List.forall_mem_singleton.2 hb⟩

theorem lowers_meet {a b : Shape} (ha : Sibling a) (hb : Sibling b) : Lowers (.tuple [a, b]) :=
  lowers_intersection (List.cons_ne_nil _ _) (siblings_pair ha hb)

theorem lowers_join {a b : Shape} (ha : Sibling a) (hb : Sibling b) :
    Lowers (.tuple [a, b, .symbols [.union]]) :=
  lowers_union (List.cons_ne_nil _ _) (siblings_pair ha hb)

/-- A tuple that begins with a tuple, sent through one relation. -/
theorem lowers_hop {items shapes : List Shape} (h : Lowers (.tuple (.tuple items :: shapes))) :
    Lowers (.tuple [.tuple (.tuple items :: shapes), .symbols [.relation]]) :=
  lowers_chain (List.cons_ne_nil _ _) (List.forall_mem_singleton.2 ⟨h, nofun, nofun⟩) nofun

end Payload

open Payload in
/-- **Every kind of query lowers.** -/
theorem QueryKind.lowers (k : QueryKind) : Lowers k.shape := by
  -- what stands as a sibling in some kind
  have hop1 := sibling_anchored [] nofun
  have hop2 := sibling_anchored [.relation] (by decide)
  have hopNot := sibling_anchored [.negation] (by decide)
  have hopHopNot := sibling_anchored [.relation, .negation] (by decide)
  cases k with
  | hop1 => exact hop1.lowers
  | hop2 => exact hop2.lowers
  | hop3 => exact lowers_anchored (by decide)
  | meet2 => exact lowers_meet hop1 hop1
  | meet3 =>
    exact lowers_intersection (List.cons_ne_nil _ _)
      (List.forall_mem_cons.2 ⟨hop1, siblings_pair hop1 hop1⟩)
  | hopMeet => exact lowers_meet hop2 hop1
  | meetHop => exact lowers_hop (lowers_meet hop1 hop1)
  | meet2Not => exact lowers_meet hop1 hopNot
  | meet3Not =>
    exact lowers_intersection (List.cons_ne_nil _ _)
      (List.forall_mem_cons.2 ⟨hop1, siblings_pair hop1 hopNot⟩)
  | hopMeetNot => exact lowers_meet hop2 hopNot
  | notHopMeet => exact lowers_meet hopHopNot hop1
  | meetNotHop => exact lowers_hop (lowers_meet hop1 hopNot)
  | join2 => exact lowers_join hop1 hop1
  | joinHop => exact lowers_hop (lowers_join hop1 hop1)

/-! ### Tags -/

/-- The tag asks for the kind: by the tag of the kind, or by the name of the disjunctive
normal form of a union. -/
def QueryKind.Spelled (k : QueryKind) (tag : String) : Prop :=
  tag = k.tag ∨ (tag = "2u-DNF" ∧ k = .join2) ∨ (tag = "up-DNF" ∧ k = .joinHop)

theorem QueryKind.ofTag?_eq_some_iff {tag : String} {k : QueryKind} :
    ofTag? tag = some k ↔ tag = k.tag := by
  constructor
  · intro h
    have hk := List.find?_some h
    exact (eq_of_beq hk).symm
  · rintro rfl
    exact ofTag?_tag k

theorem QueryKind.ofSpelling?_eq_some_iff {tag : String} {k : QueryKind} :
    ofSpelling? tag = some k ↔ k.Spelled tag := by
  unfold ofSpelling? plainTag Spelled
  split
  · next h =>
    subst h
    rw [ofTag?_eq_some_iff]
    cases k <;> decide
  · next h2 =>
    split
    · next h =>
      subst h
      rw [ofTag?_eq_some_iff]
      cases k <;> decide
    · next hp =>
      rw [ofTag?_eq_some_iff]
      exact ⟨.inl, fun h => h.resolve_right fun h => h.elim (fun h => h2 h.1) fun h => hp h.1⟩

/-! ### Names of an index -/

/-- The error for a name that an index does not hold. -/
def Index.missing (index : Index) : String ⊕ String → Option GraphError
  | .inl a => if a ∈ index.entities.names then none else some (.entityNotFound a)
  | .inr r => if r ∈ index.relations.names then none else some (.relationNotFound r)

theorem Index.entity_resolves (index : Index) (a : String) :
    Resolves index.missing [.inl a] (index.entity a) fun e => e.index < index.entityCount := by
  unfold Resolves missing entity
  rcases index.entities.position?_cases a with ⟨hnot, hpos⟩ | ⟨hmem, i, hpos, hlt⟩
  · simp [hnot, hpos]
  · simpa [hmem, hpos, entityCount] using hlt

theorem Index.relation_resolves (index : Index) (r : String) :
    Resolves index.missing [.inr r] (index.relation r)
      fun r => r.index < index.relationCount := by
  unfold Resolves missing relation
  rcases index.relations.position?_cases r with ⟨hnot, hpos⟩ | ⟨hmem, i, hpos, hlt⟩
  · simp [hnot, hpos]
  · simpa [hmem, hpos, relationCount] using hlt

/-! ### Binding -/

namespace Query

variable {kind : QueryKind} {payload : Payload} (index : Index)

theorem ofPayload_of_not_conforms (h : ¬ payload.Conforms kind.shape) :
    ∃ m, ofPayload kind payload index = .error (.malformed (.mismatch kind m)) := by
  cases hfit : Payload.fit [] kind.shape payload with
  | ok u => exact absurd ((Payload.fit_eq_ok_iff _ _ _).1 hfit) h
  | error m => exact ⟨m, by rw [ofPayload, NamedQuery.ofPayload, hfit]⟩

/-- **A conforming payload is bound unless a name is unknown**, and then the error is that
of the leftmost one. -/
theorem ofPayload_of_conforms (h : payload.Conforms kind.shape) :
    (∀ e, (payload.slots kind.shape).findSome? index.missing = some e →
        ofPayload kind payload index = .error (.graph e)) ∧
      ((payload.slots kind.shape).findSome? index.missing = none →
        ∃ q : Query, ofPayload kind payload index = .ok q ∧
          q.WellFormed index.entityCount index.relationCount) := by
  obtain ⟨q, hq, hleaves, hfull⟩ := kind.lowers payload h
  have hnamed : NamedQuery.ofPayload kind payload = .ok q := by
    rw [NamedQuery.ofPayload, (Payload.fit_eq_ok_iff _ _ _).2 h, hq]
  have hresolve := QueryOver.resolve_resolves index.entity_resolves index.relation_resolves hfull
  -- the names of the query are those of the payload, in the same order
  rw [hleaves] at hresolve
  unfold Resolves at hresolve
  constructor
  · intro e he
    rw [he] at hresolve
    simp only [ofPayload, hnamed, hresolve]
  · intro hnone
    rw [hnone] at hresolve
    obtain ⟨q', hq', hwf⟩ := hresolve
    exact ⟨q', by simp only [ofPayload, hnamed, hq'], hwf⟩

end Query

end MultiHop
