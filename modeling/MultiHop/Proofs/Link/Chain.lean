/-
MultiHop/Proofs/Link/Chain.lean

Where a chain of relations leads.  A chain is followed by a loop over its relations, which carries
the entities reached so far and notes every expansion on the way.  Where it leads is said without
the loop.  One hop takes a set of entities to all that the predictor keeps for one of them, and

    p.frontier width F rs

is where the hops of `rs` take the entities of `F`, one relation after the other.

Design.  What one hop of the loop leaves behind is a list of expansions, one for each entity of the
frontier (`Expands`), and what a run leaves behind is a trace (`Traces`): its answers are the last
frontier, and it has one expansion for each hop and each entity of the frontier before that hop.
One hop put before a trace makes a trace (`Traces.cons`), so every run makes one
(`LinkPredictor.follow_ends`).  There is an answer exactly if the predictor scores every entity
that it expands (`LinkPredictor.Runs`).

A frontier is reached from each of its origins alone (`LinkPredictor.mem_frontier_iff`), so a chain
may be cut in two and its second part be followed from every answer of the first.  And if more
tails are kept, every frontier grows (`LinkPredictor.frontier_mono`).

Main results: `LinkPredictor.chain_follows_frontiers`, `LinkPredictor.chain_extends_to_wider`.
-/
import Mathlib.Algebra.Order.BigOperators.Group.List
import Mathlib.Data.Set.Basic
import MultiHop.Link.Chain
import MultiHop.Proofs.Ascending
import MultiHop.Proofs.Consult
import MultiHop.Proofs.Link.Masking

namespace MultiHop

open Consult
open Ascending (IsAscending)

/-! ### Best entities -/

namespace FuzzySet

/-- The best entities for a smaller width are the first of those for a larger one. -/
theorem best_prefix {j k : Nat} (hjk : j ≤ k) (s : FuzzySet) : s.best j <+: s.best k := by
  apply List.IsPrefix.map
  exact List.take_prefix_take_left hjk

theorem length_best_le (s : FuzzySet) (k : Nat) : (s.best k).length ≤ k := by
  rw [best, List.length_map, length_topKBy]
  exact Nat.min_le_left _ _

theorem index_lt_of_mem_best {s : FuzzySet} {k : Nat} {entry : EntityId × Float32}
    (h : entry ∈ s.best k) : entry.1.index < s.size := by
  obtain ⟨⟨i, x⟩, hmem, rfl⟩ := List.mem_map.1 h
  exact (List.getElem?_eq_some_iff.1 (getElem?_of_mem_topKBy hmem)).1

end FuzzySet

/-- The order of the expansions of a chain: by hop, and by head within a hop. -/
def Expansion.Before (x y : Expansion) : Prop :=
  x.hop < y.hop ∨ x.hop = y.hop ∧ compare x.head y.head = .lt

/-- The model replies to every request for tails with one logit per entity. -/
def Model.FullRows (m : Model) : Prop :=
  ∀ h r row, m.tails h r = .ok row → row.length = m.entityCount

namespace LinkPredictor

variable [Elementary] {p : LinkPredictor} {width j k hop : Nat} {h e : EntityId} {r : RelationId}
  {rs xs ys : List RelationId} {tails tails' heads : List EntityId} {F G : Set EntityId}

/-! ### One hop -/

/-- For a head and a relation the predictor keeps `tails`: the `width` best ones, best first. -/
def Keeps (p : LinkPredictor) (width : Nat) (h : EntityId) (r : RelationId)
    (tails : List EntityId) : Prop :=
  ∃ scores, (p.scores (.missingTail h r)).result = .ok scores ∧
    tails = (scores.best width).map (·.1)

/-- Where one hop takes a set of entities: to all that the predictor keeps for one of them. -/
def hopFrom (p : LinkPredictor) (width : Nat) (F : Set EntityId) (r : RelationId) :
    Set EntityId :=
  {e | ∃ h ∈ F, ∃ tails, p.Keeps width h r tails ∧ e ∈ tails}

theorem Keeps.unique (h₁ : p.Keeps width h r tails) (h₂ : p.Keeps width h r tails') :
    tails = tails' := by
  obtain ⟨scores, hscores, rfl⟩ := h₁
  obtain ⟨scores', hscores', rfl⟩ := h₂
  rw [hscores] at hscores'
  rw [Except.ok.inj hscores']

theorem Keeps.length_le (hkeeps : p.Keeps width h r tails) : tails.length ≤ width := by
  obtain ⟨scores, -, rfl⟩ := hkeeps
  rw [List.length_map]
  exact scores.length_best_le width

/-- Something is kept as soon as the tails are scored, whatever the width. -/
theorem exists_keeps_iff : (∃ tails, p.Keeps width h r tails) ↔
    ∃ scores, (p.scores (.missingTail h r)).result = .ok scores := by
  constructor
  · rintro ⟨_, scores, hscores, -⟩
    exact ⟨scores, hscores⟩
  · rintro ⟨scores, hscores⟩
    exact ⟨_, scores, hscores, rfl⟩

/-- A larger width keeps the same tails first, and perhaps more of them. -/
theorem Keeps.exists_wider (hjk : j ≤ k) (hkeeps : p.Keeps j h r tails) :
    ∃ wider, p.Keeps k h r wider ∧ tails <+: wider := by
  obtain ⟨scores, hscores, rfl⟩ := hkeeps
  exact ⟨_, ⟨scores, hscores, rfl⟩, (scores.best_prefix hjk).map _⟩

theorem hopFrom_mono (hjk : j ≤ k) (hFG : F ⊆ G) : p.hopFrom j F r ⊆ p.hopFrom k G r := by
  rintro e ⟨h, hF, tails, hkeeps, he⟩
  obtain ⟨wider, hwider, hprefix⟩ := hkeeps.exists_wider hjk
  exact ⟨h, hFG hF, wider, hwider, hprefix.subset he⟩

/-! ### Frontiers -/

/-- Where the hops of a chain take a set of entities.  After no hop it is the set itself, and
after one hop more it is where that hop takes it. -/
def frontier (p : LinkPredictor) (width : Nat) (F : Set EntityId) (rs : List RelationId) :
    Set EntityId :=
  rs.foldl (p.hopFrom width) F

theorem frontier_cons (F : Set EntityId) (r : RelationId) (rs : List RelationId) :
    p.frontier width F (r :: rs) = p.frontier width (p.hopFrom width F r) rs := rfl

theorem frontier_append (F : Set EntityId) (xs ys : List RelationId) :
    p.frontier width F (xs ++ ys) = p.frontier width (p.frontier width F xs) ys :=
  List.foldl_append

/-- **A frontier is reached from each of its origins alone.** -/
theorem mem_frontier_iff :
    e ∈ p.frontier width F rs ↔ ∃ h ∈ F, e ∈ p.frontier width {h} rs := by
  induction rs generalizing F with
  | nil => simp [frontier]
  | cons r rs ih =>
    simp only [frontier_cons]
    rw [ih]
    constructor
    · rintro ⟨m, ⟨h, hh, tails, hkeeps, hm⟩, he⟩
      exact ⟨h, hh, ih.2 ⟨m, ⟨h, rfl, tails, hkeeps, hm⟩, he⟩⟩
    · rintro ⟨h, hh, he⟩
      obtain ⟨m, ⟨h', hh', tails, hkeeps, hm⟩, hrest⟩ := ih.1 he
      obtain rfl : h' = h := hh'
      exact ⟨m, ⟨h', hh, tails, hkeeps, hm⟩, hrest⟩

/-- **If more tails are kept, every frontier grows.** -/
theorem frontier_mono (hjk : j ≤ k) (hFG : F ⊆ G) :
    p.frontier j F rs ⊆ p.frontier k G rs := by
  induction rs generalizing F G with
  | nil => exact hFG
  | cons r rs ih => exact ih (hopFrom_mono hjk hFG)

/-- After a hop every entity is one that the predictor keeps. -/
theorem exists_keeps_of_mem_frontier (hrs : rs ≠ []) (he : e ∈ p.frontier width F rs) :
    ∃ h r tails, p.Keeps width h r tails ∧ e ∈ tails := by
  obtain ⟨before, r, rfl⟩ := List.eq_nil_or_concat' rs |>.resolve_left hrs
  rw [frontier_append] at he
  obtain ⟨h, -, tails, hkeeps, htails⟩ := he
  exact ⟨h, r, tails, hkeeps, htails⟩

/-! ### Chains that have an answer -/

/-- The predictor scores the tails of every entity that a chain expands. -/
def Runs (p : LinkPredictor) (width : Nat) : Set EntityId → List RelationId → Prop
  | _, [] => True
  | F, r :: rs => (∀ h ∈ F, ∃ tails, p.Keeps width h r tails) ∧
      p.Runs width (p.hopFrom width F r) rs

theorem Runs.of_append (hruns : p.Runs width F (xs ++ ys)) :
    p.Runs width F xs ∧ p.Runs width (p.frontier width F xs) ys := by
  induction xs generalizing F with
  | nil => exact ⟨trivial, hruns⟩
  | cons r xs ih =>
    obtain ⟨hhere, hrest⟩ := hruns
    obtain ⟨hxs, hys⟩ := ih hrest
    exact ⟨⟨hhere, hxs⟩, hys⟩

/-- A chain has an answer from fewer entities, and if fewer tails are kept. -/
theorem Runs.mono (hjk : j ≤ k) (hFG : F ⊆ G) (hruns : p.Runs k G rs) : p.Runs j F rs := by
  induction rs generalizing F G with
  | nil => trivial
  | cons r rs ih =>
    obtain ⟨hhere, hrest⟩ := hruns
    refine ⟨fun h hF => ?_, ih (hopFrom_mono hjk hFG) hrest⟩
    exact exists_keeps_iff.2 (exists_keeps_iff.1 (hhere h (hFG hF)))

theorem Runs.exists_keeps (hruns : p.Runs width F rs) {i : Nat} (hr : rs[i]? = some r)
    (hh : h ∈ p.frontier width F (rs.take i)) : ∃ tails, p.Keeps width h r tails := by
  induction rs generalizing F i with
  | nil => cases hr
  | cons r' rs ih =>
    obtain ⟨hhere, hrest⟩ := hruns
    cases i with
    | zero =>
      cases hr
      exact hhere h hh
    | succ i => exact ih hrest hr hh

/-! ### Expansions of one hop -/

/-- The expansions of one hop: for every head, in order, the tails that are kept. -/
def Expands (p : LinkPredictor) (width hop : Nat) (r : RelationId) (heads : List EntityId)
    (here : List Expansion) : Prop :=
  List.Forall₂ (fun h x => ∃ tails, p.Keeps width h r tails ∧ x = ⟨hop, h, r, tails⟩) heads here

theorem bestTails_ends : (p.bestTails h r width).Ends (p.Keeps width h r)
    fun _ => ¬ ∃ tails, p.Keeps width h r tails := by
  apply ends_of_result
  · intro tails htails
    obtain ⟨scores, hscores, hpure⟩ := result_bind_eq_ok_iff.1 htails
    exact ⟨scores, hscores, (Except.ok.inj hpure).symm⟩
  · rintro err herr ⟨tails, scores, hscores, rfl⟩
    have hok : (p.bestTails h r width).result = .ok ((scores.best width).map (·.1)) :=
      result_bind_eq_ok_iff.2 ⟨scores, hscores, rfl⟩
    rw [hok] at herr
    cases herr

theorem expand_ends : (p.expand width hop r heads).Ends (p.Expands width hop r heads)
    fun _ => ¬ ∀ h ∈ heads, ∃ tails, p.Keeps width h r tails := by
  apply ends_mapM
  intro h hmem
  have htails : (p.bestTails h r width).Ends (p.Keeps width h r)
      fun _ => ¬ ∀ h ∈ heads, ∃ tails, p.Keeps width h r tails :=
    bestTails_ends.mono_error fun _ hnone hall => hnone (hall h hmem)
  exact htails.bind fun tails hkeeps => ends_pure ⟨tails, hkeeps, rfl⟩

namespace Expands

variable {here : List Expansion}

theorem mem_iff (hhere : p.Expands width hop r heads here) (x : Expansion) :
    x ∈ here ↔ x.hop = hop ∧ x.relation = r ∧ x.head ∈ heads ∧
      p.Keeps width x.head r x.tails := by
  constructor
  · intro hx
    obtain ⟨h, hmem, tails, hkeeps, rfl⟩ := exists_of_forall₂ hhere x hx
    exact ⟨rfl, rfl, hmem, hkeeps⟩
  · rintro ⟨hhop, hr, hmem, hkeeps⟩
    obtain ⟨hop', head, relation, tails⟩ := x
    cases hhop
    cases hr
    obtain ⟨y, hy, tails', hkeeps', rfl⟩ := exists_of_forall₂ hhere.flip head hmem
    obtain rfl : tails = tails' := hkeeps.unique hkeeps'
    exact hy

theorem map_head (hhere : p.Expands width hop r heads here) : here.map (·.head) = heads := by
  induction hhere with
  | nil => rfl
  | cons hx _ ih =>
    obtain ⟨tails, -, rfl⟩ := hx
    rw [List.map_cons, ih]

/-- The hop leads to the entities of its expansions. -/
theorem mem_reached_iff (hF : ∀ h, h ∈ heads ↔ h ∈ F)
    (hhere : p.Expands width hop r heads here) (e : EntityId) :
    e ∈ reached here ↔ e ∈ p.hopFrom width F r := by
  show e ∈ Ascending.ofList (here.flatMap (·.tails)) ↔ _
  rw [Ascending.mem_ofList, List.mem_flatMap]
  constructor
  · rintro ⟨x, hx, he⟩
    obtain ⟨-, -, hmem, hkeeps⟩ := (hhere.mem_iff x).1 hx
    exact ⟨x.head, (hF x.head).1 hmem, x.tails, hkeeps, he⟩
  · rintro ⟨h, hmem, tails, hkeeps, he⟩
    exact ⟨⟨hop, h, r, tails⟩, (hhere.mem_iff _).2 ⟨rfl, rfl, (hF h).2 hmem, hkeeps⟩, he⟩

theorem length_reached_le (hhere : p.Expands width hop r heads here) :
    (reached here).length ≤ heads.length * width := by
  have htails : ∀ n ∈ here.map (·.tails.length), n ≤ width := by
    rw [List.forall_mem_map]
    intro x hx
    exact ((hhere.mem_iff x).1 hx).2.2.2.length_le
  calc (reached here).length
      ≤ (here.flatMap (·.tails)).length := Ascending.length_ofList_le _
    _ = (here.map (·.tails.length)).sum := List.length_flatMap
    _ ≤ (here.map (·.tails.length)).length • width := List.sum_le_card_nsmul _ width htails
    _ = heads.length * width := by rw [List.length_map, ← hhere.length_eq, smul_eq_mul]

theorem ordered (hheads : IsAscending heads) (hhere : p.Expands width hop r heads here) :
    here.Pairwise Expansion.Before := by
  rw [← hhere.map_head] at hheads
  refine (List.pairwise_map.1 hheads).imp_of_mem fun {x y} hx hy hlt => .inr ⟨?_, hlt⟩
  rw [((hhere.mem_iff x).1 hx).1, ((hhere.mem_iff y).1 hy).1]

end Expands

/-! ### Traces -/

/-- At hop `i` of the chain `rs` from `F` the predictor makes the expansion `x`. -/
structure ExpandsAt (p : LinkPredictor) (width : Nat) (F : Set EntityId) (rs : List RelationId)
    (i : Nat) (x : Expansion) : Prop where
  relation : rs[i]? = some x.relation
  head : x.head ∈ p.frontier width F (rs.take i)
  tails : p.Keeps width x.head x.relation x.tails

theorem expandsAt_zero_iff {x : Expansion} :
    p.ExpandsAt width F (r :: rs) 0 x ↔
      x.relation = r ∧ x.head ∈ F ∧ p.Keeps width x.head r x.tails := by
  constructor
  · rintro ⟨hr, hhead, htails⟩
    cases hr
    exact ⟨rfl, hhead, htails⟩
  · rintro ⟨rfl, hhead, htails⟩
    exact ⟨rfl, hhead, htails⟩

/-- Later expansions are those of the rest of the chain, from where the first hop leads. -/
theorem expandsAt_succ_iff {i : Nat} {x : Expansion} :
    p.ExpandsAt width F (r :: rs) (i + 1) x ↔
      p.ExpandsAt width (p.hopFrom width F r) rs i x := by
  constructor
  · rintro ⟨hr, hhead, htails⟩
    exact ⟨hr, hhead, htails⟩
  · rintro ⟨hr, hhead, htails⟩
    exact ⟨hr, hhead, htails⟩

/-- What the loop leaves behind when it has followed `rs` from the `n` entities of `F` and has
counted the hops from `hop`. -/
structure Traces (p : LinkPredictor) (width hop : Nat) (F : Set EntityId) (n : Nat)
    (rs : List RelationId) (found : ChainAnswer) : Prop where
  runs : p.Runs width F rs
  mem_answers (e : EntityId) : e ∈ found.answers ↔ e ∈ p.frontier width F rs
  ascending : IsAscending found.answers
  length_le : found.answers.length ≤ n * width ^ rs.length
  mem_expansions (x : Expansion) :
    x ∈ found.expansions ↔ ∃ i, x.hop = hop + i ∧ p.ExpandsAt width F rs i x
  ordered : found.expansions.Pairwise Expansion.Before

/-- A chain of no relation stays where it is. -/
theorem traces_nil (hheads : IsAscending heads) (hF : ∀ h, h ∈ heads ↔ h ∈ F) :
    p.Traces width hop F heads.length [] ⟨heads, []⟩ where
  runs := trivial
  mem_answers := hF
  ascending := hheads
  length_le := by rw [List.length_nil, pow_zero, mul_one]
  mem_expansions x := ⟨nofun, fun ⟨_, _, hx⟩ => nomatch hx.relation⟩
  ordered := .nil

/-- **One hop before a trace makes a trace.** -/
theorem Traces.cons {here : List Expansion} {rest : ChainAnswer} (hheads : IsAscending heads)
    (hF : ∀ h, h ∈ heads ↔ h ∈ F) (hhere : p.Expands width hop r heads here)
    (hrest : p.Traces width (hop + 1) (p.hopFrom width F r) (reached here).length rs rest) :
    p.Traces width hop F heads.length (r :: rs)
      { rest with expansions := here ++ rest.expansions } where
  runs := by
    refine ⟨fun h hh => ?_, hrest.runs⟩
    obtain ⟨x, -, tails, hkeeps, -⟩ := exists_of_forall₂ hhere.flip h ((hF h).2 hh)
    exact ⟨tails, hkeeps⟩
  mem_answers := hrest.mem_answers
  ascending := hrest.ascending
  length_le := by
    calc rest.answers.length
        ≤ (reached here).length * width ^ rs.length := hrest.length_le
      _ ≤ heads.length * width * width ^ rs.length :=
          Nat.mul_le_mul_right _ hhere.length_reached_le
      _ = heads.length * width ^ (r :: rs).length := by
          rw [List.length_cons, Nat.pow_succ']
          exact Nat.mul_assoc _ _ _
  mem_expansions x := by
    rw [List.mem_append, hhere.mem_iff, hrest.mem_expansions, hF]
    constructor
    · rintro (⟨hhop, hr, hhead, htails⟩ | ⟨i, hhop, hx⟩)
      · exact ⟨0, hhop, expandsAt_zero_iff.2 ⟨hr, hhead, htails⟩⟩
      · exact ⟨i + 1, by omega, expandsAt_succ_iff.2 hx⟩
    · rintro ⟨i, hhop, hx⟩
      cases i with
      | zero => exact .inl ⟨hhop, expandsAt_zero_iff.1 hx⟩
      | succ i => exact .inr ⟨i, by omega, expandsAt_succ_iff.1 hx⟩
  ordered := by
    refine List.pairwise_append.2 ⟨hhere.ordered hheads, hrest.ordered, fun x hx y hy => .inl ?_⟩
    obtain ⟨i, hhop, -⟩ := (hrest.mem_expansions y).1 hy
    have hxhop := ((hhere.mem_iff x).1 hx).1
    omega

/-- **The loop leaves a trace behind**, and it fails only if the predictor does not score some
entity that the chain expands. -/
theorem follow_ends (hheads : IsAscending heads) (hF : ∀ h, h ∈ heads ↔ h ∈ F) :
    (p.follow width hop rs heads).Ends (p.Traces width hop F heads.length rs)
      fun _ => ¬ p.Runs width F rs := by
  induction rs generalizing hop heads F with
  | nil => exact ends_pure (traces_nil hheads hF)
  | cons r rs ih =>
    have hexpand : (p.expand width hop r heads).Ends (p.Expands width hop r heads)
        fun _ => ¬ p.Runs width F (r :: rs) :=
      expand_ends.mono_error fun _ hnone hruns => hnone fun h hh => hruns.1 h ((hF h).1 hh)
    refine hexpand.bind fun here hhere => ?_
    have hrest : (p.follow width (hop + 1) rs (reached here)).Ends
        (p.Traces width (hop + 1) (p.hopFrom width F r) (reached here).length rs)
        fun _ => ¬ p.Runs width F (r :: rs) :=
      (ih (Ascending.isAscending_ofList _) (hhere.mem_reached_iff hF)).mono_error
        fun _ hnone hruns => hnone hruns.2
    refine hrest.bind fun rest htraces => ?_
    exact ends_pure (htraces.cons hheads hF hhere)

/-- A chain of some relations is the loop from its anchor alone. -/
theorem chain_eq_follow (hrs : rs ≠ []) : p.chain h rs width = p.follow width 0 rs [h] :=
  if_neg (mt List.isEmpty_iff.1 hrs)

theorem chain_ends (hrs : rs ≠ []) :
    (p.chain h rs width).Ends (p.Traces width 0 {h} 1 rs) fun _ => ¬ p.Runs width {h} rs := by
  rw [chain_eq_follow hrs]
  exact follow_ends (List.pairwise_singleton _ h) fun _ => List.mem_singleton

/-- A chain that has an answer has some relation, and its answer is a trace. -/
theorem traces_of_chain {found : ChainAnswer} (hfound : (p.chain h rs width).result = .ok found) :
    rs ≠ [] ∧ p.Traces width 0 {h} 1 rs found := by
  have hrs : rs ≠ [] := by
    rintro rfl
    cases hfound
  exact ⟨hrs, (chain_ends hrs).of_ok hfound⟩

/-- A chain has an answer if the predictor scores all that it expands. -/
theorem Runs.exists_chain (hrs : rs ≠ []) (hruns : p.Runs width {h} rs) :
    ∃ found, (p.chain h rs width).result = .ok found ∧ p.Traces width 0 {h} 1 rs found :=
  ((chain_ends hrs).mono_error fun _ hnone => hnone hruns).exists_ok

/-! ### Where a chain leads -/

/-- The keys of a trace: every hop with its relation and the entities before it. -/
theorem Traces.exists_expansion_iff {n i : Nat} {found : ChainAnswer}
    (htraces : p.Traces width 0 F n rs found) :
    (∃ x ∈ found.expansions, x.hop = i ∧ x.head = h ∧ x.relation = r) ↔
      rs[i]? = some r ∧ h ∈ p.frontier width F (rs.take i) := by
  constructor
  · rintro ⟨x, hx, rfl, rfl, rfl⟩
    obtain ⟨i, hhop, hat⟩ := (htraces.mem_expansions x).1 hx
    rw [hhop, Nat.zero_add]
    exact ⟨hat.relation, hat.head⟩
  · rintro ⟨hr, hh⟩
    obtain ⟨tails, hkeeps⟩ := htraces.runs.exists_keeps hr hh
    refine ⟨⟨i, h, r, tails⟩, (htraces.mem_expansions _).2 ⟨i, ?_, hr, hh, hkeeps⟩, rfl, rfl, rfl⟩
    exact (Nat.zero_add i).symm

theorem Traces.keeps {n : Nat} {found : ChainAnswer} (htraces : p.Traces width hop F n rs found)
    {x : Expansion} (hx : x ∈ found.expansions) : p.Keeps width x.head x.relation x.tails := by
  obtain ⟨_, -, hat⟩ := (htraces.mem_expansions x).1 hx
  exact hat.tails

/-- The answers of a chain are those of its second part from every answer of its first part. -/
theorem Traces.exists_split {found : ChainAnswer} (hxs : xs ≠ []) (hys : ys ≠ [])
    (htraces : p.Traces width 0 {h} 1 (xs ++ ys) found) :
    ∃ first, (p.chain h xs width).result = .ok first ∧
      (∀ m ∈ first.answers, ∃ rest, (p.chain m ys width).result = .ok rest) ∧
      ∀ e, e ∈ found.answers ↔ ∃ m ∈ first.answers, ∃ rest,
        (p.chain m ys width).result = .ok rest ∧ e ∈ rest.answers := by
  obtain ⟨hrunsx, hrunsy⟩ := htraces.runs.of_append
  obtain ⟨first, hfirst, htracesx⟩ := hrunsx.exists_chain hxs
  have hrest : ∀ m ∈ first.answers, ∃ rest, (p.chain m ys width).result = .ok rest ∧
      p.Traces width 0 {m} 1 ys rest := by
    intro m hm
    have hsub : {m} ⊆ p.frontier width {h} xs :=
      Set.singleton_subset_iff.2 ((htracesx.mem_answers m).1 hm)
    exact (hrunsy.mono le_rfl hsub).exists_chain hys
  refine ⟨first, hfirst, fun m hm => ?_, fun e => ?_⟩
  · obtain ⟨rest, hok, -⟩ := hrest m hm
    exact ⟨rest, hok⟩
  rw [htraces.mem_answers, frontier_append, mem_frontier_iff]
  constructor
  · rintro ⟨m, hm, he⟩
    have hmem := (htracesx.mem_answers m).2 hm
    obtain ⟨rest, hok, htracesy⟩ := hrest m hmem
    exact ⟨m, hmem, rest, hok, (htracesy.mem_answers e).2 he⟩
  · rintro ⟨m, hm, rest, hok, he⟩
    obtain ⟨-, htracesy⟩ := traces_of_chain hok
    exact ⟨m, (htracesx.mem_answers m).1 hm, (htracesy.mem_answers e).1 he⟩

/-! ### How many answers there are -/

omit [Elementary] in
theorem length_of_logits (hrows : p.model.FullRows) {logits : List Float32}
    (hlogits : (p.logits (.missingTail h r)).result = .ok logits) :
    logits.length = p.model.entityCount := by
  obtain ⟨row, hrow, hmasked⟩ := result_bind_eq_ok_iff.1 hlogits
  have hlength : row.length = p.model.entityCount := hrows h r row hrow
  split at hmasked
  · next c _ =>
    have hmask : c.mask (.missingTail h r) row = .ok logits := hmasked
    exact (Constraints.length_of_mask hmask).trans hlength
  · cases hmasked
    exact hlength

/-- What is kept is an entity of the model. -/
theorem Keeps.index_lt (hrows : p.model.FullRows) (hkeeps : p.Keeps width h r tails)
    (he : e ∈ tails) : e.index < p.model.entityCount := by
  obtain ⟨scores, hscores, rfl⟩ := hkeeps
  obtain ⟨entry, hentry, rfl⟩ := List.mem_map.1 he
  obtain ⟨logits, hlogits, hof⟩ := result_bind_eq_ok_iff.1 hscores
  calc entry.1.index
      < scores.size := FuzzySet.index_lt_of_mem_best hentry
    _ = logits.length := FuzzySet.size_ofLogits hof
    _ = p.model.entityCount := length_of_logits hrows hlogits

theorem Traces.length_le_entityCount (hrows : p.model.FullRows) (hrs : rs ≠ []) {n : Nat}
    {found : ChainAnswer} (htraces : p.Traces width hop F n rs found) :
    found.answers.length ≤ p.model.entityCount := by
  have hsub : found.answers ⊆ p.model.entities := by
    intro e he
    obtain ⟨h, r, tails, hkeeps, hmem⟩ :=
      exists_keeps_of_mem_frontier hrs ((htraces.mem_answers e).1 he)
    exact List.mem_map.2 ⟨e.index, List.mem_range.2 (hkeeps.index_lt hrows hmem), rfl⟩
  calc found.answers.length
      ≤ p.model.entities.length := (htraces.ascending.nodup.subperm hsub).length_le
    _ = p.model.entityCount := by rw [Model.entities, List.length_map, List.length_range]

/-! ### Main results -/

/-- **A chain follows the frontiers.**  Its answers are the last frontier, each once and in
order.  It has one expansion for each hop and each entity of the frontier before that hop, in
order, and this one keeps the best tails, best first.  A chain that is cut in two leads where its
second part leads from some answer of the first.  And it has no more answers than there are
entities, nor more than there are ways to choose one of the best tails at each hop. -/
theorem chain_follows_frontiers {anchor : EntityId} {relations : List RelationId}
    {found : ChainAnswer} (hfound : (p.chain anchor relations width).result = .ok found) :
    (∀ e, e ∈ found.answers ↔ e ∈ p.frontier width {anchor} relations) ∧
      IsAscending found.answers ∧
      (∀ i h r, (∃ x ∈ found.expansions, x.hop = i ∧ x.head = h ∧ x.relation = r) ↔
        relations[i]? = some r ∧ h ∈ p.frontier width {anchor} (relations.take i)) ∧
      (∀ x ∈ found.expansions, p.Keeps width x.head x.relation x.tails) ∧
      found.expansions.Pairwise Expansion.Before ∧
      (∀ xs ys, xs ≠ [] → ys ≠ [] → relations = xs ++ ys →
        ∃ first, (p.chain anchor xs width).result = .ok first ∧
          (∀ m ∈ first.answers, ∃ rest, (p.chain m ys width).result = .ok rest) ∧
          ∀ e, e ∈ found.answers ↔ ∃ m ∈ first.answers, ∃ rest,
            (p.chain m ys width).result = .ok rest ∧ e ∈ rest.answers) ∧
      (p.model.FullRows →
        found.answers.length ≤ min p.model.entityCount (width ^ relations.length)) := by
  obtain ⟨hrelations, htraces⟩ := traces_of_chain hfound
  refine ⟨htraces.mem_answers, htraces.ascending, fun _ _ _ => htraces.exists_expansion_iff,
    fun _ hx => htraces.keeps hx, htraces.ordered, ?_, fun hrows => le_min ?_ ?_⟩
  · rintro xs ys hxs hys rfl
    exact htraces.exists_split hxs hys
  · exact htraces.length_le_entityCount hrows hrelations
  · rw [← Nat.one_mul (width ^ _)]
    exact htraces.length_le

omit [Elementary] in
/-- Two hops lead to both entities, back to the first one also by way of the second. -/
theorem chain_follows_frontiers_secondAllowed :
    ∃ found, (@chain Elementary.steep (secondAllowed 5 3) ⟨0⟩ [⟨0⟩, ⟨0⟩] 2).result = .ok found ∧
      ⟨0⟩ ∈ @frontier Elementary.steep (secondAllowed 5 3) 2 {⟨0⟩} [⟨0⟩, ⟨0⟩] ∧
      @Keeps Elementary.steep (secondAllowed 5 3) 2 ⟨1⟩ ⟨0⟩ [⟨1⟩, ⟨0⟩] ∧
      found.answers.length ≤ 2 := by
  have hfound : (@chain Elementary.steep (secondAllowed 5 3) ⟨0⟩ [⟨0⟩, ⟨0⟩] 2).result =
      .ok ⟨[⟨0⟩, ⟨1⟩], [⟨0, ⟨0⟩, ⟨0⟩, [⟨1⟩, ⟨0⟩]⟩, ⟨1, ⟨0⟩, ⟨0⟩, [⟨1⟩, ⟨0⟩]⟩,
        ⟨1, ⟨1⟩, ⟨0⟩, [⟨1⟩, ⟨0⟩]⟩]⟩ := by
    decide +kernel
  have hrows : (secondAllowed 5 3).model.FullRows := by
    intro h r row hrow
    cases hrow
    rfl
  obtain ⟨hanswers, -, -, hkeeps, -, -, hlength⟩ :=
    @chain_follows_frontiers Elementary.steep _ _ _ _ _ hfound
  refine ⟨_, hfound, (hanswers ⟨0⟩).1 (by decide), ?_, (hlength hrows).trans (by decide)⟩
  exact hkeeps ⟨1, ⟨1⟩, ⟨0⟩, [⟨1⟩, ⟨0⟩]⟩ (by decide)

/-- **A chain that keeps more leads further.**  If it has an answer when `k` tails are kept, it
has one for every smaller number; each of these answers is an answer for `k`, and each expansion
is continued by the one for `k` of the same hop, head and relation. -/
theorem chain_extends_to_wider {anchor : EntityId} {relations : List RelationId} (hjk : j ≤ k)
    {wide : ChainAnswer} (hwide : (p.chain anchor relations k).result = .ok wide) :
    ∃ narrow, (p.chain anchor relations j).result = .ok narrow ∧
      narrow.answers ⊆ wide.answers ∧
      ∀ x ∈ narrow.expansions,
        (∃ y ∈ wide.expansions, y.hop = x.hop ∧ y.head = x.head ∧ y.relation = x.relation) ∧
        ∀ y ∈ wide.expansions, y.hop = x.hop → y.head = x.head → y.relation = x.relation →
          x.tails <+: y.tails := by
  obtain ⟨hrelations, hwidely⟩ := traces_of_chain hwide
  obtain ⟨narrow, hnarrow, hnarrowly⟩ := (hwidely.runs.mono hjk subset_rfl).exists_chain hrelations
  refine ⟨narrow, hnarrow, fun e he => ?_, fun x hx => ⟨?_, fun y hy _ hhead hrelation => ?_⟩⟩
  · rw [hnarrowly.mem_answers] at he
    exact (hwidely.mem_answers e).2 (frontier_mono hjk subset_rfl he)
  · obtain ⟨hr, hhead⟩ := hnarrowly.exists_expansion_iff.1 ⟨x, hx, rfl, rfl, rfl⟩
    exact hwidely.exists_expansion_iff.2 ⟨hr, frontier_mono hjk subset_rfl hhead⟩
  · obtain ⟨wider, hkeeps, hprefix⟩ := (hnarrowly.keeps hx).exists_wider hjk
    rw [← hhead, ← hrelation] at hkeeps
    rwa [(hwidely.keeps hy).unique hkeeps]

omit [Elementary] in
/-- The best tail alone leads to one of the two entities that the two best lead to. -/
theorem chain_extends_to_wider_secondAllowed :
    ∃ narrow, (@chain Elementary.steep (secondAllowed 5 3) ⟨0⟩ [⟨0⟩, ⟨0⟩] 1).result = .ok narrow ∧
      narrow.answers ⊆ [⟨0⟩, ⟨1⟩] := by
  obtain ⟨narrow, hnarrow, hsub, -⟩ := @chain_extends_to_wider Elementary.steep
    (secondAllowed 5 3) 1 2 ⟨0⟩ [⟨0⟩, ⟨0⟩] (by decide)
    ⟨[⟨0⟩, ⟨1⟩], [⟨0, ⟨0⟩, ⟨0⟩, [⟨1⟩, ⟨0⟩]⟩, ⟨1, ⟨0⟩, ⟨0⟩, [⟨1⟩, ⟨0⟩]⟩,
      ⟨1, ⟨1⟩, ⟨0⟩, [⟨1⟩, ⟨0⟩]⟩]⟩ (by decide +kernel)
  exact ⟨narrow, hnarrow, hsub⟩

end LinkPredictor

end MultiHop
