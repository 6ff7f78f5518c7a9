/-
MultiHop/Proofs/Link/FactSearch.lean

A search for missing facts is a comprehension.  The search is a loop in a loop that breaks off
within a pair at the first tail below the confidence, passes over known triples, and returns as
soon as it has found enough.  What it is to find is written down without any of this: the triples
in the order in which a search without a limit comes upon them, some of them more than once,

    s.sightings m known

The best tails are in descending order, so breaking off is filtering (`FactSearch.finds_eq`).
Taking a triple in that is there already changes nothing, so what has been found after some
sightings are their first distinct triples, as many as the limit allows (`Collected`): one
sighting more keeps this true (`Collected.take`), hence all finds of a pair do, and all pairs.

Main result: `FactSearch.run_eq_comprehension`.
-/
import MultiHop.Link.FactSearch
import MultiHop.Proofs.Ascending
import MultiHop.Proofs.Consult
import MultiHop.Proofs.Fuzzy.Calibration
import MultiHop.Proofs.Query.WellFormed
import MultiHop.Proofs.Single.Order

namespace MultiHop

open Consult Single

/-! ### Descending lists -/

/-- If what comes before a good entry is good, then the good entries are a prefix. -/
theorem takeWhile_eq_filter {α : Type} {P : α → Bool} {xs : List α}
    (h : xs.Pairwise fun a b => P b = true → P a = true) : xs.takeWhile P = xs.filter P := by
  induction xs with
  | nil => rfl
  | cons x xs ih =>
    obtain ⟨hx, hxs⟩ := List.pairwise_cons.1 h
    by_cases hP : P x = true
    · rw [List.takeWhile_cons_of_pos hP, List.filter_cons_of_pos hP, ih hxs]
    · rw [List.takeWhile_cons_of_neg hP, List.filter_cons_of_neg hP, eq_comm,
        List.filter_eq_nil_iff]
      intro y hy hPy
      exact hP (hx y hy hPy)

theorem pairwise_topKBy {α : Type} (key : α → Int) (k : Nat) (xs : List α) :
    (topKBy key k xs).Pairwise fun a b => key b.2 ≤ key a.2 := by
  have hsorted : (ordered key xs).Pairwise fun a b => key b.2 ≤ key a.2 :=
    descending_pairwise _ _
  exact hsorted.sublist (List.take_sublist k _)

/-! ### Finds taken in up to a limit -/

namespace FactSearch

/-- What has been found after some sightings: their first distinct triples, as many as the limit
allows, in ascending order. -/
structure Collected (limit : Nat) (seen found : List Triple) : Prop where
  ascending : Ascending.IsAscending found
  mem_iff (t : Triple) : t ∈ found ↔ t ∈ seen.eraseDups.take limit

variable {limit : Nat} {seen found finds : List Triple} {t : Triple}

theorem collected_nil (limit : Nat) : Collected limit [] [] where
  ascending := Ascending.isAscending_nil
  mem_iff t := by
    rw [List.eraseDups_nil, List.take_nil]

/-- As many triples have been found as there are different ones, or as the limit allows. -/
theorem Collected.length_eq (h : Collected limit seen found) :
    found.length = min limit seen.eraseDups.length := by
  have hperm : found.Perm (seen.eraseDups.take limit) :=
    (List.perm_ext_iff_of_nodup h.ascending.nodup
      ((nodup_eraseDups seen).sublist (List.take_sublist limit _))).2 h.mem_iff
  rw [hperm.length_eq, List.length_take]

/-- Below the limit everything seen has been found. -/
theorem Collected.mem_iff_of_lt (h : Collected limit seen found) (hlt : found.length < limit) :
    t ∈ found ↔ t ∈ seen := by
  have hlen := h.length_eq
  rw [h.mem_iff, List.take_of_length_le (by omega), List.mem_eraseDups]

/-- **One sighting more.** -/
theorem Collected.take (h : Collected limit seen found) (t : Triple) :
    Collected limit (seen ++ [t])
      (if limit ≤ found.length then found else Ascending.insert t found) := by
  have hlen := h.length_eq
  split
  · next hfull =>
    -- the first triples are the same with one more at the end
    refine ⟨h.ascending, fun u => ?_⟩
    rw [h.mem_iff]
    by_cases ht : t ∈ seen
    · rw [eraseDups_concat_of_mem ht]
    · rw [eraseDups_concat_of_notMem ht, List.take_append_of_le_length (by omega)]
  · next hlt =>
    have hlt := Nat.lt_of_not_le hlt
    refine ⟨Ascending.isAscending_insert h.ascending, fun u => ?_⟩
    rw [Ascending.mem_insert, h.mem_iff_of_lt hlt]
    by_cases ht : t ∈ seen
    · rw [eraseDups_concat_of_mem ht, List.take_of_length_le (by omega), List.mem_eraseDups,
        or_iff_right_of_imp]
      rintro rfl
      exact ht
    · rw [eraseDups_concat_of_notMem ht, List.take_of_length_le (by simp; omega),
        List.mem_append, List.mem_singleton, List.mem_eraseDups, or_comm]

theorem Collected.collect (h : Collected limit seen found) (finds : List Triple) :
    Collected limit (seen ++ finds) (collect limit finds found) := by
  induction finds generalizing seen found with
  | nil => rwa [List.append_nil]
  | cons t finds ih =>
    have hrest := ih (h.take t)
    rwa [List.append_assoc, List.singleton_append] at hrest

/-- Once the limit is reached, nothing more is taken in. -/
theorem collect_of_full (hfull : limit ≤ found.length) (finds : List Triple) :
    FactSearch.collect limit finds found = found := by
  induction finds with
  | nil => rfl
  | cons t finds ih =>
    show FactSearch.collect limit finds
      (if limit ≤ found.length then found else Ascending.insert t found) = found
    rw [if_pos hfull, ih]

/-- So further sightings make no difference. -/
theorem Collected.of_full (h : Collected limit seen found) (hfull : limit ≤ found.length)
    (more : List Triple) : Collected limit (seen ++ more) found := by
  have hmore := h.collect more
  rwa [collect_of_full hfull] at hmore

/-! ### What is there to find -/

variable [Elementary] {s : FactSearch} {m : Model} {known : List Triple} {h : EntityId}
  {r : RelationId}

/-- What one head and relation lead to: their best tails that are probable enough and make a
triple that is not known, best first. -/
def sightingsOf (s : FactSearch) (m : Model) (known : List Triple) (h : EntityId)
    (r : RelationId) : List Triple :=
  match m.tails h r with
  | .ok row =>
    ((topKBy rankOf s.tails (row.map sigmoid)).filter fun entry =>
      decide (s.confidence ≤ entry.2 ∧ ⟨h, r, ⟨entry.1⟩⟩ ∉ known)).map
        fun entry => ⟨h, r, ⟨entry.1⟩⟩
  | .error _ => []

/-- The triples in the order in which a search comes upon them, again and again if a head or a
relation is chosen again. -/
def sightings (s : FactSearch) (m : Model) (known : List Triple) : List Triple :=
  (s.pairs m).flatMap fun pair => s.sightingsOf m known pair.1 pair.2

/-- **The comprehension.**  A triple is sighted if its head and its relation are chosen, its tail
is one of the best and probable enough, and the triple is not known. -/
theorem mem_sightings : t ∈ s.sightings m known ↔
    t.head ∈ s.entities.getD m.entities ∧ t.relation ∈ s.relations.getD m.relations ∧
      (∃ row p, m.tails t.head t.relation = .ok row ∧
        (t.tail.index, p) ∈ topKBy rankOf s.tails (row.map sigmoid) ∧ s.confidence ≤ p) ∧
      t ∉ known := by
  obtain ⟨head, relation, tail⟩ := t
  unfold sightings pairs
  simp only [List.mem_flatMap, List.mem_map]
  constructor
  · rintro ⟨_, ⟨h, hh, r, hr, rfl⟩, hmem⟩
    unfold sightingsOf at hmem
    split at hmem
    · next row hrow =>
      obtain ⟨⟨i, p⟩, hentry, heq⟩ := List.mem_map.1 hmem
      obtain ⟨hbest, hgood⟩ := List.mem_filter.1 hentry
      obtain ⟨hconfidence, hknown⟩ := of_decide_eq_true hgood
      cases heq
      exact ⟨hh, hr, ⟨row, p, hrow, hbest, hconfidence⟩, hknown⟩
    · exact absurd hmem List.not_mem_nil
  · rintro ⟨hh, hr, ⟨row, p, hrow, hbest, hconfidence⟩, hknown⟩
    refine ⟨(head, relation), ⟨head, hh, relation, hr, rfl⟩, ?_⟩
    unfold sightingsOf
    rw [hrow]
    refine List.mem_map.2 ⟨(tail.index, p), List.mem_filter.2 ⟨hbest, ?_⟩, rfl⟩
    exact decide_eq_true ⟨hconfidence, hknown⟩

/-- **Breaking off is filtering**, because the best tails come first. -/
theorem finds_eq (hconfidence : IsProbability s.confidence) {row : List Float32}
    (hrow : m.tails h r = .ok row) {scores : FuzzySet}
    (hscores : scores.degrees = row.map sigmoid) :
    s.finds known h r scores = s.sightingsOf m known h r := by
  have hprob : ∀ entry ∈ topKBy rankOf s.tails scores.degrees, IsProbability entry.2 :=
    fun entry hentry => scores.probable _ (List.mem_of_getElem? (getElem?_of_mem_topKBy hentry))
  have hlt : ∀ p, IsProbability p → (p < s.confidence ↔ ¬ s.confidence ≤ p) :=
    fun p hp => (not_le_iff hconfidence.isNaN hp.isNaN).symm
  have hgood : (topKBy rankOf s.tails scores.degrees).Pairwise fun a b =>
      (!decide (b.2 < s.confidence)) = true → (!decide (a.2 < s.confidence)) = true := by
    refine (pairwise_topKBy _ _ _).imp_of_mem fun {a b} ha hb hrank => ?_
    simp only [Bool.not_eq_true', decide_eq_false_iff_not, hlt _ (hprob a ha),
      hlt _ (hprob b hb), not_not]
    intro hle
    by_contra hnot
    have hless : a.2 < b.2 :=
      (not_le_iff (hprob b hb).isNaN (hprob a ha).isNaN).1 fun hba => hnot (le_chain hle hba)
    exact absurd (rankOf_lt_of_lt hless) (not_lt.2 hrank)
  show (((((topKBy rankOf s.tails scores.degrees).map fun entry =>
      ((⟨entry.1⟩, entry.2) : EntityId × Float32)).takeWhile fun entry =>
        !decide (entry.2 < s.confidence)).map fun entry => (⟨h, r, entry.1⟩ : Triple)).filter
          fun t => !decide (t ∈ known)) = _
  rw [List.takeWhile_map, List.map_map]
  unfold sightingsOf
  rw [hrow]
  show ((List.takeWhile (fun entry => !decide (entry.2 < s.confidence))
    (topKBy rankOf s.tails scores.degrees)).map fun entry => (⟨h, r, ⟨entry.1⟩⟩ : Triple)).filter
      _ = List.map _ (List.filter _ (topKBy rankOf s.tails (row.map sigmoid)))
  rw [takeWhile_eq_filter hgood, List.filter_map, List.filter_filter, ← hscores]
  congr 1
  refine List.filter_congr fun entry hentry => ?_
  rw [Bool.eq_iff_iff]
  simp [hlt _ (hprob entry hentry), and_comm]

/-- The head and the relation are replied to with logits that are numbers. -/
def Told (m : Model) (pair : EntityId × RelationId) : Prop :=
  ∃ row, m.tails pair.1 pair.2 = .ok row ∧ ∀ x ∈ row, x.isNaN = false

/-- **One pair more**, and so all of them: a sweep finds what there is to be sighted. -/
theorem sweep_collects (laws : Elementary.Bounded) (hconfidence : IsProbability s.confidence)
    {pairs : List (EntityId × RelationId)} (htold : ∀ pair ∈ pairs, Told m pair)
    (hseen : Collected s.limit seen found) :
    (s.sweep m known pairs found).Ends
      (Collected s.limit (seen ++ pairs.flatMap fun pair => s.sightingsOf m known pair.1 pair.2))
      fun _ => False := by
  induction pairs generalizing seen found with
  | nil =>
    rw [List.flatMap_nil, List.append_nil]
    exact ends_pure hseen
  | cons pair pairs ih =>
    obtain ⟨h, r⟩ := pair
    obtain ⟨⟨row, hrow, hnumbers⟩, hrest⟩ := List.forall_mem_cons.1 htold
    unfold sweep
    split
    · next hfull => exact ends_pure (hseen.of_full hfull _)
    · obtain ⟨scores, hscores, hdegrees⟩ := FuzzySet.ofLogits_eq laws hnumbers
      refine ends_bind_of_ok (a := row) hrow ?_
      refine ends_bind_of_ok (a := scores) hscores ?_
      have hpair := ih hrest (hseen.collect (s.sightingsOf m known h r))
      rw [List.append_assoc] at hpair
      rw [finds_eq hconfidence hrow hdegrees, List.flatMap_cons]
      exact hpair

/-- **A search is its comprehension, bounded in the order of the sweep.**  Let the search be valid,
and let all chosen heads and relations be replied to with numbers.  Then the search ends with the
first distinct triples that there are to be sighted, as many as the limit allows, in ascending
order.  If the limit allows all of them, these are all triples whose head and relation are
chosen, whose tail is one of the best and probable enough, and which are not known. -/
theorem run_eq_comprehension (laws : Elementary.Bounded) (s : FactSearch) (m : Model)
    (known : List Triple) (hvalid : s.validate = .ok ())
    (htold : ∀ pair ∈ s.pairs m, Told m pair) :
    ∃ found, (s.run m known).result = .ok found ∧ Ascending.IsAscending found ∧
      (∀ t, t ∈ found ↔ t ∈ (s.sightings m known).eraseDups.take s.limit) ∧
      found.length = min s.limit (s.sightings m known).eraseDups.length ∧
      ((s.sightings m known).eraseDups.length ≤ s.limit → ∀ t, t ∈ found ↔
        t.head ∈ s.entities.getD m.entities ∧ t.relation ∈ s.relations.getD m.relations ∧
          (∃ row p, m.tails t.head t.relation = .ok row ∧
            (t.tail.index, p) ∈ topKBy rankOf s.tails (row.map sigmoid) ∧ s.confidence ≤ p) ∧
          t ∉ known) := by
  have hconfidence : IsProbability s.confidence := by
    unfold validate at hvalid
    split at hvalid
    · cases hvalid
    · next h => exact not_not.1 h
  have hends : (s.run m known).Ends (Collected s.limit (s.sightings m known)) fun _ => False :=
    ends_bind_of_ok (a := ()) hvalid
      (sweep_collects laws hconfidence htold (collected_nil s.limit))
  obtain ⟨found, hfound, hcollected⟩ := hends.exists_ok
  refine ⟨found, hfound, hcollected.ascending, hcollected.mem_iff, hcollected.length_eq, ?_⟩
  intro hall t
  rw [hcollected.mem_iff, List.take_of_length_le hall, List.mem_eraseDups, mem_sightings]

/-- Two finds at most, the best tail of each head, and the first head is looked at twice. -/
def twice : FactSearch := ⟨0.99, 1, 2, some [⟨0⟩, ⟨0⟩, ⟨1⟩], none⟩

omit [Elementary] in
/-- What is found under the first head does not count twice. -/
theorem run_eq_comprehension_swap :
    @sightings Elementary.steep twice .swap [] =
        [⟨⟨0⟩, ⟨0⟩, ⟨1⟩⟩, ⟨⟨0⟩, ⟨0⟩, ⟨1⟩⟩, ⟨⟨1⟩, ⟨0⟩, ⟨0⟩⟩] ∧
      ∃ found, (@run Elementary.steep twice .swap []).result = .ok found ∧ found.length = 2 ∧
        ⟨⟨1⟩, ⟨0⟩, ⟨0⟩⟩ ∈ found := by
  have hsightings : @sightings Elementary.steep twice .swap [] =
      [⟨⟨0⟩, ⟨0⟩, ⟨1⟩⟩, ⟨⟨0⟩, ⟨0⟩, ⟨1⟩⟩, ⟨⟨1⟩, ⟨0⟩, ⟨0⟩⟩] := by decide +kernel
  have htold : ∀ pair ∈ twice.pairs .swap, Told .swap pair := by
    intro pair _
    refine ⟨_, rfl, ?_⟩
    split <;> decide +kernel
  obtain ⟨found, hfound, -, hmem, hlen, -⟩ := @run_eq_comprehension Elementary.steep
    Elementary.bounded_steep twice .swap [] (by decide +kernel) htold
  rw [hsightings] at hmem hlen
  exact ⟨hsightings, found, hfound, hlen, (hmem _).2 (by decide)⟩

end FactSearch

end MultiHop
