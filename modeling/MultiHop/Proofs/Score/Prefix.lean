/-
MultiHop/Proofs/Score/Prefix.lean

The best words are a prefix of one list.  Words are totally ordered by their bits alone
(`Word.Below`): a word with a sign is below every word without one, the larger magnitude is the
higher word without a sign and the lower one with it, and NaN is a magnitude like any other.
So of two words at two positions one always comes before the other (`Word.Before`), also when
they are equal, and there is only one way to choose and to list the best `k`
(`IsTop.unique`): what is listed comes before what is left out, so neither of two lists can
hold an entry that the other one misses.

Numbers are listed like the words that hold them (`topK_toBits`).

Main result: `topK_canonical`.
-/
import MultiHop.Proofs.Score.TopK

namespace MultiHop

namespace Word

/-! ### The order of words -/

/-- The word has its sign set. -/
def IsMinus (w : UInt32) : Prop := 0x80000000 ≤ w.toNat

/-- The number that the bits below the sign make. -/
def magnitude (w : UInt32) : Nat := w.toNat % 0x80000000

/-- The total order of words, the lower one first. -/
inductive Below (v w : UInt32) : Prop
  | signs : IsMinus v → ¬ IsMinus w → Below v w
  | plus : ¬ IsMinus v → ¬ IsMinus w → magnitude v < magnitude w → Below v w
  | minus : IsMinus v → IsMinus w → magnitude w < magnitude v → Below v w

/-- A word at a position comes before another one: it is the higher word, or it is the same
word at a lower position. -/
def Before (a b : Nat × UInt32) : Prop := Below b.2 a.2 ∨ a.2 = b.2 ∧ a.1 < b.1

theorem totalRank_lt_iff {v w : UInt32} : totalRank v < totalRank w ↔ Below v w := by
  have hv : v.toNat < 2 ^ 32 := v.toBitVec.isLt
  have hw : w.toNat < 2 ^ 32 := w.toBitVec.isLt
  unfold totalRank
  constructor
  · intro h
    by_cases sv : IsMinus v <;> by_cases sw : IsMinus w
    · refine .minus sv sw ?_
      unfold IsMinus magnitude at *
      split at h <;> split at h <;> omega
    · exact .signs sv sw
    · -- nothing without a sign is below a word with one
      unfold IsMinus at sv sw
      split at h <;> split at h <;> omega
    · refine .plus sv sw ?_
      unfold IsMinus magnitude at *
      split at h <;> split at h <;> omega
  · intro h
    cases h with
    | signs sv sw => unfold IsMinus at sv sw; split <;> split <;> omega
    | plus sv sw h => unfold IsMinus magnitude at *; split <;> split <;> omega
    | minus sv sw h => unfold IsMinus magnitude at *; split <;> split <;> omega

theorem precedes_iff_before {a b : Nat × UInt32} : Precedes totalRank a b ↔ Before a b := by
  unfold Precedes Before
  have hrank : totalRank b.2 = totalRank a.2 ↔ a.2 = b.2 :=
    ⟨fun h => (eq_of_totalRank_eq h).symm, fun h => h ▸ rfl⟩
  rw [totalRank_lt_iff, hrank]

theorem Before.asymm {a b : Nat × UInt32} (hab : Before a b) (hba : Before b a) : False :=
  (precedes_iff_before.2 hab).asymm (precedes_iff_before.2 hba)

end Word

open Word

/-! ### The best of a list of words -/

/-- The `k` best of a list of words, best first: no position is listed twice, each has its own
word, they are in order, and what is listed comes before what is left out. -/
structure IsTop (words : List UInt32) (k : Nat) (entries : List (Nat × UInt32)) : Prop where
  length_eq : entries.length = min k words.length
  nodup : (entries.map (·.1)).Nodup
  own : ∀ i w, (i, w) ∈ entries → words[i]? = some w
  ordered : entries.Pairwise Before
  omitted : ∀ i w, words[i]? = some w → (i, w) ∉ entries → ∀ e ∈ entries, Before e (i, w)

/-- All words of a list with their positions, in the order of positions. -/
def placed (words : List UInt32) : List (Nat × UInt32) := words.zipIdx.map fun (w, i) => (i, w)

variable {words : List UInt32} {k l : Nat} {entries entries' : List (Nat × UInt32)}

namespace IsTop

/-- Two lists of the best hold the same entries: one that only the first of them holds would
come after all of the second one, and leave out one of them. -/
theorem subset (h : IsTop words k entries) (h' : IsTop words k entries') :
    entries ⊆ entries' := by
  rintro ⟨i, w⟩ hin
  by_contra hout
  have hafter := h'.omitted i w (h.own i w hin) hout
  -- there are as many entries in both lists, so the second one holds some other entry
  obtain ⟨⟨j, v⟩, hj, hleft⟩ : ∃ e ∈ entries', e ∉ entries := by
    by_contra hall
    push Not at hall
    have hsub : (i, w) :: entries' ⊆ entries := List.cons_subset.2 ⟨hin, hall⟩
    have hnodup : ((i, w) :: entries').Nodup :=
      List.nodup_cons.2 ⟨hout, .of_map _ h'.nodup⟩
    have hle := (hnodup.subperm hsub).length_le
    rw [List.length_cons, h.length_eq, h'.length_eq] at hle
    omega
  have hbefore := h.omitted j v (h'.own j v hj) hleft (i, w) hin
  exact hbefore.asymm (hafter (j, v) hj)

/-- **There is one list of the best.** -/
theorem unique (h : IsTop words k entries) (h' : IsTop words k entries') :
    entries = entries' := by
  have hperm : entries.Perm entries' := by
    rw [List.perm_ext_iff_of_nodup (.of_map _ h.nodup) (.of_map _ h'.nodup)]
    intro e
    exact ⟨fun he => h.subset h' he, fun he => h'.subset h he⟩
  refine List.Perm.eq_of_pairwise ?_ h.ordered h'.ordered hperm
  intro a b _ _ hab hba
  exact (hab.asymm hba).elim

end IsTop

/-- What is listed is in order, and so is what is listed with what is left out. -/
theorem ordered_before (words : List UInt32) : (ordered totalRank words).Pairwise Before :=
  ordered_precedes.imp precedes_iff_before.1

theorem isTop_topK (words : List UInt32) (k : Nat) : IsTop words k (topK k words) where
  length_eq := length_topKBy totalRank k words
  nodup := nodup_topKBy
  own i w h := getElem?_of_mem_topKBy h
  ordered := (ordered_before words).sublist (List.take_sublist k _)
  omitted i w hw hout e he := by
    have hmem : (i, w) ∈ (ordered totalRank words).take k ++ (ordered totalRank words).drop k := by
      rw [List.take_append_drop]
      exact mem_ordered.2 hw
    have hdrop := (List.mem_append.1 hmem).resolve_left hout
    have hall := ordered_before words
    rw [← List.take_append_drop k (ordered totalRank words)] at hall
    exact (List.pairwise_append.1 hall).2.2 e he (i, w) hdrop

/-- **Numbers are listed like the words that hold them.** -/
theorem topK_toBits (xs : List Float32) (k : Nat) :
    topK k (xs.map Float32.toBits) =
      (topKBy rankOf k xs).map fun e => (e.1, e.2.toBits) := by
  have hmap := @map_descending (Nat × Float32) (Nat × UInt32) (fun e => rankOf e.2)
    (fun e => totalRank e.2) (fun e => (e.1, e.2.toBits)) (fun _ => rfl)
  unfold topK topKBy
  rw [List.map_take, hmap]
  simp [List.zipIdx_map, Function.comp_def]

/-- **The best words are a prefix of one list.**  The `k` best are all of the list, or `k` of
it; no position is listed twice, each with its own word, in order, and whatever is left out
comes after all that is listed.  No other list is like that.  Fewer of the best are a prefix of
more of them, and all of them are the words of the list, each at its position.  Numbers are
listed like the words that hold them. -/
theorem topK_canonical (words : List UInt32) (k : Nat) :
    IsTop words k (topK k words) ∧
    (∀ entries, IsTop words k entries → entries = topK k words) ∧
    (∀ l, k ≤ l → topK k words <+: topK l words) ∧
    (words.length ≤ k → (topK k words).Perm (placed words)) ∧
    ∀ xs : List Float32, xs.map Float32.toBits = words →
      topK k words = (topKBy rankOf k xs).map fun e => (e.1, e.2.toBits) := by
  have htop := isTop_topK words k
  refine ⟨htop, fun entries h => h.unique htop, fun l hkl => List.take_prefix_take_left hkl,
    fun hk => ?_, fun xs hxs => hxs ▸ topK_toBits xs k⟩
  have hall : topK k words = ordered totalRank words :=
    List.take_of_length_le (length_ordered.trans_le hk)
  rw [hall]
  exact descending_perm _ _

/-- Both signs of NaN, zero with a sign, and zero without one at two positions. -/
def withNaNs : List UInt32 := [0xffc00000, 0, 0x80000000, 0, 0x7fc00001]

theorem topK_canonical_withNaNs :
    topK 3 withNaNs = [(4, 0x7fc00001), (1, 0), (3, 0)] ∧
    (∀ entries, IsTop withNaNs 3 entries → entries = [(4, 0x7fc00001), (1, 0), (3, 0)]) ∧
    topK 2 withNaNs <+: topK 3 withNaNs ∧
    (topK 5 withNaNs).Perm (placed withNaNs) ∧
    topK 1 [0x80000000, 0] = [(1, 0)] ∧
    (topKBy rankOf 1 [-0, 0]).map (fun e => (e.1, e.2.toBits)) = [(1, 0)] := by
  have hthree : topK 3 withNaNs = [(4, 0x7fc00001), (1, 0), (3, 0)] := by decide
  have hzero : topK 1 [0x80000000, 0] = [(1, 0)] := by decide
  obtain ⟨-, hunique, -⟩ := topK_canonical withNaNs 3
  obtain ⟨-, -, hprefix, -⟩ := topK_canonical withNaNs 2
  obtain ⟨-, -, -, hperm, -⟩ := topK_canonical withNaNs 5
  obtain ⟨-, -, -, -, hbits⟩ := topK_canonical [0x80000000, 0] 1
  refine ⟨hthree, ?_, hprefix 3 (by decide), hperm (by decide), hzero, ?_⟩
  · intro entries h
    rw [hunique entries h, hthree]
  · rw [← hbits [-0, 0] (by decide +kernel), hzero]

end MultiHop
