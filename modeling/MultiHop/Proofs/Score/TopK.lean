/-
MultiHop/Proofs/Score/TopK.lean

What the best entries are.  Sorting by insertion puts the entries in descending order
(`descending_pairwise`), so a prefix of the result holds an entry as soon as there are
no more entries that are as good than the prefix is long (`mem_topKBy`).

If the cut is clean, then whatever is as good as an entry of the prefix is in the prefix
(`mem_topKBy_of_key_le`), so which entries are kept does not depend on their positions.

Entries of one key keep the order of their positions, so the sorted list is in one strict
order (`Precedes`), and an entry stands before another one of the prefix exactly if it
precedes it there (`before_iff`).  So the place of an entry in the prefix is the number of
positions whose entries precede it (`card_precedes`).
-/
import Mathlib.Data.Finset.Card
import MultiHop.Score.TopK

namespace MultiHop

variable {α : Type}

/-! ### Descending order -/

theorem insertDescending_pairwise {key : α → Int} {x : α} {ys : List α}
    (h : ys.Pairwise fun a b => key b ≤ key a) :
    (insertDescending key x ys).Pairwise fun a b => key b ≤ key a := by
  induction ys with
  | nil => exact List.pairwise_singleton _ x
  | cons y ys ih =>
    obtain ⟨hy, hys⟩ := List.pairwise_cons.1 h
    unfold insertDescending
    split
    · next hle =>
      refine List.pairwise_cons.2 ⟨fun z hz => ?_, h⟩
      rcases List.mem_cons.1 hz with rfl | hz
      · exact hle
      · exact (hy z hz).trans hle
    · next hgt =>
      refine List.pairwise_cons.2 ⟨fun z hz => ?_, ih hys⟩
      rcases List.mem_cons.1 ((insertDescending_perm key x ys).mem_iff.1 hz) with rfl | hz
      · exact (not_le.1 hgt).le
      · exact hy z hz

theorem descending_pairwise (key : α → Int) (xs : List α) :
    (descending key xs).Pairwise fun a b => key b ≤ key a := by
  induction xs with
  | nil => exact .nil
  | cons x xs ih => exact insertDescending_pairwise ih

section

variable {β : Type} {key : α → Int} {key' : β → Int} {f : α → β}

/-- What else a record holds has no influence on where it is put. -/
theorem map_insertDescending (hf : ∀ a, key' (f a) = key a) (x : α) (ys : List α) :
    (insertDescending key x ys).map f = insertDescending key' (f x) (ys.map f) := by
  induction ys with
  | nil => rfl
  | cons y ys ih =>
    rw [List.map_cons]
    unfold insertDescending
    rw [hf, hf]
    split
    · rfl
    · rw [List.map_cons, ih]

/-- Records are sorted like the parts of them that hold their keys. -/
theorem map_descending (hf : ∀ a, key' (f a) = key a) (xs : List α) :
    (descending key xs).map f = descending key' (xs.map f) := by
  induction xs with
  | nil => rfl
  | cons x xs ih =>
    show (insertDescending key x (descending key xs)).map f = _
    rw [map_insertDescending hf, ih]
    rfl

end

/-! ### Counting positions -/

/-- Positions of a list whose entries, taken with their positions, satisfy `P`. -/
def positions (P : Nat × α → Bool) (xs : List α) : Finset Nat :=
  (Finset.range xs.length).filter fun i => xs[i]?.any fun x => P (i, x)

section

variable {P : Nat × α → Bool} {xs : List α} {i : Nat}

theorem mem_positions : i ∈ positions P xs ↔ ∃ x, xs[i]? = some x ∧ P (i, x) = true := by
  unfold positions
  rw [Finset.mem_filter, Option.any_eq_true, Finset.mem_range, and_iff_right_iff_imp]
  rintro ⟨x, hx, -⟩
  exact (List.getElem?_eq_some_iff.1 hx).1

/-- Counting entries with their positions is counting positions. -/
theorem countP_zipIdx (P : Nat × α → Bool) (xs : List α) :
    (xs.zipIdx.countP fun (x, i) => P (i, x)) = (positions P xs).card := by
  have hset : positions P xs =
      ((xs.zipIdx.filter fun (x, i) => P (i, x)).map Prod.snd).toFinset := by
    ext i
    rw [mem_positions, List.mem_toFinset, List.mem_map]
    constructor
    · rintro ⟨x, hx, hP⟩
      exact ⟨(x, i), List.mem_filter.2 ⟨List.mem_zipIdx_iff_getElem?.2 hx, hP⟩, rfl⟩
    · rintro ⟨⟨x, i⟩, hmem, rfl⟩
      obtain ⟨hx, hP⟩ := List.mem_filter.1 hmem
      exact ⟨x, List.mem_zipIdx_iff_getElem?.1 hx, hP⟩
  have hnodup : ((xs.zipIdx.filter fun (x, i) => P (i, x)).map Prod.snd).Nodup := by
    refine List.Nodup.sublist (List.filter_sublist.map _) ?_
    rw [List.zipIdx_map_snd]
    exact List.nodup_range'
  rw [hset, List.toFinset_card_of_nodup hnodup, List.length_map, List.countP_eq_length_filter]

/-- Counting entries is counting their positions. -/
theorem countP_eq_card (P : α → Bool) (xs : List α) :
    xs.countP P = (positions (fun a => P a.2) xs).card := by
  rw [← countP_zipIdx]
  conv_lhs => rw [← List.zipIdx_map_fst 0 xs, List.countP_map]
  rfl

end

/-! ### The best entries -/

section

variable {key : α → Int} {k i : Nat} {xs : List α} {x : α}

/-- All entries with their positions, best first. -/
def ordered (key : α → Int) (xs : List α) : List (Nat × α) :=
  descending (fun entry => key entry.2) (xs.zipIdx.map fun (x, i) => (i, x))

theorem mem_ordered : (i, x) ∈ ordered key xs ↔ xs[i]? = some x := by
  unfold ordered
  rw [(descending_perm _ _).mem_iff, List.mem_map]
  constructor
  · rintro ⟨⟨y, j⟩, hmem, heq⟩
    cases heq
    exact List.mem_zipIdx_iff_getElem?.1 hmem
  · exact fun h => ⟨(x, i), List.mem_zipIdx_iff_getElem?.2 h, rfl⟩

theorem nodup_ordered : ((ordered key xs).map (·.1)).Nodup := by
  unfold ordered
  refine (((descending_perm _ _).map _).nodup_iff).2 ?_
  rw [List.map_map]
  show (xs.zipIdx.map Prod.snd).Nodup
  rw [List.zipIdx_map_snd]
  exact List.nodup_range'

theorem getElem?_of_mem_topKBy (h : (i, x) ∈ topKBy key k xs) : xs[i]? = some x :=
  mem_ordered.1 (List.mem_of_mem_take h)

/-- What is kept is as good as what is not. -/
theorem key_le_of_mem_drop {kept other : Nat × α} (hkept : kept ∈ topKBy key k xs)
    (hother : other ∈ (ordered key xs).drop k) : key other.2 ≤ key kept.2 := by
  have hsorted : (ordered key xs).Pairwise fun a b => key b.2 ≤ key a.2 :=
    descending_pairwise _ _
  rw [← List.take_append_drop k (ordered key xs)] at hsorted
  exact (List.pairwise_append.1 hsorted).2.2 kept hkept other hother

/-- What is kept stands at other positions than what is not. -/
theorem fst_notMem_of_mem_drop {other : Nat × α} (hother : other ∈ (ordered key xs).drop k) :
    other.1 ∉ (topKBy key k xs).map (·.1) := by
  have hnodup : ((ordered key xs).map (·.1)).Nodup := nodup_ordered
  rw [← List.take_append_drop k (ordered key xs), List.map_append] at hnodup
  intro hkept
  exact (List.nodup_append.1 hnodup).2.2 other.1 hkept other.1
    (List.mem_map.2 ⟨other, hother, rfl⟩) rfl

theorem nodup_topKBy : ((topKBy key k xs).map (·.1)).Nodup :=
  nodup_ordered.sublist ((List.take_sublist k _).map _)

theorem length_ordered : (ordered key xs).length = xs.length := by
  unfold ordered
  rw [(descending_perm _ _).length_eq, List.length_map, List.length_zipIdx]

/-- Nothing is dropped when there are no more than `k` entries. -/
theorem mem_topKBy_of_length_le (hk : xs.length ≤ k) (hx : xs[i]? = some x) :
    (i, x) ∈ topKBy key k xs := by
  have hall : topKBy key k xs = ordered key xs :=
    List.take_of_length_le (length_ordered.trans_le hk)
  rw [hall]
  exact mem_ordered.2 hx

/-- **An entry is kept** when at most `k` positions hold entries that are as good. -/
theorem mem_topKBy {s : Finset Nat} (hx : xs[i]? = some x)
    (hs : ∀ j y, xs[j]? = some y → key x ≤ key y → j ∈ s) (hcard : s.card ≤ k) :
    (i, x) ∈ topKBy key k xs := by
  by_contra hout
  have hmem : (i, x) ∈ (ordered key xs).take k ++ (ordered key xs).drop k := by
    rw [List.take_append_drop]
    exact mem_ordered.2 hx
  have hdrop := (List.mem_append.1 hmem).resolve_left hout
  -- something is dropped, so `k` entries are kept
  have hlen : (topKBy key k xs).length = k := by
    have hlt : k < (ordered key xs).length := by
      by_contra hle
      rw [List.drop_eq_nil_of_le (not_lt.1 hle)] at hdrop
      exact List.not_mem_nil hdrop
    exact List.length_take_of_le hlt.le
  -- with the entry itself that makes more positions than there are in `s`
  have hsub : (i :: (topKBy key k xs).map (·.1)).toFinset ⊆ s := by
    intro j hj
    rcases List.mem_cons.1 (List.mem_toFinset.1 hj) with rfl | hj
    · exact hs _ x hx le_rfl
    · obtain ⟨⟨j, y⟩, hy, rfl⟩ := List.mem_map.1 hj
      exact hs j y (getElem?_of_mem_topKBy hy) (key_le_of_mem_drop hy hdrop)
  have hle := Finset.card_le_card hsub
  rw [List.toFinset_card_of_nodup
      (List.nodup_cons.2 ⟨fst_notMem_of_mem_drop hdrop, nodup_topKBy⟩),
    List.length_cons, List.length_map, hlen] at hle
  omega

/-- An entry is kept when at most `k` entries have a property that all entries as good as it
have. -/
theorem mem_topKBy_of_countP {P : α → Bool} (hx : xs[i]? = some x)
    (hP : ∀ y ∈ xs, key x ≤ key y → P y = true) (hcount : xs.countP P ≤ k) :
    (i, x) ∈ topKBy key k xs := by
  refine mem_topKBy (s := positions (fun a => P a.2) xs) hx (fun j y hy hle => ?_) ?_
  · exact mem_positions.2 ⟨y, hy, hP y (List.mem_of_getElem? hy) hle⟩
  · rw [← countP_eq_card]
    exact hcount

/-! ### Clean cuts -/

theorem getElem?_topKBy {a : Nat × α} :
    (topKBy key k xs)[i]? = some a ↔ i < k ∧ (ordered key xs)[i]? = some a := by
  show ((ordered key xs).take k)[i]? = some a ↔ _
  rw [List.getElem?_take]
  split <;> simp [*]

/-- The entries of the list are those of `xs` in descending order. -/
theorem map_snd_ordered : (ordered key xs).map (·.2) = descending key xs := by
  have hentries : (xs.zipIdx.map fun (x, i) => (i, x)).map Prod.snd = xs := by
    rw [List.map_map]
    exact List.zipIdx_map_fst 0 xs
  unfold ordered
  conv_rhs => rw [← hentries]
  apply map_descending
  intro a
  rfl

theorem key_le_of_le {a b : Nat × α} {j : Nat} (hij : i ≤ j)
    (ha : (ordered key xs)[i]? = some a) (hb : (ordered key xs)[j]? = some b) :
    key b.2 ≤ key a.2 := by
  rcases hij.lt_or_eq with hlt | rfl
  · have hsorted : (ordered key xs).Pairwise fun a b => key b.2 ≤ key a.2 :=
      descending_pairwise _ _
    obtain ⟨hi, rfl⟩ := List.getElem?_eq_some_iff.1 ha
    obtain ⟨hj, rfl⟩ := List.getElem?_eq_some_iff.1 hb
    exact List.pairwise_iff_getElem.1 hsorted i j hi hj hlt
  · rw [ha] at hb
    cases hb
    exact le_rfl

/-- The entry at which the list is cut is different from the one before it, or nothing is
kept at all. -/
def CutsCleanly (key : α → Int) (k : Nat) (xs : List α) : Prop :=
  k = 0 ∨ (descending key xs)[k - 1]? ≠ (descending key xs)[k]?

/-- **A clean cut separates keys**: what is as good as an entry that is kept is kept too. -/
theorem mem_topKBy_of_key_le {j : Nat} {y : α} (hkey : key.Injective)
    (hclean : CutsCleanly key k xs) (hkept : (i, x) ∈ topKBy key k xs) (hy : xs[j]? = some y)
    (hle : key x ≤ key y) : (j, y) ∈ topKBy key k xs := by
  obtain ⟨a, ha⟩ := List.mem_iff_getElem?.1 hkept
  obtain ⟨hak, ha⟩ := getElem?_topKBy.1 ha
  obtain ⟨b, hb⟩ := List.mem_iff_getElem?.1 (mem_ordered.2 hy)
  by_cases hbk : b < k
  · exact List.mem_of_getElem? (getElem?_topKBy.2 ⟨hbk, hb⟩)
  -- otherwise the cut is between entries of one key, so it is not clean
  have hblt : b < (ordered key xs).length := (List.getElem?_eq_some_iff.1 hb).1
  have hlast : (ordered key xs)[k - 1]? = some (ordered key xs)[k - 1] :=
    List.getElem?_eq_getElem (by omega)
  have hnext : (ordered key xs)[k]? = some (ordered key xs)[k] :=
    List.getElem?_eq_getElem (by omega)
  have h₁ : key (ordered key xs)[k - 1].2 ≤ key x := key_le_of_le (by omega) ha hlast
  have h₂ : key (ordered key xs)[k].2 ≤ key (ordered key xs)[k - 1].2 :=
    key_le_of_le (by omega) hlast hnext
  have h₃ : key y ≤ key (ordered key xs)[k].2 := key_le_of_le (by omega) hnext hb
  have hsame : (ordered key xs)[k - 1].2 = (ordered key xs)[k].2 := hkey (by omega)
  refine absurd ?_ (hclean.resolve_left (by omega))
  rw [← map_snd_ordered, List.getElem?_map, List.getElem?_map, hlast, hnext]
  exact congrArg some hsame

/-! ### Before and after -/

/-- The order of the list: the higher key first, and of one key the earlier position. -/
def Precedes (key : α → Int) (a b : Nat × α) : Prop :=
  key b.2 < key a.2 ∨ key b.2 = key a.2 ∧ a.1 < b.1

theorem Precedes.asymm {a b : Nat × α} (hab : Precedes key a b) (hba : Precedes key b a) :
    False := by
  unfold Precedes at hab hba
  omega

theorem insertDescending_precedes {a : Nat × α} {entries : List (Nat × α)}
    (hfirst : ∀ b ∈ entries, a.1 < b.1) (h : entries.Pairwise (Precedes key)) :
    (insertDescending (fun entry => key entry.2) a entries).Pairwise (Precedes key) := by
  induction entries with
  | nil => exact List.pairwise_singleton _ a
  | cons b entries ih =>
    obtain ⟨hb, hentries⟩ := List.pairwise_cons.1 h
    obtain ⟨hab, hrest⟩ := List.forall_mem_cons.1 hfirst
    unfold insertDescending
    split
    · next hle =>
      refine List.pairwise_cons.2 ⟨fun c hc => ?_, h⟩
      -- no key further on is above that of `b`, and no position before that of `a`
      rcases List.mem_cons.1 hc with rfl | hc
      · unfold Precedes; omega
      · have hbc := hb c hc
        have hac := hrest c hc
        unfold Precedes at hbc ⊢
        omega
    · next hgt =>
      refine List.pairwise_cons.2 ⟨fun c hc => ?_, ih hrest hentries⟩
      rcases List.mem_cons.1 ((insertDescending_perm _ a entries).mem_iff.1 hc) with rfl | hc
      · exact .inl (not_le.1 hgt)
      · exact hb c hc

theorem descending_precedes {entries : List (Nat × α)}
    (h : entries.Pairwise fun a b => a.1 < b.1) :
    (descending (fun entry => key entry.2) entries).Pairwise (Precedes key) := by
  induction entries with
  | nil => exact .nil
  | cons a entries ih =>
    obtain ⟨ha, hentries⟩ := List.pairwise_cons.1 h
    refine insertDescending_precedes (fun b hb => ?_) (ih hentries)
    exact ha b ((descending_perm _ entries).mem_iff.1 hb)

theorem ordered_precedes : (ordered key xs).Pairwise (Precedes key) := by
  refine descending_precedes (List.pairwise_map.2 ?_)
  have hpositions : (xs.zipIdx.map Prod.snd).Pairwise (· < ·) := by
    rw [List.zipIdx_map_snd]
    exact List.pairwise_lt_range'
  exact List.pairwise_map.1 hpositions

theorem precedes_of_lt {a b : Nat × α} {j : Nat} (hij : i < j)
    (ha : (ordered key xs)[i]? = some a) (hb : (ordered key xs)[j]? = some b) :
    Precedes key a b := by
  obtain ⟨hi, rfl⟩ := List.getElem?_eq_some_iff.1 ha
  obtain ⟨hj, rfl⟩ := List.getElem?_eq_some_iff.1 hb
  exact List.pairwise_iff_getElem.1 ordered_precedes i j hi hj hij

/-- **What stands before an entry of the prefix** is what precedes it. -/
theorem before_iff {a b : Nat × α} (ha : xs[a.1]? = some a.2)
    (hb : (topKBy key k xs)[i]? = some b) :
    (∃ j < i, (topKBy key k xs)[j]? = some a) ↔ Precedes key a b := by
  obtain ⟨hik, hbi⟩ := getElem?_topKBy.1 hb
  constructor
  · rintro ⟨j, hji, haj⟩
    exact precedes_of_lt hji (getElem?_topKBy.1 haj).2 hbi
  · intro hab
    -- the entry stands somewhere in the whole list, and neither there nor later
    have hmem : a ∈ ordered key xs := mem_ordered.2 ha
    obtain ⟨j, haj⟩ := List.mem_iff_getElem?.1 hmem
    rcases Nat.lt_trichotomy j i with hji | rfl | hij
    · exact ⟨j, hji, getElem?_topKBy.2 ⟨hji.trans hik, haj⟩⟩
    · rw [haj] at hbi
      cases hbi
      exact (hab.asymm hab).elim
    · exact (hab.asymm (precedes_of_lt hij hbi haj)).elim

instance (key : α → Int) (a b : Nat × α) : Decidable (Precedes key a b) :=
  inferInstanceAs (Decidable (_ ∨ _))

theorem mem_take_iff_getElem? {a : Nat × α} {entries : List (Nat × α)} :
    a ∈ entries.take i ↔ ∃ j < i, entries[j]? = some a := by
  rw [List.mem_iff_getElem?]
  refine exists_congr fun j => ?_
  rw [List.getElem?_take]
  split <;> simp [*]

/-- **As many entries precede an entry of the prefix as stand before it.** -/
theorem card_precedes {b : Nat × α} (hb : (topKBy key k xs)[i]? = some b) :
    (positions (fun a => decide (Precedes key a b)) xs).card = i := by
  have hset : positions (fun a => decide (Precedes key a b)) xs =
      (((topKBy key k xs).take i).map Prod.fst).toFinset := by
    ext n
    rw [mem_positions, List.mem_toFinset, List.mem_map]
    constructor
    · rintro ⟨x, hx, hprec⟩
      obtain ⟨j, hji, hj⟩ := (before_iff (a := (n, x)) hx hb).2 (of_decide_eq_true hprec)
      exact ⟨(n, x), mem_take_iff_getElem?.2 ⟨j, hji, hj⟩, rfl⟩
    · rintro ⟨⟨n, x⟩, hmem, rfl⟩
      obtain ⟨j, hji, hj⟩ := mem_take_iff_getElem?.1 hmem
      have hx := getElem?_of_mem_topKBy (List.mem_of_getElem? hj)
      exact ⟨x, hx, decide_eq_true ((before_iff (a := (n, x)) hx hb).1 ⟨j, hji, hj⟩)⟩
  have hnodup : (((topKBy key k xs).take i).map Prod.fst).Nodup :=
    nodup_topKBy.sublist ((List.take_sublist i _).map _)
  rw [hset, List.toFinset_card_of_nodup hnodup, List.length_map, List.length_take]
  exact Nat.min_eq_left (List.getElem?_eq_some_iff.1 hb).1.le

end

end MultiHop
