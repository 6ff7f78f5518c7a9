/-
MultiHop/Proofs/Query/PruningLoss.lean

How much a hop loses to its beam.  Without a beam, the degree of a tail is the largest of
what it is reached with by way of any entity at all:

    m.Reaches s r norm t h x

says that by way of `h`, which has a degree in the source `s`, the tail `t` is reached with
`x`.  A beam takes the ways of the entities it holds, and no others (`Beam.hop_isLargest`): the
rows that are asked for, met with what the entities carry and folded into one, are a largest
number for each tail.

A way that the beam does not take reaches a tail with no more than the degree of its entity,
because a conjunction is below its first operand, also after rounding.  So the loss is
bounded by the largest degree that the beam leaves out.  If the beam is wide enough for all
degrees above zero, it leaves out nothing but zeros, since the entries of a source are sorted
by size (`Beam.le_zero_of_notMem`).

Main result: `Beam.hop_loss_bounded`.
-/
import MultiHop.Proofs.Query.Beam
import MultiHop.Proofs.Single.Order

namespace MultiHop

open Consult Single

/-! ### Ways to a tail -/

/-- By way of `h`, which has a degree in `s`, the tail `t` is reached with the degree `x`. -/
def Model.Reaches [Elementary] (m : Model) (s : FuzzySet) (r : RelationId) (norm : TNorm)
    (t h : EntityId) (x : Float32) : Prop :=
  ∃ c row logit, s.degree? h = some c ∧ m.tails h r = .ok row ∧ row[t.index]? = some logit ∧
    x = norm.meet c (sigmoid logit)

/-- A tail is reached with no more than the degree of the entity on the way. -/
theorem Model.Reaches.bounds [Elementary] (laws : Elementary.Bounded) {m : Model}
    {s : FuzzySet} {r : RelationId} {norm : TNorm} {t h : EntityId} {x : Float32}
    (hm : m.Coherent) (hs : s.size = m.entityCount) (hr : r.index < m.relationCount)
    (hx : m.Reaches s r norm t h x) :
    IsProbability x ∧ ∃ c, s.degree? h = some c ∧ x ≤ c := by
  obtain ⟨c, row, logit, hc, hrow, hlogit, rfl⟩ := hx
  have hh : h.index < m.entityCount := hs ▸ (List.getElem?_eq_some_iff.1 hc).1
  obtain ⟨row', hrow', -, -, hn⟩ := hm.tails h r hh hr
  obtain rfl : row = row' := Except.ok.inj (hrow.symm.trans hrow')
  have hprob := s.probable c (List.mem_of_getElem? hc)
  have hlogit := isProbability_sigmoid laws (hn logit (List.mem_of_getElem? hlogit))
  exact ⟨norm.isProbability_meet hprob hlogit, c, hc, norm.meet_le_left hprob hlogit⟩

namespace Beam

/-! ### The best witness is one of the witnesses -/

section

variable {n i : Nat} {p : Float32}

theorem getElem?_foldl_larger {rows : List (List Float32)} {best : List Float32}
    (hp : (rows.foldl (fun best row => best.zipWith larger row) best)[i]? = some p) :
    best[i]? = some p ∨ ∃ row ∈ rows, row[i]? = some p := by
  induction rows generalizing best with
  | nil => exact .inl hp
  | cons row rows ih =>
    rcases ih hp with hfirst | ⟨later, hlater, hget⟩
    · obtain ⟨x, y, hx, hy, rfl⟩ := List.getElem?_zipWith_eq_some.1 hfirst
      rcases larger_eq_or x y with heq | heq <;> rw [heq]
      · exact .inl hx
      · exact .inr ⟨row, List.mem_cons_self, hy⟩
    · exact .inr ⟨later, List.mem_cons_of_mem _ hlater, hget⟩

/-- **The best witness is the largest entry of the rows**, and zero if there are no rows. -/
theorem isLargest_bestWitness {rows : List (List Float32)}
    (hrows : ∀ row ∈ rows, ∀ p ∈ row, IsProbability p)
    (hp : (bestWitness n rows)[i]? = some p) :
    IsLargest {x | ∃ row ∈ rows, row[i]? = some x} p := by
  have hprob : IsProbability p :=
    isProbability_bestWitness hrows p (List.mem_of_getElem? hp)
  have hle : ∀ x ∈ {x | ∃ row ∈ rows, row[i]? = some x}, x ≤ p := by
    rintro x ⟨row, hrow, hx⟩
    obtain ⟨q, hq, hqp⟩ := ((bestWitness_le_iff hrows hp).1 (le_self hprob.isNaN)).2 row hrow
    obtain rfl : x = q := Option.some.inj (hx.symm.trans hq)
    exact hqp
  cases rows with
  | nil => exact .inr ⟨by simp, List.eq_of_mem_replicate (List.mem_of_getElem? hp)⟩
  | cons row rows =>
    refine .inl ⟨?_, hle⟩
    have hfrom : ((List.replicate n 0).zipWith larger row)[i]? = some p ∨
        ∃ later ∈ rows, later[i]? = some p := getElem?_foldl_larger hp
    -- the zero at the start gives way to the first row
    rcases hfrom with hfirst | ⟨later, hlater, hget⟩
    · obtain ⟨x, y, hx, hy, rfl⟩ := List.getElem?_zipWith_eq_some.1 hfirst
      obtain rfl : x = 0 := List.eq_of_mem_replicate (List.mem_of_getElem? hx)
      have hy0 : 0 ≤ y := (hrows row List.mem_cons_self y (List.mem_of_getElem? hy)).1
      rw [larger_eq isProbability_zero.isNaN, if_pos hy0]
      exact ⟨row, List.mem_cons_self, hy⟩
    · exact ⟨later, List.mem_cons_of_mem _ hlater, hget⟩

end

section

/-! ### What a beam reaches -/

variable [Elementary] {m : Model} {b : Beam} {s : FuzzySet} {r : RelationId} {norm : TNorm}
  {k : Nat}

/-- The entries of the rows are the degrees that are reached by way of the entities. -/
theorem exists_row_iff_reaches {rows : List FuzzySet}
    (hb : ∀ entry ∈ b.entries, s.degree? entry.1 = some entry.2)
    (hrows : List.Forall₂ (fun h v => ∃ row, m.tails h r = .ok row ∧
      v.degrees = row.map sigmoid) b.entities rows) {t : EntityId} {x : Float32} :
    (∃ w ∈ b.carried.zipWith (fun c row => row.degrees.map (norm.meet c)) rows,
      w[t.index]? = some x) ↔ ∃ h ∈ b.entities, m.Reaches s r norm t h x := by
  have hways := forall₂_zipWith (f := fun c (row : FuzzySet) => row.degrees.map (norm.meet c))
    hrows
  constructor
  · rintro ⟨w, hw, hx⟩
    obtain ⟨⟨h, c⟩, hentry, v, ⟨row, hrow, hv⟩, rfl⟩ := exists_of_forall₂ hways w hw
    rw [hv, List.map_map, List.getElem?_map] at hx
    obtain ⟨logit, hlogit, rfl⟩ := Option.map_eq_some_iff.1 hx
    exact ⟨h, List.mem_map_of_mem hentry, c, row, logit, hb _ hentry, hrow, hlogit, rfl⟩
  · rintro ⟨h, hh, c, row, logit, hc, hrow, hlogit, rfl⟩
    obtain ⟨⟨h, c'⟩, hentry, rfl⟩ := List.mem_map.1 hh
    obtain ⟨w, hw, v, ⟨row', hrow', hv⟩, rfl⟩ := exists_of_forall₂ hways.flip _ hentry
    -- the entity carries its degree, and the model has one reply for it
    obtain rfl : c = c' := Option.some.inj (hc.symm.trans (hb _ hentry))
    obtain rfl : row = row' := Except.ok.inj (hrow.symm.trans hrow')
    refine ⟨_, hw, ?_⟩
    rw [hv, List.map_map, List.getElem?_map, hlogit]
    rfl

/-- **A beam takes the ways of its entities**, and gives every tail the largest degree that it
is reached with on them. -/
theorem hop_isLargest (laws : Elementary.Bounded) (hm : m.Coherent)
    (hs : s.size = m.entityCount) (hr : r.index < m.relationCount)
    (hb : ∀ entry ∈ b.entries, s.degree? entry.1 = some entry.2) :
    (b.hop m r norm).Ends (fun v => v.size = m.entityCount ∧ ∀ t p, v.degree? t = some p →
      IsLargest {x | ∃ h ∈ b.entities, m.Reaches s r norm t h x} p) fun _ => False := by
  have hyields : m.Yields fun h r v => ∃ row, m.tails h r = .ok row ∧
      v.degrees = row.map sigmoid := hm.mono fun _ _ row _ hrow => by
    obtain ⟨v, hv, hdegrees⟩ := FuzzySet.ofLogits_eq laws hrow.2
    exact ⟨v, hv, row, hrow.1, hdegrees⟩
  have hrange : ∀ h ∈ b.entities, h.index < m.entityCount :=
    List.forall_mem_map.2 fun entry hentry =>
      hs ▸ (List.getElem?_eq_some_iff.1 (hb entry hentry)).1
  have hcarried : ∀ c ∈ b.carried, IsProbability c :=
    List.forall_mem_map.2 fun entry hentry =>
      s.probable entry.2 (List.mem_of_getElem? (hb entry hentry))
  by_cases hne : b.entries = []
  · -- no ways at all
    rw [hop, if_pos (List.isEmpty_iff.2 hne)]
    refine ends_pure ⟨FuzzySet.size_empty _, fun t p hp => .inr ⟨?_, ?_⟩⟩
    · simp [entities, hne]
    · exact List.eq_of_mem_replicate (List.mem_of_getElem? hp)
  · refine (hop_replies hyields hne hrange hcarried).mono (fun v hv => ?_)
      fun f hf => absurd hr (not_lt.2 hf.1)
    obtain ⟨-, hsize, rows, hrows, hdegrees⟩ := hv
    refine ⟨hsize, fun t p hp => ?_⟩
    unfold FuzzySet.degree? at hp
    rw [hdegrees] at hp
    have hlargest := isLargest_bestWitness (isProbability_of_mem_zipWith norm rows hcarried) hp
    simpa only [exists_row_iff_reaches hb (hrows.imp fun h v hv => hv.2)] using hlargest

/-! ### What a beam leaves out -/

omit [Elementary] in
/-- A beam with room for all degrees above zero leaves out nothing but zeros. -/
theorem le_zero_of_notMem (hcount : s.degrees.countP (· != 0) ≤ k) {h : EntityId}
    {c : Float32} (hh : h ∉ (ofSet s k).entities) (hc : s.degree? h = some c) : c ≤ 0 := by
  have hn : ∀ p ∈ s.degrees, p.isNaN = false := fun p hp => (s.probable p hp).isNaN
  by_contra hle
  have hpos : 0 < c :=
    (not_le_iff (hn c (List.mem_of_getElem? hc)) isProbability_zero.isNaN).1 hle
  refine hh (List.mem_map.2 ⟨(h, c), mem_ofSet.2 (mem_topKBy_of_countP hc ?_ hcount), rfl⟩)
  -- whatever ranks as high as `c` is as large
  intro y hy hrank
  have hcy : c ≤ y := by
    by_contra hlt
    have hyc := (not_le_iff (hn c (List.mem_of_getElem? hc)) (hn y hy)).1 hlt
    exact absurd (rankOf_lt_of_lt hyc) (not_lt.2 hrank)
  refine bne_of_lt ((not_le_iff (hn y hy) isProbability_zero.isNaN).1 fun hy0 => ?_)
  exact hle (le_chain hcy hy0)

/-- A beam of everything takes all ways. -/
theorem exists_mem_entities_iff {t : EntityId} {x : Float32} (hk : s.size ≤ k) :
    (∃ h ∈ (ofSet s k).entities, m.Reaches s r norm t h x) ↔ ∃ h, m.Reaches s r norm t h x := by
  constructor
  · rintro ⟨h, -, hx⟩
    exact ⟨h, hx⟩
  · rintro ⟨h, hx⟩
    obtain ⟨c, row, logit, hc, hway⟩ := hx
    have hmem := mem_ofSet_of_size_le hk hc
    exact ⟨h, List.mem_map_of_mem hmem, c, row, logit, hc, hway⟩

/-! ### The loss -/

section

variable {E : List EntityId} {t : EntityId} {p f μ : Float32}

/-- **No tail loses more than the largest degree that is left out.** -/
theorem within_of_isLargest (laws : Elementary.Bounded) (hm : m.Coherent)
    (hs : s.size = m.entityCount) (hr : r.index < m.relationCount)
    (hp : IsLargest {x | ∃ h ∈ E, m.Reaches s r norm t h x} p)
    (hf : IsLargest {x | ∃ h, m.Reaches s r norm t h x} f)
    (hμ : IsLargest {c | ∃ h ∉ E, s.degree? h = some c} μ) :
    IsProbability p ∧ p ≤ f ∧ f ≤ larger p μ := by
  have hprob : ∀ x ∈ {x | ∃ h, m.Reaches s r norm t h x}, IsProbability x := by
    rintro x ⟨h, hx⟩
    exact (hx.bounds laws hm hs hr).1
  have pp : IsProbability p := hp.isProbability fun x ⟨h, _, hx⟩ => hprob x ⟨h, hx⟩
  have pμ : IsProbability μ :=
    hμ.isProbability fun c ⟨h, _, hc⟩ => s.probable c (List.mem_of_getElem? hc)
  refine ⟨pp, ?_, ?_⟩
  · exact hp.le_of_forall_le (hf.isProbability hprob).1 fun x ⟨h, _, hx⟩ => hf.le ⟨h, hx⟩
  · refine hf.le_of_forall_le (isProbability_larger pp pμ).1 ?_
    rintro x ⟨h, hx⟩
    by_cases hE : h ∈ E
    · exact le_chain (hp.le ⟨h, hE, hx⟩) (le_larger_left pp.isNaN)
    · -- the way is left out, and so is the degree of its entity
      obtain ⟨-, c, hc, hxc⟩ := hx.bounds laws hm hs hr
      have hcμ : c ≤ μ := hμ.le ⟨h, hE, hc⟩
      exact le_chain hxc (le_chain hcμ (le_larger_right pp.isNaN pμ.isNaN))

end

/-- **The loss of a hop to its beam is bounded.**  The beam of the `k` best entities gives
every tail the largest degree `p` that the tail is reached with by way of these entities.
Of the largest degree `f` by way of any entity it loses nothing unless `f` is at most `μ`,
the largest degree that the beam leaves out.  So `p` is exact if it is not below `μ`, and if
no more than `k` degrees are different from zero. -/
theorem hop_loss_bounded (laws : Elementary.Bounded) (hm : m.Coherent) (hs : s.size = m.entityCount)
    (k : Nat) (hr : r.index < m.relationCount) (norm : TNorm) :
    ∃ v, ((ofSet s k).hop m r norm).result = .ok v ∧ v.size = m.entityCount ∧
      (∃ μ, IsLargest {c | ∃ h ∉ (ofSet s k).entities, s.degree? h = some c} μ) ∧
      ∀ t : EntityId, t.index < m.entityCount → ∃ p, v.degree? t = some p ∧
        IsLargest {x | ∃ h ∈ (ofSet s k).entities, m.Reaches s r norm t h x} p ∧
        (∃ f, IsLargest {x | ∃ h, m.Reaches s r norm t h x} f) ∧
        ∀ f μ, IsLargest {x | ∃ h, m.Reaches s r norm t h x} f →
          IsLargest {c | ∃ h ∉ (ofSet s k).entities, s.degree? h = some c} μ →
            p ≤ f ∧ f ≤ larger p μ ∧ (μ ≤ p ∨ s.degrees.countP (· != 0) ≤ k → f ≤ p) := by
  have hbeam : ∀ k, ((ofSet s k).hop m r norm).Ends _ fun _ => False := fun k =>
    hop_isLargest laws hm hs hr fun entry hentry => degree_of_mem_ofSet hentry
  obtain ⟨v, hv, hsize, hlargest⟩ := (hbeam k).exists_ok
  -- a beam of everything shows that there is a largest degree on all ways
  obtain ⟨w, -, hwsize, hall⟩ := (hbeam s.size).exists_ok
  refine ⟨v, hv, hsize, ?_, fun t ht => ?_⟩
  · refine exists_isLargest (s.degrees.finite_toSet.subset ?_) ?_
    · rintro c ⟨h, -, hc⟩
      exact List.mem_of_getElem? hc
    · rintro c ⟨h, -, hc⟩
      exact (s.probable c (List.mem_of_getElem? hc)).isNaN
  · have hp := List.getElem?_eq_getElem (ht.trans_eq hsize.symm)
    have hf := hall t _ (List.getElem?_eq_getElem (ht.trans_eq hwsize.symm))
    simp only [exists_mem_entities_iff le_rfl] at hf
    refine ⟨_, hp, hlargest t _ hp, ⟨_, hf⟩, fun f μ hf hμ => ?_⟩
    obtain ⟨pp, hpf, hfμ⟩ := within_of_isLargest laws hm hs hr (hlargest t _ hp) hf hμ
    refine ⟨hpf, hfμ, fun hexact => le_chain hfμ (larger_le (le_self pp.isNaN) ?_)⟩
    rcases hexact with hle | hcount
    · exact hle
    · -- nothing but zeros is left out
      have hμ0 : μ ≤ 0 := hμ.le_of_forall_le (le_self isProbability_zero.isNaN)
        fun c ⟨h, hh, hc⟩ => le_zero_of_notMem hcount hh hc
      exact le_chain hμ0 pp.1

end

/-- Three degrees, of which a beam of two leaves out the first one. -/
def uneven : FuzzySet := ⟨[0.25, 0.75, 0.5], by decide +kernel⟩

/-- The second entity is reached from the first one only, which is left out. -/
theorem hop_loss_bounded_cycle :
    ∃ v p, (@hop Elementary.steep (ofSet uneven 2) .cycle ⟨0⟩ .product).result = .ok v ∧
      v.degree? ⟨1⟩ = some p ∧
      ∃ f, IsLargest {x | ∃ h, @Model.Reaches Elementary.steep .cycle uneven ⟨0⟩ .product
        ⟨1⟩ h x} f ∧ p ≤ f ∧ f ≤ larger p 0.25 := by
  have hentities : (ofSet uneven 2).entities = [⟨1⟩, ⟨2⟩] := by decide +kernel
  have hout : IsLargest {c | ∃ h ∉ (ofSet uneven 2).entities, uneven.degree? h = some c} 0.25 := by
    rw [hentities]
    refine .inl ⟨⟨⟨0⟩, by decide, rfl⟩, ?_⟩
    rintro c ⟨⟨i⟩, hi, hc⟩
    rcases i with _ | _ | _ | i
    · cases hc
      decide +kernel
    · exact absurd hi (by decide)
    · exact absurd hi (by decide)
    · cases hc
  obtain ⟨v, hv, -, -, hall⟩ := @hop_loss_bounded Elementary.steep .cycle uneven ⟨0⟩
    Elementary.bounded_steep Model.coherent_cycle rfl 2 Nat.zero_lt_one .product
  obtain ⟨p, hp, -, ⟨f, hf⟩, hbounds⟩ := hall ⟨1⟩ (by decide)
  obtain ⟨hpf, hfμ, -⟩ := hbounds f 0.25 hf hout
  exact ⟨v, p, hv, hp, f, hf, hpf, hfμ⟩

-- what the second entity loses is all of the degree that is left out
example : ((@hop Elementary.steep (ofSet uneven 2) .cycle ⟨0⟩ .product).result.map (·.degrees),
    (@hop Elementary.steep (ofSet uneven 3) .cycle ⟨0⟩ .product).result.map (·.degrees)) =
      (.ok [0.5, 0, 0.75], .ok [0.5, 0.25, 0.75]) := by
  decide +kernel

end Beam

end MultiHop
