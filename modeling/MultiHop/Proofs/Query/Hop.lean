/-
MultiHop/Proofs/Query/Hop.lean

What hops end with.  Two things are said of each kind of hop.  Whatever the model
replies, an answer covers every entity and only comes if all positions are in range, and
a beam never breaks off (`Model.hop_covers`, `Model.hops_cover`, `Beam.hop_covers`).  And
if the model replies properly within range, a hop fails only for a position that is out of
range (`Model.hop_replies`, `Model.hops_reply`, `Beam.hop_replies`).
-/
import MultiHop.Proofs.Consult
import MultiHop.Proofs.Fuzzy.Calibration
import MultiHop.Query.Beam

namespace MultiHop

open Consult

/-! ### Range checks -/

namespace Model

variable {m : Model} {h : EntityId} {r : RelationId} {heads : List EntityId}

theorem checkEntity_ends : (ofExcept (m.checkEntity h)).Ends (fun _ => h.index < m.entityCount)
    fun e => m.entityCount ≤ h.index ∧ e = .entityOutOfRange h m.entityCount := by
  unfold checkEntity
  split
  · next hlt => exact hlt
  · next hge => exact ⟨Nat.not_lt.1 hge, rfl⟩

theorem checkRelation_ends :
    (ofExcept (m.checkRelation r)).Ends (fun _ => r.index < m.relationCount)
      fun e => m.relationCount ≤ r.index ∧ e = .relationOutOfRange r m.relationCount := by
  unfold checkRelation
  split
  · next hlt => exact hlt
  · next hge => exact ⟨Nat.not_lt.1 hge, rfl⟩

theorem forM_checkEntity (hh : ∀ h ∈ heads, h.index < m.entityCount) :
    (heads.forM m.checkEntity : Except GraphError Unit) = .ok () := by
  induction heads with
  | nil => rfl
  | cons h heads ih =>
    obtain ⟨hlt, hrest⟩ := List.forall_mem_cons.1 hh
    have hcheck : m.checkEntity h = .ok () := if_pos hlt
    show (m.checkEntity h >>= fun _ => heads.forM m.checkEntity) = _
    rw [hcheck]
    exact ih hrest

end Model

theorem FuzzySet.singleton_ends {n : Nat} {e : EntityId} : (ofExcept (singleton n e)).Ends
    (fun v => e.index < n ∧ v.degrees = (List.replicate n 0).set e.index 1)
    fun err => n ≤ e.index ∧ err = .entityOutOfRange e n := by
  unfold singleton
  split
  · next hlt =>
    refine ⟨hlt, ?_⟩
    show ((Vector.replicate n (0 : Float32)).set e.index 1 hlt).toList = _
    rw [Vector.toList_set, Vector.toList_replicate]
  · next hge => exact ⟨Nat.not_lt.1 hge, rfl⟩

/-! ### Any model -/

namespace Model

variable {m : Model} {h : EntityId} {r : RelationId} {heads : List EntityId}

theorem hopLogits_covers : (m.hopLogits h r).Ends
    (fun row => row.length = m.entityCount ∧ h.index < m.entityCount ∧
      r.index < m.relationCount)
    fun _ => True := by
  refine (checkEntity_ends.mono (fun _ hh => hh) fun _ _ => trivial).bind fun _ hh => ?_
  refine (checkRelation_ends.mono (fun _ hr => hr) fun _ _ => trivial).bind fun _ hr => ?_
  refine ends_trivial.bind fun _ _ => ends_trivial.bind fun row _ => ?_
  split
  · next hlen => exact ends_pure ⟨hlen, hh, hr⟩
  · exact ends_fail trivial

variable [Elementary]

/-- An answer to a hop covers every entity, and head and relation are in range. -/
theorem hop_covers : (m.hop h r).Ends
    (fun v => v.size = m.entityCount ∧ h.index < m.entityCount ∧ r.index < m.relationCount)
    fun _ => True :=
  hopLogits_covers.bind fun _ ⟨hlen, hrange⟩ =>
    ends_ofExcept (fun _ hv => ⟨(FuzzySet.size_ofLogits hv).trans hlen, hrange⟩)
      fun _ _ => trivial

/-- An answer to several hops has a row for each head, each row covers every entity, and
the relation is in range. -/
theorem hops_cover : (m.hops heads r).Ends
    (fun rows => rows.length = heads.length ∧ (∀ v ∈ rows, v.size = m.entityCount) ∧
      r.index < m.relationCount)
    fun _ => True := by
  refine ends_trivial.bind fun _ _ => ?_
  refine (checkRelation_ends.mono (fun _ hr => hr) fun _ _ => trivial).bind fun _ hr => ?_
  refine ends_trivial.bind fun _ _ => ends_trivial.bind fun batch _ => ?_
  split
  · next hshape =>
    -- the shape of the reply is checked, whatever it is
    obtain ⟨hrows, hcolumns⟩ := hshape
    show (ofExcept (batch.rows.mapM FuzzySet.ofLogits)).Ends _ _
    rw [ofExcept_mapM]
    have hsets : ∀ row ∈ batch.rows, (ofExcept (FuzzySet.ofLogits row)).Ends
        (fun v => v.size = m.entityCount) fun _ => True := fun row hrow =>
      ends_ofExcept (fun _ hv => by
        rw [FuzzySet.size_ofLogits hv, batch.length_row row hrow, hcolumns]) fun _ _ => trivial
    refine (ends_mapM hsets).mono (fun rows hall => ?_) fun _ _ => trivial
    refine ⟨hall.length_eq.symm.trans hrows, fun v hv => ?_, hr⟩
    obtain ⟨row, -, hrow⟩ := exists_of_forall₂ hall v hv
    exact hrow
  · exact ends_fail trivial

end Model

/-! ### Beams -/

theorem exists_of_mem_zipWith {α β γ : Type} {f : α → β → γ} {xs : List α} {ys : List β} {z : γ}
    (h : z ∈ xs.zipWith f ys) : ∃ x ∈ xs, ∃ y ∈ ys, z = f x y := by
  rw [← List.map_uncurry_zip_eq_zipWith] at h
  obtain ⟨⟨x, y⟩, hxy, rfl⟩ := List.mem_map.1 h
  exact ⟨x, (List.of_mem_zip hxy).1, y, (List.of_mem_zip hxy).2, rfl⟩

theorem forall₂_zipWith {α β γ δ : Type} {G : α → γ → Prop} {f : β → γ → δ}
    {entries : List (α × β)} {rows : List γ}
    (h : List.Forall₂ G (entries.map (·.1)) rows) :
    List.Forall₂ (fun entry w => ∃ v, G entry.1 v ∧ w = f entry.2 v) entries
      ((entries.map (·.2)).zipWith f rows) := by
  induction entries generalizing rows with
  | nil => exact .nil
  | cons entry entries ih =>
    cases h with
    | cons hv hrest => exact .cons ⟨_, hv, rfl⟩ (ih hrest)

theorem length_zipWith_eq {α β γ : Type} {f : α → β → γ} {xs : List α} {ys : List β} {n : Nat}
    (hx : xs.length = n) (hy : ys.length = n) : (xs.zipWith f ys).length = n := by
  rw [List.length_zipWith, hx, hy, Nat.min_self]

namespace Beam

variable {b : Beam} {t : TNorm} {n : Nat}

/-- A beam holds as many entities as it may, if there are so many. -/
theorem length_entries_ofSet (s : FuzzySet) (k : Nat) :
    (ofSet s k).entries.length = min k s.size := by
  unfold ofSet FuzzySet.best
  rw [List.length_map, length_topKBy]
  rfl

/-- A beam that may hold an entity does hold one. -/
theorem entries_ofSet_ne_nil {s : FuzzySet} {k : Nat} (hk : 0 < k) (hs : 0 < s.size) :
    (ofSet s k).entries ≠ [] := by
  apply List.ne_nil_of_length_pos
  rw [length_entries_ofSet]
  exact Nat.lt_min.2 ⟨hk, hs⟩

theorem length_carried : b.carried.length = b.entities.length := by
  simp [carried, entities]

theorem length_bestWitness {rows : List (List Float32)} (h : ∀ row ∈ rows, row.length = n) :
    (bestWitness n rows).length = n := by
  unfold bestWitness
  -- the vector that is folded keeps its length from one row to the next
  suffices hall : ∀ best : List Float32, best.length = n →
      (rows.foldl (fun best row => best.zipWith larger row) best).length = n from
    hall _ List.length_replicate
  induction rows with
  | nil => exact fun best hbest => hbest
  | cons row rows ih =>
    intro best hbest
    obtain ⟨hrow, hrest⟩ := List.forall_mem_cons.1 h
    exact ih hrest _ (length_zipWith_eq hbest hrow)

/-- As many rows as entities can always be combined with the beam. -/
theorem witnesses_eq {rows : List FuzzySet} (h : rows.length = b.entities.length) :
    b.witnesses t rows = .ok (b.carried.zipWith (fun c row => row.degrees.map (t.meet c)) rows) :=
  if_pos (length_carried.trans h.symm)

theorem length_of_mem_zipWith {cs : List Float32} {rows : List FuzzySet}
    (h : ∀ v ∈ rows, v.size = n) :
    ∀ row ∈ cs.zipWith (fun c row => row.degrees.map (t.meet c)) rows, row.length = n := by
  intro row hrow
  obtain ⟨c, -, v, hv, rfl⟩ := exists_of_mem_zipWith hrow
  exact (List.length_map _).trans (h v hv)

variable [Elementary] {m : Model} {r : RelationId}

/-- **A beam never breaks off**, and what it leads to covers every entity.  The relation
is in range, unless the beam is empty. -/
theorem hop_covers : (b.hop m r t).Ends
    (fun v => v.size = m.entityCount ∧ (b.entries ≠ [] → r.index < m.relationCount))
    Fault.IsError := by
  unfold hop
  split
  · next hempty =>
    exact ends_pure ⟨FuzzySet.size_empty _, fun hne => absurd (List.isEmpty_iff.1 hempty) hne⟩
  · refine (Model.hops_cover.mono (fun _ h => h) fun e _ => Fault.isError_error e).mapError.bind
      fun rows hrows => ?_
    obtain ⟨hlen, hsize, hr⟩ := hrows
    refine ends_bind_of_ok (by rw [witnesses_eq hlen]; rfl) ?_
    refine Ends.mapError (ends_ofExcept (fun v hv => ⟨?_, fun _ => hr⟩)
      fun e _ => Fault.isError_error e)
    rw [FuzzySet.size_ofDegrees hv, length_bestWitness (length_of_mem_zipWith hsize)]

end Beam

/-! ### Models that reply -/

/-- Every request for tails that is within range is answered with one number per
entity, and each head with numbers that satisfy `P`; so is one for several heads at
once, if the model has a way of its own for it. -/
structure Model.Replies (m : Model) (P : EntityId → RelationId → List Float32 → Prop) :
    Prop where
  tails (h : EntityId) (r : RelationId) :
    h.index < m.entityCount → r.index < m.relationCount →
      ∃ row, m.tails h r = .ok row ∧ row.length = m.entityCount ∧ P h r row
  batch (reply : List EntityId → RelationId → Except GraphError Batch) :
    m.ownBatch = some reply → ∀ (heads : List EntityId) (r : RelationId),
      (∀ h ∈ heads, h.index < m.entityCount) → r.index < m.relationCount →
        ∃ b, reply heads r = .ok b ∧ b.columns = m.entityCount ∧
          List.Forall₂ (fun h row => P h r row) heads b.rows

/-- A model may reply more than is asked of it. -/
theorem Model.Replies.mono {m : Model} {P Q : EntityId → RelationId → List Float32 → Prop}
    (hm : m.Replies P)
    (hPQ : ∀ h r row, row.length = m.entityCount → P h r row → Q h r row) : m.Replies Q where
  tails h r hh hr := by
    obtain ⟨row, htails, hlen, hrow⟩ := hm.tails h r hh hr
    exact ⟨row, htails, hlen, hPQ h r row hlen hrow⟩
  batch reply hown heads r hh hr := by
    obtain ⟨b, hb, hcolumns, hrows⟩ := hm.batch reply hown heads r hh hr
    have hlen : ∀ row ∈ b.rows, row.length = m.entityCount := fun row hrow =>
      (b.length_row row hrow).trans hcolumns
    have hboth := (List.forall₂_and_left _ _).2 ⟨hlen, hrows.flip⟩
    exact ⟨b, hb, hcolumns, (hboth.imp fun row h ⟨hlen, hrow⟩ => hPQ h r row hlen hrow).flip⟩

/-- Every reply within range makes a fuzzy set, and that of each head satisfies `Q`. -/
def Model.Yields [Elementary] (m : Model) (Q : EntityId → RelationId → FuzzySet → Prop) : Prop :=
  m.Replies fun h r row => ∃ v, FuzzySet.ofLogits row = .ok v ∧ Q h r v

/-- The position is out of range, and the error says so. -/
def OutOfRange (entities relations : Nat) (e : GraphError) : Prop :=
  (∃ h : EntityId, entities ≤ h.index ∧ e = .entityOutOfRange h entities) ∨
    ∃ r : RelationId, relations ≤ r.index ∧ e = .relationOutOfRange r relations

namespace Model

variable {m : Model} {P : EntityId → RelationId → List Float32 → Prop} {h : EntityId}
  {r : RelationId} {heads : List EntityId}

theorem askRow_replies (hm : m.Replies P) (hh : h.index < m.entityCount)
    (hr : r.index < m.relationCount) :
    (m.askRow r h).Ends (fun row => P h r row.val) fun _ => False := by
  obtain ⟨row, htails, hlen, hrow⟩ := hm.tails h r hh hr
  refine ends_bind_of_ok (a := row) htails ?_
  rw [dif_pos hlen]
  exact ends_pure hrow

theorem askBatch_replies (hm : m.Replies P) (hh : ∀ h ∈ heads, h.index < m.entityCount)
    (hr : r.index < m.relationCount) :
    (m.askBatch heads r).Ends (fun b => b.columns = m.entityCount ∧
      List.Forall₂ (fun h row => P h r row) heads b.rows) fun _ => False := by
  unfold askBatch
  cases hown : m.ownBatch with
  | some reply =>
    -- the model has a way of its own
    obtain ⟨b, hb, hcolumns, hrows⟩ := hm.batch reply hown heads r hh hr
    show (asking (.batch heads r) (reply heads r)).Ends _ _
    rw [hb]
    exact ⟨hcolumns, hrows⟩
  | none =>
    -- one request for each head
    refine (ends_mapM fun h hmem => askRow_replies hm (hh h hmem) hr).bind fun rows hrows => ?_
    exact ends_pure ⟨rfl, List.forall₂_map_right_iff.2 hrows⟩

variable [Elementary] {Q : EntityId → RelationId → FuzzySet → Prop}

/-- A hop of a model that replies fails only out of range. -/
theorem hop_replies (hm : m.Yields Q) :
    (m.hop h r).Ends (fun v => h.index < m.entityCount ∧ r.index < m.relationCount ∧
        v.size = m.entityCount ∧ Q h r v)
      fun e => (m.entityCount ≤ h.index ∨ m.relationCount ≤ r.index) ∧
        OutOfRange m.entityCount m.relationCount e := by
  refine Ends.bind (P := fun row => h.index < m.entityCount ∧ r.index < m.relationCount ∧
    row.length = m.entityCount ∧ ∃ v, FuzzySet.ofLogits row = .ok v ∧ Q h r v) ?_ fun row hrow => ?_
  · refine (checkEntity_ends.mono (fun _ hh => hh)
      fun e he => ⟨.inl he.1, .inl ⟨h, he⟩⟩).bind fun _ hh => ?_
    refine (checkRelation_ends.mono (fun _ hr => hr)
      fun e he => ⟨.inr he.1, .inr ⟨r, he⟩⟩).bind fun _ hr => ?_
    -- both checks are passed, so the model replies with a row of the right length
    obtain ⟨row, htails, hlen, hrow⟩ := hm.tails h r hh hr
    refine ends_bind_of_ok (a := ()) rfl (ends_bind_of_ok (a := row) htails ?_)
    rw [if_pos hlen]
    exact ends_pure ⟨hh, hr, hlen, hrow⟩
  · obtain ⟨hh, hr, hlen, v, hv, hQ⟩ := hrow
    show (ofExcept (FuzzySet.ofLogits row)).Ends _ _
    rw [hv]
    exact ⟨hh, hr, (FuzzySet.size_ofLogits hv).trans hlen, hQ⟩

theorem mapM_ofLogits {n : Nat} {rows : List (List Float32)}
    (hrows : List.Forall₂ (fun h row => ∃ v, FuzzySet.ofLogits row = .ok v ∧ Q h r v) heads rows)
    (hlen : ∀ row ∈ rows, row.length = n) :
    ∃ vs, rows.mapM FuzzySet.ofLogits = .ok vs ∧
      List.Forall₂ (fun h v => v.size = n ∧ Q h r v) heads vs := by
  induction hrows with
  | nil => exact ⟨[], rfl, .nil⟩
  | @cons h row heads rows hrow _ ih =>
    obtain ⟨hfirst, hrest⟩ := List.forall_mem_cons.1 hlen
    obtain ⟨v, hv, hQ⟩ := hrow
    obtain ⟨vs, hvs, hall⟩ := ih hrest
    refine ⟨v :: vs, ?_, .cons ⟨(FuzzySet.size_ofLogits hv).trans hfirst, hQ⟩ hall⟩
    rw [List.mapM_cons, hv, hvs]
    rfl

/-- Several hops from heads within range fail only if the relation is out of range. -/
theorem hops_reply (hm : m.Yields Q) (hh : ∀ h ∈ heads, h.index < m.entityCount) :
    (m.hops heads r).Ends (fun rows => r.index < m.relationCount ∧
        List.Forall₂ (fun h v => v.size = m.entityCount ∧ Q h r v) heads rows)
      fun e => m.relationCount ≤ r.index ∧ e = .relationOutOfRange r m.relationCount := by
  refine ends_bind_of_ok (a := ()) (forM_checkEntity hh) ?_
  refine checkRelation_ends.bind fun _ hr => ends_bind_of_ok (a := ()) rfl ?_
  refine ((askBatch_replies hm hh hr).mono (fun _ h => h) fun _ => False.elim).bind
    fun batch hbatch => ?_
  obtain ⟨hcolumns, hrows⟩ := hbatch
  rw [if_pos ⟨hrows.length_eq.symm, hcolumns⟩]
  obtain ⟨vs, hvs, hall⟩ := mapM_ofLogits hrows fun row hrow =>
    (batch.length_row row hrow).trans hcolumns
  show (ofExcept (batch.rows.mapM FuzzySet.ofLogits)).Ends _ _
  rw [hvs]
  exact ⟨hr, hall⟩

end Model

namespace Beam

variable {b : Beam} {t : TNorm} {n : Nat}

/-- What is true of zero, of the rows and of the larger of two numbers is true of the best
witnesses. -/
theorem forall_mem_bestWitness {P : Float32 → Prop} (hzero : P 0)
    (hlarger : ∀ a b, P a → P b → P (larger a b)) {rows : List (List Float32)}
    (h : ∀ row ∈ rows, ∀ p ∈ row, P p) : ∀ p ∈ bestWitness n rows, P p := by
  unfold bestWitness
  suffices hall : ∀ best : List Float32, (∀ p ∈ best, P p) →
      ∀ p ∈ rows.foldl (fun best row => best.zipWith larger row) best, P p from
    hall _ fun p hp => (List.mem_replicate.1 hp).2 ▸ hzero
  induction rows with
  | nil => exact fun best hbest => hbest
  | cons row rows ih =>
    intro best hbest
    obtain ⟨hrow, hrest⟩ := List.forall_mem_cons.1 h
    refine ih hrest _ fun p hp => ?_
    obtain ⟨x, hx, y, hy, rfl⟩ := exists_of_mem_zipWith hp
    exact hlarger x y (hbest x hx) (hrow y hy)

/-- What a beam makes of probabilities are probabilities. -/
theorem isProbability_bestWitness {rows : List (List Float32)}
    (h : ∀ row ∈ rows, ∀ p ∈ row, IsProbability p) :
    ∀ p ∈ bestWitness n rows, IsProbability p :=
  forall_mem_bestWitness isProbability_zero (fun _ _ => isProbability_larger) h

theorem isProbability_of_mem_zipWith (t : TNorm) {cs : List Float32} (rows : List FuzzySet)
    (hcs : ∀ c ∈ cs, IsProbability c) :
    ∀ row ∈ cs.zipWith (fun c row => row.degrees.map (t.meet c)) rows,
      ∀ p ∈ row, IsProbability p := by
  intro row hrow p hp
  obtain ⟨c, hc, v, -, rfl⟩ := exists_of_mem_zipWith hrow
  obtain ⟨q, hq, rfl⟩ := List.mem_map.1 hp
  exact t.isProbability_meet (hcs c hc) (v.probable q hq)

variable [Elementary] {m : Model} {Q : EntityId → RelationId → FuzzySet → Prop}
  {r : RelationId}

/-- A beam within range that is sent through a relation fails only if the relation is
out of range. -/
theorem hop_replies (hm : m.Yields Q) (hne : b.entries ≠ [])
    (hh : ∀ h ∈ b.entities, h.index < m.entityCount) (hc : ∀ c ∈ b.carried, IsProbability c) :
    (b.hop m r t).Ends (fun v => r.index < m.relationCount ∧ v.size = m.entityCount ∧
        ∃ rows, List.Forall₂ (fun h v => v.size = m.entityCount ∧ Q h r v) b.entities rows ∧
          v.degrees = bestWitness m.entityCount
            (b.carried.zipWith (fun c row => row.degrees.map (t.meet c)) rows))
      fun f => m.relationCount ≤ r.index ∧
        f = .error (.relationOutOfRange r m.relationCount) := by
  unfold hop
  rw [if_neg (by rwa [List.isEmpty_iff])]
  refine ((Model.hops_reply hm hh).mono (fun _ h => h)
    fun e he => ⟨he.1, congrArg _ he.2⟩).mapError.bind fun rows hrows => ?_
  obtain ⟨hr, hall⟩ := hrows
  have hprob := isProbability_bestWitness (n := m.entityCount)
    (isProbability_of_mem_zipWith t rows hc)
  have hsize : ∀ v ∈ rows, v.size = m.entityCount := fun v hv => by
    obtain ⟨h, -, hv, -⟩ := exists_of_forall₂ hall v hv
    exact hv
  refine ends_bind_of_ok (by rw [witnesses_eq hall.length_eq.symm]; rfl) ?_
  -- the best witnesses are probabilities, so the last check passes
  show (Consult.mapError _ (ofExcept (FuzzySet.ofDegrees _))).Ends _ _
  rw [FuzzySet.ofDegrees_eq hprob]
  exact ⟨hr, length_bestWitness (length_of_mem_zipWith hsize), rows, hall, rfl⟩

end Beam

end MultiHop
