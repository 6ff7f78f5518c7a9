/-
MultiHop/Proofs/Query/Answer.lean

The order in which asking a query fails.  Settings, sizes, tag, layout of the payload and
names are checked in this order, before the model is called; once they are in order, a
model that replies with numbers is always answered from, and the answer covers every
entity once (`Model.answer_decides`).
-/
import MultiHop.Proofs.Query.Binding
import MultiHop.Proofs.Query.WellFormed

namespace MultiHop

open Consult

/-! ### Setting a reasoner up -/

namespace Reasoner

variable {model : Model} {index : Index} {settings : Settings}

theorem new_of_not_suits (model : Model) (h : ¬ settings.Suits index.entityCount) :
    ∃ cause, new model index settings = .error (.settings cause) := by
  unfold new
  split
  · next cause _ => exact ⟨cause, rfl⟩
  · next usable => exact absurd (Settings.validate_eq_ok_iff.1 usable) h

theorem new_of_sizes_ne (h : settings.Suits index.entityCount)
    (hne : ¬ (model.entityCount = index.entityCount ∧
      model.relationCount = index.relationCount)) :
    new model index settings = .error (.graph (.invalid (.scorerSize model.entityCount
      model.relationCount index.entityCount index.relationCount))) := by
  have hok := Settings.validate_eq_ok_iff.2 h
  unfold new
  split
  · next cause herr => cases herr.symm.trans hok
  · exact dif_neg hne

/-- A reasoner is what it is set up from. -/
theorem new_eq (r : Reasoner) : new r.model r.index r.settings = .ok r := by
  unfold new
  split
  · next cause herr => cases herr.symm.trans r.usable
  · exact dif_pos ⟨r.entities_eq, r.relations_eq⟩

end Reasoner

/-! ### Answers cover every entity -/

/-- Every one of `n` entities is in the result once. -/
def QueryResult.Covers (n : Nat) : QueryResult → Prop
  | .ranked answers => (answers.map (·.entity)).Perm ((List.range n).map EntityId.mk)
  | .scores s => s.size = n

theorem FuzzySet.ranked_covers {s : FuzzySet} {index : Index} {n : Nat} (hs : s.size = n)
    (hn : n = index.entityCount) :
    ∃ answers, s.ranked index = .ok answers ∧ (QueryResult.ranked answers).Covers n := by
  subst hn
  refine ⟨_, if_pos hs, ?_⟩
  -- sorting only permutes, and before it the positions are counted off
  refine ((descending_perm _ _).map _).trans (.of_eq ?_)
  rw [List.map_map]
  show List.map (EntityId.mk ∘ Prod.snd) (index.entities.names.zip s.degrees).zipIdx = _
  rw [← List.map_map, List.zipIdx_map_snd, List.length_zip, List.range_eq_range']
  have hlen : s.degrees.length = index.entities.names.length := hs
  rw [hlen, Nat.min_self]
  rfl

namespace Reasoner

variable [Elementary] {r : Reasoner} {tag : String} {payload : Payload} {kind : QueryKind}

/-! ### The checks, one after the other -/

theorem answer_of_query_error {e : QueryError} (h : r.query tag payload = .error e) :
    r.answer tag payload = .fail (.error e) := by
  unfold answer
  rw [h]
  rfl

theorem answer_of_not_spelled (h : ∀ kind : QueryKind, ¬ kind.Spelled tag) :
    r.answer tag payload = .fail (.error (.unknownKind tag)) := by
  refine answer_of_query_error ?_
  have hnone : QueryKind.ofSpelling? tag = none := by
    cases hk : QueryKind.ofSpelling? tag with
    | none => rfl
    | some kind => exact absurd (QueryKind.ofSpelling?_eq_some_iff.1 hk) (h kind)
  simp only [query, QueryKind.ofSpelling, hnone]
  rfl

omit [Elementary] in
theorem query_of_spelled (h : kind.Spelled tag) :
    r.query tag payload = Query.ofPayload kind payload r.index := by
  simp only [query, QueryKind.ofSpelling, QueryKind.ofSpelling?_eq_some_iff.2 h]
  rfl

/-- A well-formed query is ranked, and every entity gets its place. -/
theorem rankedAnswers_ends {n : Nat} {q : Query} (hn : n = r.index.entityCount)
    (h : (r.evaluate q).Ends (fun v => v.size = n) fun _ => False) :
    (r.rankedAnswers q).Ends (fun answers => (QueryResult.ranked answers).Covers n)
      fun _ => False := by
  refine h.bind fun v hv => Ends.mapError ?_
  obtain ⟨answers, hanswers, hcovers⟩ := FuzzySet.ranked_covers hv hn
  rw [hanswers]
  exact hcovers

/-- A bound query is answered, whatever the settings want the answer to look like. -/
theorem answer_of_query (laws : Elementary.Bounded) (hm : r.model.WellShaped) {q : Query}
    (hq : r.query tag payload = .ok q)
    (hwf : q.WellFormed r.model.entityCount r.model.relationCount) :
    (r.answer tag payload).Ends (fun result => result.Covers r.model.entityCount)
      fun _ => False := by
  have heval : (r.evaluate q).Ends (fun v => v.size = r.model.entityCount) fun _ => False :=
    (r.model.evaluate_ends laws hm (Settings.calibrated laws r.admits) q).mono
      (fun _ hv => hv.1) fun _ hf => hf.1 hwf
  unfold answer
  refine ends_bind_of_ok (a := q) (by rw [hq]; rfl) ?_
  split
  · exact heval.bind fun v hv => ends_pure hv
  · exact (rankedAnswers_ends r.entities_eq heval).bind fun answers ha => ends_pure ha

end Reasoner

/-! ### The decision procedure -/

namespace Model

variable [Elementary] {index : Index} {tag : String} {payload : Payload}

theorem answer_of_new_error {model : Model} {settings : Settings} {e : QueryError}
    (h : Reasoner.new model index settings = .error e) :
    model.answer index tag payload settings = .fail (.error e) := by
  unfold answer
  rw [h]
  rfl

theorem answer_eq (r : Reasoner) :
    r.model.answer r.index tag payload r.settings = r.answer tag payload := by
  unfold answer
  rw [Reasoner.new_eq]
  exact LawfulMonad.pure_bind r fun r => r.answer tag payload

/-- **Asking a query fails in one fixed order, and for no other reason.**  Unsuitable
settings come first, then sizes that differ, a tag that asks for no kind, a payload that
does not conform to the shape of the kind, and the leftmost unknown name; all of these are
found without any request to the model.  Otherwise a model that replies with numbers is
answered from, and every entity is in the answer once. -/
theorem answer_decides (model : Model) (index : Index) (tag : String) (payload : Payload)
    (settings : Settings) :
    (¬ settings.Suits index.entityCount →
      ∃ cause, model.answer index tag payload settings = .fail (.error (.settings cause))) ∧
    (settings.Suits index.entityCount →
      (¬ (model.entityCount = index.entityCount ∧ model.relationCount = index.relationCount) →
        model.answer index tag payload settings = .fail (.error (.graph (.invalid
          (.scorerSize model.entityCount model.relationCount index.entityCount
            index.relationCount))))) ∧
      (model.entityCount = index.entityCount ∧ model.relationCount = index.relationCount →
        ((∀ kind : QueryKind, ¬ kind.Spelled tag) →
          model.answer index tag payload settings = .fail (.error (.unknownKind tag))) ∧
        ∀ kind : QueryKind, kind.Spelled tag →
          (¬ payload.Conforms kind.shape →
            ∃ m, model.answer index tag payload settings =
              .fail (.error (.malformed (.mismatch kind m)))) ∧
          (payload.Conforms kind.shape →
            (∀ e, (payload.slots kind.shape).findSome? index.missing = some e →
              model.answer index tag payload settings = .fail (.error (.graph e))) ∧
            ((payload.slots kind.shape).findSome? index.missing = none →
              Elementary.Bounded → model.WellShaped →
                ∃ result, (model.answer index tag payload settings).result = .ok result ∧
                  result.Covers index.entityCount)))) := by
  refine ⟨fun h => ?_, fun hsuits => ⟨fun hne => ?_, fun hsizes => ?_⟩⟩
  · obtain ⟨cause, hnew⟩ := Reasoner.new_of_not_suits model h
    exact ⟨cause, answer_of_new_error hnew⟩
  · exact answer_of_new_error (Reasoner.new_of_sizes_ne hsuits hne)
  -- settings and sizes are in order, so there is a reasoner to ask
  obtain ⟨r, rfl, rfl, rfl⟩ : ∃ r : Reasoner,
      r.model = model ∧ r.index = index ∧ r.settings = settings :=
    ⟨⟨model, index, settings, Settings.validate_eq_ok_iff.2 hsuits, hsizes.1, hsizes.2⟩,
      rfl, rfl, rfl⟩
  simp only [answer_eq]
  refine ⟨Reasoner.answer_of_not_spelled, fun kind hkind => ⟨fun hnot => ?_, fun hconf => ?_⟩⟩
  · obtain ⟨m, hm⟩ := Query.ofPayload_of_not_conforms r.index hnot
    exact ⟨m, Reasoner.answer_of_query_error ((Reasoner.query_of_spelled hkind).trans hm)⟩
  · obtain ⟨hmissing, hbound⟩ := Query.ofPayload_of_conforms r.index hconf
    refine ⟨fun e he => ?_, fun hnone laws hm => ?_⟩
    · exact Reasoner.answer_of_query_error
        ((Reasoner.query_of_spelled hkind).trans (hmissing e he))
    · obtain ⟨q, hq, hwf⟩ := hbound hnone
      rw [← r.entities_eq, ← r.relations_eq] at hwf
      rw [← r.entities_eq]
      exact (Reasoner.answer_of_query laws hm
        ((Reasoner.query_of_spelled hkind).trans hq) hwf).exists_ok

end Model

theorem Model.answer_swap :
    ∃ result, (@answer Elementary.steep .swap Reasoner.swap.index "1p"
        (.tuple [.name "left", .tuple [.name "other"]]) Reasoner.swap.settings).result =
          .ok result ∧ result.Covers 2 :=
  ((((@answer_decides Elementary.steep .swap Reasoner.swap.index "1p"
    (.tuple [.name "left", .tuple [.name "other"]]) Reasoner.swap.settings).2
    (Settings.validate_eq_ok_iff.1 Reasoner.swap.usable)).2 ⟨rfl, rfl⟩).2 .hop1 (.inl rfl)).2
    (.tuple _ _ (.cons (.entity _) (.cons (.tuple _ _ (.cons (.relation _) .nil)) .nil)))
    |>.2 (by decide) Elementary.bounded_steep wellShaped_swap

end MultiHop
