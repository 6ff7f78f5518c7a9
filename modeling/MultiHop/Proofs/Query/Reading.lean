/-
MultiHop/Proofs/Query/Reading.lean

Binding loses nothing and confuses nothing.  A query is read back node by node, each node
after those below it: an anchor gives its entity, a hop its relation, a negation and a union
their marks, and an intersection, which has no mark of its own, gives nothing.  What is read
stands at the symbols of a shape from left to right, and so do the names of a payload that
conforms to the shape; the query of the payload reads back as just these names
(`Payload.query?_fills`).

The positions of names are distinct, so the names are known from the query.  The symbols that
a query reads back as tell its kind, since no two kinds have the same ones, and conforming
payloads of one shape with the same names are equal.  Hence kind and payload are known from
the query (`Query.ofPayload_faithful`).
-/
import MultiHop.Proofs.Consult
import MultiHop.Proofs.Query.Binding

namespace MultiHop

variable {E R : Type}

/-! ### Reading queries back -/

/-- What stands at a symbol of a shape: an entity, a relation, or a mark. -/
inductive Filling (E R : Type) where
  | entity (e : E)
  | relation (r : R)
  | negation
  | union
deriving DecidableEq, Repr

/-- The symbol that is filled. -/
def Filling.symbol : Filling E R → Symbol
  | entity _ => .entity
  | relation _ => .relation
  | negation => .negation
  | union => .union

/-- The name that stands in a payload. -/
def Filling.name : Filling String String → String
  | entity a => a
  | relation r => r
  | negation => "n"
  | union => "u"

namespace QueryOver

mutual

/-- Nodes of a query, each after those below it. -/
def nodes : QueryOver E R → List (QueryOver E R)
  | .entity e => [.entity e]
  | .projection q r => nodes q ++ [.projection q r]
  | .intersection qs => nodesAll qs ++ [.intersection qs]
  | .union qs => nodesAll qs ++ [.union qs]
  | .negation q => nodes q ++ [.negation q]

/-- The same for several queries, one after the other. -/
def nodesAll : List (QueryOver E R) → List (QueryOver E R)
  | [] => []
  | q :: qs => nodes q ++ nodesAll qs

end

/-- What a node holds besides the nodes below it. -/
def filling? : QueryOver E R → Option (Filling E R)
  | .entity e => some (.entity e)
  | .projection _ r => some (.relation r)
  | .intersection _ => none
  | .union _ => some .union
  | .negation _ => some .negation

/-- The symbol by which a node is asked for; an intersection has none. -/
def symbol? : QueryOver E R → Option Symbol
  | .entity _ => some .entity
  | .projection _ _ => some .relation
  | .intersection _ => none
  | .union _ => some .union
  | .negation _ => some .negation

/-- What a query reads back as. -/
def fillings (q : QueryOver E R) : List (Filling E R) := q.nodes.filterMap filling?

/-- The same for several queries, one after the other. -/
def fillingsAll (qs : List (QueryOver E R)) : List (Filling E R) :=
  (nodesAll qs).filterMap filling?

@[simp] theorem fillings_entity (e : E) :
    (.entity e : QueryOver E R).fillings = [.entity e] := by
  simp [fillings, nodes, filling?]

@[simp] theorem fillings_projection (q : QueryOver E R) (r : R) :
    (QueryOver.projection q r).fillings = q.fillings ++ [.relation r] := by
  simp [fillings, nodes, filling?]

@[simp] theorem fillings_intersection (qs : List (QueryOver E R)) :
    (QueryOver.intersection qs).fillings = fillingsAll qs := by
  simp [fillings, fillingsAll, nodes, filling?]

@[simp] theorem fillings_union (qs : List (QueryOver E R)) :
    (QueryOver.union qs).fillings = fillingsAll qs ++ [.union] := by
  simp [fillings, fillingsAll, nodes, filling?]

@[simp] theorem fillings_negation (q : QueryOver E R) :
    (QueryOver.negation q).fillings = q.fillings ++ [.negation] := by
  simp [fillings, nodes, filling?]

@[simp] theorem fillingsAll_nil : fillingsAll ([] : List (QueryOver E R)) = [] := by
  simp [fillingsAll, nodesAll]

@[simp] theorem fillingsAll_cons (q : QueryOver E R) (qs : List (QueryOver E R)) :
    fillingsAll (q :: qs) = q.fillings ++ fillingsAll qs := by
  simp [fillingsAll, fillings, nodesAll]

/-- The nodes that have a symbol are those that read back as something. -/
theorem filterMap_symbol?_nodes (q : QueryOver E R) :
    q.nodes.filterMap symbol? = q.fillings.map Filling.symbol := by
  rw [fillings, List.map_filterMap]
  congr 1
  funext node
  cases node <;> rfl

theorem hopsAll_eq_count {qs : List (QueryOver E R)}
    (h : ∀ q ∈ qs, q.hops = (q.fillings.map Filling.symbol).count .relation) :
    hopsAll qs = ((fillingsAll qs).map Filling.symbol).count .relation := by
  induction qs with
  | nil => simp [hopsAll]
  | cons q qs ih =>
    obtain ⟨hq, hqs⟩ := List.forall_mem_cons.1 h
    simp [hopsAll, hq, ih hqs]

theorem hops_eq_count (q : QueryOver E R) :
    q.hops = (q.fillings.map Filling.symbol).count .relation := by
  induction q using QueryOver.induction with
  | entity e => simp [hops, Filling.symbol]
  | anchored h r => simp [hops, Filling.symbol]
  | projection q r _ ih => simp [hops, ih, Filling.symbol, Nat.add_comm]
  | intersection qs ih => simpa [hops] using hopsAll_eq_count ih
  | union qs ih => simpa [hops, Filling.symbol] using hopsAll_eq_count ih
  | negation q ih => simpa [hops, Filling.symbol] using ih

end QueryOver

/-! ### Symbols and names from left to right -/

namespace Shape

mutual

/-- Symbols of a shape, from left to right. -/
def leaves : Shape → List Symbol
  | .symbol s => [s]
  | .tuple items => leavesAll items

/-- The same for the items of a tuple, one after the other. -/
def leavesAll : List Shape → List Symbol
  | [] => []
  | item :: items => leaves item ++ leavesAll items

end

mutual

/-- Whether every tuple that begins with a union mark holds nothing else. -/
def marksAlone : Shape → Bool
  | .symbol _ => true
  | .tuple items =>
    (firstSymbol? (.tuple items) != some .union || items.length == 1) && marksAloneAll items

/-- The same for the items of a tuple. -/
def marksAloneAll : List Shape → Bool
  | [] => true
  | item :: items => marksAlone item && marksAloneAll items

end

end Shape

theorem QueryKind.marksAlone_shape (k : QueryKind) : k.shape.marksAlone = true := by
  cases k <;> rfl

/-- A kind is known from its symbols. -/
theorem QueryKind.eq_of_leaves {k k' : QueryKind} (h : k.shape.leaves = k'.shape.leaves) :
    k = k' := by
  have hfind (k : QueryKind) : all.find? (·.shape.leaves = k.shape.leaves) = some k := by
    cases k <;> decide +kernel
  exact Option.some.inj ((hfind k).symm.trans (h ▸ hfind k'))

namespace Payload

mutual

/-- Names of a payload, from left to right, the markers among them. -/
def names : Payload → List String
  | .name a => [a]
  | .tuple items => namesAll items

/-- The same for the items of a tuple, one after the other. -/
def namesAll : List Payload → List String
  | [] => []
  | item :: items => names item ++ namesAll items

end

variable {shape : Shape} {shapes : List Shape} {p p' : Payload} {items items' : List Payload}

theorem length_namesAll
    (h : ∀ s ∈ shapes, ∀ p, Conforms s p → p.names.length = s.leaves.length)
    (hc : List.Forall₂ Conforms shapes items) :
    (namesAll items).length = (Shape.leavesAll shapes).length := by
  induction hc with
  | nil => rfl
  | cons hp _ ih =>
    obtain ⟨hs, hshapes⟩ := List.forall_mem_cons.1 h
    simp only [namesAll, Shape.leavesAll, List.length_append, hs _ hp, ih hshapes]

theorem Conforms.length_names (h : Conforms shape p) : p.names.length = shape.leaves.length := by
  induction shape using Shape.induction generalizing p with
  | symbol s => cases h <;> rfl
  | tuple shapes ih =>
    cases h with
    | tuple _ items hitems => exact length_namesAll ih hitems

theorem eq_of_namesAll
    (h : ∀ s ∈ shapes, ∀ p p', Conforms s p → Conforms s p' → p.names = p'.names → p = p')
    (hc : List.Forall₂ Conforms shapes items) (hc' : List.Forall₂ Conforms shapes items')
    (hnames : namesAll items = namesAll items') : items = items' := by
  induction hc generalizing items' with
  | nil => cases hc'; rfl
  | cons hp hrest ih =>
    obtain ⟨hs, hshapes⟩ := List.forall_mem_cons.1 h
    cases hc' with
    | cons hp' hrest' =>
      -- the first items fill as many symbols, so the names part between them
      have hlen := hp.length_names.trans hp'.length_names.symm
      obtain ⟨hfirst, hlast⟩ := List.append_inj hnames hlen
      rw [hs _ _ hp hp' hfirst, ih hshapes hrest' hlast]

/-- A conforming payload is known from its names. -/
theorem Conforms.eq_of_names (h : Conforms shape p) (h' : Conforms shape p')
    (hnames : p.names = p'.names) : p = p' := by
  induction shape using Shape.induction generalizing p p' with
  | symbol s =>
    cases h <;> cases h'
    case entity.entity => exact congrArg Payload.name (List.singleton_inj.1 hnames)
    case relation.relation => exact congrArg Payload.name (List.singleton_inj.1 hnames)
    all_goals rfl
  | tuple shapes ih =>
    cases h with
    | tuple _ items hitems =>
      cases h' with
      | tuple _ items' hitems' =>
        exact congrArg Payload.tuple
          (eq_of_namesAll (fun s hs p p' h h' => ih s hs h h') hitems hitems' hnames)

/-! ### What a payload reads back as -/

/-- The names stand at the symbols as the fillings say. -/
def Fills (symbols : List Symbol) (names : List String) (fs : List (Filling String String)) :
    Prop :=
  fs.map Filling.symbol = symbols ∧ fs.map Filling.name = names

theorem Fills.append {ss ss' : List Symbol} {ns ns' : List String}
    {fs fs' : List (Filling String String)} (h : Fills ss ns fs) (h' : Fills ss' ns' fs') :
    Fills (ss ++ ss') (ns ++ ns') (fs ++ fs') := by
  obtain ⟨rfl, rfl⟩ := h
  obtain ⟨rfl, rfl⟩ := h'
  exact ⟨List.map_append, List.map_append⟩

/-- What a step of a chain reads back as. -/
def Step.filling : Step → Filling String String
  | .hop r => .relation r
  | .negate => .negation

/-- What a closing reads back as. -/
def Closing.fillings : Closing → List (Filling String String)
  | .intersection => []
  | .union => [.union]
  | .chain steps => steps.map Step.filling

theorem fillings_foldl_after (steps : List Step) (q : NamedQuery) :
    (steps.foldl Step.after q).fillings = q.fillings ++ steps.map Step.filling := by
  induction steps generalizing q with
  | nil => simp
  | cons step steps ih => cases step <;> simp [ih, Step.after, Step.filling]

theorem Row.fillings_query (row : Row) :
    row.query.fillings = QueryOver.fillingsAll row.siblings ++ row.closing.fillings := by
  obtain ⟨siblings, closing⟩ := row
  cases closing with
  | intersection => simp [Row.query, Closing.fillings]
  | union => simp [Row.query, Closing.fillings]
  | chain steps =>
    rcases siblings with - | ⟨q, - | ⟨q', qs⟩⟩ <;>
      simp [Row.query, Closing.fillings, fillings_foldl_after]

theorem steps?_fills {steps : List Step} (hc : List.Forall₂ Conforms shapes items)
    (h : steps? shapes items = some steps) :
    Fills (Shape.leavesAll shapes) (namesAll items) (steps.map Step.filling) := by
  induction hc generalizing steps with
  | nil => cases h; exact ⟨rfl, rfl⟩
  | cons hp _ ih =>
    cases hp with
    | relation r =>
      obtain ⟨rest, hrest, rfl⟩ := Option.map_eq_some_iff.1 h
      have hhop : Fills [.relation] [r] [.relation r] := ⟨rfl, rfl⟩
      exact hhop.append (ih hrest)
    | negation =>
      obtain ⟨rest, hrest, rfl⟩ := Option.map_eq_some_iff.1 h
      have hmark : Fills [.negation] ["n"] [.negation] := ⟨rfl, rfl⟩
      exact hmark.append (ih hrest)
    | entity a => cases h
    | union => cases h
    | tuple _ _ _ => cases h

/-- A row begins with a closing that ends it, or with a sibling. -/
theorem row?_cons_cases {row : Row} (h : row? (shape :: shapes) (p :: items) = some row) :
    (∃ ss ps steps, shape = .tuple (.symbol .relation :: ss) ∧ p = .tuple ps ∧ shapes = [] ∧
        items = [] ∧ steps? (.symbol .relation :: ss) ps = some steps ∧
        row = ⟨[], .chain steps⟩) ∨
      (∃ ss, shape = .tuple (.symbol .union :: ss) ∧ shapes = [] ∧ items = [] ∧
        row = ⟨[], .union⟩) ∨
      ∃ q rest, query? shape p = some q ∧ row? shapes items = some rest ∧
        row = ⟨q :: rest.siblings, rest.closing⟩ := by
  unfold row? at h
  split at h
  · next hnil _ => cases hnil
  · next hshapes hitems =>
    cases hshapes
    cases hitems
    obtain ⟨steps, hsteps, rfl⟩ := Option.map_eq_some_iff.1 h
    exact .inl ⟨_, _, steps, rfl, rfl, rfl, rfl, hsteps, rfl⟩
  · next hshapes hitems =>
    cases hshapes
    cases hitems
    cases h
    exact .inr (.inl ⟨_, rfl, rfl, rfl, rfl⟩)
  · next hshapes hitems =>
    cases hshapes
    cases hitems
    split at h
    · next q rest hq hrest =>
      cases h
      exact .inr (.inr ⟨q, rest, hq, hrest, rfl⟩)
    · cases h
  · cases h

theorem fills_unionMark (hm : Shape.marksAlone (.tuple (.symbol .union :: shapes)) = true)
    (hc : Conforms (.tuple (.symbol .union :: shapes)) p) :
    Fills (Shape.leaves (.tuple (.symbol .union :: shapes))) p.names [.union] := by
  -- nothing stands beside the mark
  rw [Shape.marksAlone, Bool.and_eq_true] at hm
  obtain rfl : shapes = [] := by simpa [Shape.firstSymbol?] using hm.1
  cases hc with
  | tuple _ items hitems =>
    cases hitems with
    | cons hu hnil => cases hu; cases hnil; exact ⟨rfl, rfl⟩

theorem row?_fills {row : Row}
    (hs : ∀ s ∈ shapes, ∀ p q, s.marksAlone = true → Conforms s p → query? s p = some q →
      Fills s.leaves p.names q.fillings)
    (hm : Shape.marksAloneAll shapes = true)
    (hc : List.Forall₂ Conforms shapes items) (h : row? shapes items = some row) :
    Fills (Shape.leavesAll shapes) (namesAll items)
      (QueryOver.fillingsAll row.siblings ++ row.closing.fillings) := by
  induction hc generalizing row with
  | nil =>
    simp only [row?, Option.some.injEq] at h
    subst h
    exact ⟨rfl, rfl⟩
  | @cons s p shapes items hp hrest ih =>
    obtain ⟨hfirst, hshapes⟩ := List.forall_mem_cons.1 hs
    rw [Shape.marksAloneAll, Bool.and_eq_true] at hm
    have hnil : Fills (Shape.leavesAll []) (namesAll []) [] := ⟨rfl, rfl⟩
    obtain ⟨ss, ps, steps, rfl, rfl, rfl, rfl, hsteps, rfl⟩ | ⟨ss, rfl, rfl, rfl, rfl⟩ |
      ⟨q, rest, hq, hrow, rfl⟩ := row?_cons_cases h
    · have hchain := steps?_fills (conforms_tuple.1 hp) hsteps
      rw [QueryOver.fillingsAll_nil, List.nil_append, ← List.append_nil (Closing.fillings _)]
      exact hchain.append hnil
    · rw [QueryOver.fillingsAll_nil, List.nil_append, ← List.append_nil (Closing.fillings _)]
      exact (fills_unionMark hm.1 hp).append hnil
    · rw [QueryOver.fillingsAll_cons, List.append_assoc]
      exact (hfirst p q hm.1 hp hq).append (ih hshapes hm.2 hrow)

/-- **A query reads back as the payload it was made from**: the symbols and the names, markers
included, stand in the same order. -/
theorem query?_fills {q : NamedQuery} (hm : shape.marksAlone = true) (hc : Conforms shape p)
    (h : query? shape p = some q) : Fills shape.leaves p.names q.fillings := by
  induction shape using Shape.induction generalizing p q with
  | symbol s =>
    cases hc with
    | entity a =>
      simp only [query?, Option.some.injEq] at h
      subst h
      exact ⟨rfl, rfl⟩
    | _ => simp only [query?, reduceCtorEq] at h
  | tuple shapes ih =>
    cases hc with
    | tuple _ items hitems =>
      rw [query?] at h
      obtain ⟨row, hrow, rfl⟩ := Option.map_eq_some_iff.1 h
      rw [Row.fillings_query]
      rw [Shape.marksAlone, Bool.and_eq_true] at hm
      exact row?_fills (fun s hs p q hm hc h => ih s hs hm hc h) hm.2 hitems hrow

end Payload

/-! ### Resolving keeps the reading -/

/-- The name stands for the filling: an entity or a relation is the one that the index knows
by this name, and a mark is its marker. -/
inductive Index.Denotes (index : Index) : String → Filling EntityId RelationId → Prop
  | entity (a : String) (e : EntityId) : index.entity a = .ok e → Denotes index a (.entity e)
  | relation (a : String) (r : RelationId) :
    index.relation a = .ok r → Denotes index a (.relation r)
  | negation : Denotes index "n" .negation
  | union : Denotes index "u" .union

namespace Index

variable {index : Index} {a b : String}

/-- A filling is denoted by one name only. -/
theorem Denotes.name_unique {f : Filling EntityId RelationId} (ha : index.Denotes a f)
    (hb : index.Denotes b f) : a = b := by
  cases ha with
  | entity _ e ha =>
    cases hb with
    | entity _ _ hb =>
      exact Vocabulary.eq_of_position? (entity_eq_ok_iff.1 ha) (entity_eq_ok_iff.1 hb)
  | relation _ r ha =>
    cases hb with
    | relation _ _ hb =>
      exact Vocabulary.eq_of_position? (relation_eq_ok_iff.1 ha) (relation_eq_ok_iff.1 hb)
  | negation => cases hb; rfl
  | union => cases hb; rfl

/-- The filling over positions is that over names, looked up. -/
def Places (index : Index) (f : Filling String String) (f' : Filling EntityId RelationId) :
    Prop :=
  f'.symbol = f.symbol ∧ index.Denotes f.name f'

end Index

namespace QueryOver

variable {index : Index} {q : NamedQuery} {qs : List NamedQuery} {q' : Query} {qs' : List Query}

theorem places_entity {a : String}
    (h : (QueryOver.entity a : NamedQuery).resolve index.entity index.relation = .ok q') :
    List.Forall₂ index.Places (QueryOver.entity a : NamedQuery).fillings q'.fillings := by
  rw [resolve] at h
  obtain ⟨e, he, h⟩ := except_bind_eq_ok_iff.1 h
  cases h
  rw [fillings_entity, fillings_entity]
  exact .cons ⟨rfl, .entity a e he⟩ .nil

theorem places_projection {r : String}
    (hq : ∀ {q'}, q.resolve index.entity index.relation = .ok q' →
      List.Forall₂ index.Places q.fillings q'.fillings)
    (h : (QueryOver.projection q r).resolve index.entity index.relation = .ok q') :
    List.Forall₂ index.Places (QueryOver.projection q r).fillings q'.fillings := by
  rw [resolve] at h
  obtain ⟨source, hsource, h⟩ := except_bind_eq_ok_iff.1 h
  obtain ⟨id, hid, h⟩ := except_bind_eq_ok_iff.1 h
  cases h
  rw [fillings_projection, fillings_projection]
  exact List.rel_append (hq hsource) (.cons ⟨rfl, .relation r id hid⟩ .nil)

theorem places_all
    (hqs : ∀ q ∈ qs, ∀ {q'}, q.resolve index.entity index.relation = .ok q' →
      List.Forall₂ index.Places q.fillings q'.fillings)
    (h : resolveAll index.entity index.relation qs = .ok qs') :
    List.Forall₂ index.Places (fillingsAll qs) (fillingsAll qs') := by
  induction qs generalizing qs' with
  | nil =>
    cases h
    rw [fillingsAll_nil, fillingsAll_nil]
    exact .nil
  | cons q qs ih =>
    obtain ⟨hq, hqs⟩ := List.forall_mem_cons.1 hqs
    rw [resolveAll] at h
    obtain ⟨p, hp, h⟩ := except_bind_eq_ok_iff.1 h
    obtain ⟨ps, hps, h⟩ := except_bind_eq_ok_iff.1 h
    cases h
    rw [fillingsAll_cons, fillingsAll_cons]
    exact List.rel_append (hq hp) (ih hqs hps)

/-- **Resolving looks up what a query reads back as**, one by one, and leaves the marks. -/
theorem places_resolve (h : q.resolve index.entity index.relation = .ok q') :
    List.Forall₂ index.Places q.fillings q'.fillings := by
  induction q using QueryOver.induction generalizing q' with
  | entity a => exact places_entity h
  | anchored a r => exact places_projection places_entity h
  | projection q r _ ih => exact places_projection ih h
  | intersection qs ih =>
    rw [resolve] at h
    obtain ⟨qs', hqs, h⟩ := except_bind_eq_ok_iff.1 h
    cases h
    rw [fillings_intersection, fillings_intersection]
    exact places_all ih hqs
  | union qs ih =>
    rw [resolve] at h
    obtain ⟨qs', hqs, h⟩ := except_bind_eq_ok_iff.1 h
    cases h
    rw [fillings_union, fillings_union]
    exact List.rel_append (places_all ih hqs) (.cons ⟨rfl, .union⟩ .nil)
  | negation q ih =>
    rw [resolve] at h
    obtain ⟨p, hp, h⟩ := except_bind_eq_ok_iff.1 h
    cases h
    rw [fillings_negation, fillings_negation]
    exact List.rel_append (ih hp) (.cons ⟨rfl, .negation⟩ .nil)

end QueryOver

/-! ### Binding -/

namespace Query

variable {kind kind' : QueryKind} {payload payload' : Payload} {index : Index} {q : Query}

/-- The payload has the shape of the kind, and the query reads back as its names, each looked
up. -/
structure Transcribes (index : Index) (kind : QueryKind) (payload : Payload) (q : Query) :
    Prop where
  conforms : payload.Conforms kind.shape
  symbols : q.fillings.map Filling.symbol = kind.shape.leaves
  names : List.Forall₂ index.Denotes payload.names q.fillings

theorem ofPayload_eq_ok (h : ofPayload kind payload index = .ok q) :
    payload.Conforms kind.shape ∧ ∃ named, Payload.query? kind.shape payload = some named ∧
      named.resolve index.entity index.relation = .ok q := by
  unfold ofPayload NamedQuery.ofPayload at h
  cases hfit : Payload.fit [] kind.shape payload with
  | error m => simp [hfit] at h
  | ok u =>
    cases hquery : Payload.query? kind.shape payload with
    | none => simp [hfit, hquery] at h
    | some named =>
      simp only [hfit, hquery] at h
      cases hresolve : named.resolve index.entity index.relation with
      | error e => simp [hresolve] at h
      | ok p =>
        simp only [hresolve, Except.ok.injEq] at h
        exact ⟨(Payload.fit_eq_ok_iff _ _ _).1 hfit, named, rfl, h ▸ hresolve⟩

theorem transcribes_ofPayload (h : ofPayload kind payload index = .ok q) :
    q.Transcribes index kind payload := by
  obtain ⟨hc, named, hquery, hresolve⟩ := ofPayload_eq_ok h
  obtain ⟨hsymbols, hnames⟩ := Payload.query?_fills kind.marksAlone_shape hc hquery
  have hplaces := QueryOver.places_resolve hresolve
  refine ⟨hc, ?_, ?_⟩
  · have hmap : List.Forall₂ (· = ·) (named.fillings.map Filling.symbol)
        (q.fillings.map Filling.symbol) := by
      rw [List.forall₂_map_left_iff, List.forall₂_map_right_iff]
      exact hplaces.imp fun _ _ h => h.1.symm
    rw [List.forall₂_eq_eq_eq] at hmap
    exact hmap.symm.trans hsymbols
  · rw [← hnames, List.forall₂_map_left_iff]
    exact hplaces.imp fun _ _ h => h.2

/-- What a query reads back as tells the kind and the payload. -/
theorem Transcribes.unique (h : q.Transcribes index kind payload)
    (h' : q.Transcribes index kind' payload') : kind' = kind ∧ payload' = payload := by
  obtain rfl : kind' = kind := QueryKind.eq_of_leaves (h'.symbols.symm.trans h.symbols)
  have hleft : Relator.LeftUnique index.Denotes := fun _ _ _ => Index.Denotes.name_unique
  have hnames : payload'.names = payload.names :=
    List.left_unique_forall₂' hleft h'.names h.names
  exact ⟨rfl, h'.conforms.eq_of_names h.conforms hnames⟩

/-- **Binding loses nothing and confuses nothing.**  The nodes of a bound query are asked for
by the symbols of its kind, each symbol once and in its order; what they hold is what the names
of the payload stand for, from left to right; and no other kind or payload is bound to the same
query. -/
theorem ofPayload_faithful (h : ofPayload kind payload index = .ok q) :
    q.nodes.filterMap QueryOver.symbol? = kind.shape.leaves ∧
      List.Forall₂ index.Denotes payload.names q.fillings ∧
      (∀ s, q.nodes.countP (fun node => node.symbol? == some s) = kind.shape.leaves.count s) ∧
      q.hops = kind.shape.leaves.count .relation ∧
      ∀ kind' payload', ofPayload kind' payload' index = .ok q →
        kind' = kind ∧ payload' = payload := by
  have hread := transcribes_ofPayload h
  have hsymbols : q.nodes.filterMap QueryOver.symbol? = kind.shape.leaves := by
    rw [QueryOver.filterMap_symbol?_nodes, hread.symbols]
  refine ⟨hsymbols, hread.names, fun s => ?_, ?_, fun kind' payload' h' => ?_⟩
  · rw [← hsymbols, List.count_filterMap]
  · rw [QueryOver.hops_eq_count, hread.symbols]
  · exact hread.unique (transcribes_ofPayload h')

/-- Entities and a relation with the names of markers. -/
def markerNames : Index where
  entities := ⟨["n", "u"], by decide⟩
  relations := ⟨["n"], by decide⟩

/-- Of the names `n`, the second one is an entity and the last one is a marker. -/
def markerPayload : Payload :=
  .tuple [.tuple [.name "u", .tuple [.name "n"]], .tuple [.name "n", .tuple [.name "n", .name "n"]]]

/-- Names that look like markers are names where names are asked for. -/
theorem ofPayload_faithful_markers :
    ∃ q, ofPayload .meet2Not markerPayload markerNames = .ok q ∧ q.hops = 2 ∧
      List.Forall₂ markerNames.Denotes ["u", "n", "n", "n", "n"] q.fillings ∧
      ∀ kind payload, ofPayload kind payload markerNames = .ok q →
        kind = .meet2Not ∧ payload = markerPayload := by
  have h : ofPayload .meet2Not markerPayload markerNames = .ok (.intersection
    [.projection (.entity ⟨1⟩) ⟨0⟩, .negation (.projection (.entity ⟨0⟩) ⟨0⟩)]) := rfl
  obtain ⟨-, hnames, -, hhops, hunique⟩ := ofPayload_faithful h
  exact ⟨_, h, hhops, hnames, hunique⟩

end Query

end MultiHop
