/-
MultiHop/Rank/KnownFacts.lean

Rank-based evaluation of a scoring model against known facts.  The rank of a true entity is one more
than the number of candidates that score strictly higher, so ties count in its
favour.  In the filtered setting a candidate that makes a known triple does not
count against it.
-/
import MultiHop.Fault
import MultiHop.Index
import MultiHop.Model
import MultiHop.Rank.Summary

namespace MultiHop

/-- One more than the number of scores strictly above `target`. -/
def strictRank (target : Float32) (scores : List Float32) : Nat :=
  1 + scores.countP fun s => decide (target < s)

/-- Rank of the entry at `position` of a row among the entries that `counts` admits.
A row that ends before the position has no entry to rank. -/
def rankAt (row : List Float32) (position : Nat) (counts : EntityId → Bool) :
    Except Breach Nat :=
  match row[position]? with
  | none => .error (.noEntry position row.length)
  | some target =>
    .ok (1 + row.zipIdx.countP fun (s, i) =>
      i != position && counts ⟨i⟩ && decide (target < s))

/-- The triples that are known to hold. -/
structure KnownFacts where
  known : List Triple
deriving DecidableEq

namespace KnownFacts

/-- Nothing is known yet. -/
def empty : KnownFacts := ⟨[]⟩

def isKnown (facts : KnownFacts) (t : Triple) : Bool := decide (t ∈ facts.known)

/-- Adds known triples. -/
def add (facts : KnownFacts) (triples : List Triple) : KnownFacts := ⟨triples ++ facts.known⟩

/-- Refuses a triple that the model does not cover, looking at head, tail and
relation in this order. -/
def check (m : Model) (t : Triple) : Except GraphError Unit := do
  m.checkEntity t.head
  m.checkEntity t.tail
  m.checkRelation t.relation

/-- Rank of the tail of `t` among all tails. -/
def tailRank (facts : KnownFacts) (m : Model) (t : Triple) (filtered : Bool) :
    Consult (Fault GraphError) Nat := do
  let row ← Consult.mapError .error do
    check m t
    m.askTails t.head t.relation
  let counts e := !filtered || !facts.isKnown { t with tail := e }
  Consult.mapError .breach (.ofExcept (rankAt row t.tail.index counts))

/-- Rank of the head of `t` among all heads. -/
def headRank (facts : KnownFacts) (m : Model) (t : Triple) (filtered : Bool) :
    Consult (Fault GraphError) Nat := do
  let row ← Consult.mapError .error do
    check m t
    m.askHeads t.relation t.tail
  let counts e := !filtered || !facts.isKnown { t with head := e }
  Consult.mapError .breach (.ofExcept (rankAt row t.head.index counts))

/-- The two ranks of every test triple, tail before head. -/
def ranks (facts : KnownFacts) (m : Model) (filtered : Bool) :
    List Triple → Consult (Fault GraphError) (List Nat)
  | [] => return []
  | t :: ts => do
    let tail ← facts.tailRank m t filtered
    let head ← facts.headRank m t filtered
    return tail :: head :: (← ranks facts m filtered ts)

/-- Figures of the ranks of at least one test triple. -/
def figures (facts : KnownFacts) (m : Model) (tests : List Triple) (filtered : Bool) :
    Consult (Fault GraphError) (RankSummary Float) :=
  if tests.isEmpty then .fail (.error (.invalid .noTestTriples))
  else do return RankSummary.ofRanks (← facts.ranks m filtered tests)

/-- The same for triples by name; all names are looked up first. -/
def figuresByName (facts : KnownFacts) (m : Model) (index : Index) (tests : List NamedTriple)
    (filtered : Bool) : Consult (Fault GraphError) (RankSummary Float) := do
  let ids ← Consult.mapError .error (.ofExcept (tests.mapM index.triple))
  facts.figures m ids filtered

end KnownFacts

end MultiHop
