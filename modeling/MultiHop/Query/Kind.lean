/-
MultiHop/Query/Kind.lean

The fourteen kinds of queries that can be asked, each with its tag and its shape.
In the names, `hop` is a projection, `meet` an intersection, `join` a union and
`not` a negated branch; a number counts hops or branches.
-/
import MultiHop.Query.Shape

namespace MultiHop

/-- A kind of query. -/
inductive QueryKind where
  | hop1
  | hop2
  | hop3
  | meet2
  | meet3
  | hopMeet
  | meetHop
  | meet2Not
  | meet3Not
  | hopMeetNot
  | notHopMeet
  | meetNotHop
  | join2
  | joinHop
deriving DecidableEq, Repr

namespace QueryKind

/-- All kinds. -/
def all : List QueryKind :=
  [hop1, hop2, hop3, meet2, meet3, hopMeet, meetHop, meet2Not, meet3Not, hopMeetNot,
    notHopMeet, meetNotHop, join2, joinHop]

/-- The tag by which a kind is asked for. -/
def tag : QueryKind → String
  | hop1 => "1p"
  | hop2 => "2p"
  | hop3 => "3p"
  | meet2 => "2i"
  | meet3 => "3i"
  | hopMeet => "pi"
  | meetHop => "ip"
  | meet2Not => "2in"
  | meet3Not => "3in"
  | hopMeetNot => "pin"
  | notHopMeet => "pni"
  | meetNotHop => "inp"
  | join2 => "2u"
  | joinHop => "up"

open MultiHop.Symbol in
/-- The shape of the queries of a kind. -/
def shape : QueryKind → Shape
  | hop1 => .anchored [relation]
  | hop2 => .anchored [relation, relation]
  | hop3 => .anchored [relation, relation, relation]
  | meet2 => .tuple [.anchored [relation], .anchored [relation]]
  | meet3 => .tuple [.anchored [relation], .anchored [relation], .anchored [relation]]
  | hopMeet => .tuple [.anchored [relation, relation], .anchored [relation]]
  | meetHop =>
    .tuple [.tuple [.anchored [relation], .anchored [relation]], .symbols [relation]]
  | meet2Not => .tuple [.anchored [relation], .anchored [relation, negation]]
  | meet3Not =>
    .tuple [.anchored [relation], .anchored [relation], .anchored [relation, negation]]
  | hopMeetNot => .tuple [.anchored [relation, relation], .anchored [relation, negation]]
  | notHopMeet => .tuple [.anchored [relation, relation, negation], .anchored [relation]]
  | meetNotHop =>
    .tuple [.tuple [.anchored [relation], .anchored [relation, negation]], .symbols [relation]]
  | join2 => .tuple [.anchored [relation], .anchored [relation], .symbols [union]]
  | joinHop =>
    .tuple [.tuple [.anchored [relation], .anchored [relation], .symbols [union]],
      .symbols [relation]]

/-- The kind with a tag. -/
def ofTag? (tag : String) : Option QueryKind := all.find? fun k => k.tag == tag

/-- The tag that another spelling stands for: the unions are also asked for by the
name of their disjunctive normal form. -/
def plainTag (tag : String) : String :=
  if tag = "2u-DNF" then "2u" else if tag = "up-DNF" then "up" else tag

/-- The kind that a tag asks for, in either spelling. -/
def ofSpelling? (tag : String) : Option QueryKind := ofTag? (plainTag tag)

/-- The kind of a shape. -/
def ofShape? (s : Shape) : Option QueryKind := all.find? fun k => k.shape = s

theorem mem_all (k : QueryKind) : k ∈ all := by cases k <;> decide

theorem ofTag?_tag (k : QueryKind) : ofTag? k.tag = some k := by cases k <;> decide

theorem ofShape?_shape (k : QueryKind) : ofShape? k.shape = some k := by
  cases k <;> decide +kernel

end QueryKind

end MultiHop
