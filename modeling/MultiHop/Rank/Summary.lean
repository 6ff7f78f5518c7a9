/-
MultiHop/Rank/Summary.lean

Summary figures of a list of ranks.  All of them are averages, and averages are
written for any arithmetic that has sums, products and quotients, so that the same
definitions can be read in double precision and exactly.
-/
import MultiHop.Decimal.Fixed

namespace MultiHop

/-- The arithmetic of averages. -/
class Averaging (α : Type) extends Add α, Mul α, Div α where
  /-- A count as a number. -/
  ofCount : Nat → α

instance : Averaging Float := ⟨Float.ofNat⟩

namespace Averaging

variable {α : Type} [Averaging α]

/-- Sum from left to right, beginning with the first number. -/
def sum : List α → α
  | [] => ofCount 0
  | x :: xs => xs.foldl (· + ·) x

end Averaging

open Averaging (ofCount)

/-- Figures of `count` ranks. -/
structure RankSummary (α : Type) where
  /-- Mean of the reciprocal ranks. -/
  meanReciprocal : α
  /-- Mean of the ranks. -/
  mean : α
  /-- Share of ranks up to 1. -/
  hitsAt1 : α
  /-- Share of ranks up to 3. -/
  hitsAt3 : α
  /-- Share of ranks up to 10. -/
  hitsAt10 : α
  count : Nat
deriving DecidableEq

namespace RankSummary

variable {α : Type} [Averaging α]

/-- Figures of no ranks at all. -/
def empty : RankSummary α :=
  ⟨ofCount 0, ofCount 0, ofCount 0, ofCount 0, ofCount 0, 0⟩

/-- Figures of `ranks`. -/
def ofRanks (ranks : List Nat) : RankSummary α :=
  if ranks.isEmpty then empty
  else
    let n : α := ofCount ranks.length
    let hits (k : Nat) : α := ofCount (ranks.countP (· ≤ k)) / n
    { meanReciprocal := Averaging.sum (ranks.map fun r => ofCount 1 / ofCount r) / n
      mean := Averaging.sum (ranks.map ofCount) / n
      hitsAt1 := hits 1
      hitsAt3 := hits 3
      hitsAt10 := hits 10
      count := ranks.length }

/-- Figures of several runs taken together: averages weighted by the counts. -/
def pool (runs : List (RankSummary α)) : RankSummary α :=
  let total := runs.foldl (fun n m => n + m.count) 0
  if total = 0 then empty
  else
    let average (figure : RankSummary α → α) : α :=
      Averaging.sum (runs.map fun m => figure m * ofCount m.count) / ofCount total
    { meanReciprocal := average (·.meanReciprocal)
      mean := average (·.mean)
      hitsAt1 := average (·.hitsAt1)
      hitsAt3 := average (·.hitsAt3)
      hitsAt10 := average (·.hitsAt10)
      count := total }

/-- One line with all figures. -/
def line (m : RankSummary Float) : String :=
  "MRR: " ++ Decimal.fixed 4 m.meanReciprocal ++
    " | MR: " ++ Decimal.fixed 1 m.mean ++
    " | H@1: " ++ Decimal.fixed 3 m.hitsAt1 ++
    " | H@3: " ++ Decimal.fixed 3 m.hitsAt3 ++
    " | H@10: " ++ Decimal.fixed 3 m.hitsAt10 ++
    s!" (n={m.count})"

end RankSummary

end MultiHop
