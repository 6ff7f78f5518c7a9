/-
MultiHop/Decimal/Shortest.lean

The shortest decimal that reads back as a given single-precision number.

The reals that round to a finite number form an interval around it.  A decimal
grid is the set of whole multiples of one power of ten; going from coarse grids
to fine ones, the first grid with a point inside the interval gives the fewest
digits, and the point nearest to the number is taken, the upper one on a tie.
Only the two neighbours of the number on a grid have to be looked at: if any
point of the grid lies in the interval, one of these two does.
-/
import MultiHop.Decimal.Positional
import MultiHop.Decimal.Word

namespace MultiHop.Decimal

/-- The reals that round to `value`, all three in units of `2 ^ exponent`; the
two ends belong to the interval when `closed`. -/
structure Interval where
  low : Nat
  value : Nat
  high : Nat
  exponent : Int
  closed : Bool
deriving DecidableEq, Repr

/-- The interval of a magnitude: half way to the neighbours on either side, in
units of a quarter of the last mantissa bit.  A tie between two neighbours reads
as the even one, so the ends belong to an even mantissa. -/
def Magnitude.interval (m : Magnitude) : Interval where
  low := 4 * m.mantissa - if m.tight then 1 else 2
  value := 4 * m.mantissa
  high := 4 * m.mantissa + 2
  exponent := m.exponent - 2
  closed := m.mantissa % 2 == 0

namespace Interval

/-- Brings `a · 10 ^ grid` and `b · 2 ^ i.exponent` to one whole unit. -/
def scaled (i : Interval) (grid : Int) (a b : Nat) : Nat × Nat :=
  (a * (Nat.pow 10 grid.toNat * Nat.pow 2 (-i.exponent).toNat),
   b * (Nat.pow 2 i.exponent.toNat * Nat.pow 10 (-grid).toNat))

/-- Order of `a · 10 ^ grid` and `b · 2 ^ i.exponent`. -/
def compareAt (i : Interval) (grid : Int) (a b : Nat) : Ordering :=
  let (x, y) := i.scaled grid a b
  compare x y

/-- Whether the grid point `a · 10 ^ grid` rounds to the value. -/
def holds (i : Interval) (grid : Int) (a : Nat) : Bool :=
  match i.compareAt grid a i.low, i.compareAt grid a i.high with
  | .gt, .lt => true
  | .eq, _ | _, .eq => i.closed
  | _, _ => false

/-- The last grid point that is not above the value. -/
def floorAt (i : Interval) (grid : Int) : Nat :=
  let (unit, v) := i.scaled grid 1 i.value
  v / unit

/-- The point of the grid that stands for the value, if one rounds to it. -/
def onGrid? (i : Interval) (grid : Int) : Option Nat :=
  let a := i.floorAt grid
  match i.holds grid a, i.holds grid (a + 1) with
  | false, false => none
  | true, false => some a
  | false, true => some (a + 1)
  | true, true =>
    let (unit, twice) := i.scaled grid 1 (2 * i.value)
    some (if twice < (2 * a + 1) * unit then a else a + 1)

/-- The first hit on the grids from `grid` downwards; after `steps` grids without
one the floor on the last grid stands in. -/
def search (i : Interval) : Nat → Int → Nat × Int
  | 0, grid => (i.floorAt grid, grid)
  | steps + 1, grid =>
    match i.onGrid? grid with
    | some a => (a, grid)
    | none => search i steps (grid - 1)

end Interval

/-- Text of a single-precision number: the shortest decimal that reads back as
it, written out in full; whole numbers have no point, and zero keeps its sign.
Single precision lies below `10 ^ 39`, and nine digits always read back, so the
grids from `10 ^ 39` down to `10 ^ -61` are enough. -/
def ofSingle (x : Float32) : String :=
  match Format.single.read x.toBits.toNat with
  | .nan => "NaN"
  | .infinite negative => if negative then "-inf" else "inf"
  | .finite negative m =>
    let body :=
      if m.mantissa = 0 then ['0']
      else
        let (d, grid) := m.interval.search 100 39
        positional d grid
    String.ofList (if negative then '-' :: body else body)

end MultiHop.Decimal
