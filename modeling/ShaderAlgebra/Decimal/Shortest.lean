import ShaderAlgebra.Binary64
import ShaderAlgebra.Decimal

/-!
# The shortest decimal that reads back

The decimals that round to a given double fill an interval around it, closed iff
the significand is even.  `shortest` walks the decimal grids from one digit to
seventeen and stops at the first grid that meets the interval; of the double's
two neighbours on that grid it takes the nearer.  Only an exact tie between the
two is left to the caller, as a `Tie`.

All comparisons are between natural numbers: the double, the ends of its
interval and the grid are multiples of one common unit.
-/

namespace ShaderAlgebra

/-- Which of two equally near decimals is taken. -/
inductive Tie where
  | up
  | even
deriving DecidableEq, Repr

namespace Decimal

/-- A positive double in units of a quarter of its last place, with the ends of the interval of
numbers that round to it.  The unit is `unitNum / unitDen`. -/
structure Interval where
  value : Nat
  low : Nat
  high : Nat
  closed : Bool
  unitNum : Nat
  unitDen : Nat

/-- The interval of a positive finite double.  The gap below a power of two is half the gap above,
except at the bottom of the exponent range. -/
def Interval.ofBinary64 (x : Binary64) : Interval :=
  let m := x.significand
  let q := x.exponent - 2
  { value := 4 * m
    low := 4 * m - (if x.fraction = 0 ∧ 1 < x.exponentField then 1 else 2)
    high := 4 * m + 2
    closed := m % 2 = 0
    unitNum := if 0 ≤ q then 1 <<< q.toNat else 1
    unitDen := if 0 ≤ q then 1 else 1 <<< (-q).toNat }

/-- The grid of multiples of `10 ^ p`, as the two factors that bring units and grid points to a
common scale: `u` units and `d` grid points compare as `u * num` and `d * den`. -/
structure Grid where
  num : Nat
  den : Nat

/-- The grid of multiples of `10 ^ p` beside an interval. -/
def Interval.grid (v : Interval) (p : Int) : Grid :=
  if 0 ≤ p then ⟨v.unitNum, v.unitDen * Nat.pow 10 p.toNat⟩
  else ⟨v.unitNum * Nat.pow 10 (-p).toNat, v.unitDen⟩

/-- Whether grid point `d` lies in the interval. -/
def Interval.holds (v : Interval) (g : Grid) (d : Nat) : Bool :=
  if v.closed then v.low * g.num ≤ d * g.den && d * g.den ≤ v.high * g.num
  else v.low * g.num < d * g.den && d * g.den < v.high * g.num

/-- The grid point that is taken, if one of the two neighbours of the value lies in the
interval. -/
def Interval.pick (v : Interval) (tie : Tie) (g : Grid) : Option Nat :=
  let d := v.value * g.num / g.den
  let down := v.value * g.num - d * g.den
  let up := (d + 1) * g.den - v.value * g.num
  match v.holds g d, v.holds g (d + 1) with
  | true, true =>
    if down < up then some d
    else if up < down then some (d + 1)
    else match tie with
      | .up => some (d + 1)
      | .even => if d % 2 = 0 then some d else some (d + 1)
  | true, false => some d
  | false, true => some (d + 1)
  | false, false => none

/-- The power of ten of the leading digit of `num / den`, for positive operands. -/
def leadingPower (num den : Nat) : Int :=
  if den ≤ num then (digitsOf (num / den)).length - 1
  else
    let t := (digitsOf (den / num)).length
    if den ≤ num * Nat.pow 10 (t - 1) then -((t : Int) - 1) else -(t : Int)

/-- The shortest decimal that reads back as the finite double `x`, and of the shortest the
nearest. -/
def shortest (tie : Tie) (x : Binary64) : Decimal :=
  if x.isZero then ⟨x.negative, 0, 0⟩
  else
    let v := Interval.ofBinary64 x
    let top := leadingPower (v.value * v.unitNum) v.unitDen
    let hit := (List.range 17).findSome? fun (i : Nat) =>
      (v.pick tie (v.grid (top - i))).map fun d => (⟨x.negative, d, top - i⟩ : Decimal)
    (hit.getD ⟨x.negative, 0, 0⟩).normalize

end Decimal
end ShaderAlgebra
