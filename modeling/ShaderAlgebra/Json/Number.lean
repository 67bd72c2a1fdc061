import ShaderAlgebra.Binary64

/-!
# Numbers in a text

A numeral without point and exponent that fits 64 bits is an integer.  Every
other numeral is a double, and its value is worked out in three steps, which do
not always give the nearest double:

1. digits are gathered into a 64-bit significand while they fit; a whole digit
   that does not fit counts as a zero, a fraction digit that does not fit ends
   the fraction;
2. the written exponent is added;
3. the significand, as a double, is multiplied or divided by a power of ten.
-/

namespace ShaderAlgebra
namespace Json

/-- A number: a natural number or the negative of a positive one, of at most 64 bits, or a
double. -/
inductive Number where
  | nat (n : Nat)
  | negative (n : Nat)
  | float (x : Binary64)
deriving DecidableEq, Repr, Inhabited

/-- A numeral as it is written. -/
structure Numeral where
  negative : Bool
  whole : List Nat
  fraction : Option (List Nat)
  exponent : Option (Bool × List Nat)
deriving DecidableEq, Repr

namespace Number

/-- A number as a double. -/
def toBinary64 : Number → Binary64
  | nat n => Binary64.ofNat n
  | negative n => (Binary64.ofNat n).neg
  | float x => x

end Number

namespace Numeral

/-- The largest significand. -/
def maxSignificand : Nat := UInt64.size - 1

/-- The largest written exponent. -/
def maxExponent : Nat := 1 <<< 31 - 1

/-- Gathers whole digits into a significand.  From the first digit that does not fit on, digits
only raise the exponent. -/
def gatherWhole (s : Nat) : List Nat → Nat × Nat
  | [] => (s, 0)
  | d :: ds =>
    if s * 10 + d ≤ maxSignificand then gatherWhole (s * 10 + d) ds else (s, ds.length + 1)

/-- Gathers fraction digits into a significand, up to the first that does not fit; gives how many
there were. -/
def gatherFraction (s : Nat) : List Nat → Nat × Nat
  | [] => (s, 0)
  | d :: ds =>
    if s * 10 + d ≤ maxSignificand then
      let (t, n) := gatherFraction (s * 10 + d) ds
      (t, n + 1)
    else (s, 0)

/-- The value of an exponent's digits, unless it is too large. -/
def exponentValue? (digits : List Nat) : Option Nat :=
  digits.foldl (fun v d => v.bind fun v => if v * 10 + d ≤ maxExponent then some (v * 10 + d) else none)
    (some 0)

/-- An exponent kept within 32 bits. -/
def clampExponent (e : Int) : Int :=
  max Int32.minValue.toInt (min Int32.maxValue.toInt e)

/-- Scales a double by a power of ten.  A power past the largest table entry is taken in steps
downwards, and is out of range upwards. -/
def scale? (f : Binary64) (e : Int) : Option Binary64 :=
  if e.natAbs ≤ 308 then
    if 0 ≤ e then
      let r := f.mul (Binary64.tenPow e.natAbs)
      if r.isFinite then some r else none
    else some (f.div (Binary64.tenPow e.natAbs))
  else if f.isZero then some f
  else if 0 < e then none
  else scale? (f.div (Binary64.tenPow 308)) (e + 308)
termination_by e.natAbs

/-- The double of a significand and an exponent, or `none` if it is out of range. -/
def floatOf? (negative : Bool) (s : Nat) (e : Int) : Option Binary64 :=
  (scale? (Binary64.ofNat s) e).map fun f => if negative then f.neg else f

/-- The number that a numeral denotes, or `none` if it is out of range. -/
def value? (n : Numeral) : Option Number :=
  let (s, dropped) := gatherWhole 0 n.whole
  match n.fraction, n.exponent with
  | none, none =>
    if dropped ≠ 0 then (floatOf? n.negative s dropped).map .float
    else if !n.negative then some (.nat s)
    else if 1 ≤ s ∧ s ≤ 1 <<< 63 then some (.negative s)
    else some (.float (Binary64.ofNat s).neg)
  | fraction, exponent =>
    let (s, used) := gatherFraction s (fraction.getD [])
    let start : Int := dropped - used
    match exponent with
    | none => (floatOf? n.negative s start).map .float
    | some (down, digits) =>
      match exponentValue? digits with
      | some e =>
        (floatOf? n.negative s (clampExponent (if down then start - e else start + e))).map .float
      | none =>
        if s ≠ 0 ∧ !down then none else some (.float (Binary64.zero n.negative))

end Numeral
end Json
end ShaderAlgebra
