/-
# Double-precision numbers as bit patterns

A double is its 64 bits: a sign, an eleven-bit exponent field and a 52-bit
fraction.  A finite double denotes `± significand · 2 ^ exponent`, so every
operation here is exact arithmetic on natural numbers followed by one rounding.

`Binary64.ofRatio` is that rounding: the double nearest to a quotient of two
naturals, a tie going to the even significand.  Products, quotients and the
conversion of an integer are all stated through it.
-/

namespace ShaderAlgebra

/-- A double-precision number, as its 64 bits. -/
structure Binary64 where
  bits : UInt64
deriving DecidableEq, Repr, Inhabited

namespace Binary64

/-- The sign bit. -/
def negative (x : Binary64) : Bool :=
  x.bits.toNat >>> 63 == 1

/-- The eleven-bit exponent field. -/
def exponentField (x : Binary64) : Nat :=
  x.bits.toNat >>> 52 % 1 <<< 11

/-- The 52-bit fraction field. -/
def fraction (x : Binary64) : Nat :=
  x.bits.toNat % 1 <<< 52

/-- The double with the given sign and the given exponent and fraction fields, read as one number. -/
def ofFields (negative : Bool) (fields : Nat) : Binary64 :=
  ⟨UInt64.ofNat ((if negative then 1 <<< 63 else 0) + fields)⟩

/-- An exponent field of ones is kept for infinities and for what is no number. -/
def isFinite (x : Binary64) : Bool :=
  x.exponentField != 2047

/-- An exponent field of ones with a nonzero fraction is no number. -/
def isNaN (x : Binary64) : Bool :=
  x.exponentField == 2047 && x.fraction != 0

/-- Zero of either sign. -/
def isZero (x : Binary64) : Bool :=
  x.exponentField == 0 && x.fraction == 0

/-- The integer significand of a finite double: the fraction, with a leading one unless the
exponent field is zero. -/
def significand (x : Binary64) : Nat :=
  if x.exponentField = 0 then x.fraction else x.fraction + 1 <<< 52

/-- The power of two that scales the significand of a finite double. -/
def exponent (x : Binary64) : Int :=
  (max x.exponentField 1 : Nat) - 1075

/-- The infinity of the given sign. -/
def infinity (negative : Bool) : Binary64 :=
  ofFields negative (2047 <<< 52)

/-- What `0 / 0` gives. -/
def nan : Binary64 :=
  ofFields false (2047 <<< 52 + 1 <<< 51)

/-- The zero of the given sign. -/
def zero (negative : Bool) : Binary64 :=
  ofFields negative 0

/-- The integer nearest to `num / den`, a tie going to the even one. -/
def roundHalfEven (num den : Nat) : Nat :=
  let q := num / den
  let r := num % den
  if 2 * r < den then q
  else if den < 2 * r then q + 1
  else if q % 2 = 0 then q else q + 1

/-- The largest `l` with `2 ^ l ≤ num / den`, for positive operands. -/
def floorLog2 (num den : Nat) : Int :=
  let l : Int := (num.log2 : Int) - den.log2
  if 0 ≤ l then
    if den <<< l.toNat ≤ num then l else l - 1
  else
    if den ≤ num <<< (-l).toNat then l else l - 1

/-- The double nearest to `± num / den`, a tie going to the even significand; past the largest
finite double it is infinite.  The rounded significand is added to the exponent field, so a carry
out of the significand moves to the next binade by itself. -/
def ofRatio (negative : Bool) (num den : Nat) : Binary64 :=
  if num = 0 then zero negative
  else
    let e := max (floorLog2 num den - 52) (-1074)
    let q := if 0 ≤ e then roundHalfEven num (den <<< e.toNat)
      else roundHalfEven (num <<< (-e).toNat) den
    let fields := (e + 1074).toNat <<< 52 + q
    if fields < 2047 <<< 52 then ofFields negative fields else infinity negative

/-- The double nearest to a natural number. -/
def ofNat (n : Nat) : Binary64 :=
  ofRatio false n 1

/-- One. -/
def one : Binary64 :=
  ofNat 1

/-- The same number with the other sign. -/
def neg (x : Binary64) : Binary64 :=
  ofFields (!x.negative) (x.bits.toNat % 1 <<< 63)

/-- The double nearest to the product of two finite doubles. -/
def mul (x y : Binary64) : Binary64 :=
  let e := x.exponent + y.exponent
  let m := x.significand * y.significand
  let s := x.negative != y.negative
  if 0 ≤ e then ofRatio s (m <<< e.toNat) 1 else ofRatio s m (1 <<< (-e).toNat)

/-- The double nearest to the quotient of a finite double by a finite nonzero one. -/
def div (x y : Binary64) : Binary64 :=
  let e := x.exponent - y.exponent
  let s := x.negative != y.negative
  if 0 ≤ e then ofRatio s (x.significand <<< e.toNat) y.significand
  else ofRatio s x.significand (y.significand <<< (-e).toNat)

/-- The quotient of two natural numbers: infinite over zero, and no number for `0 / 0`. -/
def quotient (n d : Nat) : Binary64 :=
  if d = 0 then (if n = 0 then nan else infinity false) else ofRatio false n d

/-- The double nearest to `10 ^ k`. -/
def tenPow (k : Nat) : Binary64 :=
  ofNat (Nat.pow 10 k)

/-- Equality of numbers: the two zeros are equal, and what is no number equals nothing. -/
def sameNumber (x y : Binary64) : Bool :=
  !x.isNaN && !y.isNaN && (x == y || (x.isZero && y.isZero))

end Binary64
end ShaderAlgebra
