import ShaderAlgebra.Decimal.Shortest

/-!
# Written forms of a double

One choice of digits, `Decimal.shortest`, and three ways to set them out.  A
`Layout` says when digits are written positionally and how an exponent looks:

| layout | positional | whole number | exponent |
|---|---|---|---|
| `Layout.literal` | `10⁻⁴ ≤ x < 10¹⁶` | `2.0` | `1e16`, `1e-5` |
| `Layout.plain` | always | `2` | none |
| `Layout.json` | `10⁻⁵ ≤ x < 10¹⁶` | `2.0` | `1e+16`, `1e-6` |
-/

namespace ShaderAlgebra
namespace Decimal

/-- How the digits of a decimal are set out. -/
structure Layout where
  /-- The leading powers of ten that are written positionally. -/
  positional : Int → Bool
  /-- Whether a whole number ends in `.0`. -/
  pointZero : Bool
  /-- Whether a positive exponent has a sign. -/
  plusSign : Bool

/-- Digits with a decimal point after the first `n` of them; zeros fill up on either side. -/
def pointAfter (n : Int) (pointZero : Bool) (digits : List Char) : List Char :=
  if n ≤ 0 then
    '0' :: '.' :: (List.replicate (-n).toNat '0' ++ digits)
  else
    let whole := digits.take n.toNat ++ List.replicate (n.toNat - digits.length) '0'
    match digits.drop n.toNat with
    | [] => if pointZero then whole ++ ['.', '0'] else whole
    | rest => whole ++ '.' :: rest

/-- The digits in scientific notation. -/
def scientific (leading : Int) (plusSign : Bool) (digits : List Char) : List Char :=
  let mantissa := match digits with
    | [] => []
    | [d] => [d]
    | d :: rest => d :: '.' :: rest
  let mark := if leading < 0 then ['e', '-'] else if plusSign then ['e', '+'] else ['e']
  mantissa ++ mark ++ digitsOf leading.natAbs

/-- The text of a decimal in a layout. -/
def text (layout : Layout) (d : Decimal) : String :=
  let digits := digitsOf d.digits
  let body :=
    if d.digits = 0 ∨ layout.positional d.leading then
      pointAfter (d.leading + 1) layout.pointZero digits
    else scientific d.leading layout.plusSign digits
  String.ofList (if d.negative then '-' :: body else body)

/-- The layout of a GLSL literal: always with a point or an exponent, so it is never read as an
integer. -/
def Layout.literal : Layout where
  positional e := -4 ≤ e && e < 16
  pointZero := true
  plusSign := false

/-- The layout of a number shown to a person: never an exponent, and no point in a whole
number. -/
def Layout.plain : Layout where
  positional _ := true
  pointZero := false
  plusSign := false

/-- The layout of a number in a program file. -/
def Layout.json : Layout where
  positional e := -5 ≤ e && e < 16
  pointZero := true
  plusSign := true

end Decimal

namespace Binary64

/-- The text of any double, given the text of finite ones. -/
def textWith (finite : Binary64 → String) (x : Binary64) : String :=
  if x.isFinite then finite x
  else if x.isNaN then "NaN"
  else if x.negative then "-inf" else "inf"

/-- The text of a double as a literal has it. -/
def literalText (x : Binary64) : String :=
  x.textWith fun x => (Decimal.shortest .up x).text .literal

/-- The text of a double for a person. -/
def plainText (x : Binary64) : String :=
  x.textWith fun x => (Decimal.shortest .up x).text .plain

end Binary64
end ShaderAlgebra
