/-
# Signed decimals

A decimal is a sign, a natural number of digits and a power of ten.  The sign is
kept apart from the digits, so that the two zeros differ.
-/

namespace ShaderAlgebra

/-- The decimal `± digits · 10 ^ exponent`. -/
structure Decimal where
  negative : Bool
  digits : Nat
  exponent : Int
deriving DecidableEq, Repr, Inhabited

namespace Decimal

/-- The decimal digits of a natural number, most significant first. -/
def digitsOf (n : Nat) : List Char :=
  Nat.toDigits 10 n

/-- The same decimal without trailing zeros among its digits; zero keeps no power of ten. -/
def normalize (d : Decimal) : Decimal :=
  if h : d.digits = 0 then ⟨d.negative, 0, 0⟩
  else if d.digits % 10 = 0 then normalize ⟨d.negative, d.digits / 10, d.exponent + 1⟩
  else d
termination_by d.digits
decreasing_by exact Nat.div_lt_self (Nat.pos_of_ne_zero h) (by decide)

/-- The exponent in scientific notation: the power of ten of the leading digit. -/
def leading (d : Decimal) : Int :=
  d.exponent + (digitsOf d.digits).length - 1

/-- Positive zero. -/
def zero : Decimal :=
  ⟨false, 0, 0⟩

/-- One. -/
def one : Decimal :=
  ⟨false, 1, 0⟩

end Decimal
end ShaderAlgebra
