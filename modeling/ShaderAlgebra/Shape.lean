/-
# Shapes of values

A value is a scalar, a vector of scalars or a matrix, which is a vector of row
vectors.  GLSL ES has vectors of up to four floats and square matrices of up to
four rows; those shapes are *native*.  Every other vector or matrix is stored in
a struct, and its name is spelled out from its dimensions.

A complex scalar is a `vec2`.  Vectors and matrices are taken over real and
complex numbers only; booleans and integers exist as scalars that pass through.
-/

namespace ShaderAlgebra

/-- The kind of number in the innermost position of a shape. -/
inductive Scalar where
  | bool
  | int
  | real
  | complex
deriving DecidableEq, Repr, Inhabited

/-- The shape of a value. -/
inductive Shape where
  | scalar (kind : Scalar)
  | vector (length : Nat) (kind : Scalar)
  | matrix (rows cols : Nat) (kind : Scalar)
deriving DecidableEq, Repr, Inhabited

/-- The widest native vector. -/
def maxNativeWidth : Nat := 4

/-- The largest length of a vector or dimension of a matrix. -/
def maxDimension : Nat := 1024

namespace Scalar

/-- Every scalar kind with its name in program files. -/
def names : List (String × Scalar) :=
  [("bool", bool), ("int", int), ("real", real), ("complex", complex)]

/-- The name of a kind in program files. -/
def name : Scalar → String
  | bool => "bool"
  | int => "int"
  | real => "real"
  | complex => "complex"

/-- Vectors and matrices are taken over real and complex numbers. -/
def isField : Scalar → Bool
  | real | complex => true
  | bool | int => false

/-- The kind of the two parts of a complex number; other kinds are their own. -/
def part : Scalar → Scalar
  | complex => real
  | k => k

end Scalar

namespace Shape

/-- The real scalar. -/
abbrev real : Shape := .scalar .real

/-- The complex scalar. -/
abbrev complex : Shape := .scalar .complex

/-- The real vector of a length. -/
abbrev realVector (n : Nat) : Shape := .vector n .real

/-- The scalar kind in the innermost position. -/
def kind : Shape → Scalar
  | scalar k | vector _ k | matrix _ _ k => k

/-- How many indices lead to a scalar. -/
def depth : Shape → Nat
  | scalar _ => 0
  | vector _ _ => 1
  | matrix _ _ _ => 2

/-- The number of elements of a vector or rows of a matrix. -/
def length? : Shape → Option Nat
  | scalar _ => none
  | vector n _ => some n
  | matrix r _ _ => some r

/-- The shape of an element: a scalar of a vector, a row of a matrix. -/
def element? : Shape → Option Shape
  | scalar _ => none
  | vector _ k => some (scalar k)
  | matrix _ c k => some (vector c k)

/-- The shape of the real part and of the imaginary part. -/
def part : Shape → Shape
  | scalar k => scalar k.part
  | vector n k => vector n k.part
  | matrix r c k => matrix r c k.part

/-- Whether GLSL has the shape as a type of its own. -/
def isNative : Shape → Bool
  | scalar _ => true
  | vector n .real => n ≤ maxNativeWidth
  | matrix r c .real => r == c && 2 ≤ r && r ≤ maxNativeWidth
  | vector _ _ | matrix _ _ _ => false

/-- Real vectors of any length. -/
def isRealVector : Shape → Bool
  | vector _ .real => true
  | _ => false

/-- The GLSL name of the shape: of a builtin type if it is native, of its struct otherwise. -/
def name : Shape → String
  | scalar .real => "float"
  | scalar .int => "int"
  | scalar .bool => "bool"
  | scalar .complex => "vec2"
  | vector n .real => if n = 1 then "float" else s!"vec{n}"
  | vector n .complex => s!"cvec{n}"
  | vector n .int => s!"ivec{n}"
  | vector n .bool => s!"bvec{n}"
  | matrix r c .complex => s!"cmat{r}_{c}"
  | matrix r c k => if (matrix r c k).isNative then s!"mat{r}" else s!"mat{r}_{c}"

end Shape
end ShaderAlgebra
