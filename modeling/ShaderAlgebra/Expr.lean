import ShaderAlgebra.Shape
import ShaderAlgebra.Texture

/-!
# Expressions

The programs that are compiled: constants, lists, named inputs, the current
pixel, arithmetic, and reads of images.  A list of scalars is a vector and a list
of vectors is a matrix.
-/

namespace ShaderAlgebra

/-- The operations with two operands. -/
inductive Binary where
  | add
  | sub
  /-- A product of scalars, of a scalar and a value, of a matrix and a vector, or the dot product
  of two vectors. -/
  | mul
  | dot
deriving DecidableEq, Repr

/-- An expression. -/
inductive Expr where
  | real (value : Binary64)
  | complex (re im : Binary64)
  | list (items : List Expr)
  /-- An input of the program. -/
  | uniform (name : String) (shape : Shape)
  /-- The point of the plane that the current pixel shows. -/
  | pixel
  | binary (op : Binary) (lhs rhs : Expr)
  /-- The sum of the elements of a vector or the rows of a matrix. -/
  | sum (arg : Expr)
  /-- An element of a vector or a row of a matrix. -/
  | element (arg : Expr) (index : Nat)
  /-- A read of an image that stands on the bottom edge of the viewport. -/
  | image (channels : Channels) (name : String) (point : Expr)
  /-- A read of an image with its own bottom edge, from `a` to `b`. -/
  | imageOn (channels : Channels) (name : String) (a b point : Expr)
deriving Repr, Inhabited

namespace Binary

/-- The name of an operation in a program file. -/
def name : Binary → String
  | add => "add"
  | sub => "sub"
  | mul => "mul"
  | dot => "dot"

end Binary

namespace Expr

/-- Gives a read of an image its own bottom edge; other expressions stay as they are. -/
def withCorners (e a b : Expr) : Expr :=
  match e with
  | image channels name point => imageOn channels name a b point
  | imageOn channels name _ _ point => imageOn channels name a b point
  | e => e

mutual

/-- Whether two expressions are equal, numbers as numbers. -/
def same : Expr → Expr → Bool
  | real x, real y => x.sameNumber y
  | complex x y, complex z w => x.sameNumber z && y.sameNumber w
  | list xs, list ys => sameItems xs ys
  | uniform m s, uniform n t => m == n && s == t
  | pixel, pixel => true
  | binary o x y, binary p z w => o == p && same x z && same y w
  | sum x, sum y => same x y
  | element x i, element y j => same x y && i == j
  | image c m x, image d n y => c == d && m == n && same x y
  | imageOn c m a b x, imageOn d n a' b' y =>
    c == d && m == n && same a a' && same b b' && same x y
  | _, _ => false

/-- Whether two lists of expressions are equal, numbers as numbers. -/
def sameItems : List Expr → List Expr → Bool
  | [], [] => true
  | x :: xs, y :: ys => same x y && sameItems xs ys
  | _, _ => false

end

end Expr
end ShaderAlgebra
