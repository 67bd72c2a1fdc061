import Mathlib.Algebra.QuadraticAlgebra.Basic
import Mathlib.Algebra.Ring.BooleanRing
import Mathlib.Data.Matrix.Mul
import ShaderAlgebra.Expr
import ShaderAlgebra.Proofs.Evaluator
import ShaderAlgebra.Proofs.Readers

/-!
# What expressions mean

The mathematical value of an expression, said without shaders: numbers, vectors
and matrices over the rationals and over the complex numbers with rational parts.
Sums and differences are entrywise.  A product is that of scalars, of a scalar and a
value, of a matrix and a vector, or the bilinear dot product of two vectors.  A real number
next to a complex one is read as complex, a real pair next to a complex number as a complex number,
and a real vector of length one next to a scalar as a number.
-/

namespace ShaderAlgebra

open Glsl (Plane Sampler)

/-- The complex numbers with rational parts: `i² = -1`. -/
abbrev Gauss := QuadraticAlgebra ℚ (-1) 0

/-- The numbers of a kind. -/
@[reducible] def Scalar.Carrier : Scalar → Type
  | bool => Bool
  | int => ℤ
  | real => ℚ
  | complex => Gauss

instance (k : Scalar) : CommRing k.Carrier :=
  match k with
  | .bool => inferInstanceAs (CommRing Bool)
  | .int => inferInstanceAs (CommRing ℤ)
  | .real => inferInstanceAs (CommRing ℚ)
  | .complex => inferInstanceAs (CommRing Gauss)

/-- A rational as a number of a kind, if the kind has it. -/
def Scalar.ofReal? : (k : Scalar) → Option (ℚ → k.Carrier)
  | real => some id
  | complex => some QuadraticAlgebra.C
  | bool | int => none

/-- The values of a shape; a matrix is a row of row vectors. -/
@[reducible] def Shape.Carrier : Shape → Type
  | scalar k => k.Carrier
  | vector n k => Fin n → k.Carrier
  | matrix r c k => Matrix (Fin r) (Fin c) k.Carrier

instance (s : Shape) : AddCommGroup s.Carrier :=
  match s with
  | .scalar k => inferInstanceAs (AddCommGroup k.Carrier)
  | .vector n k => inferInstanceAs (AddCommGroup (Fin n → k.Carrier))
  | .matrix r c k => inferInstanceAs (AddCommGroup (Matrix (Fin r) (Fin c) k.Carrier))

instance (s : Shape) : SMul s.kind.Carrier s.Carrier :=
  match s with
  | .scalar k => inferInstanceAs (SMul k.Carrier k.Carrier)
  | .vector n k => inferInstanceAs (SMul k.Carrier (Fin n → k.Carrier))
  | .matrix r c k => inferInstanceAs (SMul k.Carrier (Matrix (Fin r) (Fin c) k.Carrier))

/-- A value along with its shape. -/
structure Quantity where
  shape : Shape
  value : shape.Carrier

namespace Quantity

/-- The value, if it has the shape. -/
def as? (x : Quantity) (s : Shape) : Option s.Carrier :=
  if h : x.shape = s then some (h ▸ x.value) else none

/-- A value read next to another: a real pair next to a complex number is a complex number, a
vector of length one next to a scalar is a number. -/
def beside (x y : Quantity) : Quantity :=
  match x, y.shape with
  | ⟨.vector 2 .real, v⟩, .scalar .complex => ⟨.complex, ⟨v 0, v 1⟩⟩
  | ⟨.vector 1 .real, v⟩, .scalar _ => ⟨.real, v 0⟩
  | x, _ => x

/-- A real number as a complex one; other values stay as they are. -/
def toComplex : Quantity → Quantity
  | ⟨.scalar .real, a⟩ => ⟨.complex, QuadraticAlgebra.C a⟩
  | x => x

/-- Real numbers become complex if there is a complex number among them. -/
def promote (xs : List Quantity) : List Quantity :=
  if xs.any (·.shape = .complex) then xs.map toComplex else xs

/-- An operation on values of one shape. -/
def entrywise (f : (s : Shape) → s.Carrier → s.Carrier → s.Carrier) (x y : Quantity) : Option Quantity :=
  match promote [x.beside y, y.beside x] with
  | [a, b] => (b.as? a.shape).map fun b => ⟨a.shape, f a.shape a.value b⟩
  | _ => none

/-- A scalar times a value. -/
def scale (x y : Quantity) : Option Quantity :=
  match x with
  | ⟨.scalar .real, a⟩ => y.shape.kind.ofReal?.map fun f => ⟨y.shape, f a • y.value⟩
  | ⟨.scalar .complex, a⟩ =>
    if h : .complex = y.shape.kind then
      some ⟨y.shape, (cast (congrArg Scalar.Carrier h) a : y.shape.kind.Carrier) • y.value⟩
    else none
  | _ => none

/-- A matrix times a vector. -/
def mulVec (x y : Quantity) : Option Quantity :=
  match x with
  | ⟨.matrix r c k, M⟩ => (y.as? (.vector c k)).map fun v => ⟨.vector r k, M.mulVec v⟩
  | _ => none

/-- The bilinear dot product of two vectors. -/
def dot (x y : Quantity) : Option Quantity :=
  match x with
  | ⟨.vector n k, v⟩ => (y.as? (.vector n k)).map fun w => ⟨.scalar k, dotProduct v w⟩
  | _ => none

/-- A product: with a scalar on either side, of a matrix and a vector, or of two vectors. -/
def times (x y : Quantity) : Option Quantity :=
  x.scale y <|> y.scale x <|> x.mulVec y <|> x.dot y

/-- The product of two values, each read next to the other. -/
def mul (x y : Quantity) : Option Quantity :=
  (x.beside y).times (y.beside x)

/-- An operation with two operands. -/
def binary (op : Binary) (x y : Quantity) : Option Quantity :=
  match op with
  | .add => entrywise (fun _ a b => a + b) x y
  | .sub => entrywise (fun _ a b => a - b) x y
  | .mul => x.mul y
  | .dot => x.dot y

/-- The sum of the elements of a vector or the rows of a matrix. -/
def sum : Quantity → Option Quantity
  | ⟨.vector _ k, v⟩ => some ⟨.scalar k, ∑ i, v i⟩
  | ⟨.matrix _ c k, M⟩ => some ⟨.vector c k, ∑ i, M i⟩
  | ⟨.scalar _, _⟩ => none

/-- An element of a vector or a row of a matrix. -/
def element (x : Quantity) (i : Nat) : Option Quantity :=
  match x with
  | ⟨.vector n k, v⟩ => if h : i < n then some ⟨.scalar k, v ⟨i, h⟩⟩ else none
  | ⟨.matrix r c k, M⟩ => if h : i < r then some ⟨.vector c k, M ⟨i, h⟩⟩ else none
  | ⟨.scalar _, _⟩ => none

/-- A list of scalars is a vector, a list of vectors a matrix. -/
def list (xs : List Quantity) : Option Quantity :=
  match (promote xs).head? with
  | some ⟨.scalar k, _⟩ =>
    ((promote xs).mapM (as? · (.scalar k))).map fun vs => ⟨.vector vs.length k, vs.get⟩
  | some ⟨.vector c k, _⟩ =>
    ((promote xs).mapM (as? · (.vector c k))).map fun vs => ⟨.matrix vs.length c k, .of vs.get⟩
  | _ => none

/-- A value as a point of the plane. -/
def point? : Quantity → Option Plane
  | ⟨.vector 2 .real, v⟩ => some (v 0, v 1)
  | ⟨.scalar .complex, z⟩ => some (z.re, z.im)
  | _ => none

end Quantity

/-- All that the value of an expression depends on. -/
structure World where
  images : String → Option Image
  viewport : Viewport
  /-- The inputs, by name and shape. -/
  inputs : String → (s : Shape) → s.Carrier
  pixel : Plane
  sampler : Sampler

namespace World

variable (W : World)

/-- The rational that the literal of a number denotes. -/
def number? (x : Binary64) : Option ℚ :=
  (literal? x).toOption.map Decimal.value

/-- A corner of the viewport. -/
def corner? (p : Point) : Option Plane := do
  let x ← number? p.x
  let y ← number? p.y
  some (x, y)

/-- What a read of an image gives: an image that cannot be read is zero. -/
def read (channels : Channels) (name : String) (a b p : Plane) : Quantity :=
  ⟨.realVector (Glsl.channelCount channels),
    if Available W.images name then W.sampler channels name a b p else 0⟩

end World

mutual

/-- **The value of an expression.** -/
def Expr.value? (W : World) : Expr → Option Quantity
  | .real x => do
    let a ← World.number? x
    some ⟨.real, a⟩
  | .complex x y => do
    let a ← World.number? x
    let b ← World.number? y
    some ⟨.complex, ⟨a, b⟩⟩
  | .list items => do
    let xs ← Expr.values? W items
    Quantity.list xs
  | .uniform name s => some ⟨s, W.inputs name s⟩
  | .pixel => some ⟨.realVector 2, ![W.pixel.1, W.pixel.2]⟩
  | .binary op lhs rhs => do
    let x ← Expr.value? W lhs
    let y ← Expr.value? W rhs
    x.binary op y
  | .sum arg => do
    let x ← Expr.value? W arg
    x.sum
  | .element arg i => do
    let x ← Expr.value? W arg
    x.element i
  | .image channels name point => do
    let p ← Expr.value? W point
    let a ← World.corner? W.viewport.lowerLeft
    let b ← World.corner? W.viewport.lowerRight
    let p ← p.point?
    some (W.read channels name a b p)
  | .imageOn channels name left right point => do
    let a ← Expr.value? W left
    let b ← Expr.value? W right
    let p ← Expr.value? W point
    let a ← a.point?
    let b ← b.point?
    let p ← p.point?
    some (W.read channels name a b p)

/-- The values of expressions. -/
def Expr.values? (W : World) : List Expr → Option (List Quantity)
  | [] => some []
  | e :: es => do
    let x ← Expr.value? W e
    let xs ← Expr.values? W es
    some (x :: xs)

end

end ShaderAlgebra
