import ShaderAlgebra.Shape

/-!
# The operations of the algebra

Ten operations on real and complex vectors and matrices.  On a native shape most
of them are an operator or builtin of GLSL; elsewhere each has a helper function
whose name is read off the operation and the shape.
-/

namespace ShaderAlgebra

/-- An operation of the algebra. -/
inductive Operation where
  /-- Entrywise sum. -/
  | add
  /-- Entrywise difference. -/
  | sub
  /-- Real scalar times a value. -/
  | scale
  /-- Real matrix times real vector. -/
  | matVec
  /-- Dot product of real vectors. -/
  | dot
  /-- Sum of the elements of a vector or the rows of a matrix. -/
  | sum
  /-- Product of complex scalars. -/
  | complexMul
  /-- Complex scalar times a complex value. -/
  | complexScale
  /-- Complex matrix times complex vector. -/
  | complexMatVec
  /-- Bilinear dot product of complex vectors. -/
  | complexDot
deriving DecidableEq, Repr

namespace Operation

/-- All operations. -/
def all : List Operation :=
  [add, sub, scale, matVec, dot, sum, complexMul, complexScale, complexMatVec, complexDot]

/-- The short name of an operation. -/
def name : Operation → String
  | add => "add"
  | sub => "sub"
  | scale => "scalarmult"
  | matVec => "matmult"
  | dot => "dot"
  | sum => "sum"
  | complexMul => "cmult"
  | complexScale => "cscalarmult"
  | complexMatVec => "cmatmult"
  | complexDot => "cdot"

/-- The operation of a short name. -/
def ofName? (name : String) : Option Operation :=
  all.find? (·.name == name)

/-- The number of operands. -/
def arity : Operation → Nat
  | sum => 1
  | _ => 2

/-- Rows and columns of a matrix; a vector counts as one column without width, a scalar as a
vector of length one. -/
def dimensions : Shape → Nat × Nat
  | .matrix r c _ => (r, c)
  | .vector n _ => (n, 0)
  | .scalar _ => (1, 0)

/-- The name of the helper function of an operation.  The shape is that of the matrix for the
matrix products, and otherwise that of the vector or value operated on. -/
def helperName (op : Operation) (s : Shape) : String :=
  let (n, m) := dimensions s
  match op with
  | add => "add" ++ s.name
  | sub => "sub" ++ s.name
  | scale => "scalarmult" ++ s.name
  | matVec => s!"mult{n}_{m}"
  | dot => s!"dot{n}"
  | sum => "sum" ++ s.name
  | complexMul => "multc"
  | complexScale => "cscalarmult" ++ s.name
  | complexMatVec => s!"cmult{n}_{m}"
  | complexDot => s!"cdot{n}"

/-- Whether the operation on a shape is one of GLSL rather than a helper. -/
def isNativeOn (op : Operation) (s : Shape) : Bool :=
  match op with
  | add | sub | scale | matVec => s.isNative
  | dot => s.length?.any (· ≤ maxNativeWidth)
  | sum => s.isRealVector
  | complexMul | complexScale | complexMatVec | complexDot => false

end Operation
end ShaderAlgebra
