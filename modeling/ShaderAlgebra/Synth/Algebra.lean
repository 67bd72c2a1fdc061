import ShaderAlgebra.Operation
import ShaderAlgebra.Synth.Value

/-!
# The operations, synthesized

Sums, differences and multiples follow the storage: the helper of a struct
applies the operation to every member.  Products and sums of elements are built
from dot products of chunks.  A complex operation is spelled out over the real
parts and the imaginary parts, `(ar·br − ai·bi, ar·bi + ai·br)`.

The functions of `Synth` take operands of a shape on which the operation is
defined; those of `Build` check the shape first.
-/

namespace ShaderAlgebra

open Glsl (Term Binder Declaration)

/-- The operations that act on every entry alike. -/
inductive Entrywise where
  | add
  | sub
  | scale
deriving DecidableEq, Repr

namespace Entrywise

/-- The operation of the algebra. -/
def operation : Entrywise → Operation
  | add => .add
  | sub => .sub
  | scale => .scale

/-- The operator between two native operands. -/
def operator : Entrywise → Glsl.Operator
  | add => .plus
  | sub => .minus
  | scale => .times

/-- The type of the left operand: a float for multiples. -/
def leftType (op : Entrywise) (s : Shape) : String :=
  match op with
  | add | sub => s.name
  | scale => Shape.real.name

/-- The left operand of a member: the member of the left operand, or all of it for multiples. -/
def leftPart (op : Entrywise) (field : String) : Term :=
  match op with
  | add | sub => .member (.name "a") field
  | scale => .name "a"

end Entrywise

namespace Storage

mutual

/-- An entrywise operation on two operands. -/
def entrywise (op : Entrywise) : Storage → Term → Term → Synth Term
  | native _, a, b => pure (.grouped op.operator a b)
  | record s ms, a, b => do
    define (record s ms)
    let f := op.operation.helperName s
    Synth.declare .function f do
      let parts ← entrywiseMembers op ms
      return .function s.name f [⟨op.leftType s, "a"⟩, ⟨s.name, "b"⟩]
        (.expression (.apply s.name parts))
    return .apply f [a, b]

/-- An entrywise operation on the members of the parameters `a` and `b`. -/
def entrywiseMembers (op : Entrywise) : List (String × Storage) → Synth (List Term)
  | [] => pure []
  | (field, part) :: rest => do
    let first ← entrywise op part (op.leftPart field) (.member (.name "b") field)
    let others ← entrywiseMembers op rest
    return first :: others

end

end Storage

namespace Synth

/-- The dot product of real vectors of length `n`. -/
def dot (n : Nat) (a b : Term) : Synth Term := do
  if n ≤ maxNativeWidth then
    return .apply "dot" [a, b]
  else
    let s := Shape.realVector n
    let f := Operation.dot.helperName s
    s.storage.define
    declare .function f do
      let product := fun (field : String × Storage) =>
        .apply "dot" [.member (.name "a") field.1, .member (.name "b") field.1]
      return .function Shape.real.name f [⟨s.name, "a"⟩, ⟨s.name, "b"⟩]
        (.expression (Term.total (s.storage.members.map product)))
    return .apply f [a, b]

/-- A real matrix times a real vector: the dot product of every row with the vector. -/
def matVec (r c : Nat) (m v : Term) : Synth Term := do
  let s := Shape.matrix r c .real
  if s.isNative then
    return .grouped .times m v
  else
    let f := Operation.matVec.helperName s
    let input := Shape.realVector c
    let output := Shape.realVector r
    s.storage.define
    input.storage.define
    output.storage.define
    declare .function f do
      let products ← (List.range r).mapM fun k =>
        dot c (.member (.name "a") s!"a{k}") (.name "b")
      let result ← realVector r products
      return .function output.name f [⟨s.name, "a"⟩, ⟨input.name, "b"⟩] (.expression result)
    return .apply f [m, v]

/-- The lines of a helper that adds up the elements of its parameter `a`. -/
def accumulate (s e : Shape) : Nat → Synth (List (List Glsl.Statement))
  | 0 => pure []
  | n + 1 => do
    let lines ← accumulate s e n
    let item ← element s n
    let total ← e.storage.entrywise .add (.name "res") (item (.name "a"))
    return lines ++ [[.assign "res" total]]

/-- The sum of `n` elements of shape `e`.  The sum of a real vector is its dot product with
ones; otherwise a helper adds up the elements in order. -/
def sum (s e : Shape) (n : Nat) (a : Term) : Synth Term := do
  if s.isRealVector then
    let ones ← s.storage.fill (.literal .one)
    dot n a ones
  else
    let f := Operation.sum.helperName s
    s.storage.define
    e.storage.define
    declare .function f do
      let zero ← e.storage.fill (.literal .zero)
      let lines ← accumulate s e n
      return .function e.name f [⟨s.name, "a"⟩]
        (.block ([.define e.name "res" zero] :: lines ++ [[.yield (.name "res")]]))
    return .apply f [a]

/-- The product of complex scalars. -/
def complexMul (a b : Term) : Synth Term := do
  let f := Operation.complexMul.helperName .complex
  let product := fun (x y : String) =>
    Term.binary .tight .times (.member (.name "a") x) (.member (.name "b") y)
  let result := Term.call .loose "vec2"
    [.binary .tight .minus (product "x" "x") (product "y" "y"),
      .binary .tight .plus (product "x" "y") (product "y" "x")]
  declare .function f
    (pure (.function "vec2" f [⟨"vec2", "a"⟩, ⟨"vec2", "b"⟩] (.expression result)))
  return .apply f [a, b]

/-- A complex scalar times a complex vector or matrix. -/
def complexScale (s : Shape) (a b : Term) : Synth Term := do
  let f := Operation.complexScale.helperName s
  let part := s.part.storage
  let multiple := fun (x field : String) =>
    part.entrywise .scale (.member (.name "a") x) (.member (.name "b") field)
  s.storage.define
  declare .function f do
    let xr ← multiple "x" "real"
    let yi ← multiple "y" "imag"
    let xi ← multiple "x" "imag"
    let yr ← multiple "y" "real"
    let re ← part.entrywise .sub xr yi
    let im ← part.entrywise .add xi yr
    return .function s.name f [⟨"vec2", "a"⟩, ⟨s.name, "b"⟩]
      (.expression (.apply s.name [re, im]))
  return .apply f [a, b]

/-- A complex matrix times a complex vector. -/
def complexMatVec (r c : Nat) (m v : Term) : Synth Term := do
  let s := Shape.matrix r c .complex
  let f := Operation.complexMatVec.helperName s
  let input := Shape.vector c .complex
  let output := Shape.vector r .complex
  let part := output.part.storage
  let product := fun (x y : String) => matVec r c (.member (.name "a") x) (.member (.name "b") y)
  s.storage.define
  input.storage.define
  output.storage.define
  declare .function f do
    let rr ← product "real" "real"
    let ii ← product "imag" "imag"
    let ri ← product "real" "imag"
    let ir ← product "imag" "real"
    let re ← part.entrywise .sub rr ii
    let im ← part.entrywise .add ri ir
    return .function output.name f [⟨s.name, "a"⟩, ⟨input.name, "b"⟩]
      (.expression (.apply output.name [re, im]))
  return .apply f [m, v]

/-- The bilinear dot product of complex vectors of length `n`. -/
def complexDot (n : Nat) (a b : Term) : Synth Term := do
  let s := Shape.vector n .complex
  let f := Operation.complexDot.helperName s
  let product := fun (x y : String) => dot n (.member (.name "a") x) (.member (.name "b") y)
  s.storage.define
  declare .function f do
    let rr ← product "real" "real"
    let ii ← product "imag" "imag"
    let ri ← product "real" "imag"
    let ir ← product "imag" "real"
    return .function "vec2" f [⟨s.name, "a"⟩, ⟨s.name, "b"⟩]
      (.expression (.call .loose "vec2" [.binary .tight .minus rr ii, .binary .tight .plus ri ir]))
  return .apply f [a, b]

end Synth

namespace Build

/-- Accepts the valid real and complex shapes. -/
def requireField (op : Operation) (s : Shape) : Build Unit := do
  s.validate
  unless s.kind.isField do
    throw (.unsupported s op.name)

/-- An entrywise operation. -/
def entrywise (op : Entrywise) (s : Shape) (a b : Term) : Build Term := do
  requireField op.operation s
  s.storage.entrywise op a b

/-- The sum of two values. -/
def add (s : Shape) (a b : Term) : Build Term :=
  entrywise .add s a b

/-- The difference of two values. -/
def sub (s : Shape) (a b : Term) : Build Term :=
  entrywise .sub s a b

/-- A real scalar times a value. -/
def scale (s : Shape) (a b : Term) : Build Term :=
  entrywise .scale s a b

/-- A real matrix of shape `s` times a real vector. -/
def matVec (s : Shape) (m v : Term) : Build Term := do
  match s with
  | .matrix r c .real =>
    s.validate
    Synth.matVec r c m v
  | _ => throw (.unsupported s Operation.matVec.name)

/-- The dot product of real vectors. -/
def dot (s : Shape) (a b : Term) : Build Term := do
  match s with
  | .vector n .real =>
    s.validate
    Synth.dot n a b
  | _ => throw (.unsupported s Operation.dot.name)

/-- The sum of the elements of a vector or the rows of a matrix. -/
def sum (s : Shape) (a : Term) : Build Term := do
  requireField .sum s
  match s.element?, s.length? with
  | some e, some n => Synth.sum s e n a
  | _, _ => throw (.unsupported s Operation.sum.name)

/-- The product of complex scalars. -/
def complexMul (a b : Term) : Build Term :=
  Synth.complexMul a b

/-- A complex scalar times a complex value. -/
def complexScale (s : Shape) (a b : Term) : Build Term := do
  s.validate
  unless s.kind = .complex do
    throw (.unsupported s Operation.complexScale.name)
  if s = .complex then Synth.complexMul a b else Synth.complexScale s a b

/-- A complex matrix of shape `s` times a complex vector. -/
def complexMatVec (s : Shape) (m v : Term) : Build Term := do
  match s with
  | .matrix r c .complex =>
    s.validate
    Synth.complexMatVec r c m v
  | _ => throw (.unsupported s Operation.complexMatVec.name)

/-- The bilinear dot product of complex vectors. -/
def complexDot (s : Shape) (a b : Term) : Build Term := do
  match s with
  | .vector n .complex =>
    s.validate
    Synth.complexDot n a b
  | _ => throw (.unsupported s Operation.complexDot.name)

/-- An operation by its name, on operands in a list. -/
def apply (op : Operation) (s : Shape) (args : List Term) : Build Term :=
  match op, args with
  | .add, [a, b] => add s a b
  | .sub, [a, b] => sub s a b
  | .scale, [a, b] => scale s a b
  | .matVec, [a, b] => matVec s a b
  | .dot, [a, b] => dot s a b
  | .sum, [a] => sum s a
  | .complexMul, [a, b] => do
    unless s = .complex do
      throw (.unsupported s Operation.complexMul.name)
    complexMul a b
  | .complexScale, [a, b] => complexScale s a b
  | .complexMatVec, [a, b] => complexMatVec s a b
  | .complexDot, [a, b] => complexDot s a b
  | _, _ => throw (.arity s op.arity args.length)

end Build
end ShaderAlgebra
