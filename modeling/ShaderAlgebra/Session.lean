import ShaderAlgebra.Expr
import ShaderAlgebra.Program
import ShaderAlgebra.Synth.Algebra

/-!
# Compiling expressions in a session

A session compiles one expression after another and keeps the definitions and
texture readers that it has made; they are shared by later programs.  Operands
are compiled before their operation, from left to right.

Operands of different shapes are brought together where GLSL spells them alike: a
real number beside a complex one becomes complex, a real pair beside a complex
number is read as one, and a real vector of length one beside a scalar is a
float.

A read of an image that is not there compiles to zero, with a diagnostic.  Any
other failure ends the compilation; what was defined before it stays.
-/

namespace ShaderAlgebra

open Glsl (Term)

/-- A session of compilations. -/
structure Session where
  settings : Settings
  definitions : Definitions
  textures : Textures
  uniforms : List (String × Shape)
  diagnostics : List Diagnostic

/-- A step of a compilation, which may fail and keeps what it did before. -/
abbrev Compile := ExceptT Failure (StateM Session)

/-- A compiled expression: its shape and the term for its value. -/
structure Typed where
  shape : Shape
  term : Term

namespace Session

/-- A new session. -/
def start (settings : Settings) : Session :=
  ⟨settings, .empty, .empty settings.version, [], []⟩

/-- The text of the definitions made so far. -/
def header (s : Session) : String :=
  s.definitions.header

/-- The text of the texture readers made so far. -/
def textureHeader (s : Session) : String :=
  s.textures.header

end Session

namespace Compile

/-- Runs a synthesis step on the definitions of the session. -/
def build {α : Type} (step : Build α) : Compile α := do
  let s ← get
  let (result, definitions) := step.run.run s.definitions
  set { s with definitions }
  result

/-- A real number as a complex one. -/
def promote (t : Term) : Term :=
  .apply "vec2" [t, .literal .zero]

/-- Real scalars in a list with a complex scalar become complex. -/
def promoteAll (items : List Typed) : List Typed :=
  if items.any (·.shape = .complex) then
    items.map fun i => if i.shape = .real then ⟨.complex, promote i.term⟩ else i
  else items

/-- The shape of a list of `n` elements of one shape. -/
def listShape (n : Nat) (element : Shape) : Except Failure Shape :=
  match element with
  | .scalar k => (Shape.vector n k).checked
  | .vector c k => (Shape.matrix n c k).checked
  | .matrix _ _ _ => .error (.unsupported element "list")

/-- A list of compiled items. -/
def list (items : List Typed) : Compile Typed := do
  let items := promoteAll items
  match items with
  | [] => throw (.dimension 0 "list length")
  | first :: _ =>
    if let some other := items.find? (·.shape ≠ first.shape) then
      throw (.mismatch "list" first.shape other.shape)
    let shape ← listShape items.length first.shape
    let term ← build (Build.construct shape (items.map (·.term)))
    return ⟨shape, term⟩

/-- An input of the program, which has one shape wherever it is used. -/
def uniform (name : String) (shape : Shape) : Compile Typed := do
  unless Glsl.isIdentifier name ∧ name ≠ pixelName ∧ name.toList.head? ≠ some '_' do
    throw (.identifier name)
  shape.validate
  match (← get).uniforms.lookup name with
  | some known =>
    unless known = shape do
      throw (.mismatch "uniform" known shape)
  | none =>
    build (Build.define shape)
    modify fun s => { s with uniforms := s.uniforms ++ [(name, shape)] }
  return ⟨shape, .name name⟩

/-- The shapes of two operands, read as scalars where they are spelled like the scalar beside
them. -/
def unify (l r : Shape) : Shape × Shape :=
  if l = .complex ∧ r = .realVector 2 then (l, .complex)
  else if l = .realVector 2 ∧ r = .complex then (.complex, r)
  else if l = .realVector 1 ∧ r.depth = 0 then (.real, r)
  else if r = .realVector 1 ∧ l.depth = 0 then (l, .real)
  else (l, r)

/-- The sum or difference of two operands. -/
def additive (op : Entrywise) (l r : Typed) : Compile Typed := do
  let (ls, rs) := unify l.shape r.shape
  if ls = rs then
    return ⟨ls, ← build (Build.entrywise op ls l.term r.term)⟩
  else if ls = .real ∧ rs = .complex then
    return ⟨.complex, ← build (Build.entrywise op .complex (promote l.term) r.term)⟩
  else if ls = .complex ∧ rs = .real then
    return ⟨.complex, ← build (Build.entrywise op .complex l.term (promote r.term))⟩
  else throw (.mismatch op.operation.name ls rs)

/-- The dot product of two operands of shapes `ls` and `rs`. -/
def dot (ls rs : Shape) (l r : Term) : Compile Typed := do
  unless ls = rs do
    throw (.mismatch "dot" ls rs)
  if ls.kind = .complex ∧ ls.depth = 1 then
    return ⟨.complex, ← build (Build.complexDot ls l r)⟩
  else
    return ⟨.real, ← build (Build.dot ls l r)⟩

/-- The product of two scalars. -/
def scalarProduct (a b : Scalar) (l r : Term) : Compile Typed :=
  match a, b with
  | .real, .real => return ⟨.real, .grouped .times l r⟩
  | .real, .complex | .complex, .real => return ⟨.complex, .grouped .times l r⟩
  | .complex, .complex => return ⟨.complex, ← build (Build.complexMul l r)⟩
  | _, _ => throw (.mismatch "mul" (.scalar a) (.scalar b))

/-- The product of a matrix and a vector over the same numbers. -/
def matrixProduct (rows cols : Nat) (k : Scalar) (m v : Term) : Compile Typed := do
  let shape ← (Shape.vector rows k).checked
  if k = .complex then
    return ⟨shape, ← build (Build.complexMatVec (.matrix rows cols k) m v)⟩
  else
    return ⟨shape, ← build (Build.matVec (.matrix rows cols k) m v)⟩

/-- The product of operands of shapes `ls` and `rs`. -/
def product (ls rs : Shape) (l r : Term) : Compile Typed := do
  match ls, rs with
  | .scalar a, .scalar b => scalarProduct a b l r
  | .scalar .real, _ => return ⟨rs, ← build (Build.scale rs l r)⟩
  | _, .scalar .real => return ⟨ls, ← build (Build.scale ls r l)⟩
  | .scalar .complex, .vector _ .complex | .scalar .complex, .matrix _ _ .complex =>
    return ⟨rs, ← build (Build.complexScale rs l r)⟩
  | .vector _ .complex, .scalar .complex | .matrix _ _ .complex, .scalar .complex =>
    return ⟨ls, ← build (Build.complexScale ls r l)⟩
  | .matrix rows cols k, .vector n k' =>
    if cols = n ∧ k = k' then matrixProduct rows cols k l r
    else throw (.mismatch "mul" ls rs)
  | .vector _ _, .vector _ _ => dot ls rs l r
  | _, _ => throw (.mismatch "mul" ls rs)

/-- An operation on two compiled operands. -/
def binary (op : Binary) (l r : Typed) : Compile Typed :=
  match op with
  | .add => additive .add l r
  | .sub => additive .sub l r
  | .mul =>
    let (ls, rs) := unify l.shape r.shape
    product ls rs l.term r.term
  | .dot => dot l.shape r.shape l.term r.term

/-- The sum of the elements of a compiled operand. -/
def sum (arg : Typed) : Compile Typed := do
  match arg.shape.element? with
  | none => throw (.unsupported arg.shape "sum")
  | some e => return ⟨e, ← build (Build.sum arg.shape arg.term)⟩

/-- An element of a compiled operand. -/
def element (arg : Typed) (index : Nat) : Compile Typed := do
  let item ← build (Build.element arg.shape index)
  return ⟨arg.shape.element?.getD arg.shape, item arg.term⟩

/-- A compiled operand as a point of the plane: a real pair or a complex number. -/
def point (arg : Typed) : Compile Term := do
  if arg.shape = .realVector 2 ∨ arg.shape = .complex then
    return arg.term
  else throw (.mismatch "image point" (.realVector 2) arg.shape)

/-- A read of an image.  A read that fails for want of the image is zero. -/
def read (channels : Channels) (attempt : Textures → Except Failure (Term × Textures)) :
    Compile Typed := do
  match attempt (← get).textures with
  | .ok (term, textures) =>
    modify fun s => { s with textures }
    return ⟨channels.shape, term⟩
  | .error failure =>
    if failure.isRecoverable then
      let diagnostic := ⟨channels.node, failure.message⟩
      modify fun s => { s with diagnostics := s.diagnostics ++ [diagnostic] }
      return ⟨channels.shape, ← build (Build.fill channels.shape (.zero false))⟩
    else throw failure

mutual

/-- Compiles an expression, with the images that `images` knows. -/
def node (images : String → Option Image) : Expr → Compile Typed
  | .real x => do
    let value ← literal? x
    return ⟨.real, .literal value⟩
  | .complex x y => do
    let re ← literal? x
    let im ← literal? y
    return ⟨.complex, .apply "vec2" [.literal re, .literal im]⟩
  | .list items => do
    let items ← nodes images items
    list items
  | .uniform name shape => uniform name shape
  | .pixel => return ⟨.realVector 2, .name pixelName⟩
  | .binary op lhs rhs => do
    let l ← node images lhs
    let r ← node images rhs
    binary op l r
  | .sum arg => do
    let arg ← node images arg
    sum arg
  | .element arg index => do
    let arg ← node images arg
    element arg index
  | .image channels name p => do
    let p ← node images p >>= point
    let viewport := (← get).settings.viewport
    read channels fun t => t.readInViewport images viewport channels name p
  | .imageOn channels name a b p => do
    let p ← node images p >>= point
    let a ← node images a >>= point
    let b ← node images b >>= point
    read channels fun t => t.read images channels name a b p

/-- Compiles expressions in order. -/
def nodes (images : String → Option Image) : List Expr → Compile (List Typed)
  | [] => return []
  | e :: rest => do
    let first ← node images e
    let others ← nodes images rest
    return first :: others

end

end Compile

namespace Session

/-- Compiles an expression in a session.  The session goes on, also after a failure. -/
def compile (s : Session) (images : String → Option Image) (e : Expr) :
    Except Failure Program × Session :=
  let (result, s) := (Compile.node images e).run.run { s with uniforms := [], diagnostics := [] }
  let program := result.map fun t =>
    { definitions := s.definitions
      textures := s.textures
      expression := t.term
      shape := t.shape
      uniforms := s.uniforms
      diagnostics := s.diagnostics
      settings := s.settings }
  (program, s)

end Session
end ShaderAlgebra
