import ShaderAlgebra.Storage
import ShaderAlgebra.Synth.Basic

/-!
# Structs, constructors, accessors and constants

How a value of a shape is defined, put together from its elements, taken apart
and filled with one number.  Structs and constants follow the storage of the
shape; constructors and accessors go between a value and its elements, which are
scalars of a vector and rows of a matrix.
-/

namespace ShaderAlgebra

open Glsl (Term Binder Declaration)

namespace Storage

mutual

/-- Defines the struct of a storage, after those of its members. -/
def define : Storage → Synth Unit
  | native _ => pure ()
  | record s ms => Synth.declare .struct s.name do
    let binders ← defineMembers ms
    return .struct s.name binders

/-- Defines the structs of members, and gives the members as they are declared. -/
def defineMembers : List (String × Storage) → Synth (List Binder)
  | [] => pure []
  | (name, part) :: rest => do
    define part
    let binders ← defineMembers rest
    return ⟨part.shape.name, name⟩ :: binders

end

/-- A native value with one number in every place. -/
def fillNative (value : Term) : Shape → Term
  | .scalar .complex => .apply "vec2" [value]
  | .scalar _ => value
  | .vector n _ => if n = 1 then value else .apply s!"vec{n}" [value]
  | .matrix r _ _ => .apply s!"mat{r}" (List.replicate r (.apply s!"vec{r}" [value]))

mutual

/-- A value with one number in every place. -/
def fill (value : Term) : Storage → Synth Term
  | native s => pure (fillNative value s)
  | record s ms => do
    define (record s ms)
    let parts ← fillMembers value ms
    return .apply s.name parts

/-- The members of a value with one number in every place. -/
def fillMembers (value : Term) : List (String × Storage) → Synth (List Term)
  | [] => pure []
  | (_, part) :: rest => do
    let first ← fill value part
    let others ← fillMembers value rest
    return first :: others

end

end Storage

namespace Synth

/-- A list cut into pieces of the given widths. -/
def pieces {α : Type} : List Nat → List α → List (List α)
  | [], _ => []
  | w :: ws, xs => xs.take w :: pieces ws (xs.drop w)

/-- A native vector of its components. -/
def nativeVector (args : List Term) : Term :=
  .apply (Shape.realVector args.length).name args

/-- A real vector of its components. -/
def realVector (n : Nat) (args : List Term) : Synth Term := do
  if n ≤ maxNativeWidth then
    return nativeVector args
  else
    (Shape.realVector n).storage.define
    return .apply (Shape.realVector n).name ((pieces (chunks n) args).map nativeVector)

/-- A real matrix of its rows.  A native matrix is made of its columns, and each column gathers
one entry of every row. -/
def realMatrix (r c : Nat) (rows : List Term) : Synth Term := do
  let s := Shape.matrix r c .real
  if s.isNative then
    let column := fun k => nativeVector (rows.map fun row => .index (.group row) k)
    return .apply s.name ((List.range r).map column)
  else
    s.storage.define
    return .apply s.name rows

/-- A value of a valid shape of its elements. -/
def construct (s : Shape) (args : List Term) : Synth Term :=
  match s with
  | .scalar _ => pure (args.headD default)
  | .vector n .complex => do
    s.storage.define
    let re ← realVector n (args.map (Term.part · "x"))
    let im ← realVector n (args.map (Term.part · "y"))
    return .apply s.name [re, im]
  | .vector n _ => realVector n args
  | .matrix r c .complex => do
    s.storage.define
    let re ← realMatrix r c (args.map (Term.part · "real"))
    let im ← realMatrix r c (args.map (Term.part · "imag"))
    return .apply s.name [re, im]
  | .matrix r c _ => realMatrix r c args

/-- Element `i` of a value of a real shape. -/
def realElement (s : Shape) (i : Nat) (base : Term) : Term :=
  match s with
  | .scalar _ => base
  | .vector n _ =>
    if n = 1 then .group base
    else if n ≤ maxNativeWidth then .index (.group base) i
    else
      let (chunk, offset) := (locateIn i (chunks n)).getD (0, 0)
      .index (base.part s!"a{chunk}") offset
  | .matrix r _ _ =>
    if s.isNative then
      nativeVector ((List.range r).map fun k => .index (.index (.group base) k) i)
    else base.part s!"a{i}"

/-- Element `i` of a value of a valid shape, as a function of the term for the value. -/
def element (s : Shape) (i : Nat) : Synth (Term → Term) :=
  match s.kind, s.element? with
  | .complex, some e => do
    e.storage.define
    return fun base =>
      .apply e.name [realElement s.part i (base.part "real"), realElement s.part i (base.part "imag")]
  | _, _ => pure (realElement s i)

end Synth

namespace Build

/-- Defines the struct of a shape. -/
def define (s : Shape) : Build Unit := do
  s.validate
  s.storage.define

/-- A value of a shape of its elements; a scalar is its single element. -/
def construct (s : Shape) (args : List Term) : Build Term := do
  s.validate
  let expected := s.length?.getD 1
  unless args.length = expected do
    throw (.arity s expected args.length)
  Synth.construct s args

/-- Element `i` of a value of a shape, as a function of the term for the value. -/
def element (s : Shape) (i : Nat) : Build (Term → Term) := do
  s.validate
  match s.length? with
  | none => throw (.unsupported s "access")
  | some n =>
    unless i < n do
      throw (.index s i n)
    Synth.element s i

/-- A value of a shape with one number in every place. -/
def fill (s : Shape) (x : Binary64) : Build Term := do
  unless s.kind.isField do
    throw (.unsupported s "constant_fill")
  s.validate
  let value ← literal? x
  s.storage.fill (.literal value)

end Build
end ShaderAlgebra
