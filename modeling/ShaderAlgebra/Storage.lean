import ShaderAlgebra.Chunks

/-!
# How values are stored

The storage of a shape is a tree.  Its leaves are native GLSL types and its
nodes are structs:

* a complex vector or matrix is a struct of a real part `real` and an imaginary
  part `imag`, each stored as the real shape of the same dimensions;
* a real vector wider than four is a struct of native chunks `a0`, `a1`, …;
* a real matrix that is not native is a struct of its rows `a0`, `a1`, …

Definitions, constants and the entrywise operations are all recursions on this
tree, so they agree on the layout.
-/

namespace ShaderAlgebra

/-- Members in a row are named `a0`, `a1`, … -/
def numbered {α : Type} (parts : List α) : List (String × α) :=
  parts.zipIdx.map fun (part, i) => (s!"a{i}", part)

/-- The storage of a shape: native, or a struct with named members. -/
inductive Storage where
  | native (shape : Shape)
  | record (shape : Shape) (members : List (String × Storage))
deriving Repr

namespace Storage

/-- The shape that is stored. -/
def shape : Storage → Shape
  | native s | record s _ => s

/-- The members of a struct; a native type has none. -/
def members : Storage → List (String × Storage)
  | native _ => []
  | record _ ms => ms

/-- The storage of a vector over one component, which is native or a row of chunks. -/
def ofVector (n : Nat) (k : Scalar) : Storage :=
  if (Shape.vector n k).isNative then native (.vector n k)
  else record (.vector n k) (numbered ((chunks n).map fun w => native (.realVector w)))

/-- The storage of a matrix over one component, which is native or a row of row vectors. -/
def ofMatrix (r c : Nat) (k : Scalar) : Storage :=
  if (Shape.matrix r c k).isNative then native (.matrix r c k)
  else record (.matrix r c k) (numbered (List.replicate r (ofVector c .real)))

/-- The storage of a complex shape, from the storage of its parts. -/
def pair (s : Shape) (part : Storage) : Storage :=
  record s [("real", part), ("imag", part)]

end Storage

namespace Shape

/-- The storage of a shape. -/
def storage : Shape → Storage
  | scalar k => .native (.scalar k)
  | vector n .complex => .pair (.vector n .complex) (.ofVector n .real)
  | vector n k => .ofVector n k
  | matrix r c .complex => .pair (.matrix r c .complex) (.ofMatrix r c .real)
  | matrix r c k => .ofMatrix r c k

/-- The named parts of a shape: the members of its struct, and the two coordinates of a complex
scalar.  Unlike the storage, the parts are not taken apart themselves. -/
def members (s : Shape) : List (String × Shape) :=
  match s with
  | scalar .complex => [("x", .real), ("y", .real)]
  | scalar _ => []
  | vector _ .complex | matrix _ _ .complex => [("real", s.part), ("imag", s.part)]
  | vector n _ => if s.isNative then [] else numbered ((chunks n).map realVector)
  | matrix r c _ => if s.isNative then [] else numbered (List.replicate r (realVector c))

end Shape
end ShaderAlgebra
