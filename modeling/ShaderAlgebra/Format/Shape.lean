import ShaderAlgebra.Json.Value
import ShaderAlgebra.Shape

/-!
# Shapes in program files

A shape is an object with one name, its kind:

```
{"scalar": "real"}
{"vector": {"length": 6, "scalar": "real"}}
{"matrix": {"rows": 3, "cols": 7, "scalar": "complex"}}
```

Names that are not known are passed over inside the inner object.  Within an
expression the rules are a little wider: an inner object may also be an array of
its values in order, and an empty object may stand for nothing.
-/

namespace ShaderAlgebra
namespace Json

/-- The values of an object under names that each appear once, or the items of an array of as many
if `wide`. -/
def fields? (wide : Bool) (names : List String) : Json → Option (List Json)
  | obj members => names.mapM fun name =>
    match members.filter (·.1 == name) with
    | [(_, value)] => some value
    | _ => none
  | arr items => if wide ∧ items.length = names.length then some items else none
  | _ => none

end Json

namespace Scalar

/-- The name of a kind. -/
def toJson (k : Scalar) : Json :=
  .str k.name

/-- The kind of a name, or of an object with such a name and nothing under it. -/
def ofJson? (wide : Bool) : Json → Option Scalar
  | .str s => names.lookup s
  | .obj [(s, .null)] => names.lookup s
  | .obj [(s, .obj [])] => if wide then names.lookup s else none
  | _ => none

end Scalar

namespace Shape

/-- A shape as a value. -/
def toJson : Shape → Json
  | scalar k => .obj [("scalar", k.toJson)]
  | vector n k => .obj [("vector", .obj [("length", .ofNat n), ("scalar", k.toJson)])]
  | matrix r c k =>
    .obj [("matrix", .obj [("rows", .ofNat r), ("cols", .ofNat c), ("scalar", k.toJson)])]

/-- The shape of a value. -/
def ofJson? (wide : Bool) : Json → Option Shape
  | .obj [("scalar", value)] => (Scalar.ofJson? wide value).map scalar
  | .obj [("vector", value)] => do
    match ← value.fields? wide ["length", "scalar"] with
    | [n, k] => return vector (← n.nat?) (← Scalar.ofJson? wide k)
    | _ => none
  | .obj [("matrix", value)] => do
    match ← value.fields? wide ["rows", "cols", "scalar"] with
    | [r, c, k] => return matrix (← r.nat?) (← c.nat?) (← Scalar.ofJson? wide k)
    | _ => none
  | _ => none

end Shape
end ShaderAlgebra
