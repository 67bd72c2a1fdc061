import ShaderAlgebra.Json.Read
import ShaderAlgebra.Settings

/-!
# Settings in program files

Every setting has a default.  A viewport that is given has both its corners, and
a corner is an array of two numbers.
-/

namespace ShaderAlgebra

open Json (Doc Read Slot)

namespace Version

/-- The dialects by name. -/
def names : List (String × Version) :=
  [("es100", es100), ("es300", es300)]

/-- The name of a dialect. -/
def name : Version → String
  | es100 => "es100"
  | es300 => "es300"

end Version

namespace Precision

/-- The precisions by name. -/
def names : List (String × Precision) :=
  [("low", low), ("medium", medium), ("high", high)]

/-- The name of a precision. -/
def name : Precision → String
  | low => "low"
  | medium => "medium"
  | high => "high"

end Precision

namespace Point

/-- A point as a value. -/
def toJson (p : Point) : Json :=
  .arr [.ofBinary64 p.x, .ofBinary64 p.y]

/-- Reads a point. -/
def read (depth : Nat) (d : Doc) : Read Point :=
  (d.pair Doc.float depth).map fun (x, y) => ⟨x, y⟩

end Point

namespace Viewport

/-- A viewport as a value. -/
def toJson (v : Viewport) : Json :=
  .obj [("lower_left", v.lowerLeft.toJson), ("lower_right", v.lowerRight.toJson)]

/-- What has been read of a viewport. -/
structure Partial where
  lowerLeft : Option Point := none
  lowerRight : Option Point := none

/-- The fields of a viewport. -/
def fields : List (Slot Partial) :=
  [{ name := "lower_left"
     given := fun p => p.lowerLeft.isSome
     read := fun depth d p => return { p with lowerLeft := some (← Point.read depth d) } },
   { name := "lower_right"
     given := fun p => p.lowerRight.isSome
     read := fun depth d p => return { p with lowerRight := some (← Point.read depth d) } }]

/-- Reads a viewport. -/
def read (depth : Nat) (d : Doc) : Read Viewport := do
  let p ← Slot.readRecord fields {} depth d
  return {
    lowerLeft := ← Json.required p.lowerLeft
    lowerRight := ← Json.required p.lowerRight }

end Viewport

namespace Settings

/-- Settings as a value. -/
def toJson (s : Settings) : Json :=
  .obj [("viewport", s.viewport.toJson), ("precision", .str s.precision.name),
    ("version", .str s.version.name)]

/-- What has been read of settings. -/
structure Partial where
  viewport : Option Viewport := none
  precision : Option Precision := none
  version : Option Version := none

/-- The fields of settings. -/
def fields : List (Slot Partial) :=
  [{ name := "viewport"
     given := fun p => p.viewport.isSome
     read := fun depth d p => return { p with viewport := some (← Viewport.read depth d) } },
   { name := "precision"
     given := fun p => p.precision.isSome
     read := fun depth d p => return { p with precision := some (← d.oneOf Precision.names depth) } },
   { name := "version"
     given := fun p => p.version.isSome
     read := fun depth d p => return { p with version := some (← d.oneOf Version.names depth) } }]

/-- Reads settings. -/
def read (depth : Nat) (d : Doc) : Read Settings := do
  let p ← Slot.readRecord fields {} depth d
  return {
    viewport := p.viewport.getD {}
    precision := p.precision.getD .high
    version := p.version.getD .es100 }

end Settings
end ShaderAlgebra
