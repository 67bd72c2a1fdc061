import ShaderAlgebra.Binary64

/-!
# Settings of a compilation

The dialect of GLSL ES, the precision of floats in a fragment shader, and the
part of the plane that is shown.
-/

namespace ShaderAlgebra

/-- The dialects of GLSL ES. -/
inductive Version where
  | es100
  | es300
deriving DecidableEq, Repr, Inhabited

/-- The precision of floats. -/
inductive Precision where
  | low
  | medium
  | high
deriving DecidableEq, Repr, Inhabited

/-- A point of the plane. -/
structure Point where
  x : Binary64
  y : Binary64
deriving DecidableEq, Repr

/-- The bottom edge of the part of the plane that is shown. -/
structure Viewport where
  lowerLeft : Point := ⟨.zero false, .zero false⟩
  lowerRight : Point := ⟨.one, .zero false⟩
deriving DecidableEq, Repr

/-- The settings of a compilation. -/
structure Settings where
  viewport : Viewport := {}
  precision : Precision := .high
  version : Version := .es100
deriving DecidableEq, Repr

namespace Version

/-- The first line of a shader. -/
def directive : Version → String
  | es100 => "#version 100"
  | es300 => "#version 300 es"

/-- The builtin that reads a texture. -/
def textureFunction : Version → String
  | es100 => "texture2D"
  | es300 => "texture"

end Version

namespace Precision

/-- The qualifier of a precision. -/
def qualifier : Precision → String
  | low => "lowp"
  | medium => "mediump"
  | high => "highp"

end Precision

/-- Whether two points are equal as numbers. -/
def Point.same (p q : Point) : Bool :=
  p.x.sameNumber q.x && p.y.sameNumber q.y

/-- Whether two viewports are equal as numbers. -/
def Viewport.same (v w : Viewport) : Bool :=
  v.lowerLeft.same w.lowerLeft && v.lowerRight.same w.lowerRight

namespace Settings

/-- The settings for the newer dialect. -/
def webgl2 : Settings :=
  { version := .es300 }

/-- Whether two settings are equal, numbers as numbers. -/
def same (s t : Settings) : Bool :=
  s.viewport.same t.viewport && s.precision == t.precision && s.version == t.version

end Settings
end ShaderAlgebra
