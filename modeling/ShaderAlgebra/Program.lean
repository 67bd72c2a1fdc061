import ShaderAlgebra.Texture

/-!
# Compiled programs

What compiling an expression gives: the term for its value, the definitions and
texture readers that the term relies on, the inputs to supply, and the reads that
were replaced by zero.
-/

namespace ShaderAlgebra

open Glsl (Term)

/-- The variable that holds the point of the current pixel. -/
def pixelName : String := "cgl_pixel"

/-- A read that was replaced by zero, and why. -/
structure Diagnostic where
  node : String
  message : String
deriving DecidableEq, Repr

/-- A compiled program. -/
structure Program where
  definitions : Definitions
  textures : Textures
  expression : Term
  shape : Shape
  /-- The inputs in the order of their first use. -/
  uniforms : List (String × Shape)
  diagnostics : List Diagnostic
  settings : Settings

namespace Program

/-- The text of the struct and function definitions. -/
def header (p : Program) : String :=
  p.definitions.header

/-- The text of the texture readers. -/
def textureHeader (p : Program) : String :=
  p.textures.header

/-- All definitions, followed by the expression. -/
def source (p : Program) : String :=
  p.expression.write (p.header ++ p.textureHeader)

/-- The value as a colour: a real number is a grey, three components are opaque. -/
def color (p : Program) : Except Failure Term :=
  match p.shape with
  | .scalar .real | .vector 1 .real =>
    .ok (.call .loose "vec4" [.apply "vec3" [p.expression], .literal .one])
  | .vector 3 .real => .ok (.call .loose "vec4" [p.expression, .literal .one])
  | .vector 4 .real => .ok p.expression
  | s => .error (.unsupported s "color")

/-- The declarations of the inputs. -/
def uniformLines (p : Program) : String :=
  p.uniforms.foldl (fun out (name, shape) => out ++ "uniform " ++ shape.name ++ " " ++ name ++ ";\n") ""

/-- The declarations of what goes in and out of the shader. -/
def varyings : Version → String
  | .es100 => "varying vec2 " ++ pixelName ++ ";\n"
  | .es300 => "in vec2 " ++ pixelName ++ ";\nout vec4 fragColor;\n"

/-- The variable that takes the colour. -/
def target : Version → String
  | .es100 => "gl_FragColor"
  | .es300 => "fragColor"

/-- A complete fragment shader that shows the value as a colour. -/
def fragmentShader (p : Program) : Except Failure String := do
  let color ← p.color
  let version := p.settings.version
  let top := version.directive ++ "\nprecision " ++ p.settings.precision.qualifier ++ " float;\n\n"
    ++ p.header ++ p.uniformLines ++ varyings version ++ p.textureHeader
  return color.write (top ++ "\nvoid main() \x7b\n    " ++ target version ++ " = ") ++ ";\n\x7d\n"

end Program
end ShaderAlgebra
