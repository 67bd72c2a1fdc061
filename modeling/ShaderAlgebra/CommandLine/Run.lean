import ShaderAlgebra.CommandLine.FileTree
import ShaderAlgebra.CommandLine.Help
import ShaderAlgebra.CommandLine.Request
import ShaderAlgebra.Format.ProgramFile
import ShaderAlgebra.Session

/-!
# Carrying out requests

A request ends with an exit status and texts for the two output streams: nought
if it was carried out, one if it failed, two if the arguments were refused.
Warnings come before the message of a failure.
-/

namespace ShaderAlgebra

/-- Compiles a program file in a new session. -/
def ProgramFile.compile (f : ProgramFile) : Except Failure Program :=
  ((Session.start f.settings).compile f.images.find? f.expr).1

namespace CommandLine

/-- The version of the program. -/
def version : String := "0.1.0"

/-- How a run of the program ends. -/
structure Outcome where
  exit : UInt8
  out : String
  err : String
deriving DecidableEq, Repr

namespace Outcome

/-- The end of a run that was carried out. -/
def success (out : String) : Outcome :=
  ⟨0, out, ""⟩

/-- The end of a run that failed. -/
def failure (message : String) : Outcome :=
  ⟨1, "", message ++ "\n"⟩

/-- Puts warnings before what is reported. -/
def after (warnings : String) (o : Outcome) : Outcome :=
  { o with err := warnings ++ o.err }

end Outcome

/-- What is said of a fault in the arguments, set for a terminal. -/
def UsageFault.report (f : UsageFault) : String :=
  Terminal.emphasize "error:" ++ " " ++ f.message ++ "\n\nFor more information, try "
    ++ Terminal.quote "--help" ++ ".\n"

/-- The end of a run without a request. -/
def Halt.outcome : Halt → Outcome
  | fault f => ⟨2, "", Terminal.plain f.report⟩
  | help topic => .success topic.help
  | version => .success ("glsl-synth " ++ CommandLine.version ++ "\n")
  | noCommand => ⟨2, "", Topic.program.help⟩

/-- Adds images to those of a program file, in order. -/
def withImages (images : List (String × Image)) (f : ProgramFile) : ProgramFile :=
  { f with images := images.foldl (fun t (name, image) => t.insert name image) f.images }

/-- The reads that were replaced by zero, a line each. -/
def warnings (p : Program) : String :=
  p.diagnostics.foldl (fun out d => out ++ "Warning: " ++ d.node ++ ": " ++ d.message ++ "\n") ""

/-- The text of a program: its source, or a complete fragment shader. -/
def programText (fragment : Bool) (p : Program) : Except Failure String :=
  if fragment then p.fragmentShader else .ok (p.source ++ "\n")

/-- The values to bind for a texture. -/
def textureLine (b : TextureBinding) : String :=
  "  texture " ++ b.image ++ ": " ++ TextureBinding.ratioOf b.image ++ " ratio=" ++ b.ratio.plainText
    ++ " " ++ TextureBinding.cropFactorOf b.image
    ++ " cropfact=(" ++ b.cropFactor.1.plainText ++ ", " ++ b.cropFactor.2.plainText ++ ")\n"

/-- What is said of a program that was written to a file. -/
def report (path : String) (p : Program) : String :=
  p.textures.bindings.foldl (fun out b => out ++ textureLine b)
    ("Wrote " ++ path ++ " (" ++ p.shape.name ++ " : " ++ p.shape.name ++ ")\n")

/-- How the vectors of a length are split, and the structs that hold them. -/
def typesText (n : Nat) : Except Failure String := do
  let real ← (Shape.vector n .real).checked
  let complex ← (Shape.vector n .complex).checked
  let line := fun (s : Shape) => s.name ++ " -> " ++ (if s.isNative then "native" else "struct") ++ "\n"
  let (_, definitions) := (real.storage.define *> complex.storage.define).run .empty
  return s!"decompose({n}) = [" ++ ", ".intercalate ((chunks n).map toString) ++ "]\n"
    ++ line real ++ line complex ++ Definitions.header definitions

variable {m : Type → Type} [Monad m]

/-- Loads a program file.  A folder can be opened, but there is no text in it. -/
def load (files : Files m) (path : String) : m (Except Failure ProgramFile) := do
  match ← files.read path with
  | .ok bytes => return ProgramFile.ofBytes bytes
  | .error .isADirectory => return .error (.text .truncated)
  | .error fault => return .error (.file fault)

/-- Loads a program file and goes on with it. -/
def withProgramFile (files : Files m) (path : String) (next : ProgramFile → m Outcome) :
    m Outcome := do
  match ← load files path with
  | .error f => return .failure ("Load error: " ++ f.message)
  | .ok file => next file

/-- Compiles a program file and goes on with the program. -/
def withProgram (file : ProgramFile) (next : Program → m Outcome) : m Outcome := do
  match file.compile with
  | .error f => return .failure ("Compile error: " ++ f.message)
  | .ok p => next p

/-- Prints the text of a program, or writes it to a file. -/
def emit (files : Files m) (fragment : Bool) (output : Option String) (p : Program) : m Outcome := do
  match programText fragment p, output with
  | .error f, _ => return .failure ("Compile error: " ++ f.message)
  | .ok text, none => return .success text
  | .ok text, some path =>
    match ← files.write path text with
    | .ok _ => return .success (report path p)
    | .error fault => return .failure ("Write error: " ++ fault.message)

/-- Carries out a request. -/
def Request.run (files : Files m) : Request → m Outcome
  | compile input images fragment output =>
    withProgramFile files input fun file =>
      withProgram (withImages images file) fun p =>
        return (← emit files fragment output p).after (warnings p)
  | header input =>
    withProgramFile files input fun file =>
      withProgram file fun p => return .success (p.header ++ p.textureHeader)
  | types n =>
    match typesText n with
    | .ok text => return .success text
    | .error f => return .failure ("Error: " ++ f.message)

/-- Runs the program on an argument list. -/
def run (files : Files m) (args : List String) : m Outcome :=
  match Request.ofArguments args with
  | .ok request => request.run files
  | .error halt => return halt.outcome

end CommandLine
end ShaderAlgebra
