import ShaderAlgebra.CommandLine.Run

/-!
# The program

Runs the command line on the files of the system.
-/

namespace ShaderAlgebra
namespace CommandLine

/-- The cause of an error of the system.  Its number comes with either sign. -/
def faultOf (e : IO.Error) : FileFault :=
  match e with
  | .noFileOrDirectory _ _ _ => .missing
  | .inappropriateType _ code _ =>
    if code = 20 ∨ code = -20 then .notADirectory
    else if code = 21 ∨ code = -21 then .isADirectory
    else .other (toString e)
  | .invalidArgument _ code _ =>
    if code = 36 ∨ code = -36 then .nameTooLong else .other (toString e)
  | _ => .other (toString e)

/-- The files of the system. -/
def systemFiles : Files IO where
  read := fun path => do
    try
      return .ok (← IO.FS.readBinFile path).toList
    catch e => return .error (faultOf e)
  write := fun path content => do
    try
      IO.FS.writeFile path content
      return .ok ()
    catch e => return .error (faultOf e)

end CommandLine
end ShaderAlgebra

def main (args : List String) : IO UInt32 := do
  let outcome ← ShaderAlgebra.CommandLine.run ShaderAlgebra.CommandLine.systemFiles args
  IO.print outcome.out
  IO.eprint outcome.err
  return outcome.exit.toUInt32
