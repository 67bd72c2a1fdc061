import ShaderAlgebra.CommandLine.Argument

/-!
# Help

What is printed when help is asked for, on the program and on each command.
-/

namespace ShaderAlgebra
namespace CommandLine
namespace Topic

/-- The lines of the help on a topic. -/
def helpLines : Topic → List String
  | program =>
    ["GLSL code synthesis for real and complex linear algebra", "",
      "Usage: glsl-synth <COMMAND>", "",
      "Commands:",
      "  compile  Compile a program file",
      "  header   Print the definitions a program file needs",
      "  types    Show how a width is split into native chunks",
      "  help     Print this message or the help of the given subcommand(s)", "",
      "Options:",
      "  -h, --help     Print help",
      "  -V, --version  Print version"]
  | compile =>
    ["Compile a program file", "",
      "Usage: glsl-synth compile [OPTIONS] <INPUT>", "",
      "Arguments:",
      "  <INPUT>  Input program file (.json)", "",
      "Options:",
      "      --image <IMAGES>   Extra image, as NAME=WIDTHxHEIGHT (repeatable)",
      "      --fragment         Emit a complete fragment shader",
      "  -o, --output <OUTPUT>  Output file (stdout if absent)",
      "  -h, --help             Print help"]
  | header =>
    ["Print the definitions a program file needs", "",
      "Usage: glsl-synth header <INPUT>", "",
      "Arguments:",
      "  <INPUT>  Input program file (.json)", "",
      "Options:",
      "  -h, --help  Print help"]
  | types =>
    ["Show how a width is split into native chunks", "",
      "Usage: glsl-synth types <N>", "",
      "Arguments:",
      "  <N>  Vector width", "",
      "Options:",
      "  -h, --help  Print help"]

/-- The help on a topic. -/
def help (topic : Topic) : String :=
  topic.helpLines.foldl (fun out line => out ++ line ++ "\n") ""

end Topic
end CommandLine
end ShaderAlgebra
