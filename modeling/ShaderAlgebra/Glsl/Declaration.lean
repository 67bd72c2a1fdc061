import ShaderAlgebra.Glsl.Term

/-!
# GLSL declarations

Uniforms, structs and functions.  A function either returns one expression and
is written on one line, or has a block of statements, one or more on a line.
-/

namespace ShaderAlgebra
namespace Glsl

/-- A name with its type: a member of a struct or a parameter of a function. -/
structure Binder where
  type : String
  name : String
deriving DecidableEq, Repr

/-- A statement. -/
inductive Statement where
  /-- A new local variable. -/
  | define (type name : String) (value : Term)
  /-- A new value of a variable. -/
  | assign (name : String) (value : Term)
  /-- A value taken off a variable. -/
  | decrease (name : String) (value : Term)
  /-- A value returned if a condition holds. -/
  | returnIf (condition value : Term)
  /-- A value returned. -/
  | yield (value : Term)
deriving Repr

/-- The body of a function. -/
inductive Body where
  /-- The value of one expression. -/
  | expression (value : Term)
  /-- A block of lines of statements. -/
  | block (lines : List (List Statement))
deriving Repr

/-- A declaration at the top of a shader. -/
inductive Declaration where
  | uniform (binder : Binder)
  | struct (name : String) (members : List Binder)
  | function (result name : String) (parameters : List Binder) (body : Body)
deriving Repr

namespace Binder

/-- A binder as it stands in a declaration. -/
def text (b : Binder) : String :=
  b.type ++ " " ++ b.name

end Binder

namespace Statement

/-- A statement; what a condition guards is on a line of its own. -/
def text : Statement → String
  | define type name value => value.write (type ++ " " ++ name ++ " = ") ++ ";"
  | assign name value => value.write (name ++ " = ") ++ ";"
  | decrease name value => value.write (name ++ " -= ") ++ ";"
  | returnIf condition value =>
    value.write (condition.write "if (" ++ ")\n        return ") ++ ";"
  | yield value => value.write "return " ++ ";"

end Statement

namespace Body

/-- A body with its braces. -/
def text : Body → String
  | expression value => value.write "\x7b return " ++ "; \x7d"
  | block lines =>
    lines.foldl (fun out line => out ++ "    " ++ " ".intercalate (line.map Statement.text) ++ "\n")
      "\x7b\n" ++ "\x7d"

end Body

namespace Declaration

/-- The text of a declaration. -/
def text : Declaration → String
  | uniform binder => "uniform " ++ binder.text ++ ";"
  | struct name members =>
    "struct " ++ name ++ " \x7b " ++ " ".intercalate (members.map fun m => m.text ++ ";") ++ " \x7d;"
  | function result name parameters body =>
    result ++ " " ++ name ++ "(" ++ ", ".intercalate (parameters.map Binder.text) ++ ") " ++ body.text

end Declaration
end Glsl
end ShaderAlgebra
