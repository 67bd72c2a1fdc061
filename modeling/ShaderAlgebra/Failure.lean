import ShaderAlgebra.Decimal.Notation
import ShaderAlgebra.Shape

/-!
# Causes of failure

Every operation of the library that can fail does so with a `Failure`, which
says what was wrong.  `Failure.message` is the one place where causes are put
into words.
-/

namespace ShaderAlgebra

/-- The two kinds of definition in a shader. -/
inductive Category where
  | struct
  | function
deriving DecidableEq, Repr

/-- Why a text is not the document that was expected. -/
inductive TextFault where
  /-- The text ends too early. -/
  | truncated
  /-- The text is malformed. -/
  | malformed
  /-- The text is well formed so far, but not of the expected form. -/
  | unexpected
deriving DecidableEq, Repr, Inhabited

/-- Why a file can be neither read nor written. -/
inductive FileFault where
  | missing
  | notADirectory
  | isADirectory
  | nameTooLong
  | other (reason : String)
deriving DecidableEq, Repr

/-- What went wrong. -/
inductive Failure where
  /-- The operation is not defined on the shape. -/
  | unsupported (shape : Shape) (operation : String)
  /-- A dimension is zero or too large. -/
  | dimension (size : Nat) (what : String)
  /-- A constructor or operation got the wrong number of operands. -/
  | arity (shape : Shape) (expected got : Nat)
  /-- An index is past the last element. -/
  | index (shape : Shape) (index length : Nat)
  /-- Two operands do not fit together. -/
  | mismatch (operation : String) (lhs rhs : Shape)
  /-- A number that no literal denotes. -/
  | literal (value : Binary64)
  /-- An image is unknown, empty or not loaded. -/
  | image (name : String)
  /-- A name cannot stand in a shader. -/
  | identifier (name : String)
  /-- An index is outside the chunks of a vector. -/
  | chunk (index width : Nat)
  /-- A name was given a second, different definition. -/
  | conflict (category : Category) (name : String)
  /-- A text is not a document of the expected form. -/
  | text (fault : TextFault)
  /-- A file cannot be used. -/
  | file (fault : FileFault)
deriving DecidableEq, Repr

namespace FileFault

/-- The system's words for a fault. -/
def message : FileFault → String
  | missing => "No such file or directory (os error 2)"
  | notADirectory => "Not a directory (os error 20)"
  | isADirectory => "Is a directory (os error 21)"
  | nameTooLong => "File name too long (os error 36)"
  | other reason => reason

end FileFault

namespace Category

/-- The heading under which definitions of a category stand. -/
def title : Category → String
  | struct => "Structs"
  | function => "Functions"

end Category

namespace Failure

/-- The words for a failure.  What is wrong with a text is not put into words. -/
def message : Failure → String
  | unsupported shape operation =>
    "Unsupported type " ++ shape.name ++ " for operation '" ++ operation ++ "'"
  | dimension size what => s!"Invalid dimension {size} for " ++ what
  | arity shape expected got =>
    "Constructor for " ++ shape.name ++ s!" expects {expected} arguments, got {got}"
  | index shape i length => s!"Index {i} out of bounds for " ++ shape.name ++ s!" of length {length}"
  | mismatch operation lhs rhs =>
    "Type mismatch in '" ++ operation ++ "': " ++ lhs.name ++ " vs " ++ rhs.name
  | literal value => "Invalid literal: " ++ value.plainText
  | image name => "Could not find image '" ++ name ++ "'"
  | identifier name => "Invalid GLSL identifier: '" ++ name ++ "'"
  | chunk i width => s!"Internal invariant violated: index {i} outside of decomposed vec{width}"
  | conflict category name =>
    "Internal invariant violated: conflicting definitions for " ++ category.title ++ " '" ++ name ++ "'"
  | text _ => "JSON error:"
  | file fault => "IO error: " ++ fault.message

/-- A failure that touches a single image read: the read is replaced by zero and the rest of the
program still compiles. -/
def isRecoverable : Failure → Bool
  | image _ | identifier _ => true
  | _ => false

end Failure

namespace Shape

/-- Accepts the dimensions from one to `maxDimension`. -/
def checkDimension (size : Nat) (what : String) : Except Failure Unit :=
  if 1 ≤ size ∧ size ≤ maxDimension then .ok () else .error (.dimension size what)

/-- Accepts the shapes that values can have: dimensions in range, and real or complex entries in
vectors and matrices. -/
def validate (s : Shape) : Except Failure Unit :=
  match s with
  | scalar _ => .ok ()
  | vector n k => do
    checkDimension n "vector length"
    unless k.isField do throw (.unsupported s "vector")
  | matrix r c k => do
    checkDimension r "matrix rows"
    checkDimension c "matrix columns"
    unless k.isField do throw (.unsupported s "matrix")

/-- The shape itself, if values can have it. -/
def checked (s : Shape) : Except Failure Shape := do
  s.validate
  return s

end Shape
end ShaderAlgebra
