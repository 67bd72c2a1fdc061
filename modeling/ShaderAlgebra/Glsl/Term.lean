import ShaderAlgebra.Decimal.Notation

/-!
# GLSL expressions

Expressions are built as trees and written out once.  How the parts of a call or
of an operation are set apart is kept in the tree, so the text is a function of
the tree alone.  A `raw` term is a fragment that a caller hands in; it is written
as it stands.
-/

namespace ShaderAlgebra
namespace Glsl

/-- How the parts of a term are set apart. -/
inductive Spacing where
  | tight
  | loose
deriving DecidableEq, Repr

/-- The operators between two operands. -/
inductive Operator where
  | plus
  | minus
  | times
  | divide
  | atMost
  | and
deriving DecidableEq, Repr

/-- An expression. -/
inductive Term where
  /-- A fragment written as it stands. -/
  | raw (text : String)
  /-- A float literal. -/
  | literal (value : Decimal)
  /-- A variable. -/
  | name (id : String)
  /-- A member of a struct or a component of a vector. -/
  | member (base : Term) (field : String)
  /-- An element by its index. -/
  | index (base : Term) (i : Nat)
  /-- A call of a function or a constructor. -/
  | call (spacing : Spacing) (function : String) (args : List Term)
  /-- An operation, written without parentheses. -/
  | binary (spacing : Spacing) (operator : Operator) (lhs rhs : Term)
  /-- The negative of a term. -/
  | negate (term : Term)
  /-- A term in parentheses. -/
  | group (term : Term)
deriving Repr, Inhabited

namespace Spacing

/-- What stands between two arguments. -/
def comma : Spacing → String
  | tight => ","
  | loose => ", "

end Spacing

namespace Operator

/-- The sign of an operator. -/
def sign : Operator → String
  | plus => "+"
  | minus => "-"
  | times => "*"
  | divide => "/"
  | atMost => "<="
  | and => "&&"

/-- What stands between two operands. -/
def text (spacing : Spacing) (operator : Operator) : String :=
  match spacing with
  | .tight => operator.sign
  | .loose => " " ++ operator.sign ++ " "

end Operator

namespace Term

mutual

/-- Writes a term after the text `out`. -/
def write (out : String) : Term → String
  | raw text => out ++ text
  | literal value => out ++ value.text .literal
  | name id => out ++ id
  | member base field => write out base ++ "." ++ field
  | index base i => write out base ++ "[" ++ toString i ++ "]"
  | call spacing function args => writeArgs spacing (out ++ function ++ "(") args ++ ")"
  | binary spacing operator lhs rhs => write (write out lhs ++ operator.text spacing) rhs
  | negate term => write (out ++ "-") term
  | group term => write (out ++ "(") term ++ ")"

/-- Writes the arguments of a call after the text `out`. -/
def writeArgs (spacing : Spacing) (out : String) : List Term → String
  | [] => out
  | [arg] => write out arg
  | arg :: next :: rest => writeArgs spacing (write out arg ++ spacing.comma) (next :: rest)

end

/-- The text of a term. -/
def text (t : Term) : String :=
  write "" t

/-- A call with its arguments set close, as expressions are generated. -/
abbrev apply (function : String) (args : List Term) : Term :=
  call .tight function args

/-- An operation in parentheses. -/
def grouped (operator : Operator) (lhs rhs : Term) : Term :=
  group (binary .tight operator lhs rhs)

/-- A component of a term that stands in parentheses. -/
def part (base : Term) (field : String) : Term :=
  member (group base) field

/-- A sum without parentheses; the sum of nothing is zero. -/
def total : List Term → Term
  | [] => literal .zero
  | t :: ts => ts.foldl (binary .tight .plus) t

end Term
end Glsl
end ShaderAlgebra
