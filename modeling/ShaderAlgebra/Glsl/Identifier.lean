/-
# GLSL identifiers

A name that can stand in a shader: letters, digits and underscores of ASCII, not
starting with a digit, and outside the names that the language keeps for itself.
-/

namespace ShaderAlgebra
namespace Glsl

/-- ASCII letters and the underscore. -/
def isNameStart (c : Char) : Bool :=
  c.isAlpha || c == '_'

/-- ASCII letters, digits and the underscore. -/
def isNamePart (c : Char) : Bool :=
  c.isAlphanum || c == '_'

/-- Whether the characters start with those of a reserved name. -/
def isReserved : List Char → Bool
  | 'g' :: 'l' :: '_' :: _ => true
  | _ => false

/-- Whether characters form an identifier. -/
def isIdentifierList : List Char → Bool
  | [] => false
  | c :: rest => isNameStart c && rest.all isNamePart && !isReserved (c :: rest)

/-- Whether a name can stand in a shader. -/
def isIdentifier (name : String) : Bool :=
  isIdentifierList name.toList

end Glsl
end ShaderAlgebra
