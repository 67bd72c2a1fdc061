import ShaderAlgebra.Decimal.Notation
import ShaderAlgebra.Json.Number

/-!
# JSON values and their text

A value is written in one of two styles: on one line without blanks, or spread
over lines with an indent of two.  Members keep their order.  A number that is
not finite is written as `null`.
-/

namespace ShaderAlgebra

/-- A JSON value. -/
inductive Json where
  | null
  | bool (b : Bool)
  | num (n : Json.Number)
  | str (s : String)
  | arr (items : List Json)
  | obj (members : List (String × Json))
deriving Repr, Inhabited

namespace Json

/-- How a value is spread out. -/
inductive Style where
  | compact
  | pretty
deriving DecidableEq, Repr

namespace Style

/-- What stands before an item or a closing bracket at a depth. -/
def lineBreak (style : Style) (depth : Nat) : String :=
  match style with
  | compact => ""
  | pretty => String.ofList ('\n' :: List.replicate (2 * depth) ' ')

/-- What stands between a name and its value. -/
def colon : Style → String
  | compact => ":"
  | pretty => ": "

end Style

/-- A character inside a string.  Quotes, backslashes and control characters are escaped. -/
def escape (c : Char) : List Char :=
  if c = '"' then ['\\', '"']
  else if c = '\\' then ['\\', '\\']
  else if c = '\x08' then ['\\', 'b']
  else if c = '\x0c' then ['\\', 'f']
  else if c = '\n' then ['\\', 'n']
  else if c = '\r' then ['\\', 'r']
  else if c = '\t' then ['\\', 't']
  else if c.toNat < 0x20 then
    ['\\', 'u', '0', '0', Nat.digitChar (c.toNat / 16), Nat.digitChar (c.toNat % 16)]
  else [c]

/-- A string in quotes. -/
def quote (s : String) : String :=
  "\"" ++ String.ofList (s.toList.flatMap escape) ++ "\""

/-- The text of a number. -/
def Number.text : Number → String
  | nat n => toString n
  | negative n => "-" ++ toString n
  | float x => if x.isFinite then (Decimal.shortest .even x).text .json else "null"

mutual

/-- Writes a value at a depth after the text `out`. -/
def write (style : Style) (depth : Nat) (out : String) : Json → String
  | null => out ++ "null"
  | bool b => out ++ if b then "true" else "false"
  | num n => out ++ n.text
  | str s => out ++ quote s
  | arr [] => out ++ "[]"
  | arr (item :: rest) =>
    writeItems style depth
      (write style (depth + 1) (out ++ "[" ++ style.lineBreak (depth + 1)) item) rest
      ++ style.lineBreak depth ++ "]"
  | obj [] => out ++ "\x7b\x7d"
  | obj ((name, value) :: rest) =>
    writeMembers style depth
      (write style (depth + 1)
        (out ++ "\x7b" ++ style.lineBreak (depth + 1) ++ quote name ++ style.colon) value) rest
      ++ style.lineBreak depth ++ "\x7d"

/-- Writes the items after the first. -/
def writeItems (style : Style) (depth : Nat) (out : String) : List Json → String
  | [] => out
  | item :: rest =>
    writeItems style depth
      (write style (depth + 1) (out ++ "," ++ style.lineBreak (depth + 1)) item) rest

/-- Writes the members after the first. -/
def writeMembers (style : Style) (depth : Nat) (out : String) : List (String × Json) → String
  | [] => out
  | (name, value) :: rest =>
    writeMembers style depth
      (write style (depth + 1)
        (out ++ "," ++ style.lineBreak (depth + 1) ++ quote name ++ style.colon) value) rest

end

/-- The text of a value in a style. -/
def text (style : Style) (j : Json) : String :=
  write style 0 "" j

/-- A double as a value. -/
def ofBinary64 (x : Binary64) : Json :=
  num (.float x)

/-- A natural number as a value. -/
def ofNat (n : Nat) : Json :=
  num (.nat n)

/-- A natural number. -/
def nat? : Json → Option Nat
  | num (.nat n) => some n
  | _ => none

/-- A number as a double. -/
def float? : Json → Option Binary64
  | num n => some n.toBinary64
  | _ => none

/-- A string. -/
def string? : Json → Option String
  | str s => some s
  | _ => none

end Json
end ShaderAlgebra
