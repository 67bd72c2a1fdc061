import ShaderAlgebra.Expr
import ShaderAlgebra.Format.Shape
import ShaderAlgebra.Json.Read

/-!
# Expressions in program files

An expression is an object whose member `op` names its kind, with the parts of
the expression under names of their own, in any order; or an array of the kind
and all parts in order.

An expression is read as a plain value first and understood afterwards, so a
fault of form inside it comes before any fault of content.  Only the kind of the
outermost expression is checked as soon as it is met.  Inside an expression the
kind may also be given as its number.
-/

namespace ShaderAlgebra

open Json (Doc Read Key Stop)

/-- The kinds of expressions. -/
inductive Kind where
  | real
  | complex
  | list
  | uniform
  | pixel
  | binary (op : Binary)
  | sum
  | element
  | image (channels : Channels)
deriving DecidableEq, Repr

namespace Kind

/-- The kinds by name, in the order of their numbers. -/
def names : List (String × Kind) :=
  [("real", real), ("complex", complex), ("list", list), ("uniform", uniform), ("pixel", pixel),
    ("add", binary .add), ("sub", binary .sub), ("mul", binary .mul), ("dot", binary .dot),
    ("sum", sum), ("access", element), ("image_rgba", image .rgba), ("image_rgb", image .rgb)]

/-- The kind that a value inside an expression names, or numbers. -/
def ofJson? : Json → Option Kind
  | .str s => names.lookup s
  | .num (.nat n) => (names[n]?).map (·.2)
  | _ => none

end Kind

namespace Expr

mutual

/-- An expression as a value. -/
def toJson : Expr → Json
  | real x => .obj [("op", .str "real"), ("value", .ofBinary64 x)]
  | complex x y => .obj [("op", .str "complex"), ("re", .ofBinary64 x), ("im", .ofBinary64 y)]
  | list items => .obj [("op", .str "list"), ("items", .arr (listToJson items))]
  | uniform name shape =>
    .obj [("op", .str "uniform"), ("name", .str name), ("ty", shape.toJson)]
  | pixel => .obj [("op", .str "pixel")]
  | binary op lhs rhs => .obj [("op", .str op.name), ("lhs", toJson lhs), ("rhs", toJson rhs)]
  | sum arg => .obj [("op", .str "sum"), ("arg", toJson arg)]
  | element arg index => .obj [("op", .str "access"), ("arg", toJson arg), ("index", .ofNat index)]
  | image channels name point =>
    .obj [("op", .str channels.node), ("image", .str name), ("point", toJson point)]
  | imageOn channels name a b point =>
    .obj [("op", .str channels.node), ("image", .str name), ("corners", .arr [toJson a, toJson b]),
      ("point", toJson point)]

/-- Expressions as values. -/
def listToJson : List Expr → List Json
  | [] => []
  | e :: rest => toJson e :: listToJson rest

end

/-- A value with what it is as an expression and as a list of expressions. -/
structure View where
  json : Json
  expr : Option Expr
  exprs : Option (List Expr)

/-- The parts of an expression, by name or in order. -/
inductive Parts where
  | named (members : List (String × View))
  | ordered (items : List View)

namespace Parts

/-- The parts under the given names.  A name may be missing but not repeated; parts in order have
all of them. -/
def select (names : List String) : Parts → Option (List (Option View))
  | named members => names.mapM fun name =>
    match members.filter (·.1 == name) with
    | [] => some none
    | [(_, view)] => some (some view)
    | _ => none
  | ordered items => if items.length = names.length then some (items.map some) else none

end Parts

/-- The expression of a kind and its parts. -/
def ofParts (kind : Kind) (parts : Parts) : Option Expr :=
  match kind with
  | .real => do
    match ← parts.select ["value"] with
    | [some x] => return real (← x.json.float?)
    | _ => none
  | .complex => do
    match ← parts.select ["re", "im"] with
    | [some x, some y] => return complex (← x.json.float?) (← y.json.float?)
    | _ => none
  | .list => do
    match ← parts.select ["items"] with
    | [some items] => return list (← items.exprs)
    | _ => none
  | .uniform => do
    match ← parts.select ["name", "ty"] with
    | [some name, some shape] => return uniform (← name.json.string?) (← Shape.ofJson? true shape.json)
    | _ => none
  | .pixel =>
    match parts with
    | .named _ | .ordered [] => some pixel
    | .ordered _ => none
  | .binary op => do
    match ← parts.select ["lhs", "rhs"] with
    | [some lhs, some rhs] => return binary op (← lhs.expr) (← rhs.expr)
    | _ => none
  | .sum => do
    match ← parts.select ["arg"] with
    | [some arg] => return sum (← arg.expr)
    | _ => none
  | .element => do
    match ← parts.select ["arg", "index"] with
    | [some arg, some index] => return element (← arg.expr) (← index.json.nat?)
    | _ => none
  | .image channels => do
    match ← parts.select ["image", "corners", "point"] with
    | [some name, none, some point] =>
      return image channels (← name.json.string?) (← point.expr)
    | [some name, some corners, some point] =>
      match corners.json with
      | .null => return image channels (← name.json.string?) (← point.expr)
      | _ =>
        match ← corners.exprs with
        | [a, b] => return imageOn channels (← name.json.string?) a b (← point.expr)
        | _ => none
    | _ => none

/-- The expression of an object inside an expression. -/
def ofMembers (members : List (String × View)) : Option Expr :=
  match members.filter (·.1 == "op") with
  | [(_, op)] => do
    let kind ← Kind.ofJson? op.json
    ofParts kind (.named (members.filter (·.1 != "op")))
  | _ => none

/-- The expression of an array inside an expression. -/
def ofItems : List View → Option Expr
  | [] => none
  | op :: parts => do
    let kind ← Kind.ofJson? op.json
    ofParts kind (.ordered parts)

mutual

/-- Understands a value. -/
def view : Json → View
  | .arr items =>
    let views := viewItems items
    ⟨.arr items, ofItems views, views.mapM (·.expr)⟩
  | .obj members => ⟨.obj members, ofMembers (viewMembers members), none⟩
  | .null => ⟨.null, none, none⟩
  | .bool b => ⟨.bool b, none, none⟩
  | .num n => ⟨.num n, none, none⟩
  | .str s => ⟨.str s, none, none⟩

/-- Understands items. -/
def viewItems : List Json → List View
  | [] => []
  | item :: rest => view item :: viewItems rest

/-- Understands members. -/
def viewMembers : List (String × Json) → List (String × View)
  | [] => []
  | (name, value) :: rest => (name, view value) :: viewMembers rest

end

/-- Reads the kind of the outermost expression, which is a name. -/
def readKind : Doc → Read Kind
  | .str (.ok name) => Doc.choice Kind.names name
  | d => .error d.mismatch

/-- Reads the members of the outermost expression: its kind, and the other members as values. -/
def readMembers (depth : Nat) (kind : Option Kind) :
    List (Key × Doc) → Read (Option Kind × List (String × Json))
  | [] => .ok (kind, [])
  | (key, doc) :: rest => do
    let name ← key
    if name = "op" then
      if kind.isSome then throw .unexpected
      let kind ← readKind doc
      readMembers depth (some kind) rest
    else
      let value ← doc.value depth
      let (kind, others) ← readMembers depth kind rest
      return (kind, (name, value) :: others)

/-- Reads an expression. -/
def read (depth : Nat) : Doc → Read Expr
  | .obj members stop =>
    if depth = 0 then .error .malformed
    else do
      let (kind, members) ← readMembers (depth - 1) none members
      stop.pass
      let kind ← Json.required kind
      Json.required (ofParts kind (.named (viewMembers members)))
  | .arr items stop =>
    if depth = 0 then .error .malformed
    else do
      let (first, rest) ← Doc.nextItem items stop
      let kind ← readKind first
      let values ← Doc.values (depth - 1) rest
      stop.pass
      Json.required (ofParts kind (.ordered (viewItems values)))
  | d => .error d.mismatch

end Expr
end ShaderAlgebra
