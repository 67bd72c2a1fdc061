import ShaderAlgebra.Json.Document

/-!
# Reading documents

Readers for the parts of a document: plain values, choices among names, pairs,
and records.  A record is an object whose known names appear at most once and
whose unknown names are skipped; it may also be an array of its fields in order.

Reading goes down at most `maxNesting` levels of arrays and objects; skipping
goes as deep as the text does.
-/

namespace ShaderAlgebra
namespace Json

/-- The result of reading. -/
abbrev Read := Except TextFault

/-- How many arrays and objects may stand around a value that is read. -/
def maxNesting : Nat := 127

namespace Stop

/-- Goes past the end of an array or object. -/
def pass : Stop → Read Unit
  | closed => .ok ()
  | missing f | afterComma f => .error f
  | cut c => .error c.read

/-- Goes past the end of an array or object that is skipped. -/
def skip : Stop → Read Unit
  | closed => .ok ()
  | missing f | afterComma f => .error f
  | cut c => .error c.skipped

end Stop

namespace Doc

mutual

/-- Goes past a value without reading it. -/
def skip : Doc → Read Unit
  | null | bool _ | num _ | str _ => .ok ()
  | arr items stop => do
    skipItems items
    stop.skip
  | obj members stop => do
    skipMembers members
    stop.skip
  | cut c => .error c.skipped
  | absent f => .error f

/-- Goes past items. -/
def skipItems : List Doc → Read Unit
  | [] => .ok ()
  | item :: rest => do
    skip item
    skipItems rest

/-- Goes past members. -/
def skipMembers : List (Key × Doc) → Read Unit
  | [] => .ok ()
  | (_, value) :: rest => do
    skip value
    skipMembers rest

end

mutual

/-- Reads any value, with at most `depth` arrays and objects around each part. -/
def value (depth : Nat) : Doc → Read Json
  | null => .ok .null
  | bool b => .ok (.bool b)
  | num n => n.map .num
  | str s => s.map .str
  | arr items stop =>
    if depth = 0 then .error .malformed
    else do
      let items ← values (depth - 1) items
      stop.pass
      return .arr items
  | obj members stop =>
    if depth = 0 then .error .malformed
    else do
      let members ← memberValues (depth - 1) members
      stop.pass
      return .obj members
  | cut c => .error c.read
  | absent f => .error f

/-- Reads items. -/
def values (depth : Nat) : List Doc → Read (List Json)
  | [] => .ok []
  | item :: rest => do
    let first ← value depth item
    let others ← values depth rest
    return first :: others

/-- Reads members. -/
def memberValues (depth : Nat) : List (Key × Doc) → Read (List (String × Json))
  | [] => .ok []
  | (key, doc) :: rest => do
    let key ← key
    let first ← value depth doc
    let others ← memberValues depth rest
    return (key, first) :: others

end

/-- The fault of a document that is not of the expected kind. -/
def mismatch : Doc → TextFault
  | num (.error f) | str (.error f) => f
  | cut c => c.read
  | absent f => f
  | _ => .unexpected

/-- Reads a natural number below a bound. -/
def natBelow (bound : Nat) : Doc → Read Nat
  | num (.ok (.nat n)) => if n < bound then .ok n else .error .unexpected
  | d => .error d.mismatch

/-- Reads a number as a double. -/
def float : Doc → Read Binary64
  | num (.ok n) => .ok n.toBinary64
  | d => .error d.mismatch

/-- Reads a truth value. -/
def flag : Doc → Read Bool
  | bool b => .ok b
  | d => .error d.mismatch

/-- Reads an optional value. -/
def optional {α : Type} (read : Doc → Read α) : Doc → Read (Option α)
  | null => .ok none
  | d => (read d).map some

/-- The value of a name in a list of choices. -/
def choice {α : Type} (choices : List (String × α)) (name : String) : Read α :=
  match choices.lookup name with
  | some a => .ok a
  | none => .error .unexpected

/-- Reads a choice among names: a string, or an object with one such name and `null` under it.
Anything else is malformed. -/
def oneOf {α : Type} (choices : List (String × α)) (depth : Nat) : Doc → Read α
  | str s => do
    let name ← s
    choice choices name
  | obj members stop =>
    if depth = 0 then .error .malformed
    else
      match members, stop with
      | (key, doc) :: rest, stop => do
        let name ← key
        let a ← choice choices name
        match doc with
        | null => pure ()
        | d => throw d.mismatch
        match rest, stop with
        | [], .closed => return a
        | [], .missing f => throw f
        | _, _ => throw .malformed
      | [], .missing f => .error f
      | [], .cut c => .error c.read
      | [], _ => .error .malformed
  | cut c => .error (if c.quoted then c.read else .malformed)
  | absent f => .error f
  | _ => .error .malformed

/-- The next item of an array that needs one. -/
def nextItem (items : List Doc) (stop : Stop) : Read (Doc × List Doc) :=
  match items with
  | item :: rest => .ok (item, rest)
  | [] => do
    stop.pass
    throw .unexpected

/-- Goes past the end of an array that is to have no more items. -/
def endItems (items : List Doc) (stop : Stop) : Read Unit :=
  match items with
  | [] => stop.pass
  | _ :: _ => .error .malformed

/-- Reads an array of two values of one kind. -/
def pair {α : Type} (read : Doc → Read α) (depth : Nat) : Doc → Read (α × α)
  | arr items stop =>
    if depth = 0 then .error .malformed
    else do
      let (first, items) ← nextItem items stop
      let a ← read first
      let (second, items) ← nextItem items stop
      let b ← read second
      endItems items stop
      return (a, b)
  | d => .error d.mismatch

end Doc

/-- A field of a record that is read into `σ`: its name, whether it has been read, and how to
read it. -/
structure Slot (σ : Type) where
  name : String
  given : σ → Bool
  read : Nat → Doc → σ → Read σ

namespace Slot

variable {σ : Type}

/-- Reads the members of an object into the fields of a record. -/
def readMembers (fields : List (Slot σ)) (depth : Nat) (acc : σ) : List (Key × Doc) → Read σ
  | [] => .ok acc
  | (key, doc) :: rest => do
    let name ← key
    match fields.find? (·.name == name) with
    | none =>
      doc.skip
      readMembers fields depth acc rest
    | some field =>
      if field.given acc then throw .unexpected
      let acc ← field.read depth doc acc
      readMembers fields depth acc rest

/-- Reads the items of an array into the fields of a record, in order; trailing fields may be
missing. -/
def readItems (depth : Nat) (stop : Stop) (acc : σ) : List (Slot σ) → List Doc → Read σ
  | [], items => do
    Doc.endItems items stop
    return acc
  | _ :: _, [] => do
    stop.pass
    return acc
  | field :: fields, item :: items => do
    let acc ← field.read depth item acc
    readItems depth stop acc fields items

/-- Reads a record, starting from what its fields are before anything is read. -/
def readRecord (fields : List (Slot σ)) (start : σ) (depth : Nat) : Doc → Read σ
  | .obj members stop =>
    if depth = 0 then .error .malformed
    else do
      let acc ← readMembers fields (depth - 1) start members
      stop.pass
      return acc
  | .arr items stop =>
    if depth = 0 then .error .malformed
    else readItems (depth - 1) stop start fields items
  | d => .error d.mismatch

end Slot

/-- A value that must have been given. -/
def required {α : Type} : Option α → Read α
  | some a => .ok a
  | none => .error .unexpected

/-- Reads a whole text. -/
def Document.read {α : Type} (read : Nat → Doc → Read α) (document : Document) : Read α := do
  let a ← read maxNesting document.root
  if document.trailing then throw .malformed
  return a

end Json
end ShaderAlgebra
