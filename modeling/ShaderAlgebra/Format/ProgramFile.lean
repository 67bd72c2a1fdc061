import ShaderAlgebra.Format.Expr
import ShaderAlgebra.Format.Image
import ShaderAlgebra.Format.Settings

/-!
# Program files

A program file is a JSON document with an expression, the images that it may
read, and the settings to compile it with.  Images and settings may be left out.
-/

namespace ShaderAlgebra

open Json (Doc Document Read Slot Symbol)

/-- The contents of a program file. -/
structure ProgramFile where
  expr : Expr
  images : ImageTable := .empty
  settings : Settings := {}

namespace ProgramFile

/-- A program file as a value. -/
def toJson (f : ProgramFile) : Json :=
  .obj [("expr", f.expr.toJson), ("images", f.images.toJson), ("config", f.settings.toJson)]

/-- The text of a program file. -/
def text (f : ProgramFile) : String :=
  f.toJson.text .pretty

/-- What has been read of a program file. -/
structure Partial where
  expr : Option Expr := none
  images : Option ImageTable := none
  settings : Option Settings := none

/-- The fields of a program file. -/
def fields : List (Slot Partial) :=
  [{ name := "expr"
     given := fun p => p.expr.isSome
     read := fun depth d p => return { p with expr := some (← Expr.read depth d) } },
   { name := "images"
     given := fun p => p.images.isSome
     read := fun depth d p => return { p with images := some (← ImageTable.read depth d) } },
   { name := "config"
     given := fun p => p.settings.isSome
     read := fun depth d p => return { p with settings := some (← Settings.read depth d) } }]

/-- Reads a program file. -/
def read (depth : Nat) (d : Doc) : Read ProgramFile := do
  let p ← Slot.readRecord fields {} depth d
  return {
    expr := ← Json.required p.expr
    images := p.images.getD .empty
    settings := p.settings.getD {} }

/-- The program file of the symbols of a text. -/
def ofSymbols (symbols : List Symbol) : Except Failure ProgramFile :=
  ((Document.ofSymbols symbols).read read).mapError .text

/-- The program file of a text. -/
def ofText (s : String) : Except Failure ProgramFile :=
  ofSymbols (Symbol.ofString s)

/-- The program file of bytes. -/
def ofBytes (bytes : List UInt8) : Except Failure ProgramFile :=
  ofSymbols (Symbol.ofBytes bytes)

/-- Whether two program files are equal, numbers as numbers. -/
def same (f g : ProgramFile) : Bool :=
  f.expr.same g.expr && f.images == g.images && f.settings.same g.settings

end ProgramFile
end ShaderAlgebra
