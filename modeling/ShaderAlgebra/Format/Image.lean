import ShaderAlgebra.Image
import ShaderAlgebra.Json.Read

/-!
# Images in program files

An image has its size, and unless they have their defaults, whether it is ready
and the size of its texture.  A table of images is an object; of two images of
one name the later counts.
-/

namespace ShaderAlgebra

open Json (Doc Read Slot)

/-- Reads a 32-bit natural number. -/
def Json.Doc.word (d : Doc) : Read UInt32 :=
  (d.natBelow UInt32.size).map UInt32.ofNat

namespace Image

/-- An image as a value. -/
def toJson (i : Image) : Json :=
  let size := match i.textureSize with
    | some (w, h) => [("texture_size", Json.arr [.ofNat w.toNat, .ofNat h.toNat])]
    | none => []
  .obj ([("width", .ofNat i.width.toNat), ("height", .ofNat i.height.toNat), ("ready", .bool i.ready)]
    ++ size)

/-- What has been read of an image. -/
structure Partial where
  width : Option UInt32 := none
  height : Option UInt32 := none
  ready : Option Bool := none
  textureSize : Option (Option (UInt32 × UInt32)) := none

/-- The fields of an image. -/
def fields : List (Slot Partial) :=
  [{ name := "width"
     given := fun p => p.width.isSome
     read := fun _ d p => return { p with width := some (← d.word) } },
   { name := "height"
     given := fun p => p.height.isSome
     read := fun _ d p => return { p with height := some (← d.word) } },
   { name := "ready"
     given := fun p => p.ready.isSome
     read := fun _ d p => return { p with ready := some (← d.flag) } },
   { name := "texture_size"
     given := fun p => p.textureSize.isSome
     read := fun depth d p =>
      return { p with textureSize := some (← d.optional (Doc.pair Doc.word depth)) } }]

/-- Reads an image. -/
def read (depth : Nat) (d : Doc) : Read Image := do
  let p ← Slot.readRecord fields {} depth d
  return {
    width := ← Json.required p.width
    height := ← Json.required p.height
    ready := p.ready.getD true
    textureSize := p.textureSize.getD none }

end Image

namespace ImageTable

/-- A table as a value. -/
def toJson (t : ImageTable) : Json :=
  .obj (t.entries.map fun (name, image) => (name, image.toJson))

/-- Reads the members of an object into a table. -/
def readMembers (depth : Nat) (t : ImageTable) : List (Json.Key × Doc) → Read ImageTable
  | [] => .ok t
  | (key, doc) :: rest => do
    let name ← key
    let image ← Image.read depth doc
    readMembers depth (t.insert name image) rest

/-- Reads a table. -/
def read (depth : Nat) : Doc → Read ImageTable
  | .obj members stop =>
    if depth = 0 then .error .malformed
    else do
      let t ← readMembers (depth - 1) empty members
      stop.pass
      return t
  | d => .error d.mismatch

end ImageTable
end ShaderAlgebra
