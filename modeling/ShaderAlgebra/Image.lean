import ShaderAlgebra.Binary64

/-!
# Images

What is known about an image that a program may read: its size in pixels, whether
its pixels are there, and the size of the texture that holds it, if that is
padded.  A table of images is sorted by name.
-/

namespace ShaderAlgebra

/-- What is known about an image. -/
structure Image where
  width : UInt32
  height : UInt32
  /-- Whether the pixels are there. -/
  ready : Bool := true
  /-- The size of a padded texture. -/
  textureSize : Option (UInt32 × UInt32) := none
deriving DecidableEq, Repr

namespace Image

/-- Whether the image can be read. -/
def isUsable (i : Image) : Bool :=
  i.ready && 0 < i.width && 0 < i.height

/-- Width over height. -/
def ratio (i : Image) : Binary64 :=
  Binary64.quotient i.width.toNat i.height.toNat

/-- The part of the texture that the image covers, in each direction. -/
def cropFactor (i : Image) : Binary64 × Binary64 :=
  match i.textureSize with
  | some (w, h) =>
    if 0 < w ∧ 0 < h then
      (Binary64.quotient i.width.toNat w.toNat, Binary64.quotient i.height.toNat h.toNat)
    else (.one, .one)
  | none => (.one, .one)

end Image

/-- Images by name, in the order of their names. -/
structure ImageTable where
  entries : List (String × Image)
deriving DecidableEq, Repr

namespace ImageTable

/-- The table without images. -/
def empty : ImageTable :=
  ⟨[]⟩

instance : Inhabited ImageTable :=
  ⟨empty⟩

/-- The image of a name. -/
def find? (t : ImageTable) (name : String) : Option Image :=
  t.entries.lookup name

/-- Puts an image in its place among sorted entries, in place of one of its name. -/
def insertInto (name : String) (image : Image) : List (String × Image) → List (String × Image)
  | [] => [(name, image)]
  | (n, i) :: rest =>
    if name = n then (name, image) :: rest
    else if name < n then (name, image) :: (n, i) :: rest
    else (n, i) :: insertInto name image rest

/-- Adds an image, or replaces the one of its name. -/
def insert (t : ImageTable) (name : String) (image : Image) : ImageTable :=
  ⟨insertInto name image t.entries⟩

/-- The number of images. -/
def size (t : ImageTable) : Nat :=
  t.entries.length

end ImageTable
end ShaderAlgebra
