import ShaderAlgebra.Glsl.Identifier
import ShaderAlgebra.Image
import ShaderAlgebra.Settings
import ShaderAlgebra.Synth.Basic

/-!
# Texture readers

Every image that a program reads gets a sampler, two more uniforms and a pair of
functions, one for all four channels and one for the colour alone:

```
vec4 _imagergba_name(vec2 A, vec2 B, vec2 p)
vec3 _imagergb_name(vec2 A, vec2 B, vec2 p)
```

The segment from `A` to `B` is the bottom edge of the image.  The point `p` is
written in the frame of `B - A` and the direction perpendicular to it, which is
scaled by the ratio of the image; a point outside the unit square reads as
transparent black.  A reader is made once for an image.
-/

namespace ShaderAlgebra

open Glsl (Term Declaration)

/-- Which channels of an image are read. -/
inductive Channels where
  | rgba
  | rgb
deriving DecidableEq, Repr

namespace Channels

/-- The shape of what is read. -/
def shape : Channels → Shape
  | rgba => .realVector 4
  | rgb => .realVector 3

/-- The name of a read in an expression. -/
def node : Channels → String
  | rgba => "image_rgba"
  | rgb => "image_rgb"

/-- The function that reads these channels of an image. -/
def reader (channels : Channels) (image : String) : String :=
  match channels with
  | rgba => "_imagergba_" ++ image
  | rgb => "_imagergb_" ++ image

end Channels

/-- The uniforms of an image and their values. -/
structure TextureBinding where
  image : String
  ratio : Binary64
  cropFactor : Binary64 × Binary64
deriving DecidableEq, Repr

namespace TextureBinding

/-- The sampler of an image. -/
def samplerOf (image : String) : String := "_sampler_" ++ image

/-- The uniform for the ratio of an image. -/
def ratioOf (image : String) : String := "_ratio_" ++ image

/-- The uniform for the crop factor of an image. -/
def cropFactorOf (image : String) : String := "_cropfact_" ++ image

end TextureBinding

/-- The readers made so far, with the uniforms to bind, in order. -/
structure Textures where
  version : Version
  readers : Registry (List Declaration)
  bindings : List TextureBinding

namespace Textures

/-- No readers. -/
def empty (version : Version) : Textures :=
  ⟨version, .empty, []⟩

/-- The parameters of a reader. -/
def parameters : List Glsl.Binder :=
  [⟨"vec2", "A"⟩, ⟨"vec2", "B"⟩, ⟨"vec2", "p"⟩]

/-- The condition that a component of `p` lies between zero and one. -/
def inUnit (component : String) : Term × Term :=
  (.binary .loose .atMost (.literal .zero) (.member (.name "p") component),
    .binary .loose .atMost (.member (.name "p") component) (.literal .one))

/-- The body of the reader of all channels. -/
def readerBody (version : Version) (image : String) : Glsl.Body :=
  let dot := fun a b : Term => Term.call .loose "dot" [a, b]
  let vec2 := fun a b : Term => Term.call .loose "vec2" [a, b]
  let both := fun a b : Term => Term.binary .loose .and a b
  let perpendicular := vec2 (.negate (.member (.name "B") "y")) (.member (.name "B") "x")
  let along := dot (.name "p") (.name "B")
  let across := Term.binary .loose .times (.name (TextureBinding.ratioOf image))
    (dot (.name "p") perpendicular)
  let (x₀, x₁) := inUnit "x"
  let (y₀, y₁) := inUnit "y"
  .block
    [[.decrease "p" (.name "A"), .decrease "B" (.name "A")],
      [.define "float" "b" (dot (.name "B") (.name "B"))],
      [.assign "p" (.binary .loose .divide (vec2 along across) (.name "b"))],
      [.returnIf (both (both (both x₀ x₁) y₀) y₁)
        (.call .loose version.textureFunction
          [.name (TextureBinding.samplerOf image),
            .binary .loose .times (.name "p") (.name (TextureBinding.cropFactorOf image))])],
      [.yield (.apply "vec4" [.literal .zero])]]

/-- The declarations of the reader of an image. -/
def reader (version : Version) (image : String) : List Declaration :=
  [.uniform ⟨"sampler2D", TextureBinding.samplerOf image⟩,
    .uniform ⟨"float", TextureBinding.ratioOf image⟩,
    .uniform ⟨"vec2", TextureBinding.cropFactorOf image⟩,
    .function "vec4" (Channels.rgba.reader image) parameters (readerBody version image),
    .function "vec3" (Channels.rgb.reader image) parameters
      (.block [[.yield (.member
        (.call .loose (Channels.rgba.reader image) [.name "A", .name "B", .name "p"]) "rgb")]])]

/-- The text of a reader. -/
def readerText (declarations : List Declaration) : String :=
  "\n".intercalate (declarations.map Declaration.text)

/-- The text of all readers. -/
def header (t : Textures) : String :=
  t.readers.header readerText

/-- Makes the reader of an image, unless it is there.  The image has to be usable now, even if its
reader was made before. -/
def ensure (t : Textures) (images : String → Option Image) (name : String) :
    Except Failure (Emission × Textures) := do
  unless Glsl.isIdentifier name do
    throw (.identifier name)
  match images name with
  | none => throw (.image name)
  | some image =>
    unless image.isUsable do
      throw (.image name)
    match t.readers.add .function name fun _ => reader t.version name with
    | (.alreadyPresent, _) => return (.alreadyPresent, t)
    | (.generated, readers) =>
      let binding := ⟨name, image.ratio, image.cropFactor⟩
      return (.generated, { t with readers, bindings := t.bindings ++ [binding] })

/-- Reads an image with its bottom edge from `a` to `b` at the point `p`. -/
def read (t : Textures) (images : String → Option Image) (channels : Channels) (name : String)
    (a b p : Term) : Except Failure (Term × Textures) := do
  let (_, t) ← t.ensure images name
  return (.apply (channels.reader name) [a, b, p], t)

/-- A point as a term. -/
def point (p : Point) : Except Failure Term := do
  let x ← literal? p.x
  let y ← literal? p.y
  return .apply "vec2" [.literal x, .literal y]

/-- Reads an image with its bottom edge on that of the viewport. -/
def readInViewport (t : Textures) (images : String → Option Image) (viewport : Viewport)
    (channels : Channels) (name : String) (p : Term) : Except Failure (Term × Textures) := do
  let a ← point viewport.lowerLeft
  let b ← point viewport.lowerRight
  t.read images channels name a b p

end Textures
end ShaderAlgebra
