import ShaderAlgebra.Proofs.Calls
import ShaderAlgebra.Proofs.NameClashes

/-!
# Readers and bindings over a run of requests

The readers of images and the uniforms to bind for them are two logs that grow together.  A request
comes with the images as they are at that time, and those may change from one request to the next.  In
`Textures.Request.step` a request writes to the two logs one after the other, with all its checks before
the first write; it has the outcome that `ensure`, `read` and `readInViewport` give (`Request.run_step`).

Over any run the logs stay in step (`Textures.readers_in_lockstep`): the same images in the same
order, each once, each reader with its text, and each binding with the numbers of the image at the
first request that succeeded.  What a reader declares is kept apart from all other names by
five prefixes, none of which begins another.
-/

namespace ShaderAlgebra

open Glsl (Term Declaration Statement)

namespace Textures

/-! ## Requests -/

/-- A request, with the images as they are when it is made. -/
inductive Request where
  /-- For a reader. -/
  | ensure (images : String → Option Image) (name : String)
  /-- For a read between two corners. -/
  | read (images : String → Option Image) (channels : Channels) (name : String) (a b p : Term)
  /-- For a read on the bottom edge of the viewport. -/
  | readInViewport (images : String → Option Image) (viewport : Viewport) (channels : Channels)
      (name : String) (p : Term)

/-- What a request is answered with. -/
inductive Answer where
  | emission (e : Emission)
  | term (t : Term)

/-- A step that writes to the logs, and may fail. -/
abbrev Update := ExceptT Failure (StateM Textures)

namespace Update

/-- Writes a reader: first its entry, then its binding. -/
def enter (name : String) (image : Image) : Update Emission := do
  let t ← get
  let added := t.readers.add .function name fun _ => reader t.version name
  set { t with readers := added.2 }
  if added.1 = .generated then
    modify fun t => { t with bindings := t.bindings ++ [⟨name, image.ratio, image.cropFactor⟩] }
  return added.1

/-- Makes the reader of an image that can be read. -/
def ensure (images : String → Option Image) (name : String) : Update Emission := do
  unless Glsl.isIdentifier name do
    throw (.identifier name)
  match images name with
  | none => throw (.image name)
  | some image =>
    unless image.isUsable do
      throw (.image name)
    enter name image

/-- Reads an image between two corners. -/
def read (images : String → Option Image) (channels : Channels) (name : String) (a b p : Term) :
    Update Term := do
  let _ ← ensure images name
  return .apply (channels.reader name) [a, b, p]

/-- Reads an image on the bottom edge of the viewport. -/
def readInViewport (images : String → Option Image) (viewport : Viewport) (channels : Channels)
    (name : String) (p : Term) : Update Term := do
  let a ← point viewport.lowerLeft
  let b ← point viewport.lowerRight
  read images channels name a b p

end Update

namespace Request

/-- The images that a request is made with. -/
def images : Request → String → Option Image
  | ensure images _ | read images _ _ _ _ _ | readInViewport images _ _ _ _ => images

/-- The image that is asked for. -/
def name : Request → String
  | ensure _ name | read _ _ name _ _ _ | readInViewport _ _ _ name _ => name

/-- The step of a request. -/
def step : Request → Update Answer
  | ensure images name => return .emission (← Update.ensure images name)
  | read images channels name a b p => return .term (← Update.read images channels name a b p)
  | readInViewport images viewport channels name p =>
    return .term (← Update.readInViewport images viewport channels name p)

/-- The outcome of a request, and the textures after it. -/
def outcome (t : Textures) : Request → Except Failure (Answer × Textures)
  | ensure images name => (t.ensure images name).map fun r => (.emission r.1, r.2)
  | read images channels name a b p => (t.read images channels name a b p).map fun r => (.term r.1, r.2)
  | readInViewport images viewport channels name p =>
    (t.readInViewport images viewport channels name p).map fun r => (.term r.1, r.2)

/-- What a request that succeeds is answered with: a read calls the reader of its image. -/
def Calls (answer : Answer) : Request → Prop
  | ensure _ _ => ∃ e, answer = .emission e
  | read _ channels name a b p => answer = .term (.apply (channels.reader name) [a, b, p])
  | readInViewport _ viewport channels name p => ∃ a b, point viewport.lowerLeft = .ok a ∧
      point viewport.lowerRight = .ok b ∧ answer = .term (.apply (channels.reader name) [a, b, p])

end Request

/-- The textures after requests, from the beginning. -/
def after (version : Version) (requests : List Request) : Textures :=
  requests.foldl (fun t r => (r.step.run.run t).2) (.empty version)

theorem after_concat (version : Version) (requests : List Request) (r : Request) :
    after version (requests ++ [r]) = (r.step.run.run (after version requests)).2 :=
  List.foldl_append

/-! ## One request -/

namespace Update

/-- A reader is written to both logs, or to none if it is there. -/
theorem run_enter (name : String) (image : Image) (t : Textures) : (enter name image).run.run t =
    if t.readers.contains .function name then (.ok .alreadyPresent, t)
    else (.ok .generated,
      { t with
        readers := t.readers.push .function name (reader t.version name)
        bindings := t.bindings ++ [⟨name, image.ratio, image.cropFactor⟩] }) := by
  have hget : (enter name image).run.run t = StateT.run (ExceptT.run (do
      let added := t.readers.add .function name fun _ => reader t.version name
      set ({ t with readers := added.2 } : Textures)
      if added.1 = .generated then
        modify fun t => { t with bindings := t.bindings ++ [⟨name, image.ratio, image.cropFactor⟩] }
      return added.1 : Update Emission)) t := rfl
  rw [hget, Registry.add_eq]
  cases t.readers.contains .function name <;> rfl

/-- **Making a reader has the outcome of `Textures.ensure`,** and changes nothing when it fails. -/
theorem run_ensure (images : String → Option Image) (name : String) (t : Textures) :
    (ensure images name).run.run t = match t.ensure images name with
      | .ok (e, t') => (.ok e, t')
      | .error failure => (.error failure, t) := by
  by_cases hid : Glsl.isIdentifier name
  · cases him : images name with
    | none =>
      simp only [ensure, Textures.ensure, hid, him]
      rfl
    | some image =>
      by_cases hus : image.isUsable
      · have hfirst : ensure images name = enter name image := by
          simp only [ensure, hid, him, hus, if_true]
        rw [hfirst, run_enter]
        simp only [Textures.ensure, hid, him, hus, if_true, Registry.add_eq]
        cases t.readers.contains .function name <;> rfl
      · simp only [ensure, Textures.ensure, hid, him, hus]
        rfl
  · simp only [ensure, Textures.ensure, hid]
    rfl

theorem run_read (images : String → Option Image) (channels : Channels) (name : String) (a b p : Term)
    (t : Textures) : (read images channels name a b p).run.run t =
      match t.read images channels name a b p with
      | .ok (term, t') => (.ok term, t')
      | .error failure => (.error failure, t) := by
  rw [read, ExceptT.run_bind, StateT.run_bind, run_ensure, Textures.read]
  cases t.ensure images name <;> rfl

theorem run_readInViewport (images : String → Option Image) (viewport : Viewport) (channels : Channels)
    (name : String) (p : Term) (t : Textures) :
    (readInViewport images viewport channels name p).run.run t =
      match t.readInViewport images viewport channels name p with
      | .ok (term, t') => (.ok term, t')
      | .error failure => (.error failure, t) := by
  rw [readInViewport, Textures.readInViewport]
  cases point viewport.lowerLeft with
  | error failure => rfl
  | ok a =>
    cases point viewport.lowerRight with
    | error failure => rfl
    | ok b => exact run_read images channels name a b p t

end Update

namespace Request

/-- **A request has its outcome,** and changes nothing when it fails. -/
theorem run_step (r : Request) (t : Textures) : r.step.run.run t = match r.outcome t with
    | .ok (answer, t') => (.ok answer, t')
    | .error failure => (.error failure, t) := by
  cases r with
  | ensure images name =>
    rw [step, ExceptT.run_bind, StateT.run_bind, Update.run_ensure, outcome]
    cases t.ensure images name <;> rfl
  | read images channels name a b p =>
    rw [step, ExceptT.run_bind, StateT.run_bind, Update.run_read, outcome]
    cases t.read images channels name a b p <;> rfl
  | readInViewport images viewport channels name p =>
    rw [step, ExceptT.run_bind, StateT.run_bind, Update.run_readInViewport, outcome]
    cases t.readInViewport images viewport channels name p <;> rfl

/-- A read fails, or the image can be read and its reader is called. -/
theorem outcome_read (images : String → Option Image) (channels : Channels) (name : String) (a b p : Term)
    (t : Textures) : (∃ failure, (read images channels name a b p).outcome t = .error failure) ∨
      (read images channels name a b p).outcome t =
        .ok (.term (.apply (channels.reader name) [a, b, p]), t.keep images name) ∧ Available images name := by
  by_cases ha : Available images name
  · refine .inr ⟨?_, ha⟩
    rw [outcome, read_of_available ha]
    rfl
  · refine .inl ⟨.ofImage name, ?_⟩
    rw [outcome, read_eq_error ha]
    rfl

/-- **A request fails, or the image can be read and the request keeps its reader.** -/
theorem outcome_cases (r : Request) (t : Textures) : (∃ failure, r.outcome t = .error failure) ∨
    ∃ answer, r.outcome t = .ok (answer, t.keep r.images r.name) ∧ Available r.images r.name ∧
      r.Calls answer := by
  cases r with
  | ensure images name =>
    by_cases ha : Available images name
    · obtain ⟨e, he⟩ := ensure_of_available ha t
      refine .inr ⟨.emission e, ?_, ha, e, rfl⟩
      rw [outcome, he]
      rfl
    · refine .inl ⟨.ofImage name, ?_⟩
      rw [outcome, ensure_eq_error ha]
      rfl
  | read images channels name a b p =>
    exact (outcome_read images channels name a b p t).imp_right fun h => ⟨_, h.1, h.2, rfl⟩
  | readInViewport images viewport channels name p =>
    cases hl : point viewport.lowerLeft with
    | error failure =>
      refine .inl ⟨failure, ?_⟩
      rw [outcome, Textures.readInViewport, hl]
      rfl
    | ok a =>
      cases hr : point viewport.lowerRight with
      | error failure =>
        refine .inl ⟨failure, ?_⟩
        rw [outcome, Textures.readInViewport, hl, hr]
        rfl
      | ok b =>
        have hread : (readInViewport images viewport channels name p).outcome t =
            (read images channels name a b p).outcome t := by
          rw [outcome, outcome, congrFun (readInViewport_eq hl hr images channels name p) t]
        rw [hread]
        exact (outcome_read images channels name a b p t).imp_right fun h => ⟨_, h.1, h.2, a, b, hl, hr, rfl⟩

/-- The two ways in which a request ends. -/
theorem step_cases (r : Request) (t : Textures) : (∃ failure, r.step.run.run t = (.error failure, t)) ∨
    ∃ answer, r.step.run.run t = (.ok answer, t.keep r.images r.name) ∧ Available r.images r.name ∧
      r.Calls answer := by
  rw [run_step]
  rcases r.outcome_cases t with ⟨failure, h⟩ | ⟨answer, h, hanswer⟩
  · exact .inl ⟨failure, by rw [h]⟩
  · exact .inr ⟨answer, by rw [h], hanswer⟩

end Request

/-! ## What a reader declares -/

/-- **The text of the reader of an image,** line by line. -/
def readerSource (version : Version) (image : String) : String :=
  "\n".intercalate
    ["uniform sampler2D _sampler_" ++ image ++ ";",
      "uniform float _ratio_" ++ image ++ ";",
      "uniform vec2 _cropfact_" ++ image ++ ";",
      "vec4 _imagergba_" ++ image ++ "(vec2 A, vec2 B, vec2 p) \x7b",
      "    p -= A; B -= A;",
      "    float b = dot(B, B);",
      "    p = vec2(dot(p, B), _ratio_" ++ image ++ " * dot(p, vec2(-B.y, B.x))) / b;",
      "    if (0.0 <= p.x && p.x <= 1.0 && 0.0 <= p.y && p.y <= 1.0)",
      "        return " ++ version.textureFunction ++ "(_sampler_" ++ image ++ ", p * _cropfact_" ++ image ++ ");",
      "    return vec4(0.0);",
      "\x7d",
      "vec3 _imagergb_" ++ image ++ "(vec2 A, vec2 B, vec2 p) \x7b",
      "    return _imagergba_" ++ image ++ "(A, B, p).rgb;",
      "\x7d"]

/-- The line that moves a point into the frame of the image. -/
theorem text_frame (image : String) :
    (Statement.assign "p" (.binary .loose .divide (.call .loose "vec2" [.call .loose "dot" [.name "p", .name "B"],
      .binary .loose .times (.name (TextureBinding.ratioOf image)) (.call .loose "dot" [.name "p",
        .call .loose "vec2" [.negate (.member (.name "B") "y"), .member (.name "B") "x"]])]) (.name "b"))).text =
      "p = vec2(dot(p, B), _ratio_" ++ (image ++ " * dot(p, vec2(-B.y, B.x))) / b;") := by
  simp only [Statement.text, Term.write, Term.writeArgs, TextureBinding.ratioOf, Glsl.Operator.text,
    Glsl.Operator.sign, Glsl.Spacing.comma, String.append_assoc]
  rfl

/-- The line that reads the texture inside the image. -/
theorem text_inside (version : Version) (image : String) : (Statement.returnIf
    (.binary .loose .and (.binary .loose .and (.binary .loose .and (inUnit "x").1 (inUnit "x").2) (inUnit "y").1)
      (inUnit "y").2)
    (.call .loose version.textureFunction [.name (TextureBinding.samplerOf image),
      .binary .loose .times (.name "p") (.name (TextureBinding.cropFactorOf image))])).text =
      "if (0.0 <= p.x && p.x <= 1.0 && 0.0 <= p.y && p.y <= 1.0)" ++ ("\n" ++ ("        return " ++
        (version.textureFunction ++ ("(_sampler_" ++ (image ++ (", p * _cropfact_" ++ (image ++ ");"))))))) := by
  have hcondition : (Term.binary .loose .and (.binary .loose .and (.binary .loose .and (inUnit "x").1 (inUnit "x").2)
      (inUnit "y").1) (inUnit "y").2).write "if (" =
        "if (0.0 <= p.x && p.x <= 1.0 && 0.0 <= p.y && p.y <= 1.0" := rfl
  rw [Statement.text, hcondition]
  simp only [Term.write, Term.writeArgs, TextureBinding.samplerOf, TextureBinding.cropFactorOf, Glsl.Operator.text,
    Glsl.Operator.sign, Glsl.Spacing.comma, String.append_assoc]
  rfl

/-- The body of the reader of the colour. -/
theorem text_colourBody (image : String) : (Glsl.Body.block [[.yield (.member
    (.call .loose (Channels.rgba.reader image) [.name "A", .name "B", .name "p"]) "rgb")]]).text =
      "\x7b" ++ ("\n" ++ ("    " ++ ("return _imagergba_" ++ (image ++ ("(A, B, p).rgb;" ++ ("\n" ++ "\x7d")))))) := by
  simp only [Glsl.Body.text, List.foldl_cons, List.foldl_nil, List.map_cons, List.map_nil,
    String.intercalate_singleton, Statement.text, Term.write, Term.writeArgs, Channels.reader, Glsl.Spacing.comma,
    String.append_assoc]
  rfl

/-- The body of the reader of all channels. -/
theorem text_readerBody (version : Version) (image : String) : (readerBody version image).text =
    "\x7b" ++ ("\n" ++ ("    " ++ ("p -= A; B -= A;" ++ ("\n" ++
      ("    " ++ ("float b = dot(B, B);" ++ ("\n" ++ ("    " ++ ("p = vec2(dot(p, B), _ratio_" ++ (image ++
      (" * dot(p, vec2(-B.y, B.x))) / b;" ++ ("\n" ++ ("    " ++
      ("if (0.0 <= p.x && p.x <= 1.0 && 0.0 <= p.y && p.y <= 1.0)" ++ ("\n" ++ ("        return " ++
      (version.textureFunction ++ ("(_sampler_" ++ (image ++ (", p * _cropfact_" ++ (image ++ (");" ++ ("\n" ++
      ("    " ++ ("return vec4(0.0);" ++ ("\n" ++ "\x7d")))))))))))))))))))))))))) := by
  have hopen : "\x7b\n" = "\x7b" ++ "\n" := rfl
  have hshift : " ".intercalate ([Statement.decrease "p" (.name "A"), .decrease "B" (.name "A")].map Statement.text) =
    "p -= A; B -= A;" := rfl
  have hwidth : (Statement.define "float" "b" (.call .loose "dot" [.name "B", .name "B"])).text =
    "float b = dot(B, B);" := rfl
  have houtside : (Statement.yield (.apply "vec4" [.literal .zero])).text = "return vec4(0.0);" := rfl
  rw [readerBody, Glsl.Body.text, List.foldl_cons, hshift, hopen]
  simp only [List.foldl_cons, List.foldl_nil, List.map_cons, List.map_nil, String.intercalate_singleton, hwidth,
    houtside, text_frame, text_inside, String.append_assoc]

/-- **The text of a reader** is that of its declarations. -/
theorem readerText_reader (version : Version) (image : String) :
    readerText (reader version image) = readerSource version image := by
  have hparameters : ", ".intercalate (parameters.map Glsl.Binder.text) = "vec2 A, vec2 B, vec2 p" := rfl
  -- the lines, cut where the declarations are
  have hsampler : "uniform sampler2D _sampler_" = "uniform " ++ ("sampler2D" ++ (" " ++ "_sampler_")) := rfl
  have hratio : "uniform float _ratio_" = "uniform " ++ ("float" ++ (" " ++ "_ratio_")) := rfl
  have hcrop : "uniform vec2 _cropfact_" = "uniform " ++ ("vec2" ++ (" " ++ "_cropfact_")) := rfl
  have hrgba : "vec4 _imagergba_" = "vec4" ++ (" " ++ "_imagergba_") := rfl
  have hrgb : "vec3 _imagergb_" = "vec3" ++ (" " ++ "_imagergb_") := rfl
  have hhead : "(vec2 A, vec2 B, vec2 p) \x7b" = "(" ++ ("vec2 A, vec2 B, vec2 p" ++ (") " ++ "\x7b")) := rfl
  have hshift : "    p -= A; B -= A;" = "    " ++ "p -= A; B -= A;" := rfl
  have hwidth : "    float b = dot(B, B);" = "    " ++ "float b = dot(B, B);" := rfl
  have hframe : "    p = vec2(dot(p, B), _ratio_" = "    " ++ "p = vec2(dot(p, B), _ratio_" := rfl
  have hinside : "    if (0.0 <= p.x && p.x <= 1.0 && 0.0 <= p.y && p.y <= 1.0)" =
    "    " ++ "if (0.0 <= p.x && p.x <= 1.0 && 0.0 <= p.y && p.y <= 1.0)" := rfl
  have houtside : "    return vec4(0.0);" = "    " ++ "return vec4(0.0);" := rfl
  have hcolour : "    return _imagergba_" = "    " ++ "return _imagergba_" := rfl
  rw [readerSource, hsampler, hratio, hcrop, hrgba, hrgb, hhead, hshift, hwidth, hframe, hinside, houtside, hcolour]
  simp only [readerText, reader, List.map_cons, List.map_nil, Declaration.text, text_readerBody, text_colourBody,
    hparameters, String.intercalate_singleton, String.intercalate_cons_cons]
  simp only [Glsl.Binder.text, TextureBinding.samplerOf, TextureBinding.ratioOf, TextureBinding.cropFactorOf,
    Channels.reader, String.append_assoc]

/-- What the names of a reader begin with. -/
def globalPrefixes : List String :=
  ["_sampler_", "_ratio_", "_cropfact_", "_imagergba_", "_imagergb_"]

/-- The names that the reader of an image declares. -/
def globals (image : String) : List String :=
  globalPrefixes.map (· ++ image)

theorem declares_reader (version : Version) (image : String) :
    (reader version image).map Declaration.declares = globals image := rfl

/-- **A name of a reader is read in one way,** since no prefix begins another. -/
theorem globalPrefixes_inj {p q : String} (hp : p ∈ globalPrefixes) (hq : q ∈ globalPrefixes)
    {a b : String} (h : p ++ a = q ++ b) : p = q ∧ a = b := by
  have hapart : ∀ p ∈ globalPrefixes, ∀ q ∈ globalPrefixes, p.toList <+: q.toList → p = q := by decide
  have hl : p.toList ++ a.toList = q.toList ++ b.toList := by
    rw [← String.toList_append, h, String.toList_append]
  have hpq : p = q := by
    rcases List.prefix_or_prefix_of_prefix ⟨_, rfl⟩ ⟨b.toList, hl.symm⟩ with hpre | hpre
    · exact hapart p hp q hq hpre
    · exact (hapart q hq p hp hpre).symm
  subst hpq
  exact ⟨rfl, String.toList_injective (List.append_cancel_left hl)⟩

/-- **Readers of different images declare different names.** -/
theorem nodup_globals {images : List String} (h : images.Nodup) : (images.flatMap globals).Nodup := by
  refine List.nodup_flatMap.2 ⟨fun image _ => ?_, h.imp fun hne => ?_⟩
  · refine List.Nodup.map_on (fun p hp q hq he => (globalPrefixes_inj hp hq he).1) ?_
    decide
  · intro n hn hn'
    obtain ⟨p, hp, rfl⟩ := List.mem_map.1 hn
    obtain ⟨q, hq, he⟩ := List.mem_map.1 hn'
    exact hne (globalPrefixes_inj hq hp he).2.symm

theorem head?_of_mem_globals {image n : String} (h : n ∈ globals image) : n.toList.head? = some '_' := by
  obtain ⟨p, hp, rfl⟩ := List.mem_map.1 h
  have hall : ∀ p ∈ globalPrefixes, p.toList.head? = some '_' := by decide
  rw [String.toList_append, List.head?_append, hall p hp]
  rfl

/-! ## A run of requests -/

/-- The request succeeds after the requests `before`. -/
def Succeeds (version : Version) (before : List Request) (r : Request) : Prop :=
  ∃ answer t, r.step.run.run (after version before) = (.ok answer, t)

/-- The binding has the numbers of its image at the first request for it that succeeds. -/
def Stems (version : Version) (requests : List Request) (b : TextureBinding) : Prop :=
  ∃ before r rest image, requests = before ++ r :: rest ∧ r.name = b.image ∧ Succeeds version before r ∧
    r.images r.name = some image ∧ b.ratio = image.ratio ∧ b.cropFactor = image.cropFactor ∧
    ∀ first r' later, before = first ++ r' :: later → r'.name = b.image → ¬ Succeeds version first r'

theorem Stems.concat {version : Version} {requests : List Request} {b : TextureBinding}
    (h : Stems version requests b) (r : Request) : Stems version (requests ++ [r]) b := by
  obtain ⟨before, r₀, rest, image, rfl, hr₀⟩ := h
  exact ⟨before, r₀, rest ++ [r], image, by simp, hr₀⟩

/-- What is kept over a run: the two logs show the same images, each once, and hold all images for
which a request has succeeded. -/
structure Kept (version : Version) (requests : List Request) (t : Textures) : Prop where
  shows : t.Shows version (t.bindings.map (·.image))
  nodup : (t.bindings.map (·.image)).Nodup
  named : ∀ b ∈ t.bindings, Glsl.isIdentifier b.image
  stems : ∀ b ∈ t.bindings, Stems version requests b
  holds : ∀ before r rest, requests = before ++ r :: rest → Succeeds version before r →
    r.name ∈ t.bindings.map (·.image)

/-- The names of the successful requests of a run, and of one more. -/
theorem holds_concat {version : Version} {requests : List Request} {r : Request} {names : List String}
    (hold : ∀ before r' rest, requests = before ++ r' :: rest → Succeeds version before r' →
      r'.name ∈ names)
    (hnew : Succeeds version requests r → r.name ∈ names) :
    ∀ before r' rest, requests ++ [r] = before ++ r' :: rest → Succeeds version before r' →
      r'.name ∈ names := by
  intro before r' rest he hs
  rcases List.eq_nil_or_concat rest with rfl | ⟨rest', last, rfl⟩
  · obtain ⟨rfl, hr⟩ := List.append_inj' he rfl
    obtain rfl := (List.cons.inj hr).1
    exact hnew hs
  · have he' : requests ++ [r] = (before ++ r' :: rest') ++ [last] := by simpa using he
    exact hold before r' rest' (List.append_inj' he' rfl).1 hs

/-- A request keeps what is kept. -/
theorem Kept.concat {version : Version} {requests : List Request} {t : Textures}
    (h : Kept version requests t) (ht : after version requests = t) (r : Request) :
    Kept version (requests ++ [r]) (r.step.run.run t).2 := by
  have hsame (hnew : Succeeds version requests r → r.name ∈ t.bindings.map (·.image)) :
      Kept version (requests ++ [r]) t :=
    ⟨h.shows, h.nodup, h.named, fun b hb => (h.stems b hb).concat r, holds_concat h.holds hnew⟩
  rcases r.step_cases t with ⟨failure, hrun⟩ | ⟨answer, hrun, ha, -⟩
  · rw [hrun]
    refine hsame fun hs => ?_
    obtain ⟨answer, t', hs⟩ := hs
    rw [ht, hrun] at hs
    cases hs
  · rw [hrun]
    rcases keep_cases r.images t r.name with ⟨hk, hc⟩ | ⟨hc, image, -, him, hk⟩
    · rw [hk]
      exact hsame fun _ => (h.shows.contains_iff r.name).1 (hc.resolve_right fun hn => hn ha)
    · have hfresh : r.name ∉ t.bindings.map (·.image) := fun hn => hc ((h.shows.contains_iff r.name).2 hn)
      rw [hk]
      refine ⟨⟨h.shows.1, ?_⟩, ?_, ?_, ?_, holds_concat (fun before r' rest he hs => ?_) fun _ => ?_⟩
      · simp [h.shows.2, entry, h.shows.1]
      · rw [List.map_append]
        refine List.nodup_append.2 ⟨h.nodup, by simp, ?_⟩
        intro a hn b hb he
        obtain rfl : b = r.name := List.mem_singleton.1 hb
        exact hfresh (he ▸ hn)
      · exact List.forall_mem_append.2 ⟨h.named, List.forall_mem_singleton.2 ha.1⟩
      · refine List.forall_mem_append.2 ⟨fun b hb => (h.stems b hb).concat r, List.forall_mem_singleton.2 ?_⟩
        -- an earlier success would have left a binding
        refine ⟨requests, r, [], image, rfl, rfl, ⟨answer, _, by rw [ht]; exact hrun⟩, him, rfl, rfl, ?_⟩
        intro first r' later he hname hs
        have hheld := h.holds first r' later he hs
        rw [show r'.name = r.name from hname] at hheld
        exact hfresh hheld
      · rw [List.map_append]
        exact List.mem_append_left _ (h.holds before r' rest he hs)
      · simp

/-- **What is kept over a run.** -/
theorem kept_after (version : Version) (requests : List Request) :
    Kept version requests (after version requests) := by
  induction requests using List.reverseRecOn with
  | nil =>
    refine ⟨empty_shows version, List.nodup_nil, by simp [after, empty], by simp [after, empty], ?_⟩
    intro before r rest he
    simp at he
  | append_singleton requests r ih =>
    rw [after_concat]
    exact ih.concat rfl r

/-- The bindings only grow. -/
theorem bindings_prefix_step (r : Request) (t : Textures) : t.bindings <+: (r.step.run.run t).2.bindings := by
  rcases r.step_cases t with ⟨failure, hrun⟩ | ⟨answer, hrun, -⟩
  · rw [hrun]
  · rw [hrun]
    rcases keep_cases r.images t r.name with ⟨hk, -⟩ | ⟨-, image, -, -, hk⟩
    · rw [hk]
    · rw [hk]
      exact List.prefix_append _ _

theorem bindings_prefix_after (version : Version) (requests more : List Request) :
    (after version requests).bindings <+: (after version (requests ++ more)).bindings := by
  induction more using List.reverseRecOn with
  | nil => rw [List.append_nil]
  | append_singleton more r ih =>
    rw [← List.append_assoc, after_concat]
    exact ih.trans (bindings_prefix_step r _)

end Textures

/-- A name that is accepted for an input is one. -/
theorem Compile.inputName_of_uniform {name : String} {shape : Shape} {s s' : Session} {t : Typed}
    (h : (Compile.uniform name shape).run.run s = (.ok t, s')) : InputName name := by
  by_contra hn
  unfold InputName at hn
  rw [Compile.uniform, if_neg hn] at h
  cases h

/-- No definition has a name that begins with an underscore. -/
theorem Definitions.head?_name_after (calls : List Build.Call) :
    ∀ e ∈ (after calls).entries, e.name.toList.head? ≠ some '_' := by
  intro e he
  obtain ⟨c, hc⟩ := exists_catalog calls
  rw [hc] at he
  obtain ⟨x, hx, rfl⟩ := List.mem_map.1 he
  exact Item.head?_name (c.closed.admissible x hx)

namespace Textures

/-- The two logs show the same images in the same order, each once; the images are named by
identifiers, and their readers have their texts in the dialect of the run. -/
structure InStep (version : Version) (t : Textures) : Prop where
  version_eq : t.version = version
  names_eq : t.readers.entries.map (·.name) = t.bindings.map (·.image)
  nodup : (t.bindings.map (·.image)).Nodup
  named : ∀ b ∈ t.bindings, Glsl.isIdentifier b.image
  sources : ∀ e ∈ t.readers.entries, e.category = .function ∧ readerText e.body = readerSource version e.name

/-- The readers declare five names for each image, all different, and different from the names of
definitions and of inputs. -/
structure SetApart (t : Textures) : Prop where
  declares_eq : t.declarations.map Declaration.declares = (t.bindings.map (·.image)).flatMap globals
  nodup : (t.declarations.map Declaration.declares).Nodup
  definitions : ∀ n ∈ t.declarations.map Declaration.declares,
    ∀ calls, ∀ e ∈ (Definitions.after calls).entries, e.name ≠ n
  inputs : ∀ n ∈ t.declarations.map Declaration.declares, ∀ name shape s typed s',
    (Compile.uniform name shape).run.run s = (.ok typed, s') → name ≠ n

theorem Kept.inStep {version : Version} {requests : List Request} {t : Textures}
    (h : Kept version requests t) : InStep version t := by
  refine ⟨h.shows.1, ?_, h.nodup, h.named, fun e he => ?_⟩
  · rw [h.shows.2]
    simp [entry, Function.comp_def]
  · rw [h.shows.2] at he
    obtain ⟨name, -, rfl⟩ := List.mem_map.1 he
    exact ⟨rfl, readerText_reader version name⟩

theorem Kept.declares_eq {version : Version} {requests : List Request} {t : Textures}
    (h : Kept version requests t) :
    t.declarations.map Declaration.declares = (t.bindings.map (·.image)).flatMap globals := by
  rw [h.shows.declarations_eq, List.map_flatMap]
  simp only [declares_reader]

theorem Kept.setApart {version : Version} {requests : List Request} {t : Textures}
    (h : Kept version requests t) : SetApart t := by
  have hhead : ∀ n ∈ t.declarations.map Declaration.declares, n.toList.head? = some '_' := by
    intro n hn
    rw [h.declares_eq] at hn
    obtain ⟨image, -, hn⟩ := List.mem_flatMap.1 hn
    exact head?_of_mem_globals hn
  refine ⟨h.declares_eq, ?_, fun n hn calls e he heq => ?_, fun n hn name shape s typed s' hu => ?_⟩
  · rw [h.declares_eq]
    exact nodup_globals h.nodup
  · exact Definitions.head?_name_after calls e he (heq ▸ hhead n hn)
  · exact (Compile.inputName_of_uniform hu).ne_of_head? (hhead n hn)

/-- The readers of an image for which a request has succeeded are declared. -/
theorem Kept.reader_mem {version : Version} {requests : List Request} {t : Textures}
    (h : Kept version requests t) {name : String} (hn : name ∈ t.bindings.map (·.image)) (channels : Channels) :
    channels.reader name ∈ t.declarations.map Declaration.declares := by
  rw [h.declares_eq, List.mem_flatMap]
  refine ⟨name, hn, ?_⟩
  cases channels <;> simp [Channels.reader, globals, globalPrefixes]

/-- **Readers and bindings stay in step.**  After any requests, with any images at each of them, the
logs are in step, and what the readers declare is set apart from all other names.  Each binding has the
numbers of its image at the first request that succeeded, and later requests leave it as it is.  The
next request has the outcome that the textures give; if it fails it changes nothing, and if it
succeeds it is answered by a call of a reader that is there. -/
theorem readers_in_lockstep (version : Version) (requests : List Request) :
    InStep version (after version requests) ∧ SetApart (after version requests) ∧
      (∀ b ∈ (after version requests).bindings, Stems version requests b) ∧
      (∀ more, (after version requests).bindings <+: (after version (requests ++ more)).bindings) ∧
      ∀ r : Request,
        (r.step.run.run (after version requests) = match r.outcome (after version requests) with
          | .ok (answer, t) => (.ok answer, t)
          | .error failure => (.error failure, after version requests)) ∧
        (∀ failure t, r.step.run.run (after version requests) = (.error failure, t) →
          t = after version requests) ∧
        ∀ answer t, r.step.run.run (after version requests) = (.ok answer, t) →
          r.Calls answer ∧ ∀ channels, Channels.reader channels r.name ∈ t.declarations.map Declaration.declares := by
  have hkept := kept_after version requests
  refine ⟨hkept.inStep, hkept.setApart, hkept.stems, bindings_prefix_after version requests, fun r => ?_⟩
  refine ⟨r.run_step _, fun failure t h => ?_, fun answer t h => ?_⟩
  · rcases r.step_cases (after version requests) with ⟨failure', hrun⟩ | ⟨answer, hrun, -⟩
    · exact (Prod.mk.inj (h.symm.trans hrun)).2
    · cases (Prod.mk.inj (h.symm.trans hrun)).1
  · rcases r.step_cases (after version requests) with ⟨failure', hrun⟩ | ⟨answer', hrun, -, hcalls⟩
    · cases (Prod.mk.inj (h.symm.trans hrun)).1
    · obtain rfl := Except.ok.inj (Prod.mk.inj (h.symm.trans hrun)).1
      have hnext := kept_after version (requests ++ [r])
      rw [after_concat, h] at hnext
      exact ⟨hcalls, hnext.reader_mem (hnext.holds requests r [] rfl ⟨answer, t, h⟩)⟩

end Textures
end ShaderAlgebra
