import ShaderAlgebra.Texture

/-!
# Asking for the reader of an image

Whether a reader can be had depends on the image alone (`Available`), and how it fails does too;
the readers that were made before have no say in it.  `Textures.keep` is what the textures
are after a request, whatever its outcome.
-/

namespace ShaderAlgebra

/-- An image that can be read. -/
def Available (images : String → Option Image) (name : String) : Prop :=
  Glsl.isIdentifier name ∧ ∃ image, images name = some image ∧ image.isUsable

instance (images : String → Option Image) (name : String) : Decidable (Available images name) :=
  match h : images name with
  | none => .isFalse fun ⟨_, _, hi, _⟩ => by rw [h] at hi; cases hi
  | some image =>
    decidable_of_iff (Glsl.isIdentifier name ∧ image.isUsable)
      ⟨fun hu => ⟨hu.1, image, h, hu.2⟩, fun ⟨hn, _, hi, hu⟩ => by
        rw [h] at hi
        cases hi
        exact ⟨hn, hu⟩⟩

/-- Why an image that is not available cannot be read. -/
def Failure.ofImage (name : String) : Failure :=
  if Glsl.isIdentifier name then .image name else .identifier name

theorem Failure.ofImage_isRecoverable (name : String) : (ofImage name).isRecoverable := by
  unfold ofImage
  split <;> rfl

namespace Textures

variable {images : String → Option Image} {name : String}

/-- The textures after a request for the reader of an image. -/
def keep (images : String → Option Image) (t : Textures) (name : String) : Textures :=
  match t.ensure images name with
  | .ok (_, t') => t'
  | .error _ => t

/-- The textures after requests in order. -/
def keepAll (images : String → Option Image) (t : Textures) (names : List String) : Textures :=
  names.foldl (keep images) t

/-- A request for an image that can be read succeeds. -/
theorem ensure_of_available (h : Available images name) (t : Textures) :
    ∃ e, t.ensure images name = .ok (e, t.keep images name) := by
  obtain ⟨hid, image, him, hus⟩ := h
  have : ∃ r, t.ensure images name = .ok r := by
    simp only [ensure, hid, him, hus]
    cases t.readers.add .function name fun _ => reader t.version name with
    | mk e readers => cases e <;> exact ⟨_, rfl⟩
  obtain ⟨⟨e, t'⟩, hr⟩ := this
  exact ⟨e, by rw [keep, hr]⟩

/-- A request for any other image fails, in one way whatever the textures are. -/
theorem ensure_eq_error (h : ¬ Available images name) (t : Textures) :
    t.ensure images name = .error (.ofImage name) := by
  by_cases hid : Glsl.isIdentifier name
  · rw [Failure.ofImage, if_pos hid]
    cases him : images name with
    | none => simp only [ensure, hid, him]; rfl
    | some image =>
      have hus : ¬ image.isUsable := fun hus => h ⟨hid, image, him, hus⟩
      simp only [ensure, hid, him, hus]
      rfl
  · rw [Failure.ofImage, if_neg hid]
    simp only [ensure, hid]
    rfl

/-- A read of an image that can be read calls its reader. -/
theorem read_of_available (h : Available images name) (t : Textures) (channels : Channels)
    (a b p : Glsl.Term) : t.read images channels name a b p =
      .ok (.apply (channels.reader name) [a, b, p], t.keep images name) := by
  obtain ⟨e, he⟩ := ensure_of_available h t
  rw [read, he]
  rfl

theorem read_eq_error (h : ¬ Available images name) (t : Textures) (channels : Channels)
    (a b p : Glsl.Term) : t.read images channels name a b p = .error (.ofImage name) := by
  rw [read, ensure_eq_error h]
  rfl

/-- A read on the bottom edge of the viewport is a read between its corners. -/
theorem readInViewport_eq {viewport : Viewport} {a b : Glsl.Term}
    (ha : point viewport.lowerLeft = .ok a) (hb : point viewport.lowerRight = .ok b)
    (images : String → Option Image) (channels : Channels) (name : String) (p : Glsl.Term) :
    (fun t : Textures => t.readInViewport images viewport channels name p) =
      fun t => t.read images channels name a b p := by
  funext t
  rw [readInViewport, ha, hb]
  rfl

/-- A request enters the reader and its binding at the end, or changes nothing. -/
theorem keep_cases (images : String → Option Image) (t : Textures) (name : String) :
    (t.keep images name = t ∧ (t.readers.contains .function name ∨ ¬ Available images name)) ∨
      (¬ t.readers.contains .function name ∧ ∃ image, Available images name ∧
        images name = some image ∧ t.keep images name =
          { t with
            readers := t.readers.push .function name (reader t.version name)
            bindings := t.bindings ++ [⟨name, image.ratio, image.cropFactor⟩] }) := by
  by_cases h : Available images name
  · obtain ⟨hid, image, him, hus⟩ := id h
    cases hc : t.readers.contains .function name with
    | true =>
      refine .inl ⟨?_, .inl rfl⟩
      simp only [keep, ensure, hid, him, hus, Registry.add_eq, hc]
      rfl
    | false =>
      refine .inr ⟨Bool.false_ne_true, image, h, him, ?_⟩
      simp only [keep, ensure, hid, him, hus, Registry.add_eq, hc]
      rfl
  · exact .inl ⟨by rw [keep, ensure_eq_error h], .inr h⟩

/-- The entry of the reader of an image. -/
def entry (version : Version) (name : String) : Entry (List Glsl.Declaration) :=
  ⟨.function, name, reader version name⟩

/-- The textures hold the readers of these images, and no others. -/
def Shows (version : Version) (t : Textures) (names : List String) : Prop :=
  t.version = version ∧ t.readers.entries = names.map (entry version)

theorem empty_shows (version : Version) : Shows version (empty version) [] :=
  ⟨rfl, rfl⟩

/-- A reader is present exactly if its image is among those shown. -/
theorem Shows.contains_iff {version : Version} {t : Textures} {names : List String}
    (h : Shows version t names) (name : String) : t.readers.contains .function name ↔ name ∈ names := by
  simp [Registry.contains_eq_any, h.2, entry, Registry.keyed]

/-- A request keeps the readers, and adds that of an image that can be read. -/
theorem Shows.keep {version : Version} {t : Textures} {names : List String}
    (h : Shows version t names) (images : String → Option Image) (name : String) :
    ∃ names', Shows version (t.keep images name) names' ∧ names ⊆ names' ∧
      (Available images name → name ∈ names') := by
  rcases keep_cases images t name with ⟨hk, hc⟩ | ⟨-, image, -, -, hk⟩
  · refine ⟨names, hk.symm ▸ h, List.Subset.refl _, fun ha => ?_⟩
    exact (h.contains_iff name).1 (hc.resolve_right fun hn => hn ha)
  · obtain ⟨rfl, he⟩ := h
    refine ⟨names ++ [name], hk.symm ▸ ⟨rfl, ?_⟩, List.subset_append_left _ _, fun _ => by simp⟩
    simp [he, entry]

theorem Shows.keepAll {version : Version} (images : String → Option Image) (requests : List String)
    {t : Textures} {names : List String} (h : Shows version t names) :
    ∃ names', Shows version (t.keepAll images requests) names' ∧ names ⊆ names' ∧
      ∀ name ∈ requests, Available images name → name ∈ names' := by
  induction requests generalizing t names with
  | nil => exact ⟨names, h, List.Subset.refl _, by simp⟩
  | cons name requests ih =>
    obtain ⟨names₁, h₁, hsub₁, ha₁⟩ := h.keep images name
    obtain ⟨names₂, h₂, hsub₂, ha₂⟩ := ih h₁
    refine ⟨names₂, h₂, fun n hn => hsub₂ (hsub₁ hn), fun n hn ha => ?_⟩
    rcases List.mem_cons.1 hn with rfl | hn
    · exact hsub₂ (ha₁ ha)
    · exact ha₂ n hn ha

/-- Readers of images whose names are identifiers. -/
def Named (t : Textures) : Prop :=
  ∀ e ∈ t.readers.entries, Glsl.isIdentifier e.name

/-- A request makes no reader for a name that is not an identifier. -/
theorem Named.keep {t : Textures} (h : t.Named) (images : String → Option Image) (name : String) :
    (t.keep images name).Named := by
  rcases keep_cases images t name with ⟨hk, -⟩ | ⟨-, image, ha, -, hk⟩
  · rwa [hk]
  · rw [hk]
    exact List.forall_mem_append.2 ⟨h, List.forall_mem_singleton.2 ha.1⟩

theorem Named.keepAll {t : Textures} (h : t.Named) (images : String → Option Image)
    (names : List String) : (t.keepAll images names).Named := by
  induction names generalizing t with
  | nil => exact h
  | cons name names ih => exact ih (h.keep images name)

end Textures

/-- **The readers that a session with the same images throughout has made:** images that can be
read, each once. -/
structure Gallery (images : String → Option Image) where
  names : List String
  available : ∀ name ∈ names, Available images name
  nodup : names.Nodup

namespace Gallery

variable {images : String → Option Image}

/-- The uniforms of an image, if there is one. -/
def binding? (images : String → Option Image) (name : String) : Option TextureBinding :=
  (images name).map fun image => ⟨name, image.ratio, image.cropFactor⟩

/-- The textures that a gallery stands for. -/
def textures (version : Version) (g : Gallery images) : Textures :=
  ⟨version, { entries := g.names.map (Textures.entry version) }, g.names.filterMap (binding? images)⟩

/-- The gallery without readers. -/
def empty (images : String → Option Image) : Gallery images :=
  ⟨[], by simp, List.nodup_nil⟩

theorem contains_iff (version : Version) (g : Gallery images) (name : String) :
    (g.textures version).readers.contains .function name ↔ name ∈ g.names :=
  Textures.Shows.contains_iff ⟨rfl, rfl⟩ name

/-- A request adds the image at the end, unless it is there or cannot be read. -/
theorem textures_keep (version : Version) (g : Gallery images) (name : String) :
    ∃ g' : Gallery images, (g.textures version).keep images name = g'.textures version ∧
      (∀ n, n ∈ g'.names ↔ n ∈ g.names ∨ n = name ∧ Available images n) ∧
      ((Available images name → name ∈ g.names) → g' = g) := by
  rcases Textures.keep_cases images (g.textures version) name with ⟨hk, h⟩ | ⟨hc, image, ha, him, hk⟩
  · rw [contains_iff] at h
    refine ⟨g, hk, fun n => ⟨.inl, ?_⟩, fun _ => rfl⟩
    rintro (hn | ⟨rfl, hn⟩)
    · exact hn
    · exact h.resolve_right fun h => h hn
  · rw [contains_iff] at hc
    refine ⟨⟨g.names ++ [name], ?_, ?_⟩, ?_, fun n => ?_, fun h => absurd (h ha) hc⟩
    · intro n hn
      rcases List.mem_append.1 hn with hn | hn
      · exact g.available n hn
      · exact List.mem_singleton.1 hn ▸ ha
    · refine List.nodup_append.2 ⟨g.nodup, by simp, ?_⟩
      rintro a hn b hb rfl
      exact hc (List.mem_singleton.1 hb ▸ hn)
    · rw [hk]
      simp [textures, Registry.push, Textures.entry, binding?, him, Entry.places_concat, Entry.key]
    · rw [List.mem_append, List.mem_singleton]
      constructor
      · exact Or.imp_right fun h => ⟨h, h ▸ ha⟩
      · exact Or.imp_right And.left

/-- Requests in order. -/
theorem textures_keepAll (version : Version) (names : List String) (g : Gallery images) :
    ∃ g' : Gallery images, (g.textures version).keepAll images names = g'.textures version ∧
      (∀ n, n ∈ g'.names ↔ n ∈ g.names ∨ n ∈ names ∧ Available images n) ∧
      ((∀ n ∈ names, Available images n → n ∈ g.names) → g' = g) := by
  induction names generalizing g with
  | nil => exact ⟨g, rfl, by simp, fun _ => rfl⟩
  | cons name names ih =>
    obtain ⟨g₁, h₁, hn₁, he₁⟩ := g.textures_keep version name
    obtain ⟨g₂, h₂, hn₂, he₂⟩ := ih g₁
    refine ⟨g₂, ?_, fun n => ?_, fun h => ?_⟩
    · rw [← h₂, ← h₁]
      rfl
    · rw [hn₂, hn₁, List.mem_cons, or_and_right, or_assoc]
    · obtain rfl := he₁ (h name List.mem_cons_self)
      exact he₂ fun n hn => h n (List.mem_cons_of_mem _ hn)

end Gallery
end ShaderAlgebra
