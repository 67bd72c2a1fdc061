import ShaderAlgebra.Proofs.History
import ShaderAlgebra.Proofs.Shaping

/-!
# What compiling does to a session

A compilation that has come some way has met inputs and reads of images, and the session shows
which (`Compile.reached`): the inputs are there once each, and every read has
left a texture reader or a diagnostic.  `Compile.Gives` says that a step succeeds wherever
a compilation has come, with a value of some kind, and which inputs and reads it meets.

An expression that has a shape is compiled, and its inputs and reads
are met in the order in which it is evaluated (`Compile.gives_node`).
-/

namespace ShaderAlgebra

open Glsl (Term)

namespace Expr

mutual

/-- The reads of images in an expression, in the order of evaluation. -/
def reads : Expr → List (Channels × String)
  | real _ | complex _ _ | uniform _ _ | pixel => []
  | list es => readsAll es
  | binary _ lhs rhs => lhs.reads ++ rhs.reads
  | sum arg | element arg _ => arg.reads
  | image channels name point => point.reads ++ [(channels, name)]
  | imageOn channels name a b point =>
    point.reads ++ (a.reads ++ (b.reads ++ [(channels, name)]))

/-- The reads of images in expressions, in the order of evaluation. -/
def readsAll : List Expr → List (Channels × String)
  | [] => []
  | e :: es => e.reads ++ readsAll es

end

end Expr

/-- The diagnostic that a read leaves, if its image is not available. -/
def Diagnostic.ofRead? (images : String → Option Image) (read : Channels × String) :
    Option Diagnostic :=
  if Available images read.2 then none else some ⟨read.1.node, (Failure.ofImage read.2).message⟩

namespace Compile

variable {images : String → Option Image} {settings : Settings} {α β : Type}
variable {is js : List (String × Shape)} {rs rs' : List (Channels × String)}

/-- A session in which a compilation has met these inputs and reads. -/
def reached (images : String → Option Image) (settings : Settings) (c : Catalog) (t : Textures)
    (inputs : List (String × Shape)) (reads : List (Channels × String)) : Session where
  settings := settings
  definitions := c.definitions
  textures := t.keepAll images (reads.map Prod.snd)
  uniforms := inputs.eraseDups
  diagnostics := reads.filterMap (Diagnostic.ofRead? images)

/-- The step succeeds, and it meets these inputs and reads. -/
def Gives (images : String → Option Image) (settings : Settings) (m : Compile α)
    (inputs : List (String × Shape)) (reads : List (Channels × String)) (post : α → Prop) : Prop :=
  ∀ (c : Catalog) (t : Textures) (seen : List (String × Shape)) (asked : List (Channels × String)),
    Consistent (seen ++ inputs) → ∃ (c' : Catalog) (a : α), post a ∧
      m.run.run (reached images settings c t seen asked) =
        (.ok a, reached images settings c' t (seen ++ inputs) (asked ++ reads))

/-! ## One step after another -/

theorem Gives.bind {m : Compile α} {f : α → Compile β} {p : α → Prop} {q : β → Prop}
    (hm : Gives images settings m is rs p) (hf : ∀ a, p a → Gives images settings (f a) js rs' q) :
    Gives images settings (m >>= f) (is ++ js) (rs ++ rs') q := by
  intro c t seen asked hc
  rw [← List.append_assoc] at hc
  obtain ⟨c₁, a, ha, h₁⟩ := hm c t seen asked (hc.mono (List.subset_append_left _ _))
  obtain ⟨c₂, b, hb, h₂⟩ := hf a ha c₁ t (seen ++ is) (asked ++ rs) hc
  refine ⟨c₂, b, hb, ?_⟩
  rw [ExceptT.run_bind, StateT.run_bind, h₁]
  refine h₂.trans ?_
  rw [List.append_assoc, List.append_assoc]

/-- A step followed by one that meets no inputs. -/
theorem Gives.bind_read {m : Compile α} {f : α → Compile β} {p : α → Prop} {q : β → Prop}
    (hm : Gives images settings m is rs p) (hf : ∀ a, p a → Gives images settings (f a) [] rs' q) :
    Gives images settings (m >>= f) is (rs ++ rs') q := by
  have := hm.bind hf
  rwa [List.append_nil] at this

/-- A step followed by one that meets nothing. -/
theorem Gives.bind_quiet {m : Compile α} {f : α → Compile β} {p : α → Prop} {q : β → Prop}
    (hm : Gives images settings m is rs p) (hf : ∀ a, p a → Gives images settings (f a) [] [] q) :
    Gives images settings (m >>= f) is rs q := by
  have := hm.bind_read hf
  rwa [List.append_nil] at this

theorem gives_pure {a : α} {p : α → Prop} (h : p a) : Gives images settings (pure a) [] [] p := by
  intro c t seen asked _
  refine ⟨c, a, h, ?_⟩
  rw [List.append_nil, List.append_nil]
  rfl

/-- A synthesis step that settles. -/
theorem gives_build {b : Build α} {a : α} {items : List Item} (h : Build.Settles b (.ok a) items) :
    Gives images settings (build b) [] [] (· = a) := by
  intro c t seen asked _
  obtain ⟨c', hr, -⟩ := h c
  refine ⟨c', a, rfl, ?_⟩
  rw [List.append_nil, List.append_nil, run_build]
  simp only [reached, hr]

/-- A synthesis step, with its term as the value. -/
theorem gives_typed {b : Build Term} {a : Term} {items : List Item} (s : Shape)
    (h : Build.Settles b (.ok a) items) :
    Gives images settings (do return (⟨s, ← build b⟩ : Typed)) [] [] (·.shape = s) :=
  (gives_build h).bind_quiet fun _ _ => gives_pure rfl

/-! ## Operations on compiled operands -/

theorem gives_list {ts : List Typed} {s : Shape} (h : Shape.Lists (ts.map (·.shape)) s)
    (hne : 1 ≤ ts.length) (hmax : ts.length ≤ maxDimension) (hv : ∀ t ∈ ts, t.shape.Valid) :
    Gives images settings (list ts) [] [] (·.shape = s) := by
  obtain ⟨e, hall, hs⟩ := h.promoteAll (by rwa [List.length_map]) (by rwa [List.length_map])
    (List.forall_mem_map.2 hv)
  rw [← shapes_promoteAll, List.forall_mem_map] at hall
  rw [List.length_map, ← length_promoteAll] at hs
  rw [← length_promoteAll] at hne
  unfold list
  dsimp only
  generalize promoteAll ts = items at hall hs hne
  cases items with
  | nil => cases hne
  | cons first rest =>
    obtain rfl := hall first List.mem_cons_self
    have hfind : (first :: rest).find? (·.shape ≠ first.shape) = none := by
      simpa using hall
    obtain ⟨hv, hn, -⟩ := listShape_valid hs
    have hlen : ((first :: rest).map (·.term)).length = s.length?.getD 1 := by
      rw [hn, Option.getD_some, List.length_map]
    simp only [hfind, hs]
    exact gives_typed s (Build.settles_construct hv hlen)

theorem gives_uniform {name : String} {s : Shape} (hn : InputName name) (hv : s.Valid) :
    Gives images settings (uniform name s) [(name, s)] [] (·.shape = s) := by
  intro c t seen asked hc
  unfold uniform
  dsimp only
  refine (if_pos hn).symm ▸ ?_
  rw [Shape.validate_eq_ok_iff.2 hv]
  change ∃ c' a, _ ∧ (get >>= _ : Compile Typed).run.run _ = _
  simp only [run_get_bind, List.append_nil]
  cases hl : seen.eraseDups.lookup name with
  | some known =>
    have hmem : (name, known) ∈ seen := List.mem_eraseDups.1 (mem_of_lookup hl)
    -- The name was met before, so it was met with this shape.
    obtain rfl : known = s := hc (name, known) (List.mem_append_left _ hmem) (name, s)
      (List.mem_append_right _ List.mem_cons_self) rfl
    refine ⟨c, ⟨known, .name name⟩, rfl, ?_⟩
    simp only [reached, eraseDups_concat_of_mem hmem, hl, if_true]
    rfl
  | none =>
    have hmem : (name, s) ∉ seen := fun hmem => by
      have := List.lookup_eq_none_iff.1 hl (name, s) (List.mem_eraseDups.2 hmem)
      simp at this
    obtain ⟨c', hr, -⟩ := Build.settles_define hv c
    refine ⟨c', ⟨s, .name name⟩, rfl, ?_⟩
    simp only [reached, eraseDups_concat_of_not_mem hmem, hl]
    rw [ExceptT.run_bind, StateT.run_bind, run_build, hr]
    rfl

/-! ## Sums, differences and products -/

theorem gives_additive (w : Entrywise) {l r : Typed} {s : Shape}
    (h : Shape.Adds (l.shape.beside r.shape) (r.shape.beside l.shape) s) (hv : s.Valid) :
    Gives images settings (additive w l r) [] [] (·.shape = s) := by
  unfold additive
  rw [unify_eq_beside]
  dsimp only
  generalize l.shape.beside r.shape = ls, r.shape.beside l.shape = rs at h
  cases h with
  | same hk =>
    rw [if_pos rfl]
    exact gives_typed s (Build.settles_entrywise w hv hk l.term r.term)
  | realComplex => exact gives_typed .complex (Build.settles_entrywise w hv rfl _ _)
  | complexReal => exact gives_typed .complex (Build.settles_entrywise w hv rfl _ _)

theorem gives_dot {n : Nat} {k : Scalar} (hv : (Shape.vector n k).Valid) (l r : Term) :
    Gives images settings (dot (.vector n k) (.vector n k) l r) [] [] (·.shape = .scalar k) := by
  unfold dot
  simp only [if_true]
  cases k with
  | bool | int => cases hv.2
  | real => exact gives_typed .real (Build.settles_dot hv l r)
  | complex => exact gives_typed .complex (Build.settles_complexDot hv l r)

theorem gives_matrixProduct {m n : Nat} {k : Scalar} (hv : (Shape.matrix m n k).Valid) (a b : Term) :
    Gives images settings (matrixProduct m n k a b) [] [] (·.shape = .vector m k) := by
  have hs : (Shape.vector m k).checked = .ok (.vector m k) := checked_eq_ok_iff.2 ⟨⟨hv.1, hv.2.2⟩, rfl⟩
  unfold matrixProduct
  rw [hs]
  cases k with
  | bool | int => cases hv.2.2
  | real => exact gives_typed _ (Build.settles_matVec hv a b)
  | complex => exact gives_typed _ (Build.settles_complexMatVec hv a b)

/-- Scaling by a real number. -/
theorem gives_scale {s : Shape} (hd : 1 ≤ s.depth) (hv : s.Valid) (x v : Term) :
    Gives images settings (do return (⟨s, ← build (Build.scale s x v)⟩ : Typed)) [] []
      (·.shape = s) := by
  obtain ⟨e, he⟩ := Shape.exists_element? hd
  exact gives_typed s (Build.settles_entrywise .scale hv (Shape.kind_isField hv he) x v)

/-- Scaling by a complex number. -/
theorem gives_complexScale {s : Shape} (hd : 1 ≤ s.depth) (hk : s.kind = .complex) (hv : s.Valid)
    (x v : Term) : Gives images settings
      (do return (⟨s, ← build (Build.complexScale s x v)⟩ : Typed)) [] [] (·.shape = s) :=
  gives_typed s (Build.settles_complexScale (Operation.complexScale_hasHelper hd hk hv) x v)

theorem gives_product {ls rs s : Shape} (h : Shape.Times ls rs s) (hl : ls.Valid) (hr : rs.Valid)
    (l r : Term) : Gives images settings (product ls rs l r) [] [] (·.shape = s) := by
  cases h with
  | reals | realComplex | complexReal => exact gives_pure rfl
  | complexes => exact gives_typed .complex (Build.settles_complexMul l r)
  | scale hd =>
    cases rs with
    | scalar k => cases hd
    | vector n k | matrix m n k => exact gives_scale hd hr l r
  | scaleRight hd =>
    cases ls with
    | scalar k => cases hd
    | vector n k | matrix m n k => exact gives_scale hd hl r l
  | complexScale hd hk =>
    cases rs with
    | scalar k => cases hd
    | vector n k | matrix m n k =>
      obtain rfl : k = .complex := hk
      exact gives_complexScale hd rfl hr l r
  | complexScaleRight hd hk =>
    cases ls with
    | scalar k => cases hd
    | vector n k | matrix m n k =>
      obtain rfl : k = .complex := hk
      exact gives_complexScale hd rfl hl r l
  | @matVec m n k =>
    have : product (.matrix m n k) (.vector n k) l r = matrixProduct m n k l r := by
      simp [product]
    rw [this]
    exact gives_matrixProduct hl l r
  | @dot n k => exact gives_dot hl l r

theorem gives_binary {op : Binary} {l r : Typed} {s : Shape} (h : op.Takes l.shape r.shape s)
    (hl : l.shape.Valid) (hr : r.shape.Valid) :
    Gives images settings (binary op l r) [] [] (·.shape = s) := by
  have hv := h.valid hl hr
  have hl' := (l.shape.beside_readAs r.shape).valid hl
  have hr' := (r.shape.beside_readAs l.shape).valid hr
  obtain ⟨ls, l⟩ := l
  obtain ⟨rs, r⟩ := r
  unfold binary
  cases h with
  | add h => exact gives_additive .add h hv
  | sub h => exact gives_additive .sub h hv
  | mul h =>
    rw [unify_eq_beside]
    exact gives_product h hl' hr' l r
  | dot => exact gives_dot hl l r

/-! ## Parts -/

theorem gives_sum {arg : Typed} {e : Shape} (hv : arg.shape.Valid) (he : arg.shape.element? = some e) :
    Gives images settings (sum arg) [] [] (·.shape = e) := by
  unfold sum
  rw [he]
  exact gives_typed e (Build.settles_sum hv (Shape.kind_isField hv he) he arg.term)

theorem gives_element {arg : Typed} {e : Shape} {n i : Nat} (hv : arg.shape.Valid)
    (he : arg.shape.element? = some e) (hn : arg.shape.length? = some n) (hi : i < n) :
    Gives images settings (element arg i) [] [] (·.shape = e) := by
  unfold element
  refine (gives_build (Build.settles_element hv he hn hi)).bind_quiet fun item _ => gives_pure ?_
  rw [he]
  rfl

theorem gives_point {arg : Typed} (h : arg.shape.IsPoint) :
    Gives images settings (point arg) [] [] fun _ => True := by
  unfold point
  rw [if_pos (show arg.shape = .realVector 2 ∨ arg.shape = .complex from h)]
  exact gives_pure trivial

/-! ## Reads of images -/

/-- A read of an image that is there leaves a texture reader. -/
theorem reached_available {name : String} (h : Available images name) (c : Catalog) (t : Textures)
    (seen : List (String × Shape)) (asked : List (Channels × String)) (channels : Channels) :
    reached images settings c t seen (asked ++ [(channels, name)]) =
      { reached images settings c t seen asked with
        textures := (t.keepAll images (asked.map Prod.snd)).keep images name } := by
  simp [reached, Textures.keepAll, Diagnostic.ofRead?, h]

/-- A read of an image that is not there leaves a diagnostic. -/
theorem reached_missing {name : String} (h : ¬ Available images name) (c : Catalog) (t : Textures)
    (seen : List (String × Shape)) (asked : List (Channels × String)) (channels : Channels) :
    reached images settings c t seen (asked ++ [(channels, name)]) =
      { reached images settings c t seen asked with
        diagnostics := asked.filterMap (Diagnostic.ofRead? images) ++
          [⟨channels.node, (Failure.ofImage name).message⟩] } := by
  have hkeep : ∀ t : Textures, t.keep images name = t := fun t => by
    rw [Textures.keep, Textures.ensure_eq_error h]
  simp [reached, Textures.keepAll, Diagnostic.ofRead?, h, hkeep]

theorem gives_read (channels : Channels) (name : String) (a b p : Term) :
    Gives images settings (read channels fun t => t.read images channels name a b p)
      [] [(channels, name)] (·.shape = channels.shape) := by
  intro c t seen asked _
  rw [List.append_nil]
  unfold read
  simp only [run_get_bind]
  by_cases h : Available images name
  · refine ⟨c, ⟨channels.shape, .apply (channels.reader name) [a, b, p]⟩, rfl, ?_⟩
    rw [reached_available h, Textures.read_of_available h]
    rfl
  · obtain ⟨hv, hk, -⟩ := channels.shape_native
    obtain ⟨c', hrun, -⟩ := Build.settles_fill (x := .zero false) hv hk rfl c
    refine ⟨c', ⟨channels.shape, channels.shape.filled (.literal .zero)⟩, rfl, ?_⟩
    rw [reached_missing h, Textures.read_eq_error h]
    simp only [Failure.ofImage_isRecoverable, if_true]
    rw [run_modify_bind, ExceptT.run_bind, StateT.run_bind, run_build, reached, hrun]
    rfl

/-- A point that is finite has a term. -/
theorem point_of_isFinite {p : Point} (h : p.IsFinite) : ∃ t, Textures.point p = .ok t := by
  unfold Textures.point literal?
  rw [if_pos h.1, if_pos h.2]
  exact ⟨_, rfl⟩

theorem gives_readInViewport (hl : settings.viewport.lowerLeft.IsFinite)
    (hr : settings.viewport.lowerRight.IsFinite) (channels : Channels) (name : String) (p : Term) :
    Gives images settings
      (read channels fun t => t.readInViewport images settings.viewport channels name p)
      [] [(channels, name)] (·.shape = channels.shape) := by
  obtain ⟨a, ha⟩ := point_of_isFinite hl
  obtain ⟨b, hb⟩ := point_of_isFinite hr
  rw [Textures.readInViewport_eq ha hb]
  exact gives_read channels name a b p

/-- A step that starts from the viewport. -/
theorem gives_viewport {f : Viewport → Compile α} {p : α → Prop}
    (h : Gives images settings (f settings.viewport) is rs p) :
    Gives images settings (do f (← get).settings.viewport) is rs p :=
  h

/-! ## Whole expressions -/

theorem literal?_of_isFinite {x : Binary64} (h : x.isFinite) : literal? x = .ok (.shortest .up x) :=
  if_pos h

/-- An expression that is compiled as a point. -/
theorem Gives.point {e : Expr} {s : Shape}
    (h : Gives images settings (node images e) is rs (·.shape = s)) (hs : s.IsPoint) :
    Gives images settings (node images e >>= point) is rs fun _ => True :=
  h.bind_quiet fun _ ht => gives_point (ht ▸ hs)

mutual

/-- **An expression of a shape is compiled,** to a term of that shape. -/
theorem gives_node : ∀ {e : Expr} {s : Shape}, HasShape settings.viewport e s →
    Gives images settings (node images e) e.inputs e.reads (·.shape = s)
  | _, _, .real hx => by
    rw [node, literal?_of_isFinite hx]
    exact gives_pure rfl
  | _, _, .complex hx hy => by
    rw [node, literal?_of_isFinite hx, literal?_of_isFinite hy]
    exact gives_pure rfl
  | _, _, .list hes hne hmax hs => by
    rw [node]
    refine (gives_nodes hes).bind_quiet fun ts hts => ?_
    rw [← hts, List.length_map] at hne hmax
    refine gives_list (hts ▸ hs) hne hmax ?_
    exact List.forall_mem_map.1 (hts ▸ hes.valid)
  | _, _, .uniform hn hv => by
    rw [node]
    exact gives_uniform hn hv
  | _, _, .pixel => by
    rw [node]
    exact gives_pure rfl
  | _, _, .binary hl hr hs => by
    rw [node]
    refine (gives_node hl).bind fun l hls => (gives_node hr).bind_quiet fun r hrs => ?_
    subst hls hrs
    exact gives_binary hs hl.valid hr.valid
  | _, _, .sum hs he => by
    rw [node]
    refine (gives_node hs).bind_quiet fun t ht => ?_
    subst ht
    exact gives_sum hs.valid he
  | _, _, .element hs he hn hi => by
    rw [node]
    refine (gives_node hs).bind_quiet fun t ht => ?_
    subst ht
    exact gives_element hs.valid he hn hi
  | _, _, .image hp hpp hl hr => by
    rw [node]
    exact ((gives_node hp).point hpp).bind_read fun p _ =>
      gives_viewport (f := fun v => read _ fun t => t.readInViewport images v _ _ p)
        (gives_readInViewport hl hr _ _ p)
  | _, _, .imageOn hp hpp ha hap hb hbp => by
    rw [node]
    exact ((gives_node hp).point hpp).bind fun p _ => ((gives_node ha).point hap).bind fun a _ =>
      ((gives_node hb).point hbp).bind_read fun b _ => gives_read _ _ a b p

theorem gives_nodes : ∀ {es : List Expr} {ss : List Shape}, HaveShapes settings.viewport es ss →
    Gives images settings (nodes images es) (Expr.inputsAll es) (Expr.readsAll es)
      fun ts => ts.map (·.shape) = ss
  | _, _, .nil => by
    rw [nodes]
    exact gives_pure rfl
  | _, _, .cons h hs => by
    rw [nodes]
    refine (gives_node h).bind fun t ht => (gives_nodes hs).bind_quiet fun ts hts => gives_pure ?_
    rw [List.map_cons, ht, hts]

end

end Compile

namespace Session

/-- **The program of an expression that has a shape,** and the session that is left, in a session
with any history. -/
theorem compile_of_isShaped {settings : Settings} {s : Session} (hs : s.IsOrdered settings)
    (images : String → Option Image) {e : Expr} {shape : Shape}
    (h : IsShaped settings.viewport e shape) :
    ∃ (c : Catalog) (t : Typed), t.shape = shape ∧
      s.compile images e = (.ok (program (Compile.reached images settings c s.textures e.inputs e.reads) t),
        Compile.reached images settings c s.textures e.inputs e.reads) := by
  obtain ⟨settings, definitions, textures, uniforms, diagnostics⟩ := s
  obtain ⟨rfl, ⟨c, rfl⟩, -⟩ := hs
  have hg : Compile.Gives images settings _ _ _ _ := Compile.gives_node h.1
  obtain ⟨c', t, ht, hr⟩ := hg c textures [] [] h.2
  refine ⟨c', t, ht, ?_⟩
  change (Compile.node images e).run.run ⟨settings, c.definitions, textures, [], []⟩ = _ at hr
  simp only [compile, hr]
  rfl

/-- What is compiled has the shape of its program. -/
theorem isShaped_of_compile {settings : Settings} {s : Session} (hs : s.IsOrdered settings)
    {images : String → Option Image} {e : Expr} {p : Program} (hp : (s.compile images e).1 = .ok p) :
    IsShaped settings.viewport e p.shape := by
  obtain ⟨c, names, readers, -, -, -, -, ht⟩ := exists_translation hs hp
  exact ⟨ht.hasShape, ht.knows.consistent⟩

/-- **Compiling accepts the expressions that have a shape, and no others.** -/
theorem compile_ok_iff_isShaped (settings : Settings)
    (calls : List ((String → Option Image) × Expr)) (images : String → Option Image) (e : Expr)
    (shape : Shape) :
    ((∃ p, (((start settings).after calls).compile images e).1 = .ok p ∧ p.shape = shape) ↔
      IsShaped settings.viewport e shape) ∧
      (IsShaped settings.viewport e shape → shape.validate = .ok ()) := by
  have hs := (start_isOrdered settings).after calls
  refine ⟨⟨?_, fun h => ?_⟩, fun h => Shape.validate_eq_ok_iff.2 h.1.valid⟩
  · rintro ⟨p, hp, rfl⟩
    exact isShaped_of_compile hs hp
  · obtain ⟨c, t, rfl, hc⟩ := compile_of_isShaped hs images h
    exact ⟨_, congrArg Prod.fst hc, rfl⟩

end Session

/-- An expression has at most one shape: that of its program. -/
theorem IsShaped.unique {viewport : Viewport} {e : Expr} {s s' : Shape} (h : IsShaped viewport e s)
    (h' : IsShaped viewport e s') : s = s' := by
  have hs := Session.start_isOrdered { Settings.webgl2 with viewport }
  obtain ⟨c, t, rfl, hc⟩ := Session.compile_of_isShaped hs (fun _ => none) h
  obtain ⟨c', t', rfl, hc'⟩ := Session.compile_of_isShaped hs (fun _ => none) h'
  have hp := congrArg Prod.fst (hc.symm.trans hc')
  injection hp with hp
  exact congrArg Program.shape hp

end ShaderAlgebra
