import ShaderAlgebra.Proofs.Effects

/-!
# What images have no say in

Which images are available decides how a read is compiled, and nothing else.  Two compilations of
an expression, each with images of its own, are followed side by side
(`Compile.Alike`): they make the same definitions, meet the same inputs, come to the same shape
and fail in the same way.  Only texture readers and diagnostics are each one's own, and of those
it is known which they are (`Compile.reached`).
-/

namespace ShaderAlgebra

open Glsl (Term)

variable {α β γ δ : Type}

/-- Results that are the same failure, or related values. -/
inductive Related (R : α → β → Prop) : Except Failure α → Except Failure β → Prop where
  | error (failure : Failure) : Related R (.error failure) (.error failure)
  | ok {a : α} {b : β} (h : R a b) : Related R (.ok a) (.ok b)

theorem Related.refl (x : Except Failure α) : Related Eq x x := by
  cases x with
  | error failure => exact .error failure
  | ok a => exact .ok rfl

/-! ## Synthesis for other terms -/

namespace Build

/-- Two steps that enter the same definitions, and fail in the same way if they do. -/
def Alike (b b' : Build Term) : Prop :=
  ∃ result result' items, Settles b result items ∧ Settles b' result' items ∧
    Related (fun _ _ => True) result result'

variable {b b' : Build Term} {s : Shape}

theorem Settles.alike {a a' : Term} {items : List Item} (h : Settles b (.ok a) items)
    (h' : Settles b' (.ok a') items) : Alike b b' :=
  ⟨_, _, items, h, h', .ok trivial⟩

theorem alike_throw (failure : Failure) : Alike (throw failure) (throw failure) :=
  ⟨_, _, [], settles_throw failure, settles_throw failure, .error failure⟩

/-- Steps behind a check that fails. -/
theorem Fails.alike {check : Build α} (h : Fails check) (f f' : α → Build Term) :
    Alike (check >>= f) (check >>= f') := by
  obtain ⟨failure, h⟩ := h
  exact ⟨_, _, [], h.bind_error, h.bind_error, .error failure⟩

theorem alike_entrywise (op : Entrywise) (s : Shape) (x y x' y' : Term) :
    Alike (entrywise op s x y) (entrywise op s x' y') := by
  by_cases h : s.Valid ∧ s.kind.isField
  · exact (settles_entrywise op h.1 h.2 x y).alike (settles_entrywise op h.1 h.2 x' y')
  · exact (fails_requireField _ h).alike _ _

theorem alike_matVec (s : Shape) (m v m' v' : Term) : Alike (matVec s m v) (matVec s m' v') := by
  unfold matVec
  split
  · rename_i r c
    by_cases h : (Shape.matrix r c .real).Valid
    · exact (settles_matVec h m v).alike (settles_matVec h m' v')
    · exact (fails_validate h).alike _ _
  · exact alike_throw _

theorem alike_dot (s : Shape) (x y x' y' : Term) : Alike (dot s x y) (dot s x' y') := by
  unfold dot
  split
  · rename_i n
    by_cases h : (Shape.realVector n).Valid
    · exact (settles_dot h x y).alike (settles_dot h x' y')
    · exact (fails_validate h).alike _ _
  · exact alike_throw _

theorem alike_sum {e : Shape} (he : s.element? = some e) (x x' : Term) :
    Alike (sum s x) (sum s x') := by
  by_cases h : s.Valid
  · have hk := Shape.kind_isField h he
    exact (settles_sum h hk he x).alike (settles_sum h hk he x')
  · exact (fails_requireField _ fun hv => h hv.1).alike _ _

theorem alike_complexMul (x y x' y' : Term) : Alike (complexMul x y) (complexMul x' y') :=
  (settles_complexMul x y).alike (settles_complexMul x' y')

theorem alike_complexScale (hd : 1 ≤ s.depth) (hk : s.kind = .complex) (x y x' y' : Term) :
    Alike (complexScale s x y) (complexScale s x' y') := by
  by_cases h : s.Valid
  · have hs := Operation.complexScale_hasHelper hd hk h
    exact (settles_complexScale hs x y).alike (settles_complexScale hs x' y')
  · exact (fails_validate h).alike _ _

theorem alike_complexMatVec (s : Shape) (m v m' v' : Term) :
    Alike (complexMatVec s m v) (complexMatVec s m' v') := by
  unfold complexMatVec
  split
  · rename_i r c
    by_cases h : (Shape.matrix r c .complex).Valid
    · exact (settles_complexMatVec h m v).alike (settles_complexMatVec h m' v')
    · exact (fails_validate h).alike _ _
  · exact alike_throw _

theorem alike_complexDot (s : Shape) (x y x' y' : Term) :
    Alike (complexDot s x y) (complexDot s x' y') := by
  unfold complexDot
  split
  · rename_i n
    by_cases h : (Shape.vector n .complex).Valid
    · exact (settles_complexDot h x y).alike (settles_complexDot h x' y')
    · exact (fails_validate h).alike _ _
  · exact alike_throw _

theorem alike_construct (h : s.Valid) {xs xs' : List Term} (hxs : xs.length = s.length?.getD 1)
    (hxs' : xs'.length = s.length?.getD 1) : Alike (construct s xs) (construct s xs') :=
  (settles_construct h hxs).alike (settles_construct h hxs')

end Build

/-! ## Two compilations side by side -/

/-- Sessions with the same settings, definitions and inputs. -/
def Session.Like (s s' : Session) : Prop :=
  s.settings = s'.settings ∧ s.uniforms = s'.uniforms ∧
    ∃ c : Catalog, s.definitions = c.definitions ∧ s'.definitions = c.definitions

/-- Operands of one shape. -/
def Typed.SameShape (t t' : Typed) : Prop :=
  t.shape = t'.shape

namespace Compile

open Typed (SameShape)

/-- Two steps that go side by side, to values in a relation. -/
def Alike (m : Compile α) (m' : Compile β) (R : α → β → Prop) : Prop :=
  ∀ s s' : Session, s.Like s' → Related R (m.run.run s).1 (m'.run.run s').1 ∧
    (m.run.run s).2.Like (m'.run.run s').2

theorem Alike.bind {m : Compile α} {m' : Compile β} {f : α → Compile γ} {f' : β → Compile δ}
    {R : α → β → Prop} {S : γ → δ → Prop} (hm : Alike m m' R)
    (hf : ∀ a b, R a b → Alike (f a) (f' b) S) : Alike (m >>= f) (m' >>= f') S := by
  intro s s' hs
  obtain ⟨hr, hl⟩ := hm s s' hs
  rw [ExceptT.run_bind, ExceptT.run_bind, StateT.run_bind, StateT.run_bind]
  revert hr hl
  generalize m.run.run s = out, m'.run.run s' = out'
  obtain ⟨r, s₁⟩ := out
  obtain ⟨r', s₁'⟩ := out'
  intro hr hl
  cases hr with
  | error failure => exact ⟨.error failure, hl⟩
  | ok hab => exact hf _ _ hab s₁ s₁' hl

theorem alike_pure {a : α} {b : β} {R : α → β → Prop} (h : R a b) : Alike (pure a) (pure b) R :=
  fun _ _ hs => ⟨.ok h, hs⟩

theorem alike_throw (failure : Failure) (R : α → β → Prop) :
    Alike (throw failure) (throw failure) R :=
  fun _ _ hs => ⟨.error failure, hs⟩

/-- Steps behind a failure. -/
theorem alike_throw_bind (failure : Failure) (f : α → Compile γ) (f' : β → Compile δ)
    (R : γ → δ → Prop) : Alike (throw failure >>= f) (throw failure >>= f') R :=
  fun _ _ hs => ⟨.error failure, hs⟩

/-- Steps that start from the same check. -/
theorem Alike.bind_lift {x : Except Failure α} {f : α → Compile β} {f' : α → Compile γ}
    {R : β → γ → Prop} (hf : ∀ a, x = .ok a → Alike (f a) (f' a) R) :
    Alike (liftM x >>= f) (liftM x >>= f') R := by
  cases x with
  | error failure => exact alike_throw failure R
  | ok a => exact hf a rfl

/-- Synthesis steps that settle with the same definitions. -/
theorem alike_settles {b : Build α} {b' : Build β} {R : α → β → Prop} {r : Except Failure α}
    {r' : Except Failure β} {items : List Item} (h : Build.Settles b r items)
    (h' : Build.Settles b' r' items) (hr : Related R r r') : Alike (build b) (build b') R := by
  rintro s s' ⟨hset, hu, c, hc, hc'⟩
  obtain ⟨c₁, h₁, he₁⟩ := h c
  obtain ⟨c₂, h₂, he₂⟩ := h' c
  have hd : c₂.definitions = c₁.definitions := by
    simp only [Catalog.definitions, he₁, he₂]
  rw [run_build, run_build, hc, hc', h₁, h₂]
  exact ⟨hr, hset, hu, c₁, rfl, hd⟩

/-- A synthesis step, with its term as the value. -/
theorem alike_typed {b b' : Build Term} (s : Shape) (h : Build.Alike b b') :
    Alike (do return (⟨s, ← build b⟩ : Typed)) (do return (⟨s, ← build b'⟩ : Typed))
      SameShape := by
  obtain ⟨r, r', items, hb, hb', hr⟩ := h
  exact (alike_settles hb hb' hr).bind fun _ _ _ => alike_pure rfl

/-! ### Operations on compiled operands -/

theorem alike_list {ts ts' : List Typed} (h : ts.map (·.shape) = ts'.map (·.shape)) :
    Alike (list ts) (list ts') SameShape := by
  have hp : (promoteAll ts).map (·.shape) = (promoteAll ts').map (·.shape) := by
    rw [shapes_promoteAll, shapes_promoteAll, h]
  unfold list
  dsimp only
  generalize promoteAll ts = items, promoteAll ts' = items' at hp
  have hlen : items.length = items'.length := by
    simpa using congrArg List.length hp
  cases items with
  | nil =>
    obtain rfl := List.eq_nil_of_length_eq_zero hlen.symm
    exact alike_throw _ _
  | cons first rest =>
    obtain ⟨first', rest', rfl⟩ := List.exists_cons_of_length_eq_add_one hlen.symm
    have hfirst : first.shape = first'.shape := (List.cons.inj hp).1
    have hfind : ((first :: rest).find? (·.shape ≠ first.shape)).map (·.shape) =
        ((first' :: rest').find? (·.shape ≠ first'.shape)).map (·.shape) := by
      have hmap := fun l : List Typed => List.find?_map (f := (·.shape)) (p := (· ≠ first.shape)) (l := l)
      simp only [Function.comp_def] at hmap
      rw [← hfirst, ← hmap, ← hmap, hp]
    dsimp only
    cases hf : (first :: rest).find? (·.shape ≠ first.shape) with
    | some other =>
      rw [hf, Option.map_some] at hfind
      obtain ⟨other', hf', ho⟩ := Option.map_eq_some_iff.1 hfind.symm
      rw [hf']
      dsimp only
      rw [ho, hfirst]
      exact alike_throw_bind _ _ _ _
    | none =>
      have hf' : (first' :: rest').find? (·.shape ≠ first'.shape) = none := by
        simpa only [hf, Option.map_none, Option.map_eq_none_iff] using hfind.symm
      rw [hf']
      dsimp only
      rw [← hfirst, ← hlen]
      refine Alike.bind_lift fun s hs => ?_
      obtain ⟨hv, hn, -⟩ := listShape_valid hs
      refine alike_typed s (Build.alike_construct hv ?_ ?_)
      · rw [hn, Option.getD_some, List.length_map]
      · rw [hn, Option.getD_some, List.length_map, hlen]

theorem alike_uniform (name : String) (s : Shape) :
    Alike (uniform name s) (uniform name s) SameShape := by
  unfold uniform
  dsimp only
  split
  · refine Alike.bind_lift fun _ hv => ?_
    replace hv := Shape.validate_eq_ok_iff.1 hv
    rintro s₁ s₁' hs
    rw [run_get_bind, run_get_bind, ← hs.2.1]
    cases s₁.uniforms.lookup name with
    | some known =>
      by_cases hk : known = s
      · simp only [if_pos hk]
        exact ⟨.ok rfl, hs⟩
      · simp only [if_neg hk]
        exact alike_throw_bind _ _ _ _ s₁ s₁' hs
    | none =>
      have hdef := Build.settles_define hv
      refine ((alike_settles hdef hdef (Related.refl _)).bind fun _ _ _ s₂ s₂' hs₂ => ?_) s₁ s₁' hs
      exact ⟨.ok rfl, hs₂.1, congrArg (· ++ [(name, s)]) hs₂.2.1, hs₂.2.2⟩
  · exact alike_throw_bind _ _ _ _

theorem alike_additive (w : Entrywise) {l r l' r' : Typed} (hl : l.shape = l'.shape)
    (hr : r.shape = r'.shape) : Alike (additive w l r) (additive w l' r') SameShape := by
  unfold additive
  rw [← hl, ← hr]
  generalize unify l.shape r.shape = u
  obtain ⟨ls, rs⟩ := u
  dsimp only
  split
  · exact alike_typed _ (Build.alike_entrywise w _ _ _ _ _)
  · split
    · exact alike_typed _ (Build.alike_entrywise w _ _ _ _ _)
    · split
      · exact alike_typed _ (Build.alike_entrywise w _ _ _ _ _)
      · exact alike_throw _ _

theorem alike_dot (ls rs : Shape) (l r l' r' : Term) :
    Alike (dot ls rs l r) (dot ls rs l' r') SameShape := by
  unfold dot
  by_cases heq : ls = rs
  · subst heq
    simp only [if_true]
    split
    · exact alike_typed _ (Build.alike_complexDot _ _ _ _ _)
    · exact alike_typed _ (Build.alike_dot _ _ _ _ _)
  · simp only [if_neg heq]
    exact alike_throw _ _

theorem alike_scalarProduct (a b : Scalar) (l r l' r' : Term) :
    Alike (scalarProduct a b l r) (scalarProduct a b l' r') SameShape := by
  unfold scalarProduct
  split
  · exact alike_pure rfl
  · exact alike_pure rfl
  · exact alike_pure rfl
  · exact alike_typed _ (Build.alike_complexMul _ _ _ _)
  · exact alike_throw _ _

theorem alike_matrixProduct (m n : Nat) (k : Scalar) (a b a' b' : Term) :
    Alike (matrixProduct m n k a b) (matrixProduct m n k a' b') SameShape := by
  unfold matrixProduct
  refine Alike.bind_lift fun s _ => ?_
  split
  · exact alike_typed _ (Build.alike_complexMatVec _ _ _ _ _)
  · exact alike_typed _ (Build.alike_matVec _ _ _ _ _)

theorem alike_product (ls rs : Shape) (l r l' r' : Term) :
    Alike (product ls rs l r) (product ls rs l' r') SameShape := by
  unfold product
  split
  · exact alike_scalarProduct _ _ _ _ _ _
  · exact alike_typed _ (Build.alike_entrywise .scale _ _ _ _ _)
  · exact alike_typed _ (Build.alike_entrywise .scale _ _ _ _ _)
  · exact alike_typed _ (Build.alike_complexScale (by simp [Shape.depth]) rfl _ _ _ _)
  · exact alike_typed _ (Build.alike_complexScale (by simp [Shape.depth]) rfl _ _ _ _)
  · exact alike_typed _ (Build.alike_complexScale (by simp [Shape.depth]) rfl _ _ _ _)
  · exact alike_typed _ (Build.alike_complexScale (by simp [Shape.depth]) rfl _ _ _ _)
  · split
    · exact alike_matrixProduct _ _ _ _ _ _ _
    · exact alike_throw _ _
  · exact alike_dot _ _ _ _ _ _
  · exact alike_throw _ _

theorem alike_binary (op : Binary) {l r l' r' : Typed} (hl : l.shape = l'.shape)
    (hr : r.shape = r'.shape) : Alike (binary op l r) (binary op l' r') SameShape := by
  unfold binary
  cases op with
  | add => exact alike_additive .add hl hr
  | sub => exact alike_additive .sub hl hr
  | mul =>
    rw [← hl, ← hr]
    exact alike_product _ _ _ _ _ _
  | dot =>
    rw [← hl, ← hr]
    exact alike_dot _ _ _ _ _ _

theorem alike_sum {t t' : Typed} (h : t.shape = t'.shape) : Alike (sum t) (sum t') SameShape := by
  unfold sum
  rw [← h]
  cases he : t.shape.element? with
  | none => exact alike_throw _ _
  | some e => exact alike_typed e (Build.alike_sum he _ _)

theorem alike_element {t t' : Typed} (h : t.shape = t'.shape) (i : Nat) :
    Alike (element t i) (element t' i) SameShape := by
  unfold element
  rw [← h]
  obtain ⟨r, items, hr⟩ : ∃ r items, Build.Settles (Build.element t.shape i) r items := by
    by_cases hv : t.shape.Valid ∧ ∃ n, t.shape.length? = some n ∧ i < n
    · obtain ⟨hv, n, hn, hi⟩ := hv
      obtain ⟨e, he⟩ := Shape.exists_element?_of_length? hn
      exact ⟨_, _, Build.settles_element hv he hn hi⟩
    · obtain ⟨failure, hf⟩ := Build.fails_element hv
      exact ⟨_, _, hf⟩
  refine (alike_settles hr hr (Related.refl r)).bind fun item item' _ => alike_pure ?_
  rfl

theorem alike_point {t t' : Typed} (h : t.shape = t'.shape) :
    Alike (point t) (point t') fun _ _ => True := by
  unfold point
  rw [← h]
  split
  · exact alike_pure trivial
  · exact alike_throw _ _

/-! ### Reads of images -/

/-- A read of an image touches the textures and the diagnostics only, whether the image is there
or not. -/
theorem exists_read (images : String → Option Image) (channels : Channels) (name : String)
    (a b p : Term) {s : Session} {c : Catalog} (hc : s.definitions = c.definitions) :
    ∃ term textures diagnostics,
      (read channels fun t => t.read images channels name a b p).run.run s =
        (.ok ⟨channels.shape, term⟩, { s with textures, diagnostics }) := by
  obtain ⟨settings, definitions, t, uniforms, diagnostics⟩ := s
  obtain rfl : definitions = c.definitions := hc
  unfold read
  simp only [run_get_bind]
  by_cases h : Available images name
  · rw [Textures.read_of_available h]
    exact ⟨_, _, _, rfl⟩
  · obtain ⟨hv, hk, hn⟩ := channels.shape_native
    obtain ⟨c', hrun, he⟩ := Build.settles_fill (x := .zero false) hv hk rfl c
    -- The shape is native, so that no struct is entered.
    have hd : c'.definitions = c.definitions := by
      rw [Shape.structs_of_native hn] at he
      simp only [Catalog.definitions, he]
      rfl
    rw [Textures.read_eq_error h]
    simp only [Failure.ofImage_isRecoverable, if_true]
    rw [run_modify_bind, ExceptT.run_bind, StateT.run_bind, run_build, hrun, hd]
    exact ⟨_, _, _, rfl⟩

theorem alike_read (images images' : String → Option Image) (channels : Channels) (name : String)
    (a b p a' b' p' : Term) :
    Alike (read channels fun t => t.read images channels name a b p)
      (read channels fun t => t.read images' channels name a' b' p') SameShape := by
  rintro s s' ⟨hset, hu, c, hc, hc'⟩
  obtain ⟨_, _, _, hr⟩ := exists_read images channels name a b p hc
  obtain ⟨_, _, _, hr'⟩ := exists_read images' channels name a' b' p' hc'
  rw [hr, hr']
  exact ⟨.ok rfl, hset, hu, c, hc, hc'⟩

theorem alike_readInViewport (images images' : String → Option Image) (channels : Channels)
    (name : String) (p p' : Term) :
    Alike (do
        let viewport := (← get).settings.viewport
        read channels fun t => t.readInViewport images viewport channels name p)
      (do
        let viewport := (← get).settings.viewport
        read channels fun t => t.readInViewport images' viewport channels name p') SameShape := by
  intro s s' hs
  rw [run_get_bind, run_get_bind]
  dsimp only
  rw [← hs.1]
  rcases readInViewport_cases s.settings.viewport with ⟨failure, hr, hf⟩ | ⟨a, b, ha, hb⟩
  · rw [run_read_failure hr fun t => hf t images channels name p,
      run_read_failure hr fun t => hf t images' channels name p']
    exact ⟨.error failure, hs⟩
  · rw [Textures.readInViewport_eq ha hb, Textures.readInViewport_eq ha hb]
    exact alike_read images images' channels name a b p a b p' s s' hs

/-! ### Whole expressions -/

theorem Alike.point {images images' : String → Option Image} {e : Expr}
    (h : Alike (node images e) (node images' e) SameShape) :
    Alike (node images e >>= point) (node images' e >>= point) fun _ _ => True :=
  h.bind fun _ _ => alike_point

mutual

/-- **Images have no say** in the definitions, the inputs, the shape and the failures of a
compilation. -/
theorem alike_node (images images' : String → Option Image) :
    ∀ e : Expr, Alike (node images e) (node images' e) SameShape
  | .real x => by
    rw [node, node]
    exact Alike.bind_lift fun _ _ => alike_pure rfl
  | .complex x y => by
    rw [node, node]
    exact Alike.bind_lift fun _ _ => Alike.bind_lift fun _ _ => alike_pure rfl
  | .list es => by
    rw [node, node]
    exact (alike_nodes images images' es).bind fun _ _ => alike_list
  | .uniform name s => by
    rw [node, node]
    exact alike_uniform name s
  | .pixel => by
    rw [node, node]
    exact alike_pure rfl
  | .binary op lhs rhs => by
    rw [node, node]
    exact (alike_node images images' lhs).bind fun _ _ hl =>
      (alike_node images images' rhs).bind fun _ _ hr => alike_binary op hl hr
  | .sum arg => by
    rw [node, node]
    exact (alike_node images images' arg).bind fun _ _ => alike_sum
  | .element arg i => by
    rw [node, node]
    exact (alike_node images images' arg).bind fun _ _ h => alike_element h i
  | .image channels name p => by
    rw [node, node]
    exact (alike_node images images' p).point.bind fun p p' _ =>
      alike_readInViewport images images' channels name p p'
  | .imageOn channels name a b p => by
    rw [node, node]
    exact (alike_node images images' p).point.bind fun _ _ _ =>
      (alike_node images images' a).point.bind fun _ _ _ =>
        (alike_node images images' b).point.bind fun _ _ _ =>
          alike_read images images' channels name _ _ _ _ _ _

theorem alike_nodes (images images' : String → Option Image) : ∀ es : List Expr,
    Alike (nodes images es) (nodes images' es) fun ts ts' => ts.map (·.shape) = ts'.map (·.shape)
  | [] => by
    rw [nodes, nodes]
    exact alike_pure rfl
  | e :: es => by
    rw [nodes, nodes]
    refine (alike_node images images' e).bind fun t t' ht =>
      (alike_nodes images images' es).bind fun ts ts' hts => alike_pure ?_
    rw [List.map_cons, List.map_cons, show t.shape = t'.shape from ht, hts]

end

end Compile

/-! ## Which images are bound -/

namespace Textures

/-- Textures that have a reader and a binding for each of these images, in the order in which they
were first asked for. -/
def Binds (version : Version) (t : Textures) (names : List String) : Prop :=
  t.Shows version names.eraseDups ∧ t.bindings.map (·.image) = names.eraseDups

/-- A request adds an image that is available to those that are bound. -/
theorem Binds.keep {version : Version} {t : Textures} {names : List String} (h : Binds version t names)
    (images : String → Option Image) (name : String) :
    Binds version (t.keep images name) (names ++ [name].filter (Available images ·)) := by
  have hcontains : t.readers.contains .function name ↔ name ∈ names := by
    rw [h.1.contains_iff, List.mem_eraseDups]
  obtain ⟨⟨rfl, he⟩, hb⟩ := h
  rcases keep_cases images t name with ⟨hk, h⟩ | ⟨hc, image, ha, -, hk⟩
  · rw [hk]
    by_cases ha : Available images name
    · rw [List.filter_singleton, decide_eq_true ha, cond_true]
      have hmem := hcontains.1 (h.resolve_right fun hn => hn ha)
      simp only [Binds, eraseDups_concat_of_mem hmem]
      exact ⟨⟨rfl, he⟩, hb⟩
    · rw [List.filter_singleton, decide_eq_false ha, cond_false, List.append_nil]
      exact ⟨⟨rfl, he⟩, hb⟩
  · rw [List.filter_singleton, decide_eq_true ha, cond_true, hk]
    simp only [Binds, eraseDups_concat_of_not_mem (mt hcontains.2 hc)]
    refine ⟨⟨rfl, ?_⟩, ?_⟩
    · simp [he, entry]
    · simp [hb]

/-- Requests in order. -/
theorem Binds.keepAll {version : Version} (images : String → Option Image) (requests : List String)
    {t : Textures} {names : List String} (h : Binds version t names) :
    Binds version (t.keepAll images requests) (names ++ requests.filter (Available images ·)) := by
  induction requests generalizing t names with
  | nil => rwa [List.filter_nil, List.append_nil]
  | cons name requests ih =>
    have := ih (h.keep images name)
    rwa [List.append_assoc, ← List.filter_append] at this

end Textures

namespace Session

/-- Programs that agree in all but their reads of images. -/
structure SameBesideReads (p p' : Program) : Prop where
  shape : p.shape = p'.shape
  uniforms : p.uniforms = p'.uniforms
  definitions : p.definitions = p'.definitions
  header : p.header = p'.header

/-- The programs of two compilations that went side by side. -/
theorem Like.related_program {r r' : Except Failure Typed} {s s' : Session} (hs : s.Like s')
    (hr : Related Typed.SameShape r r') :
    Related SameBesideReads (r.map (program s)) (r'.map (program s')) := by
  obtain ⟨-, hu, c, hc, hc'⟩ := hs
  have hd := hc.trans hc'.symm
  cases hr with
  | error failure => exact .error failure
  | ok h => exact .ok ⟨h, hu, hd, congrArg Definitions.header hd⟩

/-- **Which images are available decides about reads only.**  With other images, an expression is
compiled to the same shape with the same inputs and the same definitions, or it fails in the same
way.  If it is compiled, there is one diagnostic for each read of an image that is not available,
in the order of evaluation, and one binding for each other image, in the order of its first read. -/
theorem compile_with_images (settings : Settings) (images images' : String → Option Image) (e : Expr) :
    Related SameBesideReads ((start settings).compile images e).1
      ((start settings).compile images' e).1 ∧
    ∀ p, ((start settings).compile images e).1 = .ok p →
      p.diagnostics = e.reads.filterMap (Diagnostic.ofRead? images) ∧
      p.textures.bindings.map (·.image) =
        ((e.reads.map Prod.snd).filter (Available images ·)).eraseDups := by
  constructor
  · have hs : (start settings).Like (start settings) := ⟨rfl, rfl, .empty, rfl, rfl⟩
    obtain ⟨hr, hl⟩ := Compile.alike_node images images' e _ _ hs
    exact hl.related_program hr
  · intro p hp
    have hord := start_isOrdered settings
    obtain ⟨c, t, -, hrun⟩ := compile_of_isShaped hord images (isShaped_of_compile hord hp)
    rw [hrun] at hp
    injection hp with hp
    subst hp
    have hempty : Textures.Binds settings.version (.empty settings.version) [] :=
      ⟨Textures.empty_shows _, rfl⟩
    exact ⟨rfl, (hempty.keepAll images (e.reads.map Prod.snd)).2⟩

end Session
end ShaderAlgebra
