import ShaderAlgebra.Proofs.Translation

/-!
# Compiling is translating

`Compile.Meets images settings m post` says all that there is to say about a step `m`
of a compilation: given the inputs and the diagnostics so far, what the step comes to
is fixed (`Ends`), whatever definitions and texture readers the session holds; and
if it succeeds, its value satisfies `post` in the context of what it leaves behind.

The steps of a compilation are gone through once, and what they come to together is that
compiling an expression meets its translation (`Compile.meets_node`).
-/

namespace ShaderAlgebra

open Glsl (Term)

/-- What a step of a compilation comes to. -/
structure Outcome (α : Type) where
  result : Except Failure α
  /-- The definitions that it enters. -/
  items : List Item
  /-- The images whose readers it asks for. -/
  readers : List String
  /-- The inputs afterwards. -/
  uniforms : List (String × Shape)
  /-- The diagnostics afterwards. -/
  diagnostics : List Diagnostic

/-- Inputs with proper names, and with shapes whose structs are there. -/
def Supported (items : List Item) (uniforms : List (String × Shape)) : Prop :=
  ∀ u ∈ uniforms, InputName u.1 ∧ u.2.Valid ∧ u.2.structs ⊆ items

theorem Supported.mono {items items' : List Item} {uniforms : List (String × Shape)}
    (h : Supported items uniforms) (hi : items ⊆ items') : Supported items' uniforms :=
  fun u hu => ⟨(h u hu).1, (h u hu).2.1, fun _ hx => hi ((h u hu).2.2 hx)⟩

namespace Compile

variable {images : String → Option Image} {settings : Settings} {α β : Type}

/-- In every session with these settings, inputs and diagnostics, the step comes to `o`. -/
def Ends (images : String → Option Image) (settings : Settings) (m : Compile α)
    (uniforms : List (String × Shape)) (diagnostics : List Diagnostic) (o : Outcome α) : Prop :=
  ∀ (c : Catalog) (t : Textures), ∃ c' : Catalog, c'.items = enterAll c.items o.items ∧
    m.run.run ⟨settings, c.definitions, t, uniforms, diagnostics⟩ =
      (o.result, ⟨settings, c'.definitions, t.keepAll images o.readers, o.uniforms, o.diagnostics⟩)

/-- What a successful step has to show of its value. -/
abbrev Post (α : Type) := Context → α → Prop

/-- The step comes to something fixed, and if it succeeds, its value satisfies `post`. -/
def Meets (images : String → Option Image) (settings : Settings) (m : Compile α) (post : Post α) :
    Prop :=
  ∀ uniforms diagnostics, ∃ o, Ends images settings m uniforms diagnostics o ∧
    uniforms <+: o.uniforms ∧ ∀ known shown, Supported known uniforms →
      Supported (known ++ o.items) o.uniforms ∧ ∀ a, o.result = .ok a →
        post ⟨images, settings.viewport, known ++ o.items, o.uniforms, shown ++ o.readers⟩ a

/-! ## One step after another -/

theorem Meets.weaken {m : Compile α} {p q : Post α} (h : Meets images settings m p)
    (hpq : ∀ Γ a, p Γ a → q Γ a) : Meets images settings m q := by
  intro uniforms diagnostics
  obtain ⟨o, ho, hpre, hpost⟩ := h uniforms diagnostics
  refine ⟨o, ho, hpre, fun known shown hk => ⟨(hpost known shown hk).1, fun a ha => ?_⟩⟩
  exact hpq _ _ ((hpost known shown hk).2 a ha)

/-- The context has the images and the viewport of the compilation. -/
theorem Meets.within {m : Compile α} {p : Post α} (h : Meets images settings m p) :
    Meets images settings m fun Γ a =>
      Γ.images = images ∧ Γ.viewport = settings.viewport ∧ p Γ a := by
  intro uniforms diagnostics
  obtain ⟨o, ho, hpre, hpost⟩ := h uniforms diagnostics
  refine ⟨o, ho, hpre, fun known shown hk => ⟨(hpost known shown hk).1, fun a ha => ?_⟩⟩
  exact ⟨rfl, rfl, (hpost known shown hk).2 a ha⟩

/-- A step that neither reads nor changes the session. -/
theorem meets_lift (x : Except Failure α) :
    Meets images settings (liftM x) fun _ a => x = .ok a := by
  intro uniforms diagnostics
  refine ⟨⟨x, [], [], uniforms, diagnostics⟩, fun c t => ⟨c, rfl, rfl⟩, List.prefix_rfl, ?_⟩
  intro known shown hk
  exact ⟨hk.mono (List.subset_append_left _ _), fun a ha => ha⟩

theorem meets_pure (a : α) : Meets images settings (pure a) fun _ b => a = b :=
  (meets_lift (.ok a)).weaken fun _ _ h => by injection h

theorem meets_throw (failure : Failure) (p : Post α) : Meets images settings (throw failure) p :=
  (meets_lift (.error failure)).weaken fun _ _ h => by cases h

/-- **One step after another.**  What the first has shown has to hold in larger contexts too. -/
theorem Meets.bind {m : Compile α} {f : α → Compile β} {p : Post α} {q : α → Post β}
    (hm : Meets images settings m p) (hf : ∀ a, Meets images settings (f a) (q a))
    (hp : ∀ Γ Δ a, Γ.Le Δ → p Γ a → p Δ a) :
    Meets images settings (m >>= f) fun Γ b => ∃ a, p Γ a ∧ q a Γ b := by
  intro uniforms diagnostics
  obtain ⟨⟨result, items, readers, uniforms₁, diagnostics₁⟩, ho, hpre, hpost⟩ :=
    hm uniforms diagnostics
  cases result with
  | error failure =>
    refine ⟨⟨.error failure, items, readers, uniforms₁, diagnostics₁⟩, fun c t => ?_, hpre, ?_⟩
    · obtain ⟨c₁, he, hr⟩ := ho c t
      refine ⟨c₁, he, ?_⟩
      rw [ExceptT.run_bind, StateT.run_bind, hr]
      rfl
    · exact fun known shown hk => ⟨(hpost known shown hk).1, fun b hb => by cases hb⟩
  | ok a =>
    obtain ⟨o, ho', hpre', hpost'⟩ := hf a uniforms₁ diagnostics₁
    refine ⟨⟨o.result, items ++ o.items, readers ++ o.readers, o.uniforms, o.diagnostics⟩,
      fun c t => ?_, hpre.trans hpre', fun known shown hk => ?_⟩
    · obtain ⟨c₁, he, hr⟩ := ho c t
      obtain ⟨c₂, he', hr'⟩ := ho' c₁ (t.keepAll images readers)
      refine ⟨c₂, by rw [he', he, enterAll_append], ?_⟩
      rw [ExceptT.run_bind, StateT.run_bind, hr]
      refine hr'.trans ?_
      simp only [Textures.keepAll, List.foldl_append]
    · obtain ⟨hk₁, ha⟩ := hpost known shown hk
      obtain ⟨hk₂, hb⟩ := hpost' (known ++ items) (shown ++ readers) hk₁
      rw [List.append_assoc] at hk₂
      rw [List.append_assoc, List.append_assoc] at hb
      have hsub : ∀ {γ : Type} (xs ys zs : List γ), xs ++ ys ⊆ xs ++ (ys ++ zs) := fun xs ys zs =>
        List.append_assoc xs ys zs ▸ List.subset_append_left _ _
      have hle : Context.Le ⟨images, settings.viewport, known ++ items, uniforms₁, shown ++ readers⟩
          ⟨images, settings.viewport, known ++ (items ++ o.items), o.uniforms,
            shown ++ (readers ++ o.readers)⟩ :=
        ⟨rfl, rfl, hsub _ _ _, hpre', hsub _ _ _⟩
      exact ⟨hk₂, fun b hr => ⟨a, hp _ _ a hle (ha a rfl), hb b hr⟩⟩

/-- A step whose first step neither reads nor changes the session. -/
theorem Meets.bind_lift {x : Except Failure α} {f : α → Compile β} {q : Post β}
    (hf : ∀ a, x = .ok a → Meets images settings (f a) q) :
    Meets images settings (liftM x >>= f) q := by
  cases x with
  | error failure => exact meets_throw failure q
  | ok a => exact hf a rfl

/-! ## Synthesis in a session -/

/-- Reading the session. -/
theorem run_get_bind (f : Session → Compile α) (s : Session) :
    (get >>= f : Compile α).run.run s = (f s).run.run s :=
  rfl

/-- Changing the session. -/
theorem run_modify_bind (g : Session → Session) (f : PUnit → Compile α) (s : Session) :
    (modify g >>= f : Compile α).run.run s = (f ⟨⟩).run.run (g s) :=
  rfl

/-- A synthesis step runs on the definitions. -/
theorem run_build (b : Build α) (s : Session) : (build b).run.run s =
    ((b.run.run s.definitions).1, { s with definitions := (b.run.run s.definitions).2 }) :=
  rfl

/-- A synthesis step that settles. -/
theorem meets_build {b : Build α} {result : Except Failure α} {items : List Item}
    (h : Build.Settles b result items) :
    Meets images settings (build b) fun Γ a => result = .ok a ∧ items ⊆ Γ.items := by
  intro uniforms diagnostics
  refine ⟨⟨result, items, [], uniforms, diagnostics⟩, fun c t => ?_, List.prefix_rfl, ?_⟩
  · obtain ⟨c', hr, he⟩ := h c
    refine ⟨c', he, ?_⟩
    rw [run_build, hr]
    rfl
  · intro known shown hk
    exact ⟨hk.mono (List.subset_append_left _ _), fun a ha => ⟨ha, List.subset_append_right _ _⟩⟩

/-- A synthesis step that fails. -/
theorem meets_build_fails {b : Build α} (h : Build.Fails b) (p : Post α) :
    Meets images settings (build b) p := by
  obtain ⟨failure, h⟩ := h
  exact (meets_build h).weaken fun _ _ h => by cases h.1

/-- A synthesis step, with its term as the value. -/
theorem meets_typed {b : Build Term} {a : Term} {items : List Item} (s : Shape)
    (h : Build.Settles b (.ok a) items) :
    Meets images settings (do return ⟨s, ← build b⟩)
      fun Γ t => t = (⟨s, a⟩ : Typed) ∧ items ⊆ Γ.items := by
  refine ((meets_build h).bind (fun a => meets_pure (⟨s, a⟩ : Typed)) ?_).weaken ?_
  · exact fun Γ Δ a hle ⟨ha, hi⟩ => ⟨ha, fun _ hx => hle.items (hi hx)⟩
  · rintro Γ t ⟨a', ⟨ha, hi⟩, rfl⟩
    injection ha with ha
    exact ⟨by rw [ha], hi⟩

theorem meets_typed_fails {b : Build Term} (s : Shape) (h : Build.Fails b) (p : Post Typed) :
    Meets images settings (do return ⟨s, ← build b⟩) p :=
  ((meets_build_fails h fun _ _ => False).bind (fun a => meets_pure (⟨s, a⟩ : Typed))
    fun _ _ _ _ h => h).weaken fun _ _ ⟨_, h, _⟩ => h.elim

/-- A step that starts from the viewport. -/
theorem meets_viewport {f : Viewport → Compile α} {p : Post α}
    (h : Meets images settings (f settings.viewport) p) :
    Meets images settings (do f (← get).settings.viewport) p :=
  h

/-! ## Operations on compiled operands -/

theorem meets_list (ts : List Typed) : Meets images settings (list ts) fun Γ t =>
    ∃ e s, (∀ x ∈ promoteAll ts, x.shape = e) ∧ listShape ts.length e = .ok s ∧
      s.structs ⊆ Γ.items ∧ t = ⟨s, Synth.constructTerm s ((promoteAll ts).map (·.term))⟩ := by
  unfold list
  dsimp only
  rw [← length_promoteAll ts]
  generalize promoteAll ts = items
  cases items with
  | nil => exact meets_throw _ _
  | cons first rest =>
    dsimp only
    cases hfind : (first :: rest).find? (·.shape ≠ first.shape) with
    | some other => exact Meets.bind_lift (x := .error _) fun a ha => by cases ha
    | none =>
      have hall : ∀ x ∈ first :: rest, x.shape = first.shape := by
        simpa using List.find?_eq_none.1 hfind
      refine Meets.bind_lift fun s hs => ?_
      obtain ⟨hv, hn, -⟩ := listShape_valid hs
      have hlen : ((first :: rest).map (·.term)).length = s.length?.getD 1 := by
        rw [hn, Option.getD_some, List.length_map]
      refine (meets_typed s (Build.settles_construct hv hlen)).weaken ?_
      rintro Γ t ⟨rfl, hi⟩
      exact ⟨first.shape, s, hall, hs, hi, rfl⟩

theorem meets_uniform (name : String) (s : Shape) : Meets images settings (uniform name s) fun Γ t =>
    InputName name ∧ s.Valid ∧ Γ.uniforms.lookup name = some s ∧ s.structs ⊆ Γ.items ∧
      t = ⟨s, .name name⟩ := by
  unfold uniform
  dsimp only
  by_cases hn : InputName name
  · refine (if_pos hn).symm ▸ Meets.bind_lift fun _ hv => ?_
    replace hv := Shape.validate_eq_ok_iff.1 hv
    intro uniforms diagnostics
    cases hl : uniforms.lookup name with
    | some known =>
      by_cases heq : known = s
      · subst heq
        refine ⟨⟨.ok ⟨known, .name name⟩, [], [], uniforms, diagnostics⟩, fun c t => ⟨c, rfl, ?_⟩,
          List.prefix_rfl, fun items _ hs => ?_⟩
        · simp only [run_get_bind, hl, if_true]
          rfl
        · obtain ⟨-, -, hi⟩ := hs (name, known) (mem_of_lookup hl)
          refine ⟨hs.mono (List.subset_append_left _ _), fun a ha => ?_⟩
          injection ha with ha
          exact ⟨hn, hv, hl, fun _ hx => List.mem_append_left _ (hi hx), ha.symm⟩
      · refine ⟨⟨.error (.mismatch "uniform" known s), [], [], uniforms, diagnostics⟩,
          fun c t => ⟨c, rfl, ?_⟩, List.prefix_rfl, fun items _ hs => ?_⟩
        · simp only [run_get_bind, hl, heq, if_false]
          rfl
        · exact ⟨hs.mono (List.subset_append_left _ _), fun a ha => by cases ha⟩
    | none =>
      refine ⟨⟨.ok ⟨s, .name name⟩, s.structs, [], uniforms ++ [(name, s)], diagnostics⟩,
        fun c t => ?_, List.prefix_append _ _, fun items _ hs => ⟨?_, fun a ha => ?_⟩⟩
      · obtain ⟨c', hr, he⟩ := Build.settles_define hv c
        refine ⟨c', he, ?_⟩
        simp only [run_get_bind, hl]
        rw [ExceptT.run_bind, StateT.run_bind, run_build, hr]
        rfl
      · intro u hu
        rcases List.mem_append.1 hu with hu | hu
        · exact hs.mono (List.subset_append_left _ _) u hu
        · obtain rfl := List.mem_singleton.1 hu
          exact ⟨hn, hv, List.subset_append_right _ _⟩
      · injection ha with ha
        refine ⟨hn, hv, ?_, List.subset_append_right _ _, ha.symm⟩
        rw [List.lookup_append, hl, Option.none_or, List.lookup_cons_self]
  · exact (if_neg hn).symm ▸ Meets.bind_lift (x := .error _) fun a ha => by cases ha

theorem meets_additive {op : Binary} {w : Entrywise} (hw : op.entrywise? = some w) (l r : Typed) :
    Meets images settings (additive w l r) fun Γ t => Combines Γ.items op l r t := by
  unfold additive
  cases hu : unify l.shape r.shape with
  | mk ls rs =>
    dsimp only
    by_cases heq : ls = rs
    · subst heq
      rw [if_pos rfl]
      by_cases hv : ls.Valid ∧ ls.kind.isField
      · refine (meets_typed ls (Build.settles_entrywise w hv.1 hv.2 l.term r.term)).weaken ?_
        rintro Γ t ⟨rfl, hi⟩
        exact .same hw hu hv.1 hv.2 hi
      · exact meets_typed_fails ls (Build.fails_entrywise w hv _ _) _
    · rw [if_neg heq]
      by_cases hrc : ls = .real ∧ rs = .complex
      · obtain ⟨rfl, rfl⟩ := hrc
        rw [if_pos ⟨rfl, rfl⟩]
        refine (meets_typed _ (Build.settles_entrywise w (s := .complex) trivial rfl _ _)).weaken ?_
        rintro Γ t ⟨rfl, -⟩
        exact .promoteLeft hw hu
      · rw [if_neg hrc]
        by_cases hcr : ls = .complex ∧ rs = .real
        · obtain ⟨rfl, rfl⟩ := hcr
          rw [if_pos ⟨rfl, rfl⟩]
          refine (meets_typed _ (Build.settles_entrywise w (s := .complex) trivial rfl _ _)).weaken ?_
          rintro Γ t ⟨rfl, -⟩
          exact .promoteRight hw hu
        · rw [if_neg hcr]
          exact meets_throw _ _

theorem meets_dot (ls rs : Shape) (l r : Term) : Meets images settings (dot ls rs l r) fun Γ t =>
    ls.depth = 1 ∧ rs.depth = 1 ∧ Multiplies Γ.items l r ls rs t := by
  unfold dot
  by_cases heq : ls = rs
  · subst heq
    simp only [if_true]
    by_cases hc : ls.kind = .complex ∧ ls.depth = 1
    · rw [if_pos hc]
      by_cases hv : ls.Valid
      · cases ls with
        | vector n k =>
          obtain rfl : k = .complex := hc.1
          refine (meets_typed _ (Build.settles_complexDot hv l r)).weaken ?_
          rintro Γ t ⟨rfl, hi⟩
          exact ⟨rfl, rfl, .complexDot hv hi⟩
        | scalar k | matrix r c k => cases hc.2
      · exact meets_typed_fails _ (Build.fails_complexDot (fun h => hv h.1) _ _) _
    · rw [if_neg hc]
      by_cases hv : ls.Valid ∧ ls.kind = .real ∧ ls.depth = 1
      · cases ls with
        | vector n k =>
          obtain rfl : k = .real := hv.2.1
          refine (meets_typed _ (Build.settles_dot hv.1 l r)).weaken ?_
          rintro Γ t ⟨rfl, hi⟩
          exact ⟨rfl, rfl, .dot hv.1 hi⟩
        | scalar k | matrix r c k => cases hv.2.2
      · exact meets_typed_fails _ (Build.fails_dot hv _ _) _
  · rw [if_neg heq]
    exact Meets.bind_lift (x := .error _) fun a ha => by cases ha

theorem meets_scalarProduct (a b : Scalar) (l r : Term) :
    Meets images settings (scalarProduct a b l r) fun Γ t =>
      Multiplies Γ.items l r (.scalar a) (.scalar b) t := by
  unfold scalarProduct
  split
  · exact (meets_pure _).weaken fun _ _ h => h ▸ .realReal
  · exact (meets_pure _).weaken fun _ _ h => h ▸ .realComplex
  · exact (meets_pure _).weaken fun _ _ h => h ▸ .complexReal
  · refine (meets_typed _ (Build.settles_complexMul l r)).weaken ?_
    rintro Γ t ⟨rfl, hi⟩
    exact .complexComplex (hi (by simp))
  · exact meets_throw _ _

theorem meets_matrixProduct {rows cols : Nat} {k : Scalar} (m v : Term) :
    Meets images settings (matrixProduct rows cols k m v) fun Γ t =>
      Multiplies Γ.items m v (.matrix rows cols k) (.vector cols k) t := by
  unfold matrixProduct
  refine Meets.bind_lift fun s hs => ?_
  obtain ⟨-, rfl⟩ := checked_eq_ok_iff.1 hs
  by_cases hk : k = .complex
  · subst hk
    rw [if_pos rfl]
    by_cases hv : (Shape.matrix rows cols .complex).Valid
    · refine (meets_typed _ (Build.settles_complexMatVec hv m v)).weaken ?_
      rintro Γ t ⟨rfl, hi⟩
      exact .complexMatVec hv hi
    · exact meets_typed_fails _ (Build.fails_complexMatVec (fun h => hv h.1) _ _) _
  · rw [if_neg hk]
    by_cases hv : (Shape.matrix rows cols k).Valid ∧ k = .real
    · obtain ⟨hv, rfl⟩ := hv
      refine (meets_typed _ (Build.settles_matVec hv m v)).weaken ?_
      rintro Γ t ⟨rfl, hi⟩
      exact .matVec hv hi
    · exact meets_typed_fails _ (Build.fails_matVec (fun h => hv ⟨h.1, h.2.1⟩) _ _) _

theorem meets_scale (s : Shape) (x v : Term) :
    Meets images settings (do return (⟨s, ← build (Build.scale s x v)⟩ : Typed)) fun Γ t =>
      s.Valid ∧ s.kind.isField ∧ s.helpers .scale ⊆ Γ.items ∧ t = ⟨s, s.combined .scale x v⟩ := by
  by_cases hv : s.Valid ∧ s.kind.isField
  · refine (meets_typed s (Build.settles_entrywise .scale hv.1 hv.2 x v)).weaken ?_
    rintro Γ t ⟨rfl, hi⟩
    exact ⟨hv.1, hv.2, hi, rfl⟩
  · exact meets_typed_fails s (Build.fails_entrywise .scale hv _ _) _

theorem meets_complexScale {s : Shape} (hd : 1 ≤ s.depth) (hk : s.kind = .complex) (x v : Term) :
    Meets images settings (do return (⟨s, ← build (Build.complexScale s x v)⟩ : Typed)) fun Γ t =>
      Operation.complexScale.HasHelper s ∧
        (Item.helper .complexScale s).needs ++ [Item.helper .complexScale s] ⊆ Γ.items ∧
        t = ⟨s, .apply (Operation.complexScale.helperName s) [x, v]⟩ := by
  by_cases hv : s.Valid
  · have hs := Operation.complexScale_hasHelper hd hk hv
    refine (meets_typed s (Build.settles_complexScale hs x v)).weaken ?_
    rintro Γ t ⟨rfl, hi⟩
    exact ⟨hs, hi, rfl⟩
  · exact meets_typed_fails s (Build.fails_complexScale (fun h => hv h.1) _ _) _

theorem meets_product (ls rs : Shape) (l r : Term) :
    Meets images settings (product ls rs l r) fun Γ t => Multiplies Γ.items l r ls rs t := by
  unfold product
  split
  · exact meets_scalarProduct _ _ _ _
  · rename_i hs
    refine (meets_scale rs l r).weaken ?_
    rintro Γ t ⟨hv, hk, hi, rfl⟩
    refine .scale ?_ hv hk hi
    cases rs with
    | scalar k => exact (hs _ rfl).elim
    | vector n k | matrix m n k => simp [Shape.depth]
  · rename_i hs
    refine (meets_scale ls r l).weaken ?_
    rintro Γ t ⟨hv, hk, hi, rfl⟩
    refine .scaleRight ?_ hv hk hi
    cases ls with
    | scalar k => exact (hs _ rfl).elim
    | vector n k | matrix m n k => simp [Shape.depth]
  · refine (meets_complexScale (by simp [Shape.depth]) rfl l r).weaken ?_
    rintro Γ t ⟨hs, hi, rfl⟩
    exact .complexScale hs hi
  · refine (meets_complexScale (by simp [Shape.depth]) rfl l r).weaken ?_
    rintro Γ t ⟨hs, hi, rfl⟩
    exact .complexScale hs hi
  · refine (meets_complexScale (by simp [Shape.depth]) rfl r l).weaken ?_
    rintro Γ t ⟨hs, hi, rfl⟩
    exact .complexScaleRight hs hi
  · refine (meets_complexScale (by simp [Shape.depth]) rfl r l).weaken ?_
    rintro Γ t ⟨hs, hi, rfl⟩
    exact .complexScaleRight hs hi
  · split
    · rename_i h
      obtain ⟨rfl, rfl⟩ := h
      exact meets_matrixProduct l r
    · exact meets_throw _ _
  · exact (meets_dot _ _ l r).weaken fun _ _ h => h.2.2
  · exact meets_throw _ _

theorem meets_binary (op : Binary) (l r : Typed) :
    Meets images settings (binary op l r) fun Γ t => Combines Γ.items op l r t := by
  cases op with
  | add => exact meets_additive rfl l r
  | sub => exact meets_additive rfl l r
  | mul =>
    refine (meets_product (unify l.shape r.shape).1 (unify l.shape r.shape).2 l.term r.term).weaken ?_
    exact fun Γ t h => .mul rfl h
  | dot => exact (meets_dot _ _ _ _).weaken fun _ _ h => .dot h.1 h.2.1 h.2.2

theorem meets_sum (arg : Typed) : Meets images settings (sum arg) fun Γ t => arg.shape.Valid ∧
    arg.shape.kind.isField ∧ ∃ e, arg.shape.element? = some e ∧ sumItems arg.shape ⊆ Γ.items ∧
      t = ⟨e, sumTerm arg.shape arg.term⟩ := by
  unfold sum
  cases he : arg.shape.element? with
  | none => exact meets_throw _ _
  | some e =>
    by_cases hv : arg.shape.Valid ∧ arg.shape.kind.isField
    · refine (meets_typed e (Build.settles_sum hv.1 hv.2 he arg.term)).weaken ?_
      rintro Γ t ⟨rfl, hi⟩
      exact ⟨hv.1, hv.2, e, rfl, hi, rfl⟩
    · exact meets_typed_fails e (Build.fails_sum (fun h => hv ⟨h.1, h.2.1⟩) _) _

theorem meets_element (arg : Typed) (i : Nat) : Meets images settings (element arg i) fun Γ t =>
    arg.shape.Valid ∧ ∃ e n, arg.shape.element? = some e ∧ arg.shape.length? = some n ∧ i < n ∧
      Synth.elementItems arg.shape ⊆ Γ.items ∧ t = ⟨e, Synth.elementTerm arg.shape i arg.term⟩ := by
  unfold element
  by_cases hv : arg.shape.Valid ∧ ∃ n, arg.shape.length? = some n ∧ i < n
  · obtain ⟨hv, n, hn, hin⟩ := hv
    obtain ⟨e, he⟩ := Shape.exists_element?_of_length? hn
    refine ((meets_build (Build.settles_element hv he hn hin)).bind
      (fun item => meets_pure (⟨arg.shape.element?.getD arg.shape, item arg.term⟩ : Typed)) ?_).weaken ?_
    · exact fun Γ Δ a hle ⟨ha, hi⟩ => ⟨ha, fun _ hx => hle.items (hi hx)⟩
    · rintro Γ t ⟨item, ⟨ha, hi⟩, rfl⟩
      injection ha with ha
      exact ⟨hv, e, n, he, hn, hin, hi, by rw [← ha, he, Option.getD_some]⟩
  · exact ((meets_build_fails (Build.fails_element hv) fun _ _ => False).bind
      (fun _ => meets_pure _) fun _ _ _ _ h => h).weaken fun _ _ ⟨_, h, _⟩ => h.elim

theorem meets_point (arg : Typed) :
    Meets images settings (point arg) fun _ p => arg.IsPoint ∧ p = arg.term := by
  unfold point
  by_cases h : arg.shape = .realVector 2 ∨ arg.shape = .complex
  · rw [if_pos h]
    exact (meets_pure _).weaken fun _ _ hp => ⟨h, hp.symm⟩
  · rw [if_neg h]
    exact meets_throw _ _

/-! ## Reads of images -/

/-- A read of an image that is there. -/
theorem meets_read_ok {channels : Channels} {name : String} {term : Term}
    {attempt : Textures → Except Failure (Term × Textures)}
    (h : ∀ t, attempt t = .ok (term, t.keep images name)) :
    Meets images settings (read channels attempt) fun Γ t =>
      name ∈ Γ.readers ∧ t = ⟨channels.shape, term⟩ := by
  intro uniforms diagnostics
  refine ⟨⟨.ok ⟨channels.shape, term⟩, [], [name], uniforms, diagnostics⟩, fun c t => ⟨c, rfl, ?_⟩,
    List.prefix_rfl, fun known shown hk => ⟨hk.mono (List.subset_append_left _ _), fun a ha => ?_⟩⟩
  · unfold read
    simp only [run_get_bind, h]
    rfl
  · injection ha with ha
    exact ⟨List.mem_append_right _ List.mem_cons_self, ha.symm⟩

/-- A read of an image that is not there. -/
theorem meets_read_missing {channels : Channels} {failure : Failure}
    {attempt : Textures → Except Failure (Term × Textures)} (hr : failure.isRecoverable)
    (h : ∀ t, attempt t = .error failure) :
    Meets images settings (read channels attempt) fun _ t =>
      t = ⟨channels.shape, channels.shape.filled (.literal .zero)⟩ := by
  obtain ⟨hv, hk, -⟩ := channels.shape_native
  have hfill := Build.settles_fill (x := .zero false) hv hk rfl
  intro uniforms diagnostics
  refine ⟨⟨.ok ⟨channels.shape, channels.shape.filled (.literal .zero)⟩, channels.shape.structs, [],
    uniforms, diagnostics ++ [⟨channels.node, failure.message⟩]⟩, fun c t => ?_, List.prefix_rfl,
    fun known shown hs => ⟨hs.mono (List.subset_append_left _ _), fun a ha => ?_⟩⟩
  · obtain ⟨c', hrun, he⟩ := hfill c
    refine ⟨c', he, ?_⟩
    unfold read
    simp only [run_get_bind, h, hr, if_true]
    rw [run_modify_bind, ExceptT.run_bind, StateT.run_bind, run_build, hrun]
    rfl
  · injection ha with ha
    exact ha.symm

/-- A read that fails for another reason changes nothing. -/
theorem run_read_failure {channels : Channels} {failure : Failure}
    {attempt : Textures → Except Failure (Term × Textures)} (hr : ¬ failure.isRecoverable)
    (h : ∀ t, attempt t = .error failure) (s : Session) :
    (read channels attempt).run.run s = (.error failure, s) := by
  unfold read
  simp only [run_get_bind, h, hr]
  rfl

theorem meets_read_failure {channels : Channels} {failure : Failure}
    {attempt : Textures → Except Failure (Term × Textures)} (hr : ¬ failure.isRecoverable)
    (h : ∀ t, attempt t = .error failure) (p : Post Typed) :
    Meets images settings (read channels attempt) p := by
  intro uniforms diagnostics
  exact ⟨⟨.error failure, [], [], uniforms, diagnostics⟩,
    fun c t => ⟨c, rfl, run_read_failure hr h _⟩, List.prefix_rfl,
    fun known shown hs => ⟨hs.mono (List.subset_append_left _ _), fun a ha => by cases ha⟩⟩

theorem meets_read (channels : Channels) (name : String) (a b p : Term) :
    Meets images settings (read channels fun t => t.read images channels name a b p) fun Γ t =>
      Reads Γ channels name a b p t := by
  by_cases h : Available images name
  · refine (meets_read_ok fun t => t.read_of_available h channels a b p).within.weaken ?_
    rintro Γ t ⟨rfl, -, hr, rfl⟩
    exact .available h hr
  · refine (meets_read_missing (Failure.ofImage_isRecoverable name) fun t =>
      t.read_eq_error h channels a b p).within.weaken ?_
    rintro Γ t ⟨rfl, -, rfl⟩
    exact .unavailable h

/-- A corner that has no literal is no want of an image. -/
theorem not_isRecoverable_of_point {p : Point} {failure : Failure}
    (h : Textures.point p = .error failure) : ¬ failure.isRecoverable := by
  have hlit : ∀ x failure, literal? x = .error failure → ¬ failure.isRecoverable := by
    intro x failure hx
    unfold literal? at hx
    split at hx
    · cases hx
    · injection hx with hx
      subst hx
      exact Bool.false_ne_true
  unfold Textures.point at h
  cases hx : literal? p.x with
  | error f =>
    rw [hx] at h
    injection h with h
    exact h ▸ hlit _ _ hx
  | ok d =>
    cases hy : literal? p.y with
    | error f =>
      rw [hx, hy] at h
      injection h with h
      exact h ▸ hlit _ _ hy
    | ok d' =>
      rw [hx, hy] at h
      cases h

/-- The corners of the viewport have terms, or no read on its bottom edge succeeds. -/
theorem readInViewport_cases (viewport : Viewport) :
    (∃ failure : Failure, ¬ failure.isRecoverable ∧
      ∀ (t : Textures) (images : String → Option Image) (channels : Channels) (name : String)
        (p : Term), t.readInViewport images viewport channels name p = .error failure) ∨
      ∃ a b, Textures.point viewport.lowerLeft = .ok a ∧ Textures.point viewport.lowerRight = .ok b := by
  cases ha : Textures.point viewport.lowerLeft with
  | error failure =>
    refine .inl ⟨failure, not_isRecoverable_of_point ha, fun t images channels name p => ?_⟩
    rw [Textures.readInViewport, ha]
    rfl
  | ok a =>
    cases hb : Textures.point viewport.lowerRight with
    | error failure =>
      refine .inl ⟨failure, not_isRecoverable_of_point hb, fun t images channels name p => ?_⟩
      rw [Textures.readInViewport, ha, hb]
      rfl
    | ok b => exact .inr ⟨a, b, rfl, rfl⟩

theorem meets_readInViewport (channels : Channels) (name : String) (p : Term) :
    Meets images settings
      (read channels fun t => t.readInViewport images settings.viewport channels name p) fun Γ t =>
      ∃ a b, Textures.point Γ.viewport.lowerLeft = .ok a ∧
        Textures.point Γ.viewport.lowerRight = .ok b ∧ Reads Γ channels name a b p t := by
  rcases readInViewport_cases settings.viewport with ⟨failure, hr, hf⟩ | ⟨a, b, ha, hb⟩
  · exact meets_read_failure hr (fun t => hf t images channels name p) _
  · rw [Textures.readInViewport_eq ha hb]
    refine (meets_read channels name a b p).within.weaken ?_
    rintro Γ t ⟨-, hvp, hr⟩
    exact ⟨a, b, hvp ▸ ha, hvp ▸ hb, hr⟩

/-! ## Whole expressions -/

/-- What is known of an expression that has to be a point. -/
def PointOf (e : Expr) : Post Term := fun Γ p => ∃ t, Translates Γ e t ∧ t.IsPoint ∧ p = t.term

theorem PointOf.mono {e : Expr} : ∀ Γ Δ p, Γ.Le Δ → PointOf e Γ p → PointOf e Δ p :=
  fun _ _ _ hle ⟨t, ht, hp⟩ => ⟨t, ht.mono hle, hp⟩

theorem Meets.point {e : Expr} (h : Meets images settings (node images e) fun Γ t => Translates Γ e t) :
    Meets images settings (node images e >>= point) (PointOf e) :=
  h.bind meets_point fun _ _ _ hle h => h.mono hle

mutual

/-- **Compiling an expression meets its translation.** -/
theorem meets_node : ∀ e : Expr, Meets images settings (node images e) fun Γ t => Translates Γ e t
  | .real x => by
    rw [node]
    exact Meets.bind_lift fun d hd => (meets_pure _).weaken fun _ _ h => h ▸ .real hd
  | .complex x y => by
    rw [node]
    exact Meets.bind_lift fun d hd => Meets.bind_lift fun d' hd' =>
      (meets_pure _).weaken fun _ _ h => h ▸ .complex hd hd'
  | .list es => by
    rw [node]
    refine ((meets_nodes es).bind meets_list fun _ _ _ hle h => h.mono hle).weaken ?_
    rintro Γ t ⟨ts, hts, e, s, hall, hs, hi, rfl⟩
    exact .list hts hall hs hi
  | .uniform name s => by
    rw [node]
    refine (meets_uniform name s).weaken ?_
    rintro Γ t ⟨hn, hv, hu, hi, rfl⟩
    exact .uniform hn hv hu hi
  | .pixel => by
    rw [node]
    exact (meets_pure _).weaken fun _ _ h => h ▸ .pixel
  | .binary op lhs rhs => by
    rw [node]
    refine ((meets_node lhs).bind (fun l => (meets_node rhs).bind (meets_binary op l)
      fun _ _ _ hle h => h.mono hle) fun _ _ _ hle h => h.mono hle).weaken ?_
    rintro Γ t ⟨l, hl, r, hr, hc⟩
    exact .binary hl hr hc
  | .sum arg => by
    rw [node]
    refine ((meets_node arg).bind meets_sum fun _ _ _ hle h => h.mono hle).weaken ?_
    rintro Γ t ⟨a, ha, hv, hk, e, he, hi, rfl⟩
    exact .sum ha hv hk he hi
  | .element arg i => by
    rw [node]
    refine ((meets_node arg).bind (meets_element · i) fun _ _ _ hle h => h.mono hle).weaken ?_
    rintro Γ t ⟨a, ha, hv, e, n, he, hn, hin, hi, rfl⟩
    exact .element ha hv he hn hin hi
  | .image channels name p => by
    rw [node]
    refine ((meets_node p).point.bind (fun p => meets_viewport
      (f := fun v => read channels fun t => t.readInViewport images v channels name p)
      (meets_readInViewport channels name p)) PointOf.mono).weaken ?_
    rintro Γ t ⟨-, ⟨x, hx, hp, rfl⟩, a, b, ha, hb, hr⟩
    exact .image hx hp ha hb hr
  | .imageOn channels name a b p => by
    rw [node]
    refine ((meets_node p).point.bind (fun p => (meets_node a).point.bind (fun a =>
      (meets_node b).point.bind (fun b => meets_read channels name a b p)
        PointOf.mono) PointOf.mono) PointOf.mono).weaken ?_
    rintro Γ t ⟨-, ⟨x, hx, hp, rfl⟩, -, ⟨y, hy, hyp, rfl⟩, -, ⟨z, hz, hzp, rfl⟩, hr⟩
    exact .imageOn hx hp hy hyp hz hzp hr

theorem meets_nodes : ∀ es : List Expr,
    Meets images settings (nodes images es) fun Γ ts => TranslatesAll Γ es ts
  | [] => by
    rw [nodes]
    exact (meets_pure _).weaken fun _ _ h => h ▸ .nil
  | e :: es => by
    rw [nodes]
    refine ((meets_node e).bind (fun t => (meets_nodes es).bind (fun ts => meets_pure (t :: ts))
      fun _ _ _ hle h => h.mono hle) fun _ _ _ hle h => h.mono hle).weaken ?_
    rintro Γ - ⟨t, ht, ts, hts, rfl⟩
    exact .cons ht hts

end

end Compile
end ShaderAlgebra
