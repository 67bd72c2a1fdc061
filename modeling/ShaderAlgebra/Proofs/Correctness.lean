import ShaderAlgebra.Proofs.EvaluatedHeader
import ShaderAlgebra.Proofs.Readability
import ShaderAlgebra.Proofs.WellTyped

/-!
# Compiled programs compute the values of their expressions

The text of a compiled program, read back and evaluated, gives the stored
representation of the value of its expression (`Session.programs_evaluate`).  The proof goes through the
translation of expressions: where the library means the items of the context and the variables
hold the inputs, every translated term has the stored value of its expression (`Translates.represents`).
-/

namespace ShaderAlgebra

open Glsl (Term Value Library Sampler Env Plane)
open Glsl.Library
open Compile (unify promoteAll)

/-! ## Operands read next to each other -/

namespace Quantity

theorem beside_of_ne {x y : Quantity} (h2 : ¬ (x.shape = .realVector 2 ∧ y.shape = .complex))
    (h1 : ¬ (x.shape = .realVector 1 ∧ y.shape.depth = 0)) : x.beside y = x := by
  unfold beside
  split
  · rename_i hy
    exact absurd ⟨rfl, hy⟩ h2
  · rename_i k _ hy
    exact absurd ⟨rfl, by rw [hy]; rfl⟩ h1
  · rfl

theorem store_pair (v : Fin 2 → ℚ) : store .complex (⟨v 0, v 1⟩ : Gauss) = store (.realVector 2) v := by
  rw [store_nativeVector (by decide) (by decide), store_complex]
  rfl

/-- **Reading a value next to another keeps what is stored,** and gives the shapes that operands are
unified to. -/
theorem exists_beside {x y : Quantity} {ls rs : Shape} (hu : unify x.shape y.shape = (ls, rs)) :
    ∃ (a : ls.Carrier) (b : rs.Carrier), x.beside y = ⟨ls, a⟩ ∧ y.beside x = ⟨rs, b⟩ ∧
      store ls a = store x.shape x.value ∧ store rs b = store y.shape y.value := by
  obtain ⟨l, v⟩ := x
  obtain ⟨r, w⟩ := y
  unfold unify at hu
  dsimp only at hu
  split at hu
  · rename_i h
    obtain ⟨rfl, rfl⟩ := h
    obtain ⟨rfl, rfl⟩ := Prod.mk.inj hu
    exact ⟨v, ⟨w 0, w 1⟩, rfl, rfl, rfl, store_pair w⟩
  · rename_i hpair
    split at hu
    · rename_i h
      obtain ⟨rfl, rfl⟩ := h
      obtain ⟨rfl, rfl⟩ := Prod.mk.inj hu
      exact ⟨⟨v 0, v 1⟩, w, rfl, rfl, store_pair v, rfl⟩
    · rename_i hpair'
      split at hu
      · rename_i h
        obtain ⟨rfl, hr⟩ := h
        obtain ⟨rfl, rfl⟩ := Prod.mk.inj hu
        cases r with
        | vector n k | matrix r c k => cases hr
        | scalar k => exact ⟨v 0, w, rfl, rfl, rfl, rfl⟩
      · rename_i hsingle
        split at hu
        · rename_i h
          obtain ⟨rfl, hl⟩ := h
          obtain ⟨rfl, rfl⟩ := Prod.mk.inj hu
          cases l with
          | vector n k | matrix r c k => cases hl
          | scalar k => exact ⟨v, w 0, rfl, rfl, rfl, rfl⟩
        · rename_i hsingle'
          obtain ⟨rfl, rfl⟩ := Prod.mk.inj hu
          exact ⟨v, w, beside_of_ne hpair' hsingle, beside_of_ne (fun h => hpair ⟨h.2, h.1⟩) hsingle',
            rfl, rfl⟩

theorem as?_self {s : Shape} (v : s.Carrier) : (⟨s, v⟩ : Quantity).as? s = some v :=
  dif_pos rfl

theorem toComplex_of_ne {x : Quantity} (h : x.shape ≠ .real) : x.toComplex = x := by
  unfold toComplex
  split
  · exact absurd rfl h
  · rfl

/-- An operation on operands of one shape. -/
theorem entrywise_same {f : (s : Shape) → s.Carrier → s.Carrier → s.Carrier} {x y : Quantity} {s : Shape}
    {a b : s.Carrier} (ha : x.beside y = ⟨s, a⟩) (hb : y.beside x = ⟨s, b⟩) :
    entrywise f x y = some ⟨s, f s a b⟩ := by
  have hpromote : promote [⟨s, a⟩, ⟨s, b⟩] = [⟨s, a⟩, ⟨s, b⟩] := by
    unfold promote
    split
    · rename_i hany
      have hs : s = .complex := by simpa using hany
      subst hs
      rfl
    · rfl
  rw [entrywise, ha, hb, hpromote]
  simp only [as?_self, Option.map_some]

theorem entrywise_left {f : (s : Shape) → s.Carrier → s.Carrier → s.Carrier} {x y : Quantity} {a : ℚ}
    {b : Gauss} (ha : x.beside y = ⟨.real, a⟩) (hb : y.beside x = ⟨.complex, b⟩) :
    entrywise f x y = some ⟨.complex, f .complex (QuadraticAlgebra.C a) b⟩ := by
  rw [entrywise, ha, hb]
  rfl

theorem entrywise_right {f : (s : Shape) → s.Carrier → s.Carrier → s.Carrier} {x y : Quantity}
    {a : Gauss} {b : ℚ} (ha : x.beside y = ⟨.complex, a⟩) (hb : y.beside x = ⟨.real, b⟩) :
    entrywise f x y = some ⟨.complex, f .complex a (QuadraticAlgebra.C b)⟩ := by
  rw [entrywise, ha, hb]
  rfl

/-- Only scalars scale. -/
theorem scale_of_depth {x y : Quantity} (h : 1 ≤ x.shape.depth) : x.scale y = none := by
  unfold scale
  split
  · cases h
  · cases h
  · rfl

theorem scale_real {s : Shape} {f : ℚ → s.kind.Carrier} (hf : s.kind.ofReal? = some f) (q : ℚ)
    (v : s.Carrier) : scale ⟨.real, q⟩ ⟨s, v⟩ = some ⟨s, f q • v⟩ := by
  simp [scale, hf]

theorem scale_complex {s : Shape} (h : .complex = s.kind) (z : Gauss) (v : s.Carrier) :
    scale ⟨.complex, z⟩ ⟨s, v⟩ =
      some ⟨s, (cast (congrArg Scalar.Carrier h) z : s.kind.Carrier) • v⟩ :=
  dif_pos h

theorem times_of_scale {x y z : Quantity} (h : x.scale y = some z) : x.times y = some z := by
  simp [times, h]

theorem times_of_scaleRight {x y z : Quantity} (hx : 1 ≤ x.shape.depth) (h : y.scale x = some z) :
    x.times y = some z := by
  simp [times, scale_of_depth hx, h]

/-- A product of vectors is their dot product. -/
theorem times_of_vectors {x y : Quantity} (hx : x.shape.depth = 1) (hy : y.shape.depth = 1) :
    x.times y = x.dot y := by
  have hmul : x.mulVec y = none := by
    unfold mulVec
    split
    · cases hx
    · rfl
  simp [times, scale_of_depth (Nat.le_of_eq hx.symm), scale_of_depth (Nat.le_of_eq hy.symm), hmul]

end Quantity

theorem Scalar.exists_ofReal {k : Scalar} (h : k.isField) : ∃ f, k.ofReal? = some f := by
  cases k with
  | bool | int => cases h
  | real => exact ⟨_, rfl⟩
  | complex => exact ⟨_, rfl⟩

/-! ## Operations -/

/-- A term has the stored value of a quantity of its shape. -/
structure Represents (L : Library) (σ : Sampler) (env : Env) (t : Typed) (x : Quantity) : Prop where
  shape : x.shape = t.shape
  value : L.value σ env t.term = some (store x.shape x.value)

section Operations

variable {L : Library} {σ : Sampler} {env : Env} {items : List Item}

theorem value_promote {t : Term} {a : ℚ} (h : L.value σ env t = some (store .real a)) :
    L.value σ env (Compile.promote t) = some (store .complex (QuadraticAlgebra.C a)) := by
  have hzero : L.value σ env (.literal .zero) = some (.float 0) := by rw [value_literal, value_zero]
  rw [Compile.promote, value_call (values_pair h hzero), call_builtin (by decide)]
  rfl

/-- A complex number times a real one. -/
theorem value_complexReal {l r : Term} {z : Gauss} {q : ℚ} (hl : L.value σ env l = some (store .complex z))
    (hr : L.value σ env r = some (store .real q)) : L.value σ env (.grouped .times l r) =
      some (store .complex (QuadraticAlgebra.C q * z)) := by
  rw [value_grouped hl hr, C_mul_eq, mul_comm q, mul_comm q]
  rfl

/-- A complex multiple. -/
theorem value_complexScale {s : Shape} (hs : Operation.complexScale.HasHelper s)
    (hm : L.Means σ (.helper .complexScale s)) {l r : Term} {z : Gauss} {v : s.Carrier}
    (hl : L.value σ env l = some (store .complex z)) (hr : L.value σ env r = some (store s v)) :
    L.value σ env (.apply (Operation.complexScale.helperName s) [l, r]) =
      some (store s ((cast (congrArg Scalar.Carrier hs.2.symm) z : s.kind.Carrier) • v)) := by
  have hk : s.kind.isField := by rw [hs.2]; rfl
  rw [value_call (values_pair hl hr), store_of_field hk, store_of_field hk,
    coords_complex_smul hs.2.symm, coords_complex hs.2]
  exact hm z _ _ (length_part hs.1 hs.2 _) (length_part hs.1 hs.2 _)

/-- **A product of operands is the product of their values.** -/
theorem Multiplies.represents (hm : ∀ x ∈ items, L.Means σ x) {l r : Term} {ls rs : Shape} {t : Typed}
    (h : Multiplies items l r ls rs t) {a : ls.Carrier} {b : rs.Carrier}
    (hl : L.value σ env l = some (store ls a)) (hr : L.value σ env r = some (store rs b)) :
    ∃ z, Quantity.times ⟨ls, a⟩ ⟨rs, b⟩ = some z ∧ Represents L σ env t z := by
  have hlast : ∀ {xs : List Item} {x : Item}, xs ++ [x] ⊆ items → L.Means σ x := fun hi =>
    hm _ (hi (List.mem_append_right _ List.mem_cons_self))
  have hnative : ∀ {s : Shape}, s.isNative → ∀ x ∈ s.helpers .scale, L.Means σ x := by
    intro s hn x hx
    rw [Shape.helpers_of_native _ hn] at hx
    cases hx
  cases h with
  | realReal =>
    exact ⟨_, rfl, rfl, value_multiple (s := .real) trivial rfl (hnative rfl) rfl hl hr⟩
  | realComplex =>
    exact ⟨_, rfl, rfl, value_multiple (s := .complex) trivial rfl (hnative rfl) rfl hl hr⟩
  | complexReal => exact ⟨_, rfl, rfl, value_complexReal hl hr⟩
  | complexComplex hi =>
    have hmul := hm _ hi
    exact ⟨_, rfl, rfl, (value_call (values_pair hl hr)).trans (hmul a b)⟩
  | scale hd hv hk hi =>
    obtain ⟨f, hf⟩ := Scalar.exists_ofReal hk
    exact ⟨_, Quantity.times_of_scale (Quantity.scale_real hf a b), rfl,
      value_multiple hv hk (fun x hx => hm x (hi hx)) hf hl hr⟩
  | scaleRight hd hv hk hi =>
    obtain ⟨f, hf⟩ := Scalar.exists_ofReal hk
    exact ⟨_, Quantity.times_of_scaleRight hd (Quantity.scale_real hf b a), rfl,
      value_multiple hv hk (fun x hx => hm x (hi hx)) hf hr hl⟩
  | complexScale hs hi =>
    exact ⟨_, Quantity.times_of_scale (Quantity.scale_complex hs.2.symm a b), rfl,
      value_complexScale hs (hlast hi) hl hr⟩
  | complexScaleRight hs hi =>
    have hd : 1 ≤ ls.depth := by
      rcases (Operation.HasHelper.complexScale hs).2 with ⟨n, rfl⟩ | ⟨m, n, rfl⟩
      · exact Nat.le_refl 1
      · exact Nat.le_succ 1
    exact ⟨_, Quantity.times_of_scaleRight hd (Quantity.scale_complex hs.2.symm b a), rfl,
      value_complexScale hs (hlast hi) hr hl⟩
  | @matVec m n hv hi =>
    refine ⟨⟨.realVector m, Matrix.mulVec a b⟩, ?_, rfl, ?_⟩
    · simp [Quantity.times, Quantity.scale, Quantity.mulVec, Quantity.as?_self]
    · exact value_matVecTerm (fun x hx => hm x (hi hx)) hl hr
  | @complexMatVec m n hv hi =>
    refine ⟨⟨.vector m .complex, Matrix.mulVec a b⟩, ?_, rfl, ?_⟩
    · simp [Quantity.times, Quantity.scale, Quantity.mulVec, Quantity.as?_self]
    · exact (value_call (values_pair hl hr)).trans (hlast hi m n rfl a b)
  | @dot n hv hi =>
    refine ⟨⟨.real, dotProduct a b⟩, ?_, rfl, ?_⟩
    · simp [Quantity.times, Quantity.scale, Quantity.mulVec, Quantity.dot, Quantity.as?_self]
    · exact value_dotTerm (fun x hx => hm x (hi hx)) hl hr
  | @complexDot n hv hi =>
    refine ⟨⟨.complex, dotProduct a b⟩, ?_, rfl, ?_⟩
    · simp [Quantity.times, Quantity.scale, Quantity.mulVec, Quantity.dot, Quantity.as?_self]
    · exact (value_call (values_pair hl hr)).trans (hlast hi n rfl a b)

/-- Sums and differences, as operations on values. -/
theorem Binary.exists_pointwise {op : Binary} {w : Entrywise} (h : op.entrywise? = some w) :
    ∃ f, Pointwise f w.fn ∧ w ≠ .scale ∧ ∀ x y : Quantity, x.binary op y = x.entrywise f y := by
  cases op with
  | add =>
    obtain rfl : .add = w := Option.some.inj h
    exact ⟨_, pointwise_add, by decide, fun _ _ => rfl⟩
  | sub =>
    obtain rfl : .sub = w := Option.some.inj h
    exact ⟨_, pointwise_sub, by decide, fun _ _ => rfl⟩
  | mul | dot => cases h

/-- **An operation on operands is the operation on their values.** -/
theorem Combines.represents (hm : ∀ x ∈ items, L.Means σ x) {op : Binary} {l r t : Typed}
    (h : Combines items op l r t) {x y : Quantity} (hx : Represents L σ env l x)
    (hy : Represents L σ env r y) : ∃ z, x.binary op y = some z ∧ Represents L σ env t z := by
  have hcomplex : ∀ {w : Entrywise}, ∀ z ∈ Shape.complex.helpers w, L.Means σ z := by
    intro w z hz
    rw [Shape.helpers_of_native w rfl] at hz
    cases hz
  have hread : ∀ {ls rs : Shape}, unify l.shape r.shape = (ls, rs) → ∃ (a : ls.Carrier) (b : rs.Carrier),
      x.beside y = ⟨ls, a⟩ ∧ y.beside x = ⟨rs, b⟩ ∧ L.value σ env l.term = some (store ls a) ∧
        L.value σ env r.term = some (store rs b) := by
    intro ls rs hu
    rw [← hx.shape, ← hy.shape] at hu
    obtain ⟨a, b, ha, hb, hsa, hsb⟩ := Quantity.exists_beside hu
    exact ⟨a, b, ha, hb, by rw [hx.value, hsa], by rw [hy.value, hsb]⟩
  cases h with
  | same hw hu hv hk hi =>
    obtain ⟨f, hf, hne, hop⟩ := Binary.exists_pointwise hw
    obtain ⟨a, b, ha, hb, hva, hvb⟩ := hread hu
    exact ⟨_, (hop x y).trans (Quantity.entrywise_same ha hb), rfl,
      value_pointwise hf hne hv hk (fun z hz => hm z (hi hz)) hva hvb⟩
  | promoteLeft hw hu =>
    obtain ⟨f, hf, hne, hop⟩ := Binary.exists_pointwise hw
    obtain ⟨a, b, ha, hb, hva, hvb⟩ := hread hu
    exact ⟨_, (hop x y).trans (Quantity.entrywise_left ha hb), rfl,
      value_pointwise (s := .complex) hf hne trivial rfl hcomplex (value_promote hva) hvb⟩
  | promoteRight hw hu =>
    obtain ⟨f, hf, hne, hop⟩ := Binary.exists_pointwise hw
    obtain ⟨a, b, ha, hb, hva, hvb⟩ := hread hu
    exact ⟨_, (hop x y).trans (Quantity.entrywise_right ha hb), rfl,
      value_pointwise (s := .complex) hf hne trivial rfl hcomplex hva (value_promote hvb)⟩
  | mul hu hmul =>
    obtain ⟨a, b, ha, hb, hva, hvb⟩ := hread hu
    obtain ⟨z, hz, hrep⟩ := hmul.represents hm hva hvb
    exact ⟨z, by rw [Quantity.binary, Quantity.mul, ha, hb, hz], hrep⟩
  | dot hd hdr hmul =>
    rw [← hx.shape] at hd
    rw [← hy.shape] at hdr
    rw [← hx.shape, ← hy.shape] at hmul
    obtain ⟨z, hz, hrep⟩ := hmul.represents hm hx.value hy.value
    exact ⟨z, (Quantity.times_of_vectors hd hdr).symm.trans hz, hrep⟩

/-! ## Lists -/

theorem Represents.promote {t : Typed} {x : Quantity} (h : Represents L σ env t x) :
    Represents L σ env (if t.shape = .real then ⟨.complex, Compile.promote t.term⟩ else t)
      x.toComplex := by
  split
  · rename_i ht
    obtain ⟨s, v⟩ := x
    obtain rfl : s = .real := h.shape.trans ht
    exact ⟨rfl, value_promote h.value⟩
  · rename_i ht
    rw [Quantity.toComplex_of_ne (h.shape ▸ ht)]
    exact h

/-- Real numbers in a list become complex together. -/
theorem represents_promoteAll {ts : List Typed} {xs : List Quantity}
    (h : List.Forall₂ (Represents L σ env) ts xs) :
    List.Forall₂ (Represents L σ env) (promoteAll ts) (Quantity.promote xs) := by
  have hany : (ts.any fun t => t.shape = .complex) = xs.any fun x => x.shape = .complex := by
    induction h with
    | nil => rfl
    | cons hx _ ih => rw [List.any_cons, List.any_cons, ih, hx.shape]
  rw [promoteAll, Quantity.promote, hany]
  split
  · rw [List.forall₂_map_left_iff, List.forall₂_map_right_iff]
    exact h.imp fun _ _ hx => hx.promote
  · exact h

/-- Quantities of one shape are values of it. -/
theorem exists_values {ts : List Typed} {xs : List Quantity} {e : Shape}
    (h : List.Forall₂ (Represents L σ env) ts xs) (hall : ∀ t ∈ ts, t.shape = e) :
    ∃ vs : List e.Carrier, xs = vs.map (Quantity.mk e) ∧
      L.values σ env (ts.map (·.term)) = some (vs.map (store e)) := by
  induction h with
  | nil => exact ⟨[], rfl, values_nil⟩
  | @cons t x ts xs hx _ ih =>
    obtain ⟨vs, rfl, hvs⟩ := ih fun u hu => hall u (List.mem_cons_of_mem _ hu)
    obtain ⟨s, v⟩ := x
    obtain rfl : s = e := hx.shape.trans (hall t List.mem_cons_self)
    exact ⟨v :: vs, rfl, values_cons hx.value hvs⟩

theorem mapM_as? {e : Shape} (vs : List e.Carrier) :
    (vs.map (Quantity.mk e)).mapM (Quantity.as? · e) = some vs := by
  induction vs with
  | nil => rfl
  | cons v vs ih => simp [List.mapM_cons, Quantity.as?_self, ih]

/-- **A list is the vector or the matrix of its values.** -/
theorem represents_list {ts : List Typed} {xs : List Quantity} {e s : Shape}
    (h : List.Forall₂ (Represents L σ env) ts xs) (hall : ∀ t ∈ promoteAll ts, t.shape = e)
    (hs : Compile.listShape ts.length e = .ok s) (ho : ∀ x ∈ s.structs, L.Means σ x) :
    ∃ z, Quantity.list xs = some z ∧ Represents L σ env
      ⟨s, Synth.constructTerm s ((promoteAll ts).map (·.term))⟩ z := by
  obtain ⟨vs, hxs, hvs⟩ := exists_values (represents_promoteAll h) hall
  have hlen : ts.length = vs.length := by
    rw [← Compile.length_promoteAll ts, (represents_promoteAll h).length_eq, hxs, List.length_map]
  obtain ⟨hv, hn, -⟩ := Compile.listShape_valid hs
  have hpos := Shape.length_pos hv hn
  have hvalues : L.values σ env ((promoteAll ts).map (·.term)) =
      some (List.ofFn fun i => store e (vs.get i)) := by
    rw [hvs]
    exact congrArg some (List.ofFn_getElem_eq_map vs (store e)).symm
  obtain ⟨v, vs', rfl⟩ := List.exists_cons_of_length_pos (hlen ▸ hpos)
  rw [hlen] at hs
  cases e with
  | matrix r c k => cases hs
  | scalar k =>
    obtain ⟨-, rfl⟩ := Compile.checked_eq_ok_iff.1 hs
    refine ⟨⟨.vector (v :: vs').length k, (v :: vs').get⟩, ?_, rfl, value_vectorTerm hv hvalues ho⟩
    rw [Quantity.list, hxs]
    simp only [List.map_cons, List.head?_cons]
    rw [← List.map_cons, mapM_as?]
    rfl
  | vector c k =>
    obtain ⟨-, rfl⟩ := Compile.checked_eq_ok_iff.1 hs
    refine ⟨⟨.matrix (v :: vs').length c k, .of (v :: vs').get⟩, ?_, rfl,
      value_matrixTerm hv hvalues ho⟩
    rw [Quantity.list, hxs]
    simp only [List.map_cons, List.head?_cons]
    rw [← List.map_cons, mapM_as?]
    rfl

end Operations

/-! ## Expressions -/

/-- The library and the variables hold what the context of a translation promises, with the values of
a world. -/
structure Context.Holds (Γ : Context) (W : World) (L : Library) (env : Env) : Prop where
  images : Γ.images = W.images
  viewport : Γ.viewport = W.viewport
  items : ∀ x ∈ Γ.items, L.Means W.sampler x
  pixel : env.lookup pixelName = some (.vec [W.pixel.1, W.pixel.2])
  uniforms : ∀ name s, InputName name → Γ.uniforms.lookup name = some s →
    env.lookup name = some (store s (W.inputs name s))
  readers : ∀ (channels : Channels) (name : String) (vs : List Value),
    L.call W.sampler (channels.reader name) vs = Glsl.callReader W.sampler (channels.reader name) vs

section Expressions

variable {Γ : Context} {W : World} {L : Library} {env : Env}

theorem readerOf?_reader (channels : Channels) (name : String) :
    Glsl.readerOf? (channels.reader name) = some (channels, name) := by
  cases channels <;> simp [Glsl.readerOf?, Channels.reader]

theorem value_literals {σ : Sampler} (d d' : Decimal) :
    L.value σ env (.apply "vec2" [.literal d, .literal d']) =
      some (store .complex (⟨d.value, d'.value⟩ : Gauss)) := by
  rw [value_call (values_pair (value_literal d) (value_literal d')), call_builtin (by decide)]
  rfl

theorem number?_of_literal? {x : Binary64} {d : Decimal} (h : literal? x = .ok d) :
    World.number? x = some d.value := by
  rw [World.number?, h]
  rfl

/-- A corner of the viewport. -/
theorem exists_corner {σ : Sampler} {p : Point} {t : Term} (h : Textures.point p = .ok t) :
    ∃ c, World.corner? p = some c ∧ L.value σ env t = some (.vec [c.1, c.2]) := by
  obtain ⟨d, d', hx, hy, rfl⟩ := point_eq_ok h
  refine ⟨(d.value, d'.value), ?_, value_literals d d'⟩
  rw [World.corner?, number?_of_literal? hx, number?_of_literal? hy]
  rfl

/-- An operand that is a point. -/
theorem Typed.IsPoint.represents {σ : Sampler} {t : Typed} (h : t.IsPoint) {x : Quantity}
    (hx : Represents L σ env t x) :
    ∃ c, x.point? = some c ∧ L.value σ env t.term = some (.vec [c.1, c.2]) := by
  obtain ⟨s, v⟩ := x
  rcases h with h | h
  · obtain rfl : s = .realVector 2 := hx.shape.trans h
    exact ⟨(v 0, v 1), rfl, hx.value.trans (congrArg some (Quantity.store_pair v).symm)⟩
  · obtain rfl : s = .complex := hx.shape.trans h
    exact ⟨(v.re, v.im), rfl, hx.value⟩

/-- **A read of an image** is a call of its reader, or zero. -/
theorem Reads.represents (hΓ : Γ.Holds W L env) {channels : Channels} {name : String} {a b p : Term}
    {t : Typed} (h : Reads Γ channels name a b p t) {A B P : Plane}
    (ha : L.value W.sampler env a = some (.vec [A.1, A.2]))
    (hb : L.value W.sampler env b = some (.vec [B.1, B.2]))
    (hp : L.value W.sampler env p = some (.vec [P.1, P.2])) :
    Represents L W.sampler env t (W.read channels name A B P) := by
  have hshape : Shape.realVector (Glsl.channelCount channels) = channels.shape := by
    cases channels <;> rfl
  have hcount : 2 ≤ Glsl.channelCount channels ∧ Glsl.channelCount channels ≤ maxNativeWidth := by
    cases channels <;> decide
  cases h with
  | available h hr =>
    rw [hΓ.images] at h
    refine ⟨hshape, ?_⟩
    rw [value_call (values_cons ha (values_pair hb hp)), hΓ.readers, Glsl.callReader, readerOf?_reader]
    simp only [World.read, if_pos h, store_nativeVector hcount.1 hcount.2]
    rfl
  | unavailable h =>
    rw [hΓ.images] at h
    refine ⟨hshape, ?_⟩
    have hv : (Shape.realVector (Glsl.channelCount channels)).Valid := by
      cases channels <;> exact Shape.realVector_valid (by decide)
    have hn := Shape.realVector_isNative.2 hcount.2
    simp only [World.read, if_neg h, ← hshape]
    rw [value_filled (value_literal _) hv rfl, value_zero, store_of_field rfl]
    · exact congrArg (fun xs => some (Shape.pack _ xs)) (coords_zero hv rfl).symm
    · rw [Shape.structs_of_native hn]
      exact fun x hx => nomatch hx

theorem Quantity.exists_sum {x : Quantity} {e : Shape} (h : x.shape.element? = some e) :
    ∃ y, x.sum = some y ∧ y.shape = e := by
  obtain ⟨s, v⟩ := x
  cases s with
  | scalar k => cases h
  | vector n k => exact ⟨_, rfl, Option.some.inj h⟩
  | matrix r c k => exact ⟨_, rfl, Option.some.inj h⟩

theorem Quantity.exists_element {x : Quantity} {e : Shape} {i n : Nat} (h : x.shape.element? = some e)
    (hn : x.shape.length? = some n) (hi : i < n) : ∃ y, x.element i = some y ∧ y.shape = e := by
  obtain ⟨s, v⟩ := x
  cases s with
  | scalar k => cases h
  | vector m k =>
    obtain rfl : m = n := Option.some.inj hn
    exact ⟨_, dif_pos hi, Option.some.inj h⟩
  | matrix r c k =>
    obtain rfl : r = n := Option.some.inj hn
    exact ⟨_, dif_pos hi, Option.some.inj h⟩

mutual

/-- **A translated term has the stored value of its expression.** -/
theorem Translates.represents (hΓ : Γ.Holds W L env) : ∀ {e : Expr} {t : Typed}, Translates Γ e t →
    ∃ x, e.value? W = some x ∧ Represents L W.sampler env t x
  | _, _, .real hx =>
    ⟨_, by rw [Expr.value?, number?_of_literal? hx]; rfl, rfl, value_literal _⟩
  | _, _, .complex hx hy =>
    ⟨_, by rw [Expr.value?, number?_of_literal? hx, number?_of_literal? hy]; rfl, rfl,
      value_literals _ _⟩
  | _, _, .list hts hall hs hi => by
    obtain ⟨xs, hxs, hrep⟩ := hts.represents hΓ
    obtain ⟨z, hz, hrepz⟩ := represents_list hrep hall hs fun x hx => hΓ.items x (hi hx)
    exact ⟨z, by rw [Expr.value?, hxs]; exact hz, hrepz⟩
  | _, _, .uniform hn _ hu _ =>
    ⟨_, by rw [Expr.value?], rfl, (value_name _).trans (hΓ.uniforms _ _ hn hu)⟩
  | _, _, .pixel =>
    ⟨_, by rw [Expr.value?], rfl, (value_name _).trans (hΓ.pixel.trans (by
      rw [store_nativeVector (by decide) (by decide)]
      rfl))⟩
  | _, _, .binary hl hr hc => by
    obtain ⟨x, hx, hrepx⟩ := hl.represents hΓ
    obtain ⟨y, hy, hrepy⟩ := hr.represents hΓ
    obtain ⟨z, hz, hrepz⟩ := hc.represents hΓ.items hrepx hrepy
    exact ⟨z, by rw [Expr.value?, hx, hy]; exact hz, hrepz⟩
  | _, _, .sum ht hv _ he hi => by
    obtain ⟨x, hx, hrep⟩ := ht.represents hΓ
    rw [← hrep.shape] at hv he hi
    obtain ⟨y, hy, hshape⟩ := Quantity.exists_sum he
    refine ⟨y, by rw [Expr.value?, hx]; exact hy, hshape, ?_⟩
    rw [← hrep.shape]
    exact value_sumTerm hv hy (fun z hz => hΓ.items z (hi hz)) hrep.value
  | _, _, .element ht hv he hn hin hi => by
    obtain ⟨x, hx, hrep⟩ := ht.represents hΓ
    rw [← hrep.shape] at hv he hn hi
    obtain ⟨y, hy, hshape⟩ := Quantity.exists_element he hn hin
    refine ⟨y, by rw [Expr.value?, hx]; exact hy, hshape, ?_⟩
    rw [← hrep.shape]
    exact value_elementTerm hv hy (fun z hz => hΓ.items z (hi hz)) hrep.value
  | _, _, .image hp hpp ha hb hr => by
    obtain ⟨x, hx, hrep⟩ := hp.represents hΓ
    obtain ⟨P, hP, hvp⟩ := hpp.represents hrep
    obtain ⟨A, hA, hva⟩ := exists_corner ha
    obtain ⟨B, hB, hvb⟩ := exists_corner hb
    rw [hΓ.viewport] at hA hB
    exact ⟨_, by rw [Expr.value?, hx, hA, hB]; simp [hP], hr.represents hΓ hva hvb hvp⟩
  | _, _, .imageOn hp hpp ha hap hb hbp hr => by
    obtain ⟨x, hx, hrepx⟩ := hp.represents hΓ
    obtain ⟨y, hy, hrepy⟩ := ha.represents hΓ
    obtain ⟨z, hz, hrepz⟩ := hb.represents hΓ
    obtain ⟨P, hP, hvp⟩ := hpp.represents hrepx
    obtain ⟨A, hA, hva⟩ := hap.represents hrepy
    obtain ⟨B, hB, hvb⟩ := hbp.represents hrepz
    exact ⟨_, by rw [Expr.value?, hx, hy, hz]; simp [hP, hA, hB], hr.represents hΓ hva hvb hvp⟩

theorem TranslatesAll.represents (hΓ : Γ.Holds W L env) : ∀ {es : List Expr} {ts : List Typed},
    TranslatesAll Γ es ts →
      ∃ xs, Expr.values? W es = some xs ∧ List.Forall₂ (Represents L W.sampler env) ts xs
  | _, _, .nil => ⟨[], by rw [Expr.values?], .nil⟩
  | _, _, .cons h hs => by
    obtain ⟨x, hx, hrep⟩ := h.represents hΓ
    obtain ⟨xs, hxs, hreps⟩ := hs.represents hΓ
    exact ⟨x :: xs, by rw [Expr.values?, hx, hxs]; rfl, .cons hrep hreps⟩

end

end Expressions

/-! ## Programs -/

/-- The values of the pixel and of the inputs of a program. -/
def Program.environment (p : Program) (inputs : String → (s : Shape) → s.Carrier) (pixel : Plane) : Env :=
  (pixelName, .vec [pixel.1, pixel.2]) :: p.uniforms.map fun u => (u.1, store u.2 (inputs u.1 u.2))

theorem lookup_inputs (inputs : String → (s : Shape) → s.Carrier) {uniforms : List (String × Shape)}
    {name : String} {s : Shape} (h : uniforms.lookup name = some s) :
    (uniforms.map fun u => (u.1, store u.2 (inputs u.1 u.2))).lookup name =
      some (store s (inputs name s)) := by
  induction uniforms with
  | nil => cases h
  | cons u uniforms ih =>
    obtain ⟨name', s'⟩ := u
    rw [List.lookup_cons] at h
    rw [List.map_cons, List.lookup_cons]
    by_cases hk : name = name'
    · subst hk
      rw [beq_self_eq_true] at h ⊢
      rw [Option.some.inj h]
    · rw [beq_eq_false_iff_ne.2 hk] at h ⊢
      exact ih h

/-- **The header of a catalog is read back** as a library that means all of its items. -/
theorem Catalog.exists_library (c : Catalog) : ∃ L : Library,
    Glsl.readLibrary c.definitions.header = some L ∧ (∀ σ, ∀ x ∈ c.items, L.Means σ x) ∧
      ∀ σ f, (∀ x ∈ c.items, f ≠ x.name) → L.call σ f = Library.call [] σ f := by
  have hclosed := c.closed.printed
  have hreadable : ∀ d ∈ (printed c.items).map Item.body, d.Readable := by
    intro d hd
    obtain ⟨x, hx, rfl⟩ := List.mem_map.1 hd
    exact Item.readable_body (hclosed.admissible x hx)
  have hread := Glsl.readLibrary_declarations hreadable
  rw [← c.declarations_eq] at hread
  have hmeans := fun σ => means_of_closed (σ := σ) hclosed
  rw [← c.declarations_eq] at hmeans
  refine ⟨_, hread, fun σ x hx => (hmeans σ).1 x (mem_printed.2 hx), fun σ f hf => ?_⟩
  exact (hmeans σ).2 f fun y hy => hf y (mem_printed.1 hy)

namespace Session

/-- **Compiled programs compute the values of their expressions.**  After every history of a session,
a program that is compiled from an expression reads back from its text, and for all values of
its inputs, of the pixel and of the images, its expression evaluates over its header to the stored
representation of the value of the expression, in its shape. -/
theorem programs_evaluate (settings : Settings) (calls : List ((String → Option Image) × Expr))
    (images : String → Option Image) (e : Expr) (p : Program)
    (hp : (((start settings).after calls).compile images e).1 = .ok p)
    (inputs : String → (s : Shape) → s.Carrier) (pixel : Plane) (sampler : Sampler) :
    ∃ v : p.shape.Carrier,
      e.value? ⟨images, settings.viewport, inputs, pixel, sampler⟩ = some ⟨p.shape, v⟩ ∧
        Glsl.evalText p.header p.expression.text sampler (p.environment inputs pixel) =
          some (store p.shape v) := by
  have hs := (start_isOrdered settings).after calls
  obtain ⟨c, names, readers, hdef, -, -, -, htrans⟩ := exists_translation hs hp
  obtain ⟨L, hread, hmeans, hother⟩ := c.exists_library
  have hholds : Context.Holds ⟨images, settings.viewport, c.items, p.uniforms, readers⟩
      ⟨images, settings.viewport, inputs, pixel, sampler⟩ L (p.environment inputs pixel) := by
    refine ⟨rfl, rfl, hmeans sampler, rfl, fun name s hn hu => ?_, fun channels name vs => ?_⟩
    · rw [Program.environment, List.lookup_cons, beq_eq_false_iff_ne.2 hn.2.1]
      exact lookup_inputs inputs hu
    · rw [hother sampler (channels.reader name) fun x hx =>
        (name_ne_reader (c.closed.admissible x hx) channels name).symm]
      exact if_neg (reader_not_builtin channels name)
  obtain ⟨⟨s, v⟩, hv, hshape, hvalue⟩ := htrans.represents hholds
  obtain rfl : s = p.shape := hshape
  refine ⟨v, hv, ?_⟩
  rw [Glsl.evalText, Program.header, hdef, hread, Glsl.readExpr_text htrans.isOperand.readable]
  exact hvalue

/-- The square of the length of `(0, 1, 2, 3, 4)`, after a compilation that failed. -/
theorem programs_evaluate_dot :
    let u : Expr := .uniform "u" (.realVector 5)
    let inputs : String → (s : Shape) → s.Carrier := fun _ s =>
      match s with
      | .vector _ .real => fun i => (i : ℚ)
      | _ => 0
    ∃ p, (((start {}).after [(fun _ => none, .list [u, .pixel])]).compile (fun _ => none)
        (.binary .dot u u)).1 = .ok p ∧
      Glsl.evalText p.header p.expression.text (fun _ _ _ _ _ _ => 0) (p.environment inputs (0, 0)) =
        some (.float 30) := by
  intro u inputs
  have hok : ∃ p, (((start {}).after [(fun _ => none, .list [u, .pixel])]).compile (fun _ => none)
      (.binary .dot u u)).1 = .ok p := ⟨_, rfl⟩
  obtain ⟨p, hp⟩ := hok
  obtain ⟨v, hv, heval⟩ := programs_evaluate {} [(fun _ => none, .list [u, .pixel])] _ _ p hp inputs
    (0, 0) fun _ _ _ _ _ _ => 0
  have hvalue : Expr.value? ⟨fun _ => none, ({} : Settings).viewport, inputs, (0, 0), fun _ _ _ _ _ _ => 0⟩
      (.binary .dot u u) = some ⟨.real, 30⟩ := by
    have hdot : dotProduct (fun i : Fin 5 => (i : ℚ)) (fun i => (i : ℚ)) = 30 := by
      norm_num [dotProduct, Fin.sum_univ_five]
    simp [u, Expr.value?, Quantity.binary, Quantity.dot, Quantity.as?_self, inputs, hdot]
  have hsame := Option.some.inj (hv.symm.trans hvalue)
  refine ⟨p, hp, heval.trans ?_⟩
  exact congrArg (fun x : Quantity => some (store x.shape x.value)) hsame

end Session
end ShaderAlgebra
