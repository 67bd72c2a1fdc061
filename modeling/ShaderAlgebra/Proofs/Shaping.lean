import ShaderAlgebra.Proofs.Translation

/-!
# The shapes of expressions

`HasShape viewport e s` says that the expression `e` has the shape `s`.  The rules speak of shapes only:
there are no terms, no definitions and no session in them.  That an input has one shape wherever
it is used is a condition on the whole expression, and stands apart (`Consistent`).

The shape of a translated expression is the one that the rules give it
(`Translates.hasShape`).
-/

namespace ShaderAlgebra

open Compile (unify promote promoteAll listShape)

namespace Shape

/-- How an operand is read beside another: a real pair beside a complex number is a complex number,
and a real vector of length one beside a scalar is a real number. -/
def beside (s other : Shape) : Shape :=
  if s = realVector 2 ∧ other = complex then complex
  else if s = realVector 1 ∧ other.depth = 0 then real
  else s

/-- The shapes of sums and differences. -/
inductive Adds : Shape → Shape → Shape → Prop where
  | same {s : Shape} (hk : s.kind.isField) : Adds s s s
  | realComplex : Adds real complex complex
  | complexReal : Adds complex real complex

/-- The shapes of products. -/
inductive Times : Shape → Shape → Shape → Prop where
  | reals : Times real real real
  | realComplex : Times real complex complex
  | complexReal : Times complex real complex
  | complexes : Times complex complex complex
  | scale {s : Shape} (hd : 1 ≤ s.depth) : Times real s s
  | scaleRight {s : Shape} (hd : 1 ≤ s.depth) : Times s real s
  | complexScale {s : Shape} (hd : 1 ≤ s.depth) (hk : s.kind = .complex) : Times complex s s
  | complexScaleRight {s : Shape} (hd : 1 ≤ s.depth) (hk : s.kind = .complex) : Times s complex s
  | matVec {m n : Nat} {k : Scalar} : Times (matrix m n k) (vector n k) (vector m k)
  | dot {n : Nat} {k : Scalar} : Times (vector n k) (vector n k) (scalar k)

/-- The shapes of lists.  Real items beside a complex one count as complex. -/
inductive Lists (items : List Shape) : Shape → Prop where
  | reals (h : ∀ s ∈ items, s = real) : Lists items (vector items.length .real)
  | complexes (hc : complex ∈ items) (h : ∀ s ∈ items, s = real ∨ s = complex) :
      Lists items (vector items.length .complex)
  | rows {n : Nat} {k : Scalar} (h : ∀ s ∈ items, s = vector n k) :
      Lists items (matrix items.length n k)

/-- A shape that points of the plane may have. -/
def IsPoint (s : Shape) : Prop :=
  s = realVector 2 ∨ s = complex

end Shape

/-- The shapes that an operation takes, and the one that it gives. -/
inductive Binary.Takes : Binary → Shape → Shape → Shape → Prop where
  | add {l r s : Shape} (h : Shape.Adds (l.beside r) (r.beside l) s) : Takes .add l r s
  | sub {l r s : Shape} (h : Shape.Adds (l.beside r) (r.beside l) s) : Takes .sub l r s
  | mul {l r s : Shape} (h : Shape.Times (l.beside r) (r.beside l) s) : Takes .mul l r s
  | dot {n : Nat} {k : Scalar} : Takes .dot (.vector n k) (.vector n k) (.scalar k)

/-- A point that has a literal. -/
def Point.IsFinite (p : Point) : Prop :=
  p.x.isFinite ∧ p.y.isFinite

mutual

/-- The shape of an expression. -/
inductive HasShape (viewport : Viewport) : Expr → Shape → Prop where
  | real {x : Binary64} (hx : x.isFinite) : HasShape viewport (.real x) .real
  | complex {x y : Binary64} (hx : x.isFinite) (hy : y.isFinite) :
      HasShape viewport (.complex x y) .complex
  | list {es : List Expr} {ss : List Shape} {s : Shape} (hes : HaveShapes viewport es ss)
      (hne : 1 ≤ ss.length) (hmax : ss.length ≤ maxDimension) (hs : Shape.Lists ss s) :
      HasShape viewport (.list es) s
  | uniform {name : String} {s : Shape} (hn : InputName name) (hv : s.Valid) :
      HasShape viewport (.uniform name s) s
  | pixel : HasShape viewport .pixel (.realVector 2)
  | binary {op : Binary} {lhs rhs : Expr} {l r s : Shape} (hl : HasShape viewport lhs l)
      (hr : HasShape viewport rhs r) (hs : op.Takes l r s) : HasShape viewport (.binary op lhs rhs) s
  | sum {arg : Expr} {s e : Shape} (hs : HasShape viewport arg s) (he : s.element? = some e) :
      HasShape viewport (.sum arg) e
  | element {arg : Expr} {s e : Shape} {n i : Nat} (hs : HasShape viewport arg s)
      (he : s.element? = some e) (hn : s.length? = some n) (hi : i < n) :
      HasShape viewport (.element arg i) e
  | image {channels : Channels} {name : String} {point : Expr} {p : Shape}
      (hp : HasShape viewport point p) (hpp : p.IsPoint) (hl : viewport.lowerLeft.IsFinite)
      (hr : viewport.lowerRight.IsFinite) :
      HasShape viewport (.image channels name point) channels.shape
  | imageOn {channels : Channels} {name : String} {left right point : Expr} {a b p : Shape}
      (hp : HasShape viewport point p) (hpp : p.IsPoint) (ha : HasShape viewport left a)
      (hap : a.IsPoint) (hb : HasShape viewport right b) (hbp : b.IsPoint) :
      HasShape viewport (.imageOn channels name left right point) channels.shape

/-- The shapes of expressions in order. -/
inductive HaveShapes (viewport : Viewport) : List Expr → List Shape → Prop where
  | nil : HaveShapes viewport [] []
  | cons {e : Expr} {es : List Expr} {s : Shape} {ss : List Shape} (h : HasShape viewport e s)
      (hs : HaveShapes viewport es ss) : HaveShapes viewport (e :: es) (s :: ss)

end

namespace Expr

mutual

/-- The inputs that an expression names, in the order of evaluation. -/
def inputs : Expr → List (String × Shape)
  | real _ | complex _ _ | pixel => []
  | list es => inputsAll es
  | uniform name s => [(name, s)]
  | binary _ lhs rhs => lhs.inputs ++ rhs.inputs
  | sum arg | element arg _ => arg.inputs
  | image _ _ point => point.inputs
  | imageOn _ _ a b point => point.inputs ++ (a.inputs ++ b.inputs)

/-- The inputs that expressions name, in the order of evaluation. -/
def inputsAll : List Expr → List (String × Shape)
  | [] => []
  | e :: es => e.inputs ++ inputsAll es

end

end Expr

/-- Inputs of one name have one shape. -/
def Consistent (inputs : List (String × Shape)) : Prop :=
  ∀ u ∈ inputs, ∀ v ∈ inputs, u.1 = v.1 → u.2 = v.2

theorem Consistent.mono {us vs : List (String × Shape)} (h : Consistent vs) (hsub : us ⊆ vs) :
    Consistent us :=
  fun u hu v hv => h u (hsub hu) v (hsub hv)

/-- **An expression of a shape:** the rules give it the shape, and every input has one shape
throughout. -/
def IsShaped (viewport : Viewport) (e : Expr) (s : Shape) : Prop :=
  HasShape viewport e s ∧ Consistent e.inputs

/-! ## Shapes are valid -/

theorem Shape.beside_readAs (s other : Shape) : ReadAs s (s.beside other) := by
  unfold beside
  split
  · rename_i h
    exact h.1 ▸ .pair
  · split
    · rename_i h
      exact h.1 ▸ .single
    · exact .same s

theorem ReadAs.valid {s t : Shape} (h : ReadAs s t) (hs : s.Valid) : t.Valid := by
  cases h with
  | same => exact hs
  | pair | single => trivial

theorem Shape.Adds.valid {l r s : Shape} (h : Adds l r s) (hl : l.Valid) : s.Valid := by
  cases h with
  | same => exact hl
  | realComplex | complexReal => trivial

theorem Shape.Times.valid {l r s : Shape} (h : Times l r s) (hl : l.Valid) (hr : r.Valid) :
    s.Valid := by
  cases h with
  | reals | realComplex | complexReal | complexes | dot => trivial
  | scale | complexScale => exact hr
  | scaleRight | complexScaleRight => exact hl
  | matVec => exact ⟨hl.1, hl.2.2⟩

theorem Binary.Takes.valid {op : Binary} {l r s : Shape} (h : op.Takes l r s) (hl : l.Valid)
    (hr : r.Valid) : s.Valid := by
  have hl' := (l.beside_readAs r).valid hl
  cases h with
  | add h | sub h => exact h.valid hl'
  | mul h => exact h.valid hl' ((r.beside_readAs l).valid hr)
  | dot => trivial

theorem Shape.Lists.valid {items : List Shape} {s : Shape} (h : Lists items s)
    (hne : 1 ≤ items.length) (hmax : items.length ≤ maxDimension) (hv : ∀ e ∈ items, e.Valid) :
    s.Valid := by
  cases h with
  | reals => exact ⟨⟨hne, hmax⟩, rfl⟩
  | complexes => exact ⟨⟨hne, hmax⟩, rfl⟩
  | @rows n k h =>
    obtain ⟨e, he⟩ := List.exists_mem_of_length_pos hne
    have hrow : (Shape.vector n k).Valid := h e he ▸ hv e he
    exact ⟨⟨hne, hmax⟩, hrow⟩

mutual

/-- The rules give valid shapes only. -/
theorem HasShape.valid {viewport : Viewport} : ∀ {e : Expr} {s : Shape}, HasShape viewport e s →
    s.Valid
  | _, _, .real _ => trivial
  | _, _, .complex _ _ => trivial
  | _, _, .list hes hne hmax hs => hs.valid hne hmax hes.valid
  | _, _, .uniform _ hv => hv
  | _, _, .pixel => by decide
  | _, _, .binary hl hr hs => hs.valid hl.valid hr.valid
  | _, _, .sum hs he => Shape.valid_of_element? hs.valid he
  | _, _, .element hs he _ _ => Shape.valid_of_element? hs.valid he
  | _, _, @HasShape.image _ channels _ _ _ _ _ _ _ => channels.shape_native.1
  | _, _, @HasShape.imageOn _ channels _ _ _ _ _ _ _ _ _ _ _ _ _ => channels.shape_native.1

theorem HaveShapes.valid {viewport : Viewport} : ∀ {es : List Expr} {ss : List Shape},
    HaveShapes viewport es ss → ∀ s ∈ ss, s.Valid
  | _, _, .nil => fun _ h => nomatch h
  | _, _, .cons h hs => List.forall_mem_cons.2 ⟨h.valid, hs.valid⟩

end

/-! ## The shapes of translated expressions -/

theorem unify_eq_beside (l r : Shape) : unify l r = (l.beside r, r.beside l) := by
  unfold unify Shape.beside
  split
  · rename_i h
    obtain ⟨rfl, rfl⟩ := h
    rfl
  · split
    · rename_i h
      obtain ⟨rfl, rfl⟩ := h
      rfl
    · split
      · rename_i h
        obtain ⟨rfl, h⟩ := h
        cases r with
        | scalar k => simp [Shape.depth]
        | vector n k | matrix m n k => cases h
      · split
        · rename_i h
          obtain ⟨rfl, h⟩ := h
          cases l with
          | scalar k => simp
          | vector n k | matrix m n k => cases h
        · rename_i h _ _ _
          rw [if_neg fun hlr => h hlr.symm]

theorem isFinite_of_literal? {x : Binary64} {d : Decimal} (h : literal? x = .ok d) : x.isFinite := by
  unfold literal? at h
  split at h
  · assumption
  · cases h

theorem point_isFinite {p : Point} {t : Glsl.Term} (h : Textures.point p = .ok t) : p.IsFinite := by
  obtain ⟨_, _, hx, hy, -⟩ := point_eq_ok h
  exact ⟨isFinite_of_literal? hx, isFinite_of_literal? hy⟩

/-- A scalar is no record. -/
theorem Shape.IsRecord.one_le_depth {s : Shape} (h : s.IsRecord) : 1 ≤ s.depth := by
  cases s with
  | scalar k => cases h.2
  | vector n k | matrix m n k => simp [depth]

theorem Multiplies.times {items : List Item} {l r : Glsl.Term} {ls rs : Shape} {t : Typed}
    (h : Multiplies items l r ls rs t) : Shape.Times ls rs t.shape := by
  cases h with
  | realReal => exact .reals
  | realComplex => exact .realComplex
  | complexReal => exact .complexReal
  | complexComplex => exact .complexes
  | scale hd => exact .scale hd
  | scaleRight hd => exact .scaleRight hd
  | complexScale hs => exact .complexScale hs.1.one_le_depth hs.2
  | complexScaleRight hs => exact .complexScaleRight hs.1.one_le_depth hs.2
  | matVec | complexMatVec => exact .matVec
  | dot | complexDot => exact .dot

/-- An operation on translated operands takes their shapes. -/
theorem Combines.takes {items : List Item} {op : Binary} {l r t : Typed}
    (h : Combines items op l r t) : op.Takes l.shape r.shape t.shape := by
  -- Sums and differences have the same rule.
  have entrywise : ∀ {w : Entrywise} {s : Shape}, op.entrywise? = some w →
      Shape.Adds (l.shape.beside r.shape) (r.shape.beside l.shape) s → op.Takes l.shape r.shape s := by
    intro w s hw hs
    cases op with
    | add => exact .add hs
    | sub => exact .sub hs
    | mul | dot => cases hw
  cases h with
  | same hw hu hv hk hi =>
    obtain ⟨hl, hr⟩ := Prod.mk.inj ((unify_eq_beside _ _).symm.trans hu)
    exact entrywise hw (by rw [hl, hr]; exact .same hk)
  | promoteLeft hw hu =>
    obtain ⟨hl, hr⟩ := Prod.mk.inj ((unify_eq_beside _ _).symm.trans hu)
    exact entrywise hw (by rw [hl, hr]; exact .realComplex)
  | promoteRight hw hu =>
    obtain ⟨hl, hr⟩ := Prod.mk.inj ((unify_eq_beside _ _).symm.trans hu)
    exact entrywise hw (by rw [hl, hr]; exact .complexReal)
  | mul hu hm =>
    obtain ⟨rfl, rfl⟩ := Prod.mk.inj ((unify_eq_beside _ _).symm.trans hu)
    exact .mul hm.times
  | dot hd hr hm =>
    have ht := hm.times
    revert hd hr ht
    generalize l.shape = ls, r.shape = rs, t.shape = s
    intro hd hr ht
    cases ht with
    | dot => exact .dot
    | reals | realComplex | complexReal | complexes | scale | complexScale => cases hd
    | scaleRight | complexScaleRight => cases hr
    | matVec => cases hd

theorem Reads.shape {Γ : Context} {channels : Channels} {name : String} {a b p : Glsl.Term} {t : Typed}
    (h : Reads Γ channels name a b p t) : t.shape = channels.shape := by
  cases h <;> rfl

/-! ### Lists -/

/-- The shapes of the items of a list: real ones beside a complex one become complex. -/
def Shape.promoteAll (items : List Shape) : List Shape :=
  if complex ∈ items then items.map fun s => if s = real then complex else s else items

theorem shapes_promoteAll (ts : List Typed) :
    (promoteAll ts).map (·.shape) = Shape.promoteAll (ts.map (·.shape)) := by
  have hany : ts.any (·.shape = .complex) ↔ Shape.complex ∈ ts.map (·.shape) := by simp
  unfold promoteAll Shape.promoteAll
  by_cases h : Shape.complex ∈ ts.map (·.shape)
  · rw [if_pos (hany.2 h), if_pos h, List.map_map, List.map_map]
    refine List.map_congr_left fun t _ => ?_
    by_cases ht : t.shape = .real <;> simp [ht]
  · rw [if_neg (mt hany.1 h), if_neg h]

/-- A list whose items have the shape `e`, in the way that compiling finds it. -/
theorem Shape.lists_of_promoteAll {items : List Shape} {e s : Shape}
    (hall : ∀ x ∈ promoteAll items, x = e) (hs : listShape items.length e = .ok s) :
    Lists items s := by
  have hv := (Compile.listShape_valid hs).1
  unfold promoteAll at hall
  split at hall
  · rename_i hc
    -- The complex item stays complex, so that all items are.
    obtain rfl : complex = e := hall complex (List.mem_map.2 ⟨complex, hc, rfl⟩)
    obtain ⟨-, rfl⟩ := Compile.checked_eq_ok_iff.1 hs
    refine .complexes hc fun x hx => ?_
    have := hall _ (List.mem_map_of_mem hx)
    by_cases hr : x = real
    · exact .inl hr
    · rw [if_neg hr] at this
      exact .inr this
  · rename_i hc
    cases e with
    | scalar k =>
      obtain ⟨-, rfl⟩ := Compile.checked_eq_ok_iff.1 hs
      cases k with
      | bool | int => cases hv.2
      | real => exact .reals hall
      | complex =>
        obtain ⟨x, hx⟩ := List.exists_mem_of_length_pos hv.1.1
        obtain rfl := hall x hx
        exact absurd hx hc
    | vector n k =>
      obtain ⟨-, rfl⟩ := Compile.checked_eq_ok_iff.1 hs
      exact .rows hall
    | matrix m n k => cases hs

/-- The converse, for items of valid shapes. -/
theorem Shape.Lists.promoteAll {items : List Shape} {s : Shape} (h : Lists items s)
    (hne : 1 ≤ items.length) (hmax : items.length ≤ maxDimension) (hv : ∀ e ∈ items, e.Valid) :
    ∃ e, (∀ x ∈ Shape.promoteAll items, x = e) ∧ listShape items.length e = .ok s := by
  have hs := h.valid hne hmax hv
  unfold Shape.promoteAll
  cases h with
  | reals h =>
    have hc : complex ∉ items := fun hc => by cases h _ hc
    exact ⟨.real, by rwa [if_neg hc], Compile.checked_eq_ok_iff.2 ⟨hs, rfl⟩⟩
  | complexes hc h =>
    refine ⟨.complex, fun x hx => ?_, Compile.checked_eq_ok_iff.2 ⟨hs, rfl⟩⟩
    rw [if_pos hc] at hx
    obtain ⟨y, hy, rfl⟩ := List.mem_map.1 hx
    rcases h y hy with rfl | rfl <;> rfl
  | @rows n k h =>
    have hc : complex ∉ items := fun hc => by cases h _ hc
    exact ⟨.vector n k, by rwa [if_neg hc], Compile.checked_eq_ok_iff.2 ⟨hs, rfl⟩⟩

theorem Shape.length?_bounds {s : Shape} {n : Nat} (h : s.Valid) (hn : s.length? = some n) :
    1 ≤ n ∧ n ≤ maxDimension := by
  cases s with
  | scalar k => cases hn
  | vector m k =>
    obtain rfl : m = n := by injection hn
    exact h.1
  | matrix m c k =>
    obtain rfl : m = n := by injection hn
    exact h.1

/-! ### Expressions -/

theorem HaveShapes.list {viewport : Viewport} {es : List Expr} {ts : List Typed} {e s : Shape}
    (hts : HaveShapes viewport es (ts.map (·.shape))) (hall : ∀ t ∈ promoteAll ts, t.shape = e)
    (hs : listShape ts.length e = .ok s) : HasShape viewport (.list es) s := by
  have hall' : ∀ x ∈ Shape.promoteAll (ts.map (·.shape)), x = e := by
    rw [← shapes_promoteAll]
    exact List.forall_mem_map.2 hall
  rw [← List.length_map (·.shape)] at hs
  obtain ⟨hv, hn, -⟩ := Compile.listShape_valid hs
  obtain ⟨hne, hmax⟩ := Shape.length?_bounds hv hn
  exact .list hts hne hmax (Shape.lists_of_promoteAll hall' hs)

mutual

/-- **What an expression is translated to has its shape.** -/
theorem Translates.hasShape {Γ : Context} : ∀ {e : Expr} {t : Typed}, Translates Γ e t →
    HasShape Γ.viewport e t.shape
  | _, _, .real hx => .real (isFinite_of_literal? hx)
  | _, _, .complex hx hy => .complex (isFinite_of_literal? hx) (isFinite_of_literal? hy)
  | _, _, .list hts hall hs _ => hts.haveShapes.list hall hs
  | _, _, .uniform hn hv _ _ => .uniform hn hv
  | _, _, .pixel => .pixel
  | _, _, .binary hl hr hc => .binary hl.hasShape hr.hasShape hc.takes
  | _, _, .sum ht _ _ he _ => .sum ht.hasShape he
  | _, _, .element ht _ he hn hin _ => .element ht.hasShape he hn hin
  | _, _, .image hp hpp ha hb hr =>
    hr.shape ▸ .image hp.hasShape hpp (point_isFinite ha) (point_isFinite hb)
  | _, _, .imageOn hp hpp ha hap hb hbp hr =>
    hr.shape ▸ .imageOn hp.hasShape hpp ha.hasShape hap hb.hasShape hbp

theorem TranslatesAll.haveShapes {Γ : Context} : ∀ {es : List Expr} {ts : List Typed},
    TranslatesAll Γ es ts → HaveShapes Γ.viewport es (ts.map (·.shape))
  | _, _, .nil => .nil
  | _, _, .cons ht hts => .cons ht.hasShape hts.haveShapes

end

/-- The inputs of a translated expression have the shapes that the context gives them. -/
def Knows (uniforms inputs : List (String × Shape)) : Prop :=
  ∀ u ∈ inputs, uniforms.lookup u.1 = some u.2

theorem Knows.append {us is js : List (String × Shape)} (hi : Knows us is) (hj : Knows us js) :
    Knows us (is ++ js) :=
  List.forall_mem_append.2 ⟨hi, hj⟩

theorem Knows.consistent {us is : List (String × Shape)} (h : Knows us is) : Consistent is := by
  intro u hu v hv huv
  have := (h u hu).symm.trans (huv ▸ h v hv)
  injection this

mutual

theorem Translates.knows {Γ : Context} : ∀ {e : Expr} {t : Typed}, Translates Γ e t →
    Knows Γ.uniforms e.inputs
  | _, _, .real _ | _, _, .complex _ _ | _, _, .pixel => fun _ h => nomatch h
  | _, _, .list hts _ _ _ => hts.knows
  | _, _, .uniform _ _ hu _ => fun _ h => List.mem_singleton.1 h ▸ hu
  | _, _, .binary hl hr _ => hl.knows.append hr.knows
  | _, _, .sum ht _ _ _ _ => ht.knows
  | _, _, .element ht _ _ _ _ _ => ht.knows
  | _, _, .image hp _ _ _ _ => hp.knows
  | _, _, .imageOn hp _ ha _ hb _ _ => hp.knows.append (ha.knows.append hb.knows)

theorem TranslatesAll.knows {Γ : Context} : ∀ {es : List Expr} {ts : List Typed},
    TranslatesAll Γ es ts → Knows Γ.uniforms (Expr.inputsAll es)
  | _, _, .nil => fun _ h => nomatch h
  | _, _, .cons ht hts => ht.knows.append hts.knows

end

end ShaderAlgebra
