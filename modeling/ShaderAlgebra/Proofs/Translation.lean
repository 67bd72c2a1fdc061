import ShaderAlgebra.Session
import ShaderAlgebra.Proofs.Layout
import ShaderAlgebra.Proofs.Outcome
import ShaderAlgebra.Proofs.Readers

/-!
# The translation of expressions

`Translates Γ e t` says that the expression `e` is compiled to the shape and the term `t`, without
a session: the rules name the definitions, inputs and texture readers that the
term relies on, and the context `Γ` has to hold them.  There is one rule for each
kind of node, and `Combines` has one for each way in which two operands are brought together.

A larger context translates the same expressions to the same terms (`Translates.mono`).
-/

namespace ShaderAlgebra

open Glsl (Term)
open Compile (unify promote promoteAll listShape)

/-- What a term may rely on. -/
structure Context where
  images : String → Option Image
  viewport : Viewport
  /-- The definitions. -/
  items : List Item
  /-- The inputs of the program. -/
  uniforms : List (String × Shape)
  /-- The images that have a reader. -/
  readers : List String

/-- A context that holds at least as much. -/
structure Context.Le (Γ Δ : Context) : Prop where
  images : Γ.images = Δ.images
  viewport : Γ.viewport = Δ.viewport
  items : Γ.items ⊆ Δ.items
  uniforms : Γ.uniforms <+: Δ.uniforms
  readers : Γ.readers ⊆ Δ.readers

/-- The products of two operands with the shapes `ls` and `rs`. -/
inductive Multiplies (items : List Item) (l r : Term) : Shape → Shape → Typed → Prop where
  | realReal : Multiplies items l r .real .real ⟨.real, .grouped .times l r⟩
  | realComplex : Multiplies items l r .real .complex ⟨.complex, .grouped .times l r⟩
  | complexReal : Multiplies items l r .complex .real ⟨.complex, .grouped .times l r⟩
  | complexComplex (hi : .helper .complexMul .complex ∈ items) :
      Multiplies items l r .complex .complex
        ⟨.complex, .apply (Operation.complexMul.helperName .complex) [l, r]⟩
  | scale {s : Shape} (hd : 1 ≤ s.depth) (hv : s.Valid) (hk : s.kind.isField)
      (hi : s.helpers .scale ⊆ items) :
      Multiplies items l r .real s ⟨s, s.combined .scale l r⟩
  | scaleRight {s : Shape} (hd : 1 ≤ s.depth) (hv : s.Valid) (hk : s.kind.isField)
      (hi : s.helpers .scale ⊆ items) :
      Multiplies items l r s .real ⟨s, s.combined .scale r l⟩
  | complexScale {s : Shape} (hs : Operation.complexScale.HasHelper s)
      (hi : (Item.helper .complexScale s).needs ++ [.helper .complexScale s] ⊆ items) :
      Multiplies items l r .complex s ⟨s, .apply (Operation.complexScale.helperName s) [l, r]⟩
  | complexScaleRight {s : Shape} (hs : Operation.complexScale.HasHelper s)
      (hi : (Item.helper .complexScale s).needs ++ [.helper .complexScale s] ⊆ items) :
      Multiplies items l r s .complex ⟨s, .apply (Operation.complexScale.helperName s) [r, l]⟩
  | matVec {m n : Nat} (hv : (Shape.matrix m n .real).Valid) (hi : Synth.matVecItems m n ⊆ items) :
      Multiplies items l r (.matrix m n .real) (.realVector n)
        ⟨.realVector m, Synth.matVecTerm m n l r⟩
  | complexMatVec {m n : Nat} (hv : (Shape.matrix m n .complex).Valid)
      (hi : (Item.helper .complexMatVec (.matrix m n .complex)).needs ++
        [.helper .complexMatVec (.matrix m n .complex)] ⊆ items) :
      Multiplies items l r (.matrix m n .complex) (.vector n .complex)
        ⟨.vector m .complex, .apply (Operation.complexMatVec.helperName (.matrix m n .complex)) [l, r]⟩
  | dot {n : Nat} (hv : (Shape.realVector n).Valid) (hi : Synth.dotItems n ⊆ items) :
      Multiplies items l r (.realVector n) (.realVector n) ⟨.real, Synth.dotTerm n l r⟩
  | complexDot {n : Nat} (hv : (Shape.vector n .complex).Valid)
      (hi : (Item.helper .complexDot (.vector n .complex)).needs ++
        [.helper .complexDot (.vector n .complex)] ⊆ items) :
      Multiplies items l r (.vector n .complex) (.vector n .complex)
        ⟨.complex, .apply (Operation.complexDot.helperName (.vector n .complex)) [l, r]⟩

/-- The entrywise operation of a sum or a difference. -/
def Binary.entrywise? : Binary → Option Entrywise
  | .add => some .add
  | .sub => some .sub
  | .mul | .dot => none

/-- The results of an operation on two operands. -/
inductive Combines (items : List Item) : Binary → Typed → Typed → Typed → Prop where
  | same {op : Binary} {w : Entrywise} {l r : Typed} {s : Shape} (hw : op.entrywise? = some w)
      (hu : unify l.shape r.shape = (s, s)) (hv : s.Valid) (hk : s.kind.isField)
      (hi : s.helpers w ⊆ items) : Combines items op l r ⟨s, s.combined w l.term r.term⟩
  | promoteLeft {op : Binary} {w : Entrywise} {l r : Typed} (hw : op.entrywise? = some w)
      (hu : unify l.shape r.shape = (.real, .complex)) :
      Combines items op l r ⟨.complex, Shape.complex.combined w (promote l.term) r.term⟩
  | promoteRight {op : Binary} {w : Entrywise} {l r : Typed} (hw : op.entrywise? = some w)
      (hu : unify l.shape r.shape = (.complex, .real)) :
      Combines items op l r ⟨.complex, Shape.complex.combined w l.term (promote r.term)⟩
  | mul {l r t : Typed} {ls rs : Shape} (hu : unify l.shape r.shape = (ls, rs))
      (hm : Multiplies items l.term r.term ls rs t) : Combines items .mul l r t
  | dot {l r t : Typed} (hd : l.shape.depth = 1) (hr : r.shape.depth = 1)
      (hm : Multiplies items l.term r.term l.shape r.shape t) : Combines items .dot l r t

/-- An operand that is a point of the plane. -/
def Typed.IsPoint (t : Typed) : Prop :=
  t.shape = .realVector 2 ∨ t.shape = .complex

/-- The results of reading an image: a call of its reader, or zero. -/
inductive Reads (Γ : Context) (channels : Channels) (name : String) (a b p : Term) : Typed → Prop where
  | available (h : Available Γ.images name) (hr : name ∈ Γ.readers) :
      Reads Γ channels name a b p ⟨channels.shape, .apply (channels.reader name) [a, b, p]⟩
  | unavailable (h : ¬ Available Γ.images name) :
      Reads Γ channels name a b p ⟨channels.shape, channels.shape.filled (.literal .zero)⟩

/-- The term of a point. -/
theorem point_eq_ok {p : Point} {t : Term} (h : Textures.point p = .ok t) :
    ∃ d d', literal? p.x = .ok d ∧ literal? p.y = .ok d' ∧
      t = .apply "vec2" [.literal d, .literal d'] := by
  unfold Textures.point at h
  cases hx : literal? p.x with
  | error f => rw [hx] at h; cases h
  | ok d =>
    cases hy : literal? p.y with
    | error f => rw [hx, hy] at h; cases h
    | ok d' =>
      rw [hx, hy] at h
      injection h with h
      exact ⟨d, d', rfl, rfl, h.symm⟩

/-- A name that an input may have. -/
def InputName (name : String) : Prop :=
  Glsl.isIdentifier name ∧ name ≠ pixelName ∧ name.toList.head? ≠ some '_'

mutual

/-- The translation of an expression. -/
inductive Translates (Γ : Context) : Expr → Typed → Prop where
  | real {x : Binary64} {d : Decimal} (hx : literal? x = .ok d) :
      Translates Γ (.real x) ⟨.real, .literal d⟩
  | complex {x y : Binary64} {d d' : Decimal} (hx : literal? x = .ok d) (hy : literal? y = .ok d') :
      Translates Γ (.complex x y) ⟨.complex, .apply "vec2" [.literal d, .literal d']⟩
  | list {es : List Expr} {ts : List Typed} {e s : Shape} (hts : TranslatesAll Γ es ts)
      (hall : ∀ t ∈ promoteAll ts, t.shape = e) (hs : listShape ts.length e = .ok s)
      (hi : s.structs ⊆ Γ.items) :
      Translates Γ (.list es) ⟨s, Synth.constructTerm s ((promoteAll ts).map (·.term))⟩
  | uniform {name : String} {s : Shape} (hn : InputName name) (hv : s.Valid)
      (hu : Γ.uniforms.lookup name = some s) (hi : s.structs ⊆ Γ.items) :
      Translates Γ (.uniform name s) ⟨s, .name name⟩
  | pixel : Translates Γ .pixel ⟨.realVector 2, .name pixelName⟩
  | binary {op : Binary} {lhs rhs : Expr} {l r t : Typed} (hl : Translates Γ lhs l)
      (hr : Translates Γ rhs r) (hc : Combines Γ.items op l r t) :
      Translates Γ (.binary op lhs rhs) t
  | sum {arg : Expr} {t : Typed} {e : Shape} (ht : Translates Γ arg t) (hv : t.shape.Valid)
      (hk : t.shape.kind.isField) (he : t.shape.element? = some e) (hi : sumItems t.shape ⊆ Γ.items) :
      Translates Γ (.sum arg) ⟨e, sumTerm t.shape t.term⟩
  | element {arg : Expr} {t : Typed} {e : Shape} {i n : Nat} (ht : Translates Γ arg t)
      (hv : t.shape.Valid) (he : t.shape.element? = some e) (hn : t.shape.length? = some n)
      (hin : i < n) (hi : Synth.elementItems t.shape ⊆ Γ.items) :
      Translates Γ (.element arg i) ⟨e, Synth.elementTerm t.shape i t.term⟩
  | image {channels : Channels} {name : String} {point : Expr} {a b : Term} {p t : Typed}
      (hp : Translates Γ point p) (hpp : p.IsPoint) (ha : Textures.point Γ.viewport.lowerLeft = .ok a)
      (hb : Textures.point Γ.viewport.lowerRight = .ok b)
      (hr : Reads Γ channels name a b p.term t) : Translates Γ (.image channels name point) t
  | imageOn {channels : Channels} {name : String} {left right point : Expr} {a b p t : Typed}
      (hp : Translates Γ point p) (hpp : p.IsPoint) (ha : Translates Γ left a) (hap : a.IsPoint)
      (hb : Translates Γ right b) (hbp : b.IsPoint)
      (hr : Reads Γ channels name a.term b.term p.term t) :
      Translates Γ (.imageOn channels name left right point) t

/-- The translation of expressions in order. -/
inductive TranslatesAll (Γ : Context) : List Expr → List Typed → Prop where
  | nil : TranslatesAll Γ [] []
  | cons {e : Expr} {es : List Expr} {t : Typed} {ts : List Typed} (h : Translates Γ e t)
      (hs : TranslatesAll Γ es ts) : TranslatesAll Γ (e :: es) (t :: ts)

end

/-! ## Larger contexts -/

theorem Multiplies.mono {items items' : List Item} (h : items ⊆ items') {l r : Term} {ls rs : Shape}
    {t : Typed} (hm : Multiplies items l r ls rs t) : Multiplies items' l r ls rs t := by
  cases hm with
  | realReal => exact .realReal
  | realComplex => exact .realComplex
  | complexReal => exact .complexReal
  | complexComplex hi => exact .complexComplex (h hi)
  | scale hd hv hk hi => exact .scale hd hv hk fun _ hx => h (hi hx)
  | scaleRight hd hv hk hi => exact .scaleRight hd hv hk fun _ hx => h (hi hx)
  | complexScale hs hi => exact .complexScale hs fun _ hx => h (hi hx)
  | complexScaleRight hs hi => exact .complexScaleRight hs fun _ hx => h (hi hx)
  | matVec hv hi => exact .matVec hv fun _ hx => h (hi hx)
  | complexMatVec hv hi => exact .complexMatVec hv fun _ hx => h (hi hx)
  | dot hv hi => exact .dot hv fun _ hx => h (hi hx)
  | complexDot hv hi => exact .complexDot hv fun _ hx => h (hi hx)

theorem Combines.mono {items items' : List Item} (h : items ⊆ items') {op : Binary} {l r t : Typed}
    (hc : Combines items op l r t) : Combines items' op l r t := by
  cases hc with
  | same hw hu hv hk hi => exact .same hw hu hv hk fun _ hx => h (hi hx)
  | promoteLeft hw hu => exact .promoteLeft hw hu
  | promoteRight hw hu => exact .promoteRight hw hu
  | mul hu hm => exact .mul hu (hm.mono h)
  | dot hd hr hm => exact .dot hd hr (hm.mono h)

theorem Reads.mono {Γ Δ : Context} (h : Γ.Le Δ) {channels : Channels} {name : String} {a b p : Term}
    {t : Typed} (hr : Reads Γ channels name a b p t) : Reads Δ channels name a b p t := by
  cases hr with
  | available ha hr => exact .available (h.images ▸ ha) (h.readers hr)
  | unavailable ha => exact .unavailable (h.images ▸ ha)

/-- An input that is known stays known when inputs are added behind it. -/
theorem lookup_of_isPrefix {us vs : List (String × Shape)} (h : us <+: vs) {name : String} {s : Shape}
    (hl : us.lookup name = some s) : vs.lookup name = some s := by
  obtain ⟨ws, rfl⟩ := h
  rw [List.lookup_append, hl, Option.some_or]

theorem mem_of_lookup {us : List (String × Shape)} {name : String} {s : Shape}
    (h : us.lookup name = some s) : (name, s) ∈ us := by
  obtain ⟨_, _, rfl, -⟩ := List.lookup_eq_some_iff.1 h
  exact List.mem_append_right _ List.mem_cons_self

mutual

theorem Translates.mono {Γ Δ : Context} (h : Γ.Le Δ) : ∀ {e : Expr} {t : Typed},
    Translates Γ e t → Translates Δ e t
  | _, _, .real hx => .real hx
  | _, _, .complex hx hy => .complex hx hy
  | _, _, .list hts hall hs hi => .list (hts.mono h) hall hs fun _ hx => h.items (hi hx)
  | _, _, .uniform hn hv hu hi =>
    .uniform hn hv (lookup_of_isPrefix h.uniforms hu) fun _ hx => h.items (hi hx)
  | _, _, .pixel => .pixel
  | _, _, .binary hl hr hc => .binary (hl.mono h) (hr.mono h) (hc.mono h.items)
  | _, _, .sum ht hv hk he hi => .sum (ht.mono h) hv hk he fun _ hx => h.items (hi hx)
  | _, _, .element ht hv he hn hin hi =>
    .element (ht.mono h) hv he hn hin fun _ hx => h.items (hi hx)
  | _, _, .image hp hpp ha hb hr =>
    .image (hp.mono h) hpp (h.viewport ▸ ha) (h.viewport ▸ hb) (hr.mono h)
  | _, _, .imageOn hp hpp ha hap hb hbp hr =>
    .imageOn (hp.mono h) hpp (ha.mono h) hap (hb.mono h) hbp (hr.mono h)

theorem TranslatesAll.mono {Γ Δ : Context} (h : Γ.Le Δ) : ∀ {es : List Expr} {ts : List Typed},
    TranslatesAll Γ es ts → TranslatesAll Δ es ts
  | _, _, .nil => .nil
  | _, _, .cons ht hts => .cons (ht.mono h) (hts.mono h)

end

/-! ## The shapes of translated operands -/

namespace Compile

theorem checked_eq_ok_iff {s t : Shape} : s.checked = .ok t ↔ s.Valid ∧ s = t := by
  rw [← Shape.validate_eq_ok_iff, Shape.checked]
  cases s.validate with
  | ok u => simp [bind, Except.bind, pure, Except.pure]
  | error failure => simp [bind, Except.bind]

theorem listShape_valid {n : Nat} {e s : Shape} (h : listShape n e = .ok s) :
    s.Valid ∧ s.length? = some n ∧ s.element? = some e := by
  cases e with
  | scalar k =>
    obtain ⟨hv, rfl⟩ := checked_eq_ok_iff.1 h
    exact ⟨hv, rfl, rfl⟩
  | vector c k =>
    obtain ⟨hv, rfl⟩ := checked_eq_ok_iff.1 h
    exact ⟨hv, rfl, rfl⟩
  | matrix r c k => cases h

theorem length_promoteAll (ts : List Typed) : (promoteAll ts).length = ts.length := by
  unfold promoteAll
  split
  · rw [List.length_map]
  · rfl

end Compile

/-- A shape read as one that is spelled alike. -/
inductive ReadAs : Shape → Shape → Prop where
  | same (s : Shape) : ReadAs s s
  /-- A real pair beside a complex number. -/
  | pair : ReadAs (.realVector 2) .complex
  /-- A real vector of length one beside a scalar. -/
  | single : ReadAs (.realVector 1) .real

theorem unify_readAs {l r ls rs : Shape} (h : unify l r = (ls, rs)) : ReadAs l ls ∧ ReadAs r rs := by
  unfold unify at h
  split at h
  · rename_i hlr
    obtain ⟨rfl, rfl⟩ := Prod.mk.inj h
    exact ⟨.same _, hlr.2 ▸ .pair⟩
  · split at h
    · rename_i hlr
      obtain ⟨rfl, rfl⟩ := Prod.mk.inj h
      exact ⟨hlr.1 ▸ .pair, .same _⟩
    · split at h
      · rename_i hlr
        obtain ⟨rfl, rfl⟩ := Prod.mk.inj h
        exact ⟨hlr.1 ▸ .single, .same _⟩
      · split at h
        · rename_i hlr
          obtain ⟨rfl, rfl⟩ := Prod.mk.inj h
          exact ⟨.same _, hlr.1 ▸ .single⟩
        · obtain ⟨rfl, rfl⟩ := Prod.mk.inj h
          exact ⟨.same _, .same _⟩

/-- A valid shape whose structs are there. -/
def Shape.Present (items : List Item) (s : Shape) : Prop :=
  s.Valid ∧ s.structs ⊆ items

theorem Shape.Present.of_native {items : List Item} {s : Shape} (hv : s.Valid) (hn : s.isNative) :
    s.Present items :=
  ⟨hv, by rw [Shape.structs_of_native hn]; exact List.nil_subset _⟩

theorem ReadAs.present {items : List Item} {s t : Shape} (h : ReadAs s t) (hs : s.Present items) :
    t.Present items := by
  cases h with
  | same => exact hs
  | pair => exact .of_native trivial rfl
  | single => exact .of_native trivial rfl

theorem structs_subset_helpers (op : Entrywise) {s : Shape} (hv : s.Valid) :
    s.structs ⊆ s.helpers op := by
  cases hn : s.isNative with
  | true => rw [Shape.structs_of_native hn]; exact List.nil_subset _
  | false =>
    rw [Shape.helpers_of_record op ⟨hv, hn⟩, List.append_assoc]
    exact List.subset_append_left _ _

theorem Multiplies.present {items : List Item} {l r : Term} {ls rs : Shape} {t : Typed}
    (h : Multiplies items l r ls rs t) (hl : ls.Present items) (hr : rs.Present items) :
    t.shape.Present items := by
  cases h with
  | realReal | realComplex | complexReal | complexComplex => exact .of_native trivial rfl
  | dot | complexDot => exact .of_native trivial rfl
  | scale => exact hr
  | scaleRight => exact hl
  | complexScale => exact hr
  | complexScaleRight => exact hl
  | @matVec m n hv hi =>
    have hout : (Shape.realVector m).Valid := Shape.realVector_valid hv.1
    unfold Synth.matVecItems at hi
    split at hi
    · rename_i hn
      exact .of_native hout (Shape.realVector_isNative.2 (Shape.isNative_matrix hn).2.2)
    · exact ⟨hout, fun x hx => hi (by simp [hx])⟩
  | @complexMatVec m n hv hi =>
    refine ⟨Shape.complexVector_valid hv.1, fun x hx => hi ?_⟩
    simp [Item.needs, Operation.dimensions, hx]

theorem Combines.present {items : List Item} {op : Binary} {l r t : Typed}
    (h : Combines items op l r t) (hl : l.shape.Present items) (hr : r.shape.Present items) :
    t.shape.Present items := by
  cases h with
  | same hw hu hv hk hi => exact ⟨hv, fun x hx => hi (structs_subset_helpers _ hv hx)⟩
  | promoteLeft | promoteRight => exact .of_native trivial rfl
  | mul hu hm => exact hm.present ((unify_readAs hu).1.present hl) ((unify_readAs hu).2.present hr)
  | dot hd hr' hm => exact hm.present hl hr

theorem Channels.shape_native (channels : Channels) :
    channels.shape.Valid ∧ channels.shape.kind.isField ∧ channels.shape.isNative := by
  cases channels <;> decide

theorem Reads.present {Γ : Context} {channels : Channels} {name : String} {a b p : Term} {t : Typed}
    (h : Reads Γ channels name a b p t) : t.shape.Present Γ.items := by
  obtain ⟨hv, -, hn⟩ := channels.shape_native
  cases h <;> exact .of_native hv hn

/-- An item of a list is as it was, or it was real and is complex now. -/
theorem mem_promoteAll {ts : List Typed} {t : Typed} (h : t ∈ promoteAll ts) :
    t ∈ ts ∨ ∃ u ∈ ts, u.shape = .real ∧ t = ⟨.complex, promote u.term⟩ := by
  unfold promoteAll at h
  split at h
  · obtain ⟨u, hu, rfl⟩ := List.mem_map.1 h
    by_cases hr : u.shape = .real
    · exact .inr ⟨u, hu, hr, if_pos hr⟩
    · exact .inl (by rwa [if_neg hr])
  · exact .inl h

/-- The shape of the items of a list is there. -/
theorem present_promoteAll {items : List Item} {ts : List Typed} {e : Shape}
    (ht : ∀ t ∈ ts, t.shape.Present items) (hne : 1 ≤ ts.length)
    (hall : ∀ t ∈ promoteAll ts, t.shape = e) : e.Present items := by
  rw [← Compile.length_promoteAll] at hne
  obtain ⟨t, hmem⟩ := List.exists_mem_of_length_pos hne
  rw [← hall t hmem]
  rcases mem_promoteAll hmem with hmem | ⟨u, -, -, rfl⟩
  · exact ht t hmem
  · exact .of_native trivial rfl

/-- The row of a real matrix is one of its members, or native along with it. -/
theorem present_row {items : List Item} {r c : Nat} (h : (Shape.matrix r c .real).Present items) :
    (Shape.realVector c).Present items := by
  obtain ⟨hv, hi⟩ := h
  have hrow : (Shape.realVector c).Valid := Shape.realVector_valid hv.2.1
  cases hn : (Shape.matrix r c .real).isNative with
  | true =>
    obtain ⟨rfl, -, h4⟩ := Shape.isNative_matrix hn
    exact .of_native hrow (Shape.realVector_isNative.2 h4)
  | false =>
    refine ⟨hrow, fun x hx => hi ?_⟩
    rw [Shape.structs_of_record ⟨hv, hn⟩, Shape.members_realMatrix hn]
    refine List.mem_append_left _ (List.mem_flatMap.2 ⟨(s!"a{0}", .realVector c), ?_, hx⟩)
    exact mem_numbered (by rw [List.getElem?_replicate, if_pos (show 0 < r from hv.1.1)])

theorem present_element {items : List Item} {s e : Shape} (hs : s.Present items)
    (he : s.element? = some e) (hi : Synth.elementItems s ⊆ items) : e.Present items := by
  have hev := Shape.valid_of_element? hs.1 he
  by_cases hc : s.kind = .complex
  · exact ⟨hev, by rwa [elementItems_of_complex hc he] at hi⟩
  · cases s with
    | scalar k => cases he
    | vector n k =>
      obtain rfl : .scalar k = e := by injection he
      exact .of_native hev rfl
    | matrix r c k =>
      obtain rfl : .vector c k = e := by injection he
      cases k with
      | bool | int => cases hs.1.2.2
      | real => exact present_row hs
      | complex => exact absurd rfl hc

theorem present_sum {items : List Item} {s e : Shape} (hv : s.Valid) (he : s.element? = some e)
    (hi : sumItems s ⊆ items) : e.Present items := by
  have hev := Shape.valid_of_element? hv he
  cases s with
  | scalar k => cases he
  | vector n k =>
    obtain rfl : .scalar k = e := by injection he
    exact .of_native hev rfl
  | matrix r c k =>
    obtain rfl : .vector c k = e := by injection he
    refine ⟨hev, fun x hx => hi ?_⟩
    simp [sumItems, Item.needs, Shape.element?, hx]

/-- **What an expression is compiled to has a valid shape, and its structs are there.** -/
theorem Translates.present {Γ : Context} : ∀ {e : Expr} {t : Typed}, Translates Γ e t →
    t.shape.Present Γ.items
  | _, _, .real _ => .of_native trivial rfl
  | _, _, .complex _ _ => .of_native trivial rfl
  | _, _, .list _ _ hs hi => ⟨(Compile.listShape_valid hs).1, hi⟩
  | _, _, .uniform _ hv _ hi => ⟨hv, hi⟩
  | _, _, .pixel => .of_native (by decide) rfl
  | _, _, .binary hl hr hc => hc.present hl.present hr.present
  | _, _, .sum _ hv _ he hi => present_sum hv he hi
  | _, _, .element ht _ he _ _ hi => present_element ht.present he hi
  | _, _, .image _ _ _ _ hr => hr.present
  | _, _, .imageOn _ _ _ _ _ _ hr => hr.present

theorem TranslatesAll.present {Γ : Context} : ∀ {es : List Expr} {ts : List Typed},
    TranslatesAll Γ es ts → ∀ t ∈ ts, t.shape.Present Γ.items
  | _, _, .nil => fun _ h => nomatch h
  | _, _, .cons ht hts => fun t h => by
    rcases List.mem_cons.1 h with rfl | h
    · exact ht.present
    · exact hts.present t h

end ShaderAlgebra
