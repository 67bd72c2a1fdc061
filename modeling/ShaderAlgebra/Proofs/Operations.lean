import ShaderAlgebra.Proofs.Calls
import ShaderAlgebra.Proofs.Correctness

/-!
# Operations compute what they stand for

The mathematical value of an operation is said without shaders
(`Operation.value?`): entrywise sums and differences, real and complex multiples,
products of a matrix and a vector, bilinear dot products, and sums of elements.  Whatever was
called for before, an operation that is applied to texts evaluates to it (`Build.apply_evaluates`), on
every shape: where it is an operator of GLSL, where it is a helper, and where helpers call helpers.

An operand is given by its text.  It may be any signed term, so that it binds at least as tightly as
the operators around it.
-/

namespace ShaderAlgebra

open Glsl (Term Library Sampler Env Value)
open Glsl.Library

/-! ## What operations mean -/

namespace Operation

/-- The shapes of the operands of an operation on a shape. -/
def operands (op : Operation) (s : Shape) : List Shape :=
  match op, s with
  | add, _ | sub, _ | dot, _ | complexMul, _ | complexDot, _ => [s, s]
  | scale, _ => [.real, s]
  | complexScale, _ => [.complex, s]
  | matVec, .matrix _ c k | complexMatVec, .matrix _ c k => [s, .vector c k]
  | sum, _ => [s]
  | _, _ => []

/-- The shape of the result of an operation on a shape. -/
def result (op : Operation) (s : Shape) : Shape :=
  match op, s with
  | matVec, .matrix r _ k | complexMatVec, .matrix r _ k => .vector r k
  | dot, .vector _ k | complexDot, .vector _ k | sum, .vector _ k => .scalar k
  | sum, .matrix _ c k => .vector c k
  | _, _ => s

/-- **The value of an operation.** -/
def value? (op : Operation) (xs : List Quantity) : Option Quantity :=
  match op, xs with
  | add, [x, y] => (y.as? x.shape).map fun b => ⟨x.shape, x.value + b⟩
  | sub, [x, y] => (y.as? x.shape).map fun b => ⟨x.shape, x.value - b⟩
  | scale, [x, y] | complexMul, [x, y] | complexScale, [x, y] => x.scale y
  | matVec, [x, y] | complexMatVec, [x, y] => x.mulVec y
  | dot, [x, y] | complexDot, [x, y] => x.dot y
  | sum, [x] => x.sum
  | _, _ => none

theorem result_sum {s e : Shape} (he : s.element? = some e) : sum.result s = e := by
  cases s with
  | scalar k => cases he
  | vector n k | matrix r c k => exact Option.some.inj he

end Operation

/-! ## Applied operations -/

section Applied

variable {L : Library} {σ : Sampler} {env : Env}

/-- Terms with the stored values of quantities. -/
abbrev Represented (L : Library) (σ : Sampler) (env : Env) (args : List Term) (xs : List Quantity) : Prop :=
  List.Forall₂ (fun t x => L.value σ env t = some (store x.shape x.value)) args xs

/-- Two operands of known shapes. -/
theorem Represented.pair {a b : Term} {xs : List Quantity} (h : Represented L σ env [a, b] xs)
    {s₁ s₂ : Shape} (hs : xs.map (·.shape) = [s₁, s₂]) :
    ∃ (v : s₁.Carrier) (w : s₂.Carrier), xs = [⟨s₁, v⟩, ⟨s₂, w⟩] ∧
      L.value σ env a = some (store s₁ v) ∧ L.value σ env b = some (store s₂ w) := by
  cases h with
  | @cons _ x _ _ ha h =>
    cases h with
    | @cons _ y _ _ hb h =>
      cases h
      obtain ⟨s, v⟩ := x
      obtain ⟨s', w⟩ := y
      obtain ⟨rfl, rfl⟩ : s = s₁ ∧ s' = s₂ := by simpa using hs
      exact ⟨v, w, rfl, ha, hb⟩

/-- **An applied operation has the value of the operation.** -/
theorem Applies.value {op : Operation} {s : Shape} {args : List Term} {t : Term} {items : List Item}
    (h : Applies op s args t items) (hm : ∀ x ∈ items, L.Means σ x) {xs : List Quantity}
    (hs : xs.map (·.shape) = op.operands s) (hargs : Represented L σ env args xs) :
    ∃ y, op.value? xs = some y ∧ y.shape = op.result s ∧
      L.value σ env t = some (store y.shape y.value) := by
  have hlast : ∀ {ys : List Item} {y : Item}, items = ys ++ [y] → L.Means σ y := fun hi =>
    hm _ (hi ▸ List.mem_append_right _ List.mem_cons_self)
  cases h with
  | add hv hk =>
    obtain ⟨v, w, rfl, ha, hb⟩ := hargs.pair hs
    refine ⟨⟨s, v + w⟩, ?_, rfl, value_pointwise pointwise_add (by decide) hv hk hm ha hb⟩
    rw [Operation.value?, Quantity.as?_self, Option.map_some]
  | sub hv hk =>
    obtain ⟨v, w, rfl, ha, hb⟩ := hargs.pair hs
    refine ⟨⟨s, v - w⟩, ?_, rfl, value_pointwise pointwise_sub (by decide) hv hk hm ha hb⟩
    rw [Operation.value?, Quantity.as?_self, Option.map_some]
  | scale hv hk =>
    obtain ⟨q, v, rfl, ha, hb⟩ := hargs.pair hs
    obtain ⟨f, hf⟩ := Scalar.exists_ofReal hk
    exact ⟨_, Quantity.scale_real hf q v, rfl, value_multiple hv hk hm hf ha hb⟩
  | @matVec r c _ _ hv =>
    obtain ⟨M, v, rfl, ha, hb⟩ := hargs.pair hs
    refine ⟨⟨.realVector r, Matrix.mulVec M v⟩, ?_, rfl, value_matVecTerm hm ha hb⟩
    rw [Operation.value?, Quantity.mulVec, Quantity.as?_self, Option.map_some]
  | dot hv =>
    obtain ⟨v, w, rfl, ha, hb⟩ := hargs.pair hs
    refine ⟨⟨.real, dotProduct v w⟩, ?_, rfl, value_dotTerm hm ha hb⟩
    rw [Operation.value?, Quantity.dot, Quantity.as?_self, Option.map_some]
  | sum hv hk he =>
    cases hargs with
    | @cons _ x _ _ ha hnil =>
      cases hnil
      obtain rfl : x.shape = s := by simpa [Operation.operands] using hs
      obtain ⟨y, hy, hshape⟩ := Quantity.exists_sum he
      exact ⟨y, hy, hshape.trans (Operation.result_sum he).symm, value_sumTerm hv hy hm ha⟩
  | complexMul =>
    obtain ⟨z, w, rfl, ha, hb⟩ := hargs.pair hs
    exact ⟨_, rfl, rfl, (value_call (values_pair ha hb)).trans (hm _ List.mem_cons_self z w)⟩
  | complexMultiple =>
    obtain ⟨z, w, rfl, ha, hb⟩ := hargs.pair hs
    exact ⟨_, rfl, rfl, (value_call (values_pair ha hb)).trans (hm _ List.mem_cons_self z w)⟩
  | complexScale h =>
    obtain ⟨z, v, rfl, ha, hb⟩ := hargs.pair hs
    exact ⟨_, Quantity.scale_complex h.2.symm z v, rfl, value_complexScale h (hlast rfl) ha hb⟩
  | @complexMatVec r c _ _ hv =>
    obtain ⟨M, v, rfl, ha, hb⟩ := hargs.pair hs
    refine ⟨⟨.vector r .complex, Matrix.mulVec M v⟩, ?_, rfl, ?_⟩
    · rw [Operation.value?, Quantity.mulVec, Quantity.as?_self, Option.map_some]
    · exact (value_call (values_pair ha hb)).trans (hlast rfl r c rfl M v)
  | @complexDot n _ _ hv =>
    obtain ⟨v, w, rfl, ha, hb⟩ := hargs.pair hs
    refine ⟨⟨.complex, dotProduct v w⟩, ?_, rfl, ?_⟩
    · rw [Operation.value?, Quantity.dot, Quantity.as?_self, Option.map_some]
    · exact (value_call (values_pair ha hb)).trans (hlast rfl n rfl v w)

end Applied

/-- An applied operation is read back from its text. -/
theorem Applies.isOperand {op : Operation} {s : Shape} {args : List Term} {t : Term} {items : List Item}
    (h : Applies op s args t items) (ha : ∀ a ∈ args, a.IsOperand) : t.IsOperand := by
  have hcall (f : String) (hf : Glsl.IsWord f) : (Term.apply f args).IsOperand :=
    Term.isOperand_call hf fun a hmem => (ha a hmem).readable
  cases h with
  | @add _ a b | @sub _ a b | @scale _ a b =>
    exact isOperand_combined _ _ (ha a (by simp)) (ha b (by simp))
  | @matVec _ _ m v => exact isOperand_matVecTerm _ _ (ha m (by simp)) (ha v (by simp))
  | @dot _ a b => exact isOperand_dotTerm _ (ha a (by simp)) (ha b (by simp))
  | @sum _ _ a hv => exact isOperand_sumTerm hv (ha a (by simp))
  | complexMul | complexMultiple | complexScale | complexMatVec | complexDot =>
    exact hcall _ (Operation.isWord_helperName _ _)

/-! ## Texts -/

/-- Over a header, a text is a signed term with the stored value of a quantity. -/
structure Denotes (header : String) (σ : Sampler) (env : Env) (text : String) (x : Quantity) : Prop where
  signed : (Glsl.readSigned text).isSome
  value : Glsl.evalText header text σ env = some (store x.shape x.value)

theorem Glsl.Term.IsOperand.readSigned_text {t : Term} (h : t.IsOperand) :
    readSigned t.text = some t.ast := by
  have hlex := h.readable.spells [] (.inl fun c hc => by cases hc)
  have hparse := h.readable.parses.signed h.rank_le [] endsSum_nil.1.1
  rw [List.append_nil] at hlex hparse
  refine readSigned_eq_some.2 ⟨t.tokens, ?_, hparse⟩
  rw [show t.text.toList = t.chars from rfl, hlex, lex_nil, before, Option.map_some, List.append_nil]

section Denoted

variable {L : Library} {header : String} {σ : Sampler} {env : Env}

/-- The text of an operand denotes its value. -/
theorem denotes_text (hL : Glsl.readLibrary header = some L) {t : Term} (ht : t.IsOperand) {x : Quantity}
    (hv : L.value σ env t = some (store x.shape x.value)) : Denotes header σ env t.text x :=
  ⟨by rw [ht.readSigned_text, Option.isSome_some], (evalText_text hL ht.readable).trans hv⟩

/-- A text that denotes a value is an operand with that value. -/
theorem Denotes.isOperand (hL : Glsl.readLibrary header = some L) {text : String} {x : Quantity}
    (h : Denotes header σ env text x) : (Term.raw text).IsOperand :=
  ⟨(value_of_evalText hL h.value).1, by rw [Term.rank, if_pos h.signed]⟩

theorem isOperand_of_denotes (hL : Glsl.readLibrary header = some L) {texts : List String}
    {xs : List Quantity} (h : List.Forall₂ (Denotes header σ env) texts xs) :
    ∀ a ∈ texts.map Term.raw, a.IsOperand := by
  induction h with
  | nil => exact nofun
  | cons hx _ ih =>
    intro a ha
    rcases List.mem_cons.1 ha with rfl | ha
    · exact hx.isOperand hL
    · exact ih a ha

end Denoted

/-- **Applied operations compute their values.**  After any calls, let an operation be applied on
a shape to texts that denote values of the shapes of its operands.  Then the text that it gives denotes
the value of the operation on them, in the shape of its result. -/
theorem Build.apply_evaluates (calls : List Build.Call) (op : Operation) (s : Shape) (texts : List String)
    {t : Term} {d : Definitions}
    (h : (Build.apply op s (texts.map .raw)).run.run (Definitions.after calls) = (.ok t, d))
    (σ : Sampler) (env : Env) (xs : List Quantity) (hs : xs.map (·.shape) = op.operands s)
    (hargs : List.Forall₂ (Denotes d.header σ env) texts xs) :
    ∃ y, op.value? xs = some y ∧ y.shape = op.result s ∧ Denotes d.header σ env t.text y := by
  obtain ⟨c, hc⟩ := Definitions.exists_catalog calls
  rw [hc] at h
  obtain ⟨items, happ, c', rfl, hitems⟩ := exists_applies h
  obtain ⟨L, hL, hmeans, -⟩ := c'.exists_library
  have hm : ∀ x ∈ items, L.Means σ x := fun x hx => hmeans σ x (hitems hx)
  have hvalues : Represented L σ env (texts.map .raw) xs :=
    List.forall₂_map_left_iff.2 (hargs.imp fun _ _ hx => (value_of_evalText hL hx.value).2)
  obtain ⟨y, hy, hshape, hv⟩ := happ.value hm hs hvalues
  exact ⟨y, hy, hshape, denotes_text hL (happ.isOperand (isOperand_of_denotes hL hargs)) hv⟩

/-- The names of inputs denote their values, after any calls. -/
theorem Definitions.denotes_name (calls : List Build.Call) (σ : Sampler) {env : Env} {name : String}
    (hn : Glsl.IsWord name) {x : Quantity} (h : env.lookup name = some (store x.shape x.value)) :
    Denotes (Definitions.after calls).header σ env name x := by
  obtain ⟨c, hc⟩ := Definitions.exists_catalog calls
  obtain ⟨L, hL, -⟩ := c.exists_library
  have hv : L.value σ env (.name name) = some (store x.shape x.value) := (value_name name).trans h
  have htext : (Term.name name).text = name := by simp [Term.text, Term.write]
  rw [hc, ← htext]
  exact denotes_text hL (Term.isOperand_name hn) hv

/-- Twice `(0, 1, 2, 3, 4)`, after a call that failed. -/
theorem Build.apply_evaluates_scale :
    let v : Fin 5 → ℚ := fun i => i
    let env : Env := [("q", .float 2), ("u", store (.realVector 5) v)]
    ∃ t d, (Build.apply .scale (.realVector 5) (["q", "u"].map .raw)).run.run
        (Definitions.after [.apply .dot .complex [], .define (.vector 6 .complex)]) = (.ok t, d) ∧
      Glsl.evalText d.header t.text (fun _ _ _ _ _ _ => 0) env =
        some (store (.realVector 5) fun i => 2 * (i : ℚ)) := by
  intro v env
  let calls : List Build.Call := [.apply .dot .complex [], .define (.vector 6 .complex)]
  obtain ⟨t, d, h⟩ : ∃ t d, (Build.apply .scale (.realVector 5) (["q", "u"].map .raw)).run.run
      (Definitions.after calls) = (.ok t, d) := ⟨_, _, rfl⟩
  have hd : d = Definitions.after (calls ++ [.apply .scale (.realVector 5) (["q", "u"].map .raw)]) := by
    rw [Definitions.after_concat]
    exact (congrArg Prod.snd h).symm
  have hq : Denotes d.header (fun _ _ _ _ _ _ => 0) env "q" ⟨.real, (2 : ℚ)⟩ :=
    hd ▸ Definitions.denotes_name _ _ (by decide) rfl
  have hu : Denotes d.header (fun _ _ _ _ _ _ => 0) env "u" ⟨.realVector 5, v⟩ :=
    hd ▸ Definitions.denotes_name _ _ (by decide) rfl
  obtain ⟨y, hy, -, hden⟩ := Build.apply_evaluates calls .scale (.realVector 5) ["q", "u"] h _ env
    [⟨.real, (2 : ℚ)⟩, ⟨.realVector 5, v⟩] rfl (.cons hq (.cons hu .nil))
  obtain rfl := Option.some.inj hy
  exact ⟨t, d, h, hden.value⟩

end ShaderAlgebra
