import ShaderAlgebra.Proofs.Outcome

/-!
# Calls for definitions and terms

The definitions of a shader grow by calls: for the struct of a shape, for a value
of its elements, for an element, for a constant, or for an operation.  A call may
fail.  `Applies` gives the rules by which an operation is applied, each with its term and the
items that it relies on; where no rule fits, the call fails (`Build.applies_or_fails`).

Whatever was called for, the definitions are those of a catalog (`Definitions.exists_catalog`).
-/

namespace ShaderAlgebra

open Glsl (Term)

/-! ## Operations by name -/

/-- An operation on operands of a shape is applied by a term, which relies on items. -/
inductive Applies : Operation → Shape → List Term → Term → List Item → Prop where
  | add {s : Shape} {a b : Term} (hv : s.Valid) (hk : s.kind.isField) :
      Applies .add s [a, b] (s.combined .add a b) (s.helpers .add)
  | sub {s : Shape} {a b : Term} (hv : s.Valid) (hk : s.kind.isField) :
      Applies .sub s [a, b] (s.combined .sub a b) (s.helpers .sub)
  | scale {s : Shape} {a b : Term} (hv : s.Valid) (hk : s.kind.isField) :
      Applies .scale s [a, b] (s.combined .scale a b) (s.helpers .scale)
  | matVec {r c : Nat} {m v : Term} (hv : (Shape.matrix r c .real).Valid) :
      Applies .matVec (.matrix r c .real) [m, v] (Synth.matVecTerm r c m v) (Synth.matVecItems r c)
  | dot {n : Nat} {a b : Term} (hv : (Shape.realVector n).Valid) :
      Applies .dot (.realVector n) [a, b] (Synth.dotTerm n a b) (Synth.dotItems n)
  | sum {s e : Shape} {a : Term} (hv : s.Valid) (hk : s.kind.isField) (he : s.element? = some e) :
      Applies .sum s [a] (sumTerm s a) (sumItems s)
  | complexMul {a b : Term} :
      Applies .complexMul .complex [a, b] (.apply (Operation.complexMul.helperName .complex) [a, b])
        [.helper .complexMul .complex]
  /-- A multiple of a complex number is a product. -/
  | complexMultiple {a b : Term} :
      Applies .complexScale .complex [a, b] (.apply (Operation.complexMul.helperName .complex) [a, b])
        [.helper .complexMul .complex]
  | complexScale {s : Shape} {a b : Term} (h : Operation.complexScale.HasHelper s) :
      Applies .complexScale s [a, b] (.apply (Operation.complexScale.helperName s) [a, b])
        ((Item.helper .complexScale s).needs ++ [.helper .complexScale s])
  | complexMatVec {r c : Nat} {m v : Term} (hv : (Shape.matrix r c .complex).Valid) :
      Applies .complexMatVec (.matrix r c .complex) [m, v]
        (.apply (Operation.complexMatVec.helperName (.matrix r c .complex)) [m, v])
        ((Item.helper .complexMatVec (.matrix r c .complex)).needs ++
          [.helper .complexMatVec (.matrix r c .complex)])
  | complexDot {n : Nat} {a b : Term} (hv : (Shape.vector n .complex).Valid) :
      Applies .complexDot (.vector n .complex) [a, b]
        (.apply (Operation.complexDot.helperName (.vector n .complex)) [a, b])
        ((Item.helper .complexDot (.vector n .complex)).needs ++
          [.helper .complexDot (.vector n .complex)])

namespace Build

theorem settles_apply {op : Operation} {s : Shape} {args : List Term} {t : Term} {items : List Item}
    (h : Applies op s args t items) : Settles (apply op s args) (.ok t) items := by
  cases h with
  | add hv hk => exact settles_entrywise .add hv hk _ _
  | sub hv hk => exact settles_entrywise .sub hv hk _ _
  | scale hv hk => exact settles_entrywise .scale hv hk _ _
  | matVec hv => exact settles_matVec hv _ _
  | dot hv => exact settles_dot hv _ _
  | sum hv hk he => exact settles_sum hv hk he _
  | complexMul | complexMultiple => exact settles_complexMul _ _
  | complexScale h => exact settles_complexScale h _ _
  | complexMatVec hv => exact settles_complexMatVec hv _ _
  | complexDot hv => exact settles_complexDot hv _ _

/-- An operation needs its number of operands. -/
theorem fails_apply_of_arity {op : Operation} {args : List Term} (h : args.length ≠ op.arity) (s : Shape) :
    Fails (apply op s args) := by
  unfold apply
  split
  all_goals first | exact ⟨_, settles_throw _⟩ | exact absurd rfl h

/-- **An operation is applied by a rule or fails.** -/
theorem applies_or_fails (op : Operation) (s : Shape) (args : List Term) :
    (∃ t items, Applies op s args t items) ∨ Fails (apply op s args) := by
  by_cases harity : args.length = op.arity
  · have hpair (h2 : op.arity = 2) : ∃ a b, args = [a, b] := List.length_eq_two.1 (harity.trans h2)
    have hentrywise (w : Entrywise) (a b : Term) :
        (s.Valid ∧ s.kind.isField) ∨ Fails (entrywise w s a b) :=
      (Decidable.em _).imp id (fails_entrywise w · a b)
    cases op with
    | add =>
      obtain ⟨a, b, rfl⟩ := hpair rfl
      exact (hentrywise .add a b).imp_left fun h => ⟨_, _, .add h.1 h.2⟩
    | sub =>
      obtain ⟨a, b, rfl⟩ := hpair rfl
      exact (hentrywise .sub a b).imp_left fun h => ⟨_, _, .sub h.1 h.2⟩
    | scale =>
      obtain ⟨a, b, rfl⟩ := hpair rfl
      exact (hentrywise .scale a b).imp_left fun h => ⟨_, _, .scale h.1 h.2⟩
    | matVec =>
      obtain ⟨m, v, rfl⟩ := hpair rfl
      by_cases h : s.Valid ∧ s.kind = .real ∧ s.depth = 2
      · obtain ⟨r, c, rfl⟩ := Shape.eq_matrix_of_depth h.2.1 h.2.2
        exact .inl ⟨_, _, .matVec h.1⟩
      · exact .inr (fails_matVec h m v)
    | dot =>
      obtain ⟨a, b, rfl⟩ := hpair rfl
      by_cases h : s.Valid ∧ s.kind = .real ∧ s.depth = 1
      · obtain ⟨n, rfl⟩ := Shape.eq_vector_of_depth h.2.1 h.2.2
        exact .inl ⟨_, _, .dot h.1⟩
      · exact .inr (fails_dot h a b)
    | sum =>
      obtain ⟨a, rfl⟩ := List.length_eq_one_iff.1 harity
      by_cases h : s.Valid ∧ s.kind.isField ∧ 1 ≤ s.depth
      · obtain ⟨e, he⟩ := Shape.exists_element? h.2.2
        exact .inl ⟨_, _, .sum h.1 h.2.1 he⟩
      · exact .inr (fails_sum h a)
    | complexMul =>
      obtain ⟨a, b, rfl⟩ := hpair rfl
      by_cases h : s = .complex
      · subst h
        exact .inl ⟨_, _, .complexMul⟩
      · exact .inr (fails_guard h _ _ _)
    | complexScale =>
      obtain ⟨a, b, rfl⟩ := hpair rfl
      by_cases h : s.Valid ∧ s.kind = .complex
      · by_cases hs : s = .complex
        · subst hs
          exact .inl ⟨_, _, .complexMultiple⟩
        · have hd : 1 ≤ s.depth := by
            cases s with
            | scalar k => exact absurd (congrArg Shape.scalar h.2) hs
            | vector n k | matrix r c k => simp [Shape.depth]
          exact .inl ⟨_, _, .complexScale (Operation.complexScale_hasHelper hd h.2 h.1)⟩
      · exact .inr (fails_complexScale h a b)
    | complexMatVec =>
      obtain ⟨m, v, rfl⟩ := hpair rfl
      by_cases h : s.Valid ∧ s.kind = .complex ∧ s.depth = 2
      · obtain ⟨r, c, rfl⟩ := Shape.eq_matrix_of_depth h.2.1 h.2.2
        exact .inl ⟨_, _, .complexMatVec h.1⟩
      · exact .inr (fails_complexMatVec h m v)
    | complexDot =>
      obtain ⟨a, b, rfl⟩ := hpair rfl
      by_cases h : s.Valid ∧ s.kind = .complex ∧ s.depth = 1
      · obtain ⟨n, rfl⟩ := Shape.eq_vector_of_depth h.2.1 h.2.2
        exact .inl ⟨_, _, .complexDot h.1⟩
      · exact .inr (fails_complexDot h a b)
  · exact .inr (fails_apply_of_arity harity s)

/-- An operation that succeeds is applied by a rule, and its items are there. -/
theorem exists_applies {op : Operation} {s : Shape} {args : List Term} {t : Term} {c : Catalog}
    {d : Definitions} (h : (apply op s args).run.run c.definitions = (.ok t, d)) :
    ∃ items, Applies op s args t items ∧ ∃ c' : Catalog, d = c'.definitions ∧ items ⊆ c'.items := by
  rcases applies_or_fails op s args with ⟨t', items, happ⟩ | ⟨failure, hfail⟩
  · obtain ⟨c', hrun, hitems⟩ := settles_apply happ c
    obtain ⟨ht, rfl⟩ := Prod.mk.inj (h.symm.trans hrun)
    obtain rfl := Except.ok.inj ht
    exact ⟨items, happ, c', rfl, fun x hx => hitems ▸ mem_enterAll.2 (.inr hx)⟩
  · obtain ⟨c', hrun, -⟩ := hfail c
    cases (Prod.mk.inj (h.symm.trans hrun)).1

/-! ## Histories of calls -/

/-- A call: for a struct, for a value of its elements, for the access to an element, for a constant,
or for an operation. -/
inductive Call where
  | define (s : Shape)
  | construct (s : Shape) (args : List Term)
  | element (s : Shape) (i : Nat)
  | fill (s : Shape) (x : Binary64)
  | apply (op : Operation) (s : Shape) (args : List Term)

/-- The definitions that a call leaves, whether it succeeds or fails. -/
def Call.perform (d : Definitions) : Call → Definitions
  | define s => ((Build.define s).run.run d).2
  | construct s args => ((Build.construct s args).run.run d).2
  | element s i => ((Build.element s i).run.run d).2
  | fill s x => ((Build.fill s x).run.run d).2
  | apply op s args => ((Build.apply op s args).run.run d).2

theorem Settles.exists_catalog {α : Type} {b : Build α} {result : Except Failure α} {items : List Item}
    (h : Settles b result items) (c : Catalog) :
    ∃ c' : Catalog, (b.run.run c.definitions).2 = c'.definitions := by
  obtain ⟨c', hrun, -⟩ := h c
  exact ⟨c', congrArg Prod.snd hrun⟩

theorem Fails.exists_catalog {α : Type} {b : Build α} (h : Fails b) (c : Catalog) :
    ∃ c' : Catalog, (b.run.run c.definitions).2 = c'.definitions := by
  obtain ⟨failure, hb⟩ := h
  exact hb.exists_catalog c

/-- A call leads from a catalog to a catalog. -/
theorem Call.exists_catalog (call : Call) (c : Catalog) :
    ∃ c' : Catalog, call.perform c.definitions = c'.definitions := by
  cases call with
  | define s =>
    by_cases h : s.Valid
    · exact (settles_define h).exists_catalog c
    · exact (fails_define h).exists_catalog c
  | construct s args =>
    by_cases h : s.Valid ∧ args.length = s.length?.getD 1
    · exact (settles_construct h.1 h.2).exists_catalog c
    · exact (fails_construct h).exists_catalog c
  | element s i =>
    by_cases h : s.Valid ∧ ∃ n, s.length? = some n ∧ i < n
    · obtain ⟨hv, n, hn, hi⟩ := h
      obtain ⟨e, he⟩ := Shape.exists_element?_of_length? hn
      exact (settles_element hv he hn hi).exists_catalog c
    · exact (fails_element h).exists_catalog c
  | fill s x =>
    by_cases h : s.Valid ∧ s.kind.isField ∧ x.isFinite
    · exact (settles_fill h.1 h.2.1 (if_pos h.2.2)).exists_catalog c
    · exact (fails_fill h).exists_catalog c
  | apply op s args =>
    rcases applies_or_fails op s args with ⟨t, items, h⟩ | h
    · exact (settles_apply h).exists_catalog c
    · exact h.exists_catalog c

end Build

namespace Definitions

/-- The definitions after calls, from the beginning. -/
def after (calls : List Build.Call) : Definitions :=
  calls.foldl Build.Call.perform .empty

theorem after_concat (calls : List Build.Call) (call : Build.Call) :
    after (calls ++ [call]) = call.perform (after calls) :=
  List.foldl_append

/-- **After all calls, the definitions are those of a catalog.** -/
theorem exists_catalog (calls : List Build.Call) : ∃ c : Catalog, after calls = c.definitions := by
  have hfold : ∀ (calls : List Build.Call) (c : Catalog),
      ∃ c' : Catalog, calls.foldl Build.Call.perform c.definitions = c'.definitions := by
    intro calls
    induction calls with
    | nil => exact fun c => ⟨c, rfl⟩
    | cons call calls ih =>
      intro c
      obtain ⟨c₁, h₁⟩ := call.exists_catalog c
      rw [List.foldl_cons, h₁]
      exact ih c₁
  exact hfold calls .empty

end Definitions
end ShaderAlgebra
