import ShaderAlgebra.Proofs.Calls
import ShaderAlgebra.Proofs.Spelling

/-!
# What the tables of the operations say

Two tables speak about an operation on a shape before it is applied: `Operation.isNativeOn` says
whether GLSL has it, and `Operation.helperName` names its helper.  `Operation.Describes` compares them with
what applying the operation to fresh definitions does: where GLSL has the operation, no function is
entered; elsewhere the helper is entered under its name, and the term calls it on the operands in
their order.

The tables are right on all but two entries (`Build.describes_iff`), where the work is handed on to
another operation:

* the sum of a real vector is its dot product with ones.  The tables take it for an operation of
  GLSL at every width, but past width four the dot product has a helper;
* a complex multiple of a complex number is a product.  The helper is that of the product, and the
  name in the table belongs to no function.
-/

namespace ShaderAlgebra

open Glsl (Term)

/-- **What the tables say** of operands `args` to which the operation was applied, giving the term `t`
and the definitions `d`. -/
def Operation.Describes (op : Operation) (s : Shape) (args : List Term) (t : Term) (d : Definitions) : Prop :=
  if op.isNativeOn s then ∀ name, ¬ d.contains .function name
  else d.contains .function (op.helperName s) ∧
    t.text = op.helperName s ++ "(" ++ ",".intercalate (args.map Term.text) ++ ")"

/-- The sum of a real vector that is too wide for a dot product of GLSL. -/
def Operation.IsWideSum (op : Operation) (s : Shape) : Prop :=
  op = .sum ∧ s.isRealVector ∧ s.isNative = false

/-- A complex multiple of a complex number. -/
def Operation.IsComplexMultiple (op : Operation) (s : Shape) : Prop :=
  op = .complexScale ∧ s = .complex

instance (op : Operation) (s : Shape) : Decidable (op.IsWideSum s) :=
  inferInstanceAs (Decidable (_ ∧ _ ∧ _))

instance (op : Operation) (s : Shape) : Decidable (op.IsComplexMultiple s) :=
  inferInstanceAs (Decidable (_ ∧ _))

theorem Glsl.Term.text_apply (f : String) (args : List Term) :
    (Term.apply f args).text = f ++ "(" ++ ",".intercalate (args.map Term.text) ++ ")" := by
  refine String.toList_injective ?_
  have h := Term.chars_call .tight f args
  simp only [Term.chars] at h
  rw [h]
  simp [Glsl.Spacing.comma, Function.comp_def]

/-! ## Functions among the items -/

/-- Structs are no functions. -/
theorem Item.helper_not_mem_structs {s : Shape} (h : s.Valid) (op : Operation) (t : Shape) :
    Item.helper op t ∉ s.structs := by
  intro hmem
  have hle := Item.weight_le_of_mem_structs h _ hmem
  have hnesting := Item.nesting_le s
  have hlayer : 1 ≤ Item.layer op := by cases op <;> decide
  simp only [Item.weight] at hle
  omega

/-- The functions among definitions are the helpers among items. -/
def Definitions.HasHelpersOf (d : Definitions) (items : List Item) : Prop :=
  ∀ name, d.contains .function name ↔ ∃ op s, Item.helper op s ∈ items ∧ op.helperName s = name

/-- The functions of fresh definitions after an operation are the helpers that it relies on. -/
theorem Build.hasHelpersOf_apply {op : Operation} {s : Shape} {args : List Term} {t : Term}
    {d : Definitions} (h : (Build.apply op s args).run.run .empty = (.ok t, d)) :
    ∃ items, Applies op s args t items ∧ d.HasHelpersOf items := by
  rcases Build.applies_or_fails op s args with ⟨t', items, happ⟩ | ⟨failure, hfail⟩
  · obtain ⟨c, hrun, hitems⟩ := Build.settles_apply happ .empty
    obtain ⟨ht, rfl⟩ := Prod.mk.inj (h.symm.trans hrun)
    obtain rfl := Except.ok.inj ht
    refine ⟨items, happ, fun name => ?_⟩
    have hmem (x : Item) : x ∈ c.items ↔ x ∈ items := by
      rw [hitems, mem_enterAll]
      simp [Catalog.empty]
    simp only [Registry.contains_eq_any, Catalog.definitions, List.any_map, List.any_eq_true, Function.comp_apply,
      Registry.keyed, Item.entry, Bool.and_eq_true, beq_iff_eq, hmem]
    constructor
    · rintro ⟨x, hx, hcategory, hname⟩
      cases x with
      | struct s' => cases hcategory
      | helper op' s' => exact ⟨op', s', hx, hname⟩
    · rintro ⟨op', s', hx, hname⟩
      exact ⟨_, hx, rfl, hname⟩
  · obtain ⟨c, hrun, -⟩ := hfail .empty
    cases (Prod.mk.inj (h.symm.trans hrun)).1

section Described

variable {op : Operation} {s : Shape} {args : List Term} {t : Term} {d : Definitions} {items : List Item}

/-- An operation of GLSL that relies on no helper. -/
theorem Operation.describes_native (hd : d.HasHelpersOf items) (hn : op.isNativeOn s)
    (hitems : ∀ op' s', Item.helper op' s' ∉ items) : op.Describes s args t d := by
  rw [Operation.Describes, if_pos hn]
  intro name hname
  obtain ⟨op', s', hmem, -⟩ := (hd name).1 hname
  exact hitems op' s' hmem

/-- An operation that relies on its own helper. -/
theorem Operation.describes_helper (hd : d.HasHelpersOf items)
    (hn : op.isNativeOn s = false) (hitem : Item.helper op s ∈ items)
    (ht : t = .apply (op.helperName s) args) : op.Describes s args t d := by
  rw [Operation.Describes, if_neg (by simp [hn]), ht]
  exact ⟨(hd _).2 ⟨op, s, hitem, rfl⟩, Term.text_apply _ _⟩

/-- An entrywise operation is one of GLSL or has its helper. -/
theorem Entrywise.describes (w : Entrywise) (hv : s.Valid) {a b : Term} (hd : d.HasHelpersOf (s.helpers w)) :
    w.operation.Describes s [a, b] (s.combined w a b) d := by
  have hnative : w.operation.isNativeOn s = s.isNative := by cases w <;> rfl
  cases hn : s.isNative with
  | true =>
    refine Operation.describes_native hd (hnative.trans hn) ?_
    rw [Shape.helpers_of_native w hn]
    simp
  | false =>
    have hs : s.IsRecord := ⟨hv, hn⟩
    refine Operation.describes_helper hd (hnative.trans hn) ?_ (Shape.combined_of_record w hs a b)
    rw [Shape.helpers_of_record w hs]
    simp

/-- A dot product is one of GLSL or has its helper. -/
theorem Operation.describes_dot {n : Nat} {a b : Term} (hd : d.HasHelpersOf (Synth.dotItems n)) :
    Operation.dot.Describes (.realVector n) [a, b] (Synth.dotTerm n a b) d := by
  have hnative : Operation.dot.isNativeOn (.realVector n) = decide (n ≤ maxNativeWidth) := by
    simp [Operation.isNativeOn, Shape.length?]
  by_cases hw : n ≤ maxNativeWidth
  · refine Operation.describes_native hd (by simp [hnative, hw]) ?_
    simp [Synth.dotItems, hw]
  · refine Operation.describes_helper hd (by simp [hnative, hw]) ?_ (by simp [Synth.dotTerm, hw])
    simp [Synth.dotItems, hw]

/-- A matrix product is one of GLSL or has its helper. -/
theorem Operation.describes_matVec {r c : Nat} {m v : Term} (hd : d.HasHelpersOf (Synth.matVecItems r c)) :
    Operation.matVec.Describes (.matrix r c .real) [m, v] (Synth.matVecTerm r c m v) d := by
  cases hn : (Shape.matrix r c .real).isNative with
  | true =>
    refine Operation.describes_native hd hn ?_
    simp [Synth.matVecItems, hn]
  | false =>
    refine Operation.describes_helper hd hn ?_ (by simp [Synth.matVecTerm, hn])
    simp [Synth.matVecItems, hn]

/-- A sum of other elements than real numbers has its helper. -/
theorem Operation.describes_sum {a : Term} (hr : s.isRealVector = false) (hd : d.HasHelpersOf (sumItems s)) :
    Operation.sum.Describes s [a] (sumTerm s a) d := by
  unfold sumItems at hd
  unfold sumTerm
  split at hd
  · cases hr
  · exact Operation.describes_helper hd hr (by simp) rfl

/-- **The tables are right** wherever an operation is not handed on. -/
theorem Applies.describes (h : Applies op s args t items) (hd : d.HasHelpersOf items) (hsum : ¬ op.IsWideSum s)
    (hmultiple : ¬ op.IsComplexMultiple s) : op.Describes s args t d := by
  cases h with
  | add hv hk => exact Entrywise.add.describes hv hd
  | sub hv hk => exact Entrywise.sub.describes hv hd
  | scale hv hk => exact Entrywise.scale.describes hv hd
  | matVec hv => exact Operation.describes_matVec hd
  | dot hv => exact Operation.describes_dot hd
  | complexMultiple => exact absurd ⟨rfl, rfl⟩ hmultiple
  | complexMul => exact Operation.describes_helper hd rfl List.mem_cons_self rfl
  | complexScale h => exact Operation.describes_helper hd rfl (by simp) rfl
  | complexMatVec hv => exact Operation.describes_helper hd rfl (by simp) rfl
  | complexDot hv => exact Operation.describes_helper hd rfl (by simp) rfl
  | sum hv hk he =>
    cases hr : s.isRealVector with
    | false => exact Operation.describes_sum hr hd
    | true =>
      have hn : s.isNative := by
        cases hn : s.isNative with
        | true => rfl
        | false => exact absurd ⟨rfl, hr, hn⟩ hsum
      refine Operation.describes_native hd hr fun op' s' hmem => ?_
      cases s with
      | scalar k | matrix r c k => cases hr
      | vector n k =>
        cases k with
        | bool | int | complex => cases hr
        | real =>
          have hw := Shape.realVector_isNative.1 hn
          simp [sumItems, Synth.dotItems, hw, Shape.structs_of_native hn] at hmem

/-- **The sum of a wide vector** is handed on to the dot product. -/
theorem Applies.wideSum (h : Applies op s args t items) (hd : d.HasHelpersOf items) (hs : op.IsWideSum s) :
    (∀ name, d.contains .function name ↔ name = Operation.dot.helperName s) ∧
      t = .apply (Operation.dot.helperName s) (args ++ [s.filled (.literal .one)]) := by
  obtain ⟨rfl, hr, hn⟩ := hs
  cases h with
  | sum hv hk he =>
    cases s with
    | scalar k | matrix r c k => cases hr
    | vector n k =>
      cases k with
      | bool | int | complex => cases hr
      | real =>
        have hw : ¬ n ≤ maxNativeWidth := fun hw => by
          rw [Shape.realVector_isNative.2 hw] at hn
          cases hn
        refine ⟨fun name => ?_, by simp [sumTerm, Synth.dotTerm, hw]⟩
        simp [hd name, sumItems, Synth.dotItems, hw, Item.helper_not_mem_structs hv, eq_comm]

/-- **A complex multiple of a complex number** is handed on to the product. -/
theorem Applies.complexMultiple_only (h : Applies op s args t items) (hd : d.HasHelpersOf items)
    (hs : op.IsComplexMultiple s) :
    (∀ name, d.contains .function name ↔ name = Operation.complexMul.helperName s) ∧
      t = .apply (Operation.complexMul.helperName s) args := by
  obtain ⟨rfl, rfl⟩ := hs
  cases h with
  | complexMultiple =>
    refine ⟨fun name => ?_, rfl⟩
    simp [hd name, eq_comm]
  | complexScale h => cases h.1.2

end Described

/-- **Where the tables are right.**  Applied to fresh definitions, an operation does what the tables
say of it, but for the sum of a wide real vector and for a complex multiple of a complex number.
There, the only function is the helper of the dot product or of the product, which is called instead. -/
theorem Build.describes_iff {op : Operation} {s : Shape} {args : List Term} {t : Term} {d : Definitions}
    (h : (Build.apply op s args).run.run .empty = (.ok t, d)) :
    (op.Describes s args t d ↔ ¬ op.IsWideSum s ∧ ¬ op.IsComplexMultiple s) ∧
      (op.IsWideSum s →
        (∀ name, d.contains .function name ↔ name = Operation.dot.helperName s) ∧
          t = .apply (Operation.dot.helperName s) (args ++ [s.filled (.literal .one)])) ∧
      (op.IsComplexMultiple s →
        (∀ name, d.contains .function name ↔ name = Operation.complexMul.helperName s) ∧
          t = .apply (Operation.complexMul.helperName s) args) := by
  obtain ⟨items, happ, hd⟩ := Build.hasHelpersOf_apply h
  refine ⟨⟨fun hdesc => ⟨fun hs => ?_, fun hs => ?_⟩, fun hs => happ.describes hd hs.1 hs.2⟩,
    happ.wideSum hd, happ.complexMultiple_only hd⟩
  · -- a function is entered although the operation is taken for one of GLSL
    have hdot := ((happ.wideSum hd hs).1 _).2 rfl
    rw [Operation.Describes, if_pos (by rw [hs.1]; exact hs.2.1)] at hdesc
    exact hdesc _ hdot
  · -- the only function has another name
    have hname := (happ.complexMultiple_only hd hs).1 (op.helperName s)
    obtain ⟨rfl, rfl⟩ := hs
    exact absurd (hname.1 hdesc.1) (by decide)

/-- A wide dot product has its helper. -/
theorem Build.describes_wide_dot : ∃ t d,
    (Build.apply .dot (.realVector 5) [.name "p", .name "q"]).run.run .empty = (.ok t, d) ∧
      Operation.dot.Describes (.realVector 5) [.name "p", .name "q"] t d :=
  ⟨_, _, rfl, (Build.describes_iff rfl).1.2 (by decide)⟩

/-- The sum of a vector of length five enters the helper of the dot product. -/
theorem Build.not_describes_wide_sum : ∃ t d,
    (Build.apply .sum (.realVector 5) [.name "p"]).run.run .empty = (.ok t, d) ∧
      Operation.sum.isNativeOn (.realVector 5) ∧ d.contains .function "dot5" ∧
      ¬ Operation.sum.Describes (.realVector 5) [.name "p"] t d := by
  refine ⟨_, _, rfl, rfl, rfl, fun hdesc => ?_⟩
  exact hdesc "dot5" rfl

end ShaderAlgebra
