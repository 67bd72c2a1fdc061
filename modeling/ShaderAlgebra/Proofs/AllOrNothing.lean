import ShaderAlgebra.Proofs.Strict

/-!
# Calls do all or nothing

A call either is accepted, and then it runs to its end, or it fails before it has entered anything.
`Build.Call.Accepts` says which calls are accepted.  The steps with every check (`Strict`) could
fail halfway, between two definitions; `Paired` compares them with the steps of `Build`, which check
their operands once, at the start:

* where the call is accepted, the step with every check follows the one whose checks are behind it;
* where it is not, both fail for the same reason, and a reason that lies in the operands.

So all checks but the first are idle on every history of calls, and a call that fails leaves no trace.
-/

namespace ShaderAlgebra

open Glsl (Term)

/-- A failure that no operand explains: a place outside the chunks of a vector, or a name with two
definitions. -/
def Failure.isInternal : Failure → Bool
  | chunk _ _ | conflict _ _ => true
  | _ => false

namespace Build

/-- Without its checks, which pass, the step is `m`. -/
def Passes {α : Type} (b : Build α) (m : Synth α) : Prop :=
  ∀ d, b.run.run d = (.ok (m.run d).1, (m.run d).2)

/-- The step fails on any definitions, because of its operands, and enters nothing. -/
def Refuses {α : Type} (b : Build α) (failure : Failure) : Prop :=
  failure.isInternal = false ∧ ∀ d, b.run.run d = (.error failure, d)

/-- A step that only checks: it yields `a` where the operands are accepted. -/
inductive Checks {α : Type} (accepted : Prop) (c : Build α) (a : α) : Prop where
  | passes (h : accepted) (hc : Passes c (pure a))
  | refuses (h : ¬ accepted) {failure : Failure} (hc : Refuses c failure)

/-- Two steps with the same outcome: where the operands are accepted, the first follows what the
second does after its checks; elsewhere they refuse in the same way. -/
inductive Paired {α : Type} (accepted : Prop) (g b : Build α) : Prop where
  | accepts (h : accepted) {m : Synth α} (hg : Follows g m) (hb : Passes b m)
  | refuses (h : ¬ accepted) {failure : Failure} (hg : Refuses g failure) (hb : Refuses b failure)

section Rules

variable {α β : Type} {p q : Prop} {a : α} {c : Build α} {g b : Build β} {f k : α → Build β} {m : Synth β}
  {failure : Failure}

theorem passes_lift (m : Synth β) : Passes (liftM m) m := fun _ => rfl

theorem Passes.bind (hc : Passes c (pure a)) (hf : Passes (f a) m) : Passes (c >>= f) m := by
  intro d
  rw [ExceptT.run_bind, StateT.run_bind, hc d]
  exact hf d

theorem Passes.guard [Decidable p] {other : Build β} (hp : p) (h : Passes b m) :
    Passes (if p then b else other) m := by
  rwa [if_pos hp]

theorem refuses_throw (h : failure.isInternal = false) : Refuses (throw failure : Build α) failure :=
  ⟨h, fun _ => rfl⟩

theorem Refuses.bind (h : Refuses c failure) : Refuses (c >>= f) failure := by
  refine ⟨h.1, fun d => ?_⟩
  rw [ExceptT.run_bind, StateT.run_bind, h.2 d]
  rfl

/-- A failure after a check that is passed. -/
theorem Passes.refuses (hc : Passes c (pure a)) (hf : Refuses (f a) failure) : Refuses (c >>= f) failure := by
  refine ⟨hf.1, fun d => ?_⟩
  rw [ExceptT.run_bind, StateT.run_bind, hc d]
  exact hf.2 d

theorem Checks.congr (h : Checks p c a) (hpq : p ↔ q) : Checks q c a := by
  cases h with
  | passes h hc => exact .passes (hpq.1 h) hc
  | refuses h hc => exact .refuses (mt hpq.2 h) hc

theorem Checks.bind {b' : β} (hc : Checks p c a) (hf : Checks q (f a) b') : Checks (p ∧ q) (c >>= f) b' := by
  cases hc with
  | refuses hp hc => exact .refuses (fun h => hp h.1) hc.bind
  | passes hp hc =>
    cases hf with
    | refuses hq hf => exact .refuses (fun h => hq h.2) (hc.refuses hf)
    | passes hq hf => exact .passes ⟨hp, hq⟩ (hc.bind hf)

theorem checks_unless [Decidable p] (h : failure.isInternal = false) :
    Checks p (unless p do throw failure : Build PUnit) () := by
  by_cases hp : p
  · rw [if_pos hp]
    exact .passes hp fun _ => rfl
  · rw [if_neg hp]
    exact .refuses hp (refuses_throw h)

/-- A condition, before further checks. -/
theorem Checks.guard [Decidable p] {other : PUnit → Build α} (h : failure.isInternal = false)
    (hc : Checks q c a) : Checks (p ∧ q) (if p then c else throw failure >>= other) a := by
  by_cases hp : p
  · rw [if_pos hp]
    exact hc.congr (by simp [hp])
  · rw [if_neg hp]
    exact .refuses (fun hpq => hp hpq.1) (refuses_throw h).bind

theorem Paired.congr (h : Paired p g b) (hpq : p ↔ q) : Paired q g b := by
  cases h with
  | accepts h hg hb => exact .accepts (hpq.1 h) hg hb
  | refuses h hg hb => exact .refuses (mt hpq.2 h) hg hb

/-- **Two steps with the same check at their start.** -/
theorem Checks.paired (hc : Checks p c a) (hg : p → Follows (c >>= f) m) (hb : p → Passes (k a) m) :
    Paired p (c >>= f) (c >>= k) := by
  cases hc with
  | passes hp hc => exact .accepts hp (hg hp) (hc.bind (hb hp))
  | refuses hp hc => exact .refuses hp hc.bind hc.bind

theorem paired_throw (h : failure.isInternal = false) (hp : ¬ p) :
    Paired p (throw failure : Build α) (throw failure) :=
  .refuses hp (refuses_throw h) (refuses_throw h)

/-- What follows from being paired on definitions that stay distinct. -/
theorem Paired.run (h : Paired p g b) {d : Definitions} (hd : (b.run.run d).2.Distinct) :
    g.run.run d = b.run.run d ∧
      ((p ∧ ∃ y d', b.run.run d = (.ok y, d') ∧ d.entries <+: d'.entries) ∨
        ¬ p ∧ ∃ failure, b.run.run d = (.error failure, d) ∧ failure.isInternal = false) := by
  cases h with
  | accepts hp hg hb =>
    rw [hb d] at hd ⊢
    exact ⟨hg.agrees d hd, .inl ⟨hp, _, _, rfl, hg.grows d⟩⟩
  | refuses hp hg hb => exact ⟨(hg.2 d).trans (hb.2 d).symm, .inr ⟨hp, _, hb.2 d, hb.1⟩⟩

end Rules

/-! ## The checks -/

theorem isInternal_of_validate {s : Shape} {failure : Failure} (h : s.validate = .error failure) :
    failure.isInternal = false := by
  have hdim {n : Nat} {what : String} (h : Shape.checkDimension n what = .error failure) :
      failure.isInternal = false := by
    unfold Shape.checkDimension at h
    split at h
    · cases h
    · cases h
      rfl
  have hfield {k : Scalar} {what : String}
      (h : (unless k.isField do throw (.unsupported s what) : Except Failure PUnit) = .error failure) :
      failure.isInternal = false := by
    split at h
    · cases h
    · cases h
      rfl
  cases s with
  | scalar k => cases h
  | vector n k =>
    cases hn : Shape.checkDimension n "vector length" with
    | error e =>
      rw [Shape.validate, hn] at h
      exact hdim (hn.trans h)
    | ok u =>
      rw [Shape.validate, hn] at h
      exact hfield h
  | matrix r c k =>
    cases hr : Shape.checkDimension r "matrix rows" with
    | error e =>
      rw [Shape.validate, hr] at h
      exact hdim (hr.trans h)
    | ok u =>
      cases hc : Shape.checkDimension c "matrix columns" with
      | error e =>
        rw [Shape.validate, hr, hc] at h
        exact hdim (hc.trans h)
      | ok u =>
        rw [Shape.validate, hr, hc] at h
        exact hfield h

theorem checks_validate (s : Shape) : Checks s.Valid (liftM s.validate : Build Unit) () := by
  cases hv : s.validate with
  | ok u => exact .passes (Shape.validate_eq_ok_iff.1 hv) fun _ => rfl
  | error failure =>
    refine .refuses (fun h => ?_) ⟨isInternal_of_validate hv, fun _ => rfl⟩
    rw [Shape.validate_eq_ok_iff.2 h] at hv
    cases hv

theorem checks_requireField (op : Operation) (s : Shape) :
    Checks (s.Valid ∧ s.kind.isField) (requireField op s) () :=
  (checks_validate s).bind (checks_unless rfl)

theorem checks_operands (s : Shape) (args : List Term) :
    Checks (s.Valid ∧ args.length = s.length?.getD 1) (Strict.checkOperands s args) () :=
  (checks_validate s).bind (checks_unless rfl)

theorem checks_index (s : Shape) (i : Nat) :
    Checks (s.Valid ∧ ∃ n, s.length? = some n ∧ i < n) (Strict.checkIndex s i) () := by
  refine (checks_validate s).bind ?_
  cases s.length? with
  | none => exact .refuses (by simp) (refuses_throw rfl)
  | some n => exact (checks_unless rfl).congr (by simp)

theorem checks_fill (s : Shape) (x : Binary64) :
    Checks (s.kind.isField ∧ s.Valid ∧ x.isFinite) (Strict.checkFill s x) (.shortest .up x) := by
  refine Checks.guard rfl ((checks_validate s).bind ?_)
  unfold literal?
  split
  · rename_i hx
    exact .passes hx fun _ => rfl
  · rename_i hx
    exact .refuses hx ⟨rfl, fun _ => rfl⟩

/-! ## The steps -/

/-- A shape is stored as it is or in a struct. -/
theorem storage_cases (s : Shape) : s.storage = .native s ∨ ∃ ms, s.storage = .record s ms := by
  have hvector (n : Nat) (k : Scalar) :
      Storage.ofVector n k = .native (.vector n k) ∨ ∃ ms, Storage.ofVector n k = .record (.vector n k) ms := by
    unfold Storage.ofVector
    split
    · exact .inl rfl
    · exact .inr ⟨_, rfl⟩
  have hmatrix (r c : Nat) (k : Scalar) : Storage.ofMatrix r c k = .native (.matrix r c k) ∨
      ∃ ms, Storage.ofMatrix r c k = .record (.matrix r c k) ms := by
    unfold Storage.ofMatrix
    split
    · exact .inl rfl
    · exact .inr ⟨_, rfl⟩
  cases s with
  | scalar k => exact .inl rfl
  | vector n k =>
    cases k with
    | complex => exact .inr ⟨_, rfl⟩
    | bool | int | real => exact hvector n _
  | matrix r c k =>
    cases k with
    | complex => exact .inr ⟨_, rfl⟩
    | bool | int | real => exact hmatrix r c _

theorem paired_define (s : Shape) : Paired s.Valid (Strict.define s.storage) (define s) := by
  have hcheck := checks_validate s
  cases hcheck with
  | passes hv hc => exact .accepts hv (follows_define hv) (hc.bind (passes_lift _))
  | refuses hv hc =>
    refine .refuses hv ?_ hc.bind
    rcases storage_cases s with hs | ⟨ms, hs⟩
    · rw [hs, Strict.define]
      exact hc
    · rw [hs, Strict.define]
      exact hc.bind

theorem construct_eq (s : Shape) (args : List Term) :
    construct s args = Strict.checkOperands s args >>= fun _ => liftM (Synth.construct s args) := by
  unfold construct Strict.checkOperands
  rw [bind_assoc]
  refine bind_congr fun _ => ?_
  dsimp only
  split <;> rfl

theorem paired_construct (s : Shape) (args : List Term) :
    Paired (s.Valid ∧ args.length = s.length?.getD 1) (Strict.construct s args) (construct s args) := by
  rw [construct_eq]
  exact (checks_operands s args).paired (fun h => Strict.follows_construct h.1 h.2) fun _ => passes_lift _

theorem element_eq (s : Shape) (i : Nat) :
    element s i = Strict.checkIndex s i >>= fun _ => liftM (Synth.element s i) := by
  unfold element Strict.checkIndex
  rw [bind_assoc]
  refine bind_congr fun _ => ?_
  cases s.length? with
  | none => rfl
  | some n =>
    dsimp only
    split <;> rfl

theorem paired_element (s : Shape) (i : Nat) :
    Paired (s.Valid ∧ ∃ n, s.length? = some n ∧ i < n) (Strict.element s i) (element s i) := by
  rw [element_eq]
  refine (checks_index s i).paired (fun h => ?_) fun _ => passes_lift _
  obtain ⟨hv, n, hn, hi⟩ := h
  exact Strict.follows_element hv hn hi

theorem fill_eq (s : Shape) (x : Binary64) :
    fill s x = Strict.checkFill s x >>= fun value => liftM (s.storage.fill (.literal value)) := by
  unfold fill Strict.checkFill
  split
  · rw [bind_assoc]
  · rfl

theorem paired_fill (s : Shape) (x : Binary64) :
    Paired (s.kind.isField ∧ s.Valid ∧ x.isFinite) (Strict.fill x s.storage) (fill s x) := by
  have hfollows (h : s.kind.isField ∧ s.Valid ∧ x.isFinite) :=
    Strict.follows_fill (if_pos h.2.2) h.2.1 h.1
  rw [fill_eq]
  rcases storage_cases s with hs | ⟨ms, hs⟩
  · rw [hs] at hfollows ⊢
    rw [Strict.fill] at hfollows ⊢
    exact (checks_fill s x).paired hfollows fun _ => passes_lift _
  · rw [hs] at hfollows ⊢
    rw [Strict.fill] at hfollows ⊢
    exact (checks_fill s x).paired hfollows fun _ => passes_lift _

/-! ## The operations -/

theorem paired_entrywise (op : Entrywise) (s : Shape) (a b : Term) :
    Paired (s.Valid ∧ s.kind.isField) (Strict.entrywise op s.storage a b) (entrywise op s a b) := by
  have hfollows (h : s.Valid ∧ s.kind.isField) := Strict.follows_entrywise op h.1 h.2 a b
  unfold entrywise
  rcases storage_cases s with hs | ⟨ms, hs⟩
  · rw [hs] at hfollows ⊢
    rw [Strict.entrywise] at hfollows ⊢
    exact (checks_requireField op.operation s).paired hfollows fun _ => passes_lift _
  · rw [hs] at hfollows ⊢
    rw [Strict.entrywise] at hfollows ⊢
    exact (checks_requireField op.operation s).paired hfollows fun _ => passes_lift _

theorem paired_matVec (s : Shape) (m v : Term) :
    Paired (s.Valid ∧ s.kind = .real ∧ s.depth = 2) (Strict.matVec s m v) (matVec s m v) := by
  cases s with
  | scalar k | vector n k => exact paired_throw rfl fun h => by cases h.2.2
  | matrix r c k =>
    cases k with
    | bool | int | complex => exact paired_throw rfl fun h => by cases h.2.1
    | real =>
      refine Paired.congr ((checks_validate _).paired ?_ fun _ => passes_lift _) (p := (Shape.matrix r c .real).Valid)
        ⟨fun h => ⟨h, rfl, rfl⟩, And.left⟩
      exact fun h => Strict.follows_matVec h m v

theorem paired_dot (s : Shape) (a b : Term) :
    Paired (s.Valid ∧ s.kind = .real ∧ s.depth = 1) (Strict.dot s a b) (dot s a b) := by
  cases s with
  | scalar k | matrix r c k => exact paired_throw rfl fun h => by cases h.2.2
  | vector n k =>
    cases k with
    | bool | int | complex => exact paired_throw rfl fun h => by cases h.2.1
    | real =>
      refine Paired.congr ((checks_validate _).paired ?_ fun _ => passes_lift _) (p := (Shape.realVector n).Valid)
        ⟨fun h => ⟨h, rfl, rfl⟩, And.left⟩
      exact fun h => Strict.follows_dot h a b

theorem paired_sum (s : Shape) (a : Term) :
    Paired (s.Valid ∧ s.kind.isField ∧ 1 ≤ s.depth) (Strict.sum s a) (sum s a) := by
  have helements {e : Shape} {n : Nat} (he : s.element? = some e) (hn : s.length? = some n) :
      Paired (s.Valid ∧ s.kind.isField) (Strict.sum s a) (sum s a) := by
    refine (checks_requireField .sum s).paired (m := Synth.sum s e n a)
      (fun h => Strict.follows_sum h.1 he hn a) fun _ => ?_
    simp only [he, hn]
    exact passes_lift _
  cases s with
  | scalar k =>
    have hdepth : ¬ ((Shape.scalar k).Valid ∧ (Shape.scalar k).kind.isField ∧ 1 ≤ (Shape.scalar k).depth) :=
      fun h => by cases h.2.2
    cases checks_requireField .sum (.scalar k) with
    | passes h hc => exact .refuses hdepth (hc.refuses (refuses_throw rfl)) (hc.refuses (refuses_throw rfl))
    | refuses h hc => exact .refuses hdepth hc.bind hc.bind
  | vector n k => exact (helements rfl rfl).congr (by simp [Shape.depth])
  | matrix r c k => exact (helements rfl rfl).congr (by simp [Shape.depth])

theorem paired_complexMul (s : Shape) (a b : Term) :
    Paired (s = .complex) (Strict.apply .complexMul s [a, b]) (apply .complexMul s [a, b]) := by
  by_cases hs : s = .complex
  · exact .accepts hs (Follows.guard hs (Strict.follows_complexMul a b)) (Passes.guard hs (passes_lift _))
  · have hg : Refuses (Strict.apply .complexMul s [a, b]) (.unsupported s Operation.complexMul.name) := by
      simp only [Strict.apply, if_neg hs]
      exact (refuses_throw rfl).bind
    have hb : Refuses (apply .complexMul s [a, b]) (.unsupported s Operation.complexMul.name) := by
      simp only [apply, if_neg hs]
      exact (refuses_throw rfl).bind
    exact .refuses hs hg hb

theorem paired_complexScale (s : Shape) (a b : Term) :
    Paired (s.Valid ∧ s.kind = .complex) (Strict.complexScale s a b) (complexScale s a b) := by
  cases checks_validate s with
  | refuses hv hc => exact .refuses (fun h => hv h.1) hc.bind hc.bind
  | passes hv hc =>
    by_cases hk : s.kind = .complex
    · by_cases hs : s = .complex
      · subst hs
        exact .accepts ⟨hv, hk⟩ (Follows.check rfl (Strict.follows_complexMul a b)) (hc.bind (passes_lift _))
      · refine .accepts ⟨hv, hk⟩ (Strict.follows_complexScale hv hk hs a b) (hc.bind (Passes.guard hk ?_))
        rw [if_neg hs]
        exact passes_lift _
    · have hg : Refuses (Strict.complexScale s a b) (.unsupported s Operation.complexScale.name) := by
        refine hc.refuses ?_
        rw [if_neg hk]
        exact (refuses_throw rfl).bind
      have hb : Refuses (complexScale s a b) (.unsupported s Operation.complexScale.name) := by
        refine hc.refuses ?_
        rw [if_neg hk]
        exact (refuses_throw rfl).bind
      exact .refuses (fun h => hk h.2) hg hb

theorem paired_complexMatVec (s : Shape) (m v : Term) : Paired (s.Valid ∧ s.kind = .complex ∧ s.depth = 2)
    (Strict.complexMatVec s m v) (complexMatVec s m v) := by
  cases s with
  | scalar k | vector n k => exact paired_throw rfl fun h => by cases h.2.2
  | matrix r c k =>
    cases k with
    | bool | int | real => exact paired_throw rfl fun h => by cases h.2.1
    | complex =>
      refine Paired.congr ((checks_validate _).paired ?_ fun _ => passes_lift _)
        (p := (Shape.matrix r c .complex).Valid) ⟨fun h => ⟨h, rfl, rfl⟩, And.left⟩
      exact fun h => Strict.follows_complexMatVec h m v

theorem paired_complexDot (s : Shape) (a b : Term) : Paired (s.Valid ∧ s.kind = .complex ∧ s.depth = 1)
    (Strict.complexDot s a b) (complexDot s a b) := by
  cases s with
  | scalar k | matrix r c k => exact paired_throw rfl fun h => by cases h.2.2
  | vector n k =>
    cases k with
    | bool | int | real => exact paired_throw rfl fun h => by cases h.2.1
    | complex =>
      refine Paired.congr ((checks_validate _).paired ?_ fun _ => passes_lift _)
        (p := (Shape.vector n .complex).Valid) ⟨fun h => ⟨h, rfl, rfl⟩, And.left⟩
      exact fun h => Strict.follows_complexDot h a b

end Build

/-- The shapes on which an operation is defined, among the valid ones. -/
def Operation.ActsOn (op : Operation) (s : Shape) : Prop :=
  match op with
  | add | sub | scale => s.kind.isField
  | matVec => s.kind = .real ∧ s.depth = 2
  | dot => s.kind = .real ∧ s.depth = 1
  | sum => s.kind.isField ∧ 1 ≤ s.depth
  | complexMul => s = .complex
  | complexScale => s.kind = .complex
  | complexMatVec => s.kind = .complex ∧ s.depth = 2
  | complexDot => s.kind = .complex ∧ s.depth = 1

namespace Build

theorem paired_apply (op : Operation) (s : Shape) (args : List Term) :
    Paired (args.length = op.arity ∧ s.Valid ∧ op.ActsOn s) (Strict.apply op s args) (apply op s args) := by
  by_cases harity : args.length = op.arity
  · have hpair (h2 : op.arity = 2) : ∃ a b, args = [a, b] := List.length_eq_two.1 (harity.trans h2)
    have hwith {p : Prop} : p ↔ args.length = op.arity ∧ p := by simp [harity]
    cases op with
    | add =>
      obtain ⟨a, b, rfl⟩ := hpair rfl
      exact (paired_entrywise .add s a b).congr hwith
    | sub =>
      obtain ⟨a, b, rfl⟩ := hpair rfl
      exact (paired_entrywise .sub s a b).congr hwith
    | scale =>
      obtain ⟨a, b, rfl⟩ := hpair rfl
      exact (paired_entrywise .scale s a b).congr hwith
    | matVec =>
      obtain ⟨a, b, rfl⟩ := hpair rfl
      exact (paired_matVec s a b).congr hwith
    | dot =>
      obtain ⟨a, b, rfl⟩ := hpair rfl
      exact (paired_dot s a b).congr hwith
    | sum =>
      obtain ⟨a, rfl⟩ := List.length_eq_one_iff.1 harity
      exact (paired_sum s a).congr hwith
    | complexMul =>
      obtain ⟨a, b, rfl⟩ := hpair rfl
      refine (paired_complexMul s a b).congr ⟨fun h => ⟨rfl, ?_, h⟩, fun h => h.2.2⟩
      rw [h]
      trivial
    | complexScale =>
      obtain ⟨a, b, rfl⟩ := hpair rfl
      exact (paired_complexScale s a b).congr hwith
    | complexMatVec =>
      obtain ⟨a, b, rfl⟩ := hpair rfl
      exact (paired_complexMatVec s a b).congr hwith
    | complexDot =>
      obtain ⟨a, b, rfl⟩ := hpair rfl
      exact (paired_complexDot s a b).congr hwith
  · have hthrow : apply op s args = throw (.arity s op.arity args.length) := by
      unfold apply
      split
      all_goals first | rfl | exact absurd rfl harity
    have hstrict : Strict.apply op s args = throw (.arity s op.arity args.length) := by
      unfold Strict.apply
      split
      all_goals first | rfl | exact absurd rfl harity
    rw [hthrow, hstrict]
    exact paired_throw rfl fun h => harity h.1

/-! ## Histories of calls -/

namespace Call

/-- What a call is for: a definition only, a term, or access to an element. -/
def Yield : Call → Type
  | define _ => Unit
  | element _ _ => Term → Term
  | construct _ _ | fill _ _ | apply _ _ _ => Term

/-- The step of a call. -/
def step : (call : Call) → Build call.Yield
  | define s => Build.define s
  | construct s args => Build.construct s args
  | element s i => Build.element s i
  | fill s x => Build.fill s x
  | apply op s args => Build.apply op s args

/-- The step of a call with every check. -/
def strict : (call : Call) → Build call.Yield
  | define s => Strict.define s.storage
  | construct s args => Strict.construct s args
  | element s i => Strict.element s i
  | fill s x => Strict.fill x s.storage
  | apply op s args => Strict.apply op s args

/-- **The calls that are accepted.** -/
def Accepts : Call → Prop
  | define s => s.Valid
  | construct s args => s.Valid ∧ args.length = s.length?.getD 1
  | element s i => s.Valid ∧ ∃ n, s.length? = some n ∧ i < n
  | fill s x => s.kind.isField ∧ s.Valid ∧ x.isFinite
  | apply op s args => args.length = op.arity ∧ s.Valid ∧ op.ActsOn s

theorem perform_eq (d : Definitions) (call : Call) : call.perform d = (call.step.run.run d).2 := by
  cases call <;> rfl

theorem paired (call : Call) : Paired call.Accepts call.strict call.step := by
  cases call with
  | define s => exact paired_define s
  | construct s args => exact paired_construct s args
  | element s i => exact paired_element s i
  | fill s x => exact paired_fill s x
  | apply op s args => exact paired_apply op s args

end Call
end Build

/-- The definitions after calls with every check. -/
def Definitions.afterStrict (calls : List Build.Call) : Definitions :=
  calls.foldl (fun d call => (call.strict.run.run d).2) .empty

/-- After all calls, one more call does the same with every check as without. -/
theorem Build.Call.run_after (calls : List Build.Call) (call : Build.Call) :
    call.strict.run.run (.after calls) = call.step.run.run (.after calls) ∧
      ((call.Accepts ∧ ∃ y d, call.step.run.run (.after calls) = (.ok y, d) ∧
          (Definitions.after calls).entries <+: d.entries) ∨
        ¬ call.Accepts ∧ ∃ failure, call.step.run.run (.after calls) = (.error failure, .after calls) ∧
          failure.isInternal = false) := by
  obtain ⟨c, hc⟩ := Definitions.exists_catalog (calls ++ [call])
  refine call.paired.run ?_
  rw [← call.perform_eq, ← Definitions.after_concat, hc]
  exact c.distinct

theorem Definitions.afterStrict_eq (calls : List Build.Call) : afterStrict calls = after calls := by
  induction calls using List.reverseRecOn with
  | nil => rfl
  | append_singleton calls call ih =>
    have hlast : afterStrict (calls ++ [call]) = (call.strict.run.run (afterStrict calls)).2 :=
      List.foldl_append
    rw [hlast, after_concat, ih, call.perform_eq, (call.run_after calls).1]

/-- **Calls do all or nothing.**  With every check in place, and after any calls, failed ones
included: a call succeeds exactly if it is accepted; if it fails, the definitions are as they were and the reason is in
the operands; if it succeeds, definitions are only added at the end.  The steps that check their
operands once give the same outcomes and the same definitions. -/
theorem Build.Call.all_or_nothing (calls : List Build.Call) (call : Build.Call) :
    Definitions.afterStrict calls = .after calls ∧
      call.strict.run.run (.after calls) = call.step.run.run (.after calls) ∧
      ((∃ y d, call.strict.run.run (.after calls) = (.ok y, d)) ↔ call.Accepts) ∧
      (∀ failure d, call.strict.run.run (.after calls) = (.error failure, d) →
        d = .after calls ∧ failure.isInternal = false) ∧
      ∀ y d, call.strict.run.run (.after calls) = (.ok y, d) →
        (Definitions.after calls).entries <+: d.entries := by
  obtain ⟨hsame, houtcome⟩ := call.run_after calls
  refine ⟨Definitions.afterStrict_eq calls, hsame, ?_⟩
  rw [hsame]
  rcases houtcome with ⟨haccept, y, d, hrun, hgrows⟩ | ⟨hrefuse, failure, hrun, hreason⟩
  · rw [hrun]
    refine ⟨⟨fun _ => haccept, fun _ => ⟨y, d, rfl⟩⟩, ?_, ?_⟩
    · intro failure d' h
      cases h
    · intro y' d' h
      cases h
      exact hgrows
  · rw [hrun]
    refine ⟨⟨?_, fun h => absurd h hrefuse⟩, ?_, ?_⟩
    · rintro ⟨y, d, h⟩
      cases h
    · intro failure' d' h
      cases h
      exact ⟨rfl, hreason⟩
    · intro y d h
      cases h

end ShaderAlgebra
