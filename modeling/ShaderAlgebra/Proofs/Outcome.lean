import ShaderAlgebra.Proofs.Emission

/-!
# Outcomes of checked steps

A step of `Build` checks its operands and then synthesizes.  `Build.Settles b result
items` says that on every catalog it ends in the same `result` and enters the same
`items`.  For each step the shapes on which it succeeds are stated, with its term
and its items; on all other shapes it fails and enters nothing (`Build.Fails`).
-/

namespace ShaderAlgebra

open Glsl (Term Declaration)
open Synth (Emits)

namespace Build

variable {α β : Type} {b : Build α} {a : α} {xs ys : List Item}

/-- On every catalog, the step ends in `result` and enters `items`. -/
def Settles (b : Build α) (result : Except Failure α) (items : List Item) : Prop :=
  ∀ c : Catalog, ∃ c' : Catalog,
    b.run.run c.definitions = (result, c'.definitions) ∧ c'.items = enterAll c.items items

/-- The step fails on every catalog, in one way, and enters nothing. -/
def Fails (b : Build α) : Prop :=
  ∃ failure, Settles b (.error failure) []

theorem settles_lift (x : Except Failure α) : Settles (liftM x) x [] := fun c =>
  ⟨c, rfl, rfl⟩

theorem settles_throw (failure : Failure) : Settles (throw failure : Build α) (.error failure) [] :=
  fun c => ⟨c, rfl, rfl⟩

/-- A synthesis step settles on its yield. -/
theorem settles_synth {m : Synth α} (h : Emits [] m xs a) : Settles (liftM m) (.ok a) xs := by
  intro c
  obtain ⟨c', hr, he⟩ := h c (List.nil_subset _)
  refine ⟨c', ?_, he⟩
  change (StateT.run (Except.ok <$> m) c.definitions) = _
  rw [StateT.run_map, hr]
  rfl

theorem Settles.bind {f : α → Build β} {result : Except Failure β} (hb : Settles b (.ok a) xs)
    (hf : Settles (f a) result ys) : Settles (b >>= f) result (xs ++ ys) := by
  intro c
  obtain ⟨c₁, h₁, e₁⟩ := hb c
  obtain ⟨c₂, h₂, e₂⟩ := hf c₁
  refine ⟨c₂, ?_, by rw [e₂, e₁, enterAll_append]⟩
  rw [ExceptT.run_bind, StateT.run_bind, h₁]
  exact h₂

theorem Settles.bind_error {f : α → Build β} {failure : Failure} (hb : Settles b (.error failure) xs) :
    Settles (b >>= f) (.error failure) xs := by
  intro c
  obtain ⟨c₁, h₁, e₁⟩ := hb c
  refine ⟨c₁, ?_, e₁⟩
  rw [ExceptT.run_bind, StateT.run_bind, h₁]
  rfl

theorem Fails.bind {f : α → Build β} (hb : Fails b) : Fails (b >>= f) := by
  obtain ⟨failure, h⟩ := hb
  exact ⟨failure, h.bind_error⟩

/-- A failure after a step that enters nothing. -/
theorem Settles.bind_fails {f : α → Build β} (hb : Settles b (.ok a) []) (hf : Fails (f a)) :
    Fails (b >>= f) := by
  obtain ⟨failure, h⟩ := hf
  exact ⟨failure, hb.bind h⟩

/-- Steps one after the other. -/
theorem settles_mapM {γ : Type} {f : γ → Build α} {g : γ → α} {l : List γ}
    (h : ∀ k ∈ l, Settles (f k) (.ok (g k)) xs) :
    Settles (l.mapM f) (.ok (l.map g)) (l.flatMap fun _ => xs) := by
  induction l with
  | nil => exact settles_lift (.ok [])
  | cons k l ih =>
    rw [List.mapM_cons]
    have hrest := (ih fun j hj => h j (List.mem_cons_of_mem _ hj)).bind
      (f := fun others => pure (g k :: others)) (settles_lift (.ok (g k :: l.map g)))
    rw [List.append_nil] at hrest
    exact (h k List.mem_cons_self).bind hrest

/-! ## The checks -/

theorem settles_validate {s : Shape} (h : s.Valid) :
    Settles (liftM s.validate : Build Unit) (.ok ()) [] := by
  rw [Shape.validate_eq_ok_iff.2 h]
  exact settles_lift _

theorem fails_validate {s : Shape} (h : ¬ s.Valid) : Fails (liftM s.validate : Build Unit) := by
  cases hv : s.validate with
  | ok u => exact absurd (Shape.validate_eq_ok_iff.1 hv) h
  | error failure => exact ⟨failure, settles_lift _⟩

theorem settles_unless {p : Prop} [Decidable p] (h : p) (failure : Failure) :
    Settles (unless p do throw failure : Build PUnit) (.ok ()) [] := by
  rw [if_pos h]
  exact settles_lift (.ok ())

theorem fails_unless {p : Prop} [Decidable p] (h : ¬ p) (failure : Failure) :
    Fails (unless p do throw failure : Build PUnit) := by
  rw [if_neg h]
  exact ⟨failure, settles_throw failure⟩

/-- A check that is passed, before further steps. -/
theorem Settles.guard {p : Prop} [Decidable p] {other : Build α} {result : Except Failure α} (h : p)
    (hb : Settles b result xs) : Settles (if p then b else other) result xs := by
  rwa [if_pos h]

/-- A check that is not passed, before further steps. -/
theorem fails_guard {p : Prop} [Decidable p] (h : ¬ p) (failure : Failure) (next : Build α)
    (other : PUnit → Build α) : Fails (if p then next else throw failure >>= other) := by
  rw [if_neg h]
  exact Fails.bind ⟨failure, settles_throw failure⟩

theorem settles_requireField (op : Operation) {s : Shape} (h : s.Valid) (hk : s.kind.isField) :
    Settles (requireField op s) (.ok ()) [] :=
  (settles_validate h).bind (settles_unless hk _)

theorem fails_requireField (op : Operation) {s : Shape} (h : ¬ (s.Valid ∧ s.kind.isField)) :
    Fails (requireField op s) := by
  by_cases hv : s.Valid
  · exact (settles_validate hv).bind_fails (fails_unless (fun hk => h ⟨hv, hk⟩) _)
  · exact (fails_validate hv).bind

/-! ## The steps -/

theorem settles_define {s : Shape} (h : s.Valid) : Settles (define s) (.ok ()) s.structs :=
  (settles_validate h).bind (settles_synth (emits_define h []))

theorem fails_define {s : Shape} (h : ¬ s.Valid) : Fails (define s) :=
  (fails_validate h).bind

theorem settles_construct {s : Shape} {args : List Term} (h : s.Valid)
    (hn : args.length = s.length?.getD 1) :
    Settles (construct s args) (.ok (Synth.constructTerm s args)) s.structs :=
  (settles_validate h).bind (Settles.guard hn (settles_synth (emits_construct h args [])))

theorem fails_construct {s : Shape} {args : List Term}
    (h : ¬ (s.Valid ∧ args.length = s.length?.getD 1)) : Fails (construct s args) := by
  by_cases hv : s.Valid
  · exact (settles_validate hv).bind_fails (fails_guard (fun hn => h ⟨hv, hn⟩) _ _ _)
  · exact (fails_validate hv).bind

theorem settles_element {s e : Shape} {n i : Nat} (h : s.Valid) (he : s.element? = some e)
    (hn : s.length? = some n) (hi : i < n) :
    Settles (element s i) (.ok (Synth.elementTerm s i)) (Synth.elementItems s) := by
  refine (settles_validate h).bind ?_
  simp only [hn]
  exact Settles.guard hi (settles_synth (emits_element h he i []))

theorem fails_element {s : Shape} {i : Nat} (h : ¬ (s.Valid ∧ ∃ n, s.length? = some n ∧ i < n)) :
    Fails (element s i) := by
  by_cases hv : s.Valid
  · refine (settles_validate hv).bind_fails ?_
    cases hn : s.length? with
    | none => exact ⟨_, settles_throw _⟩
    | some n => exact fails_guard (fun hi => h ⟨hv, n, hn, hi⟩) _ _ _
  · exact (fails_validate hv).bind

theorem settles_fill {s : Shape} {x : Binary64} {d : Decimal} (h : s.Valid) (hk : s.kind.isField)
    (hx : literal? x = .ok d) : Settles (fill s x) (.ok (s.filled (.literal d))) s.structs := by
  have hlit : Settles (liftM (literal? x) : Build Decimal) (.ok d) [] := hx ▸ settles_lift _
  exact Settles.guard hk
    ((settles_validate h).bind (hlit.bind (settles_synth (emits_fill _ h []))))

theorem fails_fill {s : Shape} {x : Binary64} (h : ¬ (s.Valid ∧ s.kind.isField ∧ x.isFinite)) :
    Fails (fill s x) := by
  by_cases hk : s.kind.isField
  · unfold fill
    rw [if_pos hk]
    by_cases hv : s.Valid
    · refine (settles_validate hv).bind_fails ?_
      have hx : literal? x = .error (.literal x) := if_neg fun hx => h ⟨hv, hk, hx⟩
      have hlit : Settles (liftM (literal? x) : Build Decimal) (.error (.literal x)) [] :=
        hx ▸ settles_lift _
      exact Fails.bind ⟨_, hlit⟩
    · exact (fails_validate hv).bind
  · exact fails_guard hk _ _ _

theorem settles_entrywise (op : Entrywise) {s : Shape} (h : s.Valid) (hk : s.kind.isField)
    (a b : Term) : Settles (entrywise op s a b) (.ok (s.combined op a b)) (s.helpers op) :=
  (settles_requireField _ h hk).bind (settles_synth (emits_entrywise op h [] a b))

theorem fails_entrywise (op : Entrywise) {s : Shape} (h : ¬ (s.Valid ∧ s.kind.isField))
    (a b : Term) : Fails (entrywise op s a b) :=
  (fails_requireField _ h).bind

theorem settles_matVec {r c : Nat} (h : (Shape.matrix r c .real).Valid) (m v : Term) :
    Settles (matVec (.matrix r c .real) m v) (.ok (Synth.matVecTerm r c m v))
      (Synth.matVecItems r c) :=
  (settles_validate h).bind (settles_synth (emits_matVec h.1 h.2.1 m v []))

theorem fails_matVec {s : Shape} (h : ¬ (s.Valid ∧ s.kind = .real ∧ s.depth = 2)) (m v : Term) :
    Fails (matVec s m v) := by
  unfold matVec
  split
  · rename_i r c
    exact (fails_validate fun hv => h ⟨hv, rfl, rfl⟩).bind
  · exact ⟨_, settles_throw _⟩

theorem settles_dot {n : Nat} (h : (Shape.realVector n).Valid) (a b : Term) :
    Settles (dot (.realVector n) a b) (.ok (Synth.dotTerm n a b)) (Synth.dotItems n) :=
  (settles_validate h).bind (settles_synth (emits_dot h.1 a b []))

theorem fails_dot {s : Shape} (h : ¬ (s.Valid ∧ s.kind = .real ∧ s.depth = 1)) (a b : Term) :
    Fails (dot s a b) := by
  unfold dot
  split
  · exact (fails_validate fun hv => h ⟨hv, rfl, rfl⟩).bind
  · exact ⟨_, settles_throw _⟩

theorem settles_sum {s e : Shape} (h : s.Valid) (hk : s.kind.isField) (he : s.element? = some e)
    (a : Term) : Settles (sum s a) (.ok (sumTerm s a)) (sumItems s) := by
  obtain ⟨n, hn⟩ : ∃ n, s.length? = some n := by
    cases s with
    | scalar k => cases he
    | vector n k => exact ⟨n, rfl⟩
    | matrix r c k => exact ⟨r, rfl⟩
  refine (settles_requireField _ h hk).bind ?_
  simp only [he, hn]
  exact settles_synth (emits_sum h he hn a [])

theorem fails_sum {s : Shape} (h : ¬ (s.Valid ∧ s.kind.isField ∧ 1 ≤ s.depth)) (a : Term) :
    Fails (sum s a) := by
  by_cases hv : s.Valid ∧ s.kind.isField
  · refine (settles_requireField _ hv.1 hv.2).bind_fails ?_
    cases s with
    | scalar k => exact ⟨_, settles_throw _⟩
    | vector n k | matrix r c k => exact absurd ⟨hv.1, hv.2, by simp [Shape.depth]⟩ h
  · exact (fails_requireField _ hv).bind

theorem settles_complexMul (a b : Term) : Settles (complexMul a b)
    (.ok (.apply (Operation.complexMul.helperName .complex) [a, b]))
    [.helper .complexMul .complex] :=
  settles_synth (emits_complexMul a b [])

theorem settles_complexScale {s : Shape} (h : Operation.complexScale.HasHelper s) (a b : Term) :
    Settles (complexScale s a b) (.ok (.apply (Operation.complexScale.helperName s) [a, b]))
      ((Item.helper .complexScale s).needs ++ [Item.helper .complexScale s]) := by
  have hne : s ≠ .complex := by
    rintro rfl
    cases h.1.2
  refine (settles_validate h.1.1).bind (Settles.guard h.2 ?_)
  rw [if_neg hne]
  exact settles_synth (emits_complexScale h a b [])

theorem fails_complexScale {s : Shape} (h : ¬ (s.Valid ∧ s.kind = .complex)) (a b : Term) :
    Fails (complexScale s a b) := by
  by_cases hv : s.Valid
  · exact (settles_validate hv).bind_fails (fails_guard (fun hk => h ⟨hv, hk⟩) _ _ _)
  · exact (fails_validate hv).bind

theorem settles_complexMatVec {r c : Nat} (h : (Shape.matrix r c .complex).Valid) (m v : Term) :
    Settles (complexMatVec (.matrix r c .complex) m v)
      (.ok (.apply (Operation.complexMatVec.helperName (.matrix r c .complex)) [m, v]))
      ((Item.helper .complexMatVec (.matrix r c .complex)).needs ++
        [Item.helper .complexMatVec (.matrix r c .complex)]) :=
  (settles_validate h).bind (settles_synth (emits_complexMatVec h.1 h.2.1 m v []))

theorem fails_complexMatVec {s : Shape} (h : ¬ (s.Valid ∧ s.kind = .complex ∧ s.depth = 2))
    (m v : Term) : Fails (complexMatVec s m v) := by
  unfold complexMatVec
  split
  · exact (fails_validate fun hv => h ⟨hv, rfl, rfl⟩).bind
  · exact ⟨_, settles_throw _⟩

theorem settles_complexDot {n : Nat} (h : (Shape.vector n .complex).Valid) (a b : Term) :
    Settles (complexDot (.vector n .complex) a b)
      (.ok (.apply (Operation.complexDot.helperName (.vector n .complex)) [a, b]))
      ((Item.helper .complexDot (.vector n .complex)).needs ++
        [Item.helper .complexDot (.vector n .complex)]) :=
  (settles_validate h).bind (settles_synth (emits_complexDot h.1 a b []))

theorem fails_complexDot {s : Shape} (h : ¬ (s.Valid ∧ s.kind = .complex ∧ s.depth = 1))
    (a b : Term) : Fails (complexDot s a b) := by
  unfold complexDot
  split
  · exact (fails_validate fun hv => h ⟨hv, rfl, rfl⟩).bind
  · exact ⟨_, settles_throw _⟩

end Build
end ShaderAlgebra
