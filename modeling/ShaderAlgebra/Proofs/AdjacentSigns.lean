import ShaderAlgebra.Proofs.NameClashes
import ShaderAlgebra.Proofs.Effects
import ShaderAlgebra.Proofs.ShortestDecimals
import ShaderAlgebra.Proofs.SignPairs

/-!
# Adjacent signs in generated shaders

No definition and no texture reader has two signs in a row, and no expression has two plus signs in
a row.  Two minus signs in a row are written in one place only: where a negative number is
taken from a real number (`Session.adjacent_signs_iff`).
-/

namespace ShaderAlgebra

open Glsl (Term IsWord Declaration)
open Glsl.Term hiding name
open Compile (promote promoteAll)
open Decimal (negative_shortest)

variable {c : Char}

/-! ## Synthesized terms -/

theorem hasPair_nativeVector {args : List Term} (hc : c ∈ signs) :
    HasPair c (Synth.nativeVector args).chars ↔ ∃ t ∈ args, HasPair c t.chars :=
  hasPair_call (Shape.isWord_name _) hc

/-- An operation on every entry.  On a native shape the operands are written beside its operator. -/
theorem hasPair_combined (w : Entrywise) (s : Shape) {a b : Term} (ha : a.Readable) (haa : a.isAtom)
    (hb : b.Readable) (hba : b.isAtom) (hc : c ∈ signs) :
    HasPair c (s.combined w a b).chars ↔ HasPair c a.chars ∨ HasPair c b.chars ∨
      c = '-' ∧ w = .sub ∧ s.isNative ∧ b.isNegative := by
  have hop : w.operator = .minus ↔ w = .sub := by cases w <;> decide
  rw [Shape.combined]
  split
  · rename_i hn
    rw [hasPair_grouped (by cases w <;> rfl) ha haa hb hba hc, hop]
    simp [hn]
  · rename_i hn
    rw [hasPair_call (Operation.isWord_helperName _ _) hc]
    simp [hn]

/-- The pieces of a list that is long enough have all of its items. -/
theorem exists_mem_pieces {α : Type} {p : α → Prop} {ws : List Nat} {xs : List α}
    (h : xs.length ≤ ws.sum) :
    (∃ piece ∈ Synth.pieces ws xs, ∃ x ∈ piece, p x) ↔ ∃ x ∈ xs, p x := by
  induction ws generalizing xs with
  | nil =>
    obtain rfl : xs = [] := List.length_eq_zero_iff.1 (Nat.le_zero.1 h)
    simp [Synth.pieces]
  | cons w ws ih =>
    rw [List.sum_cons] at h
    rw [Synth.pieces, List.exists_mem_cons_iff, ih (by rw [List.length_drop]; omega)]
    conv => rhs; rw [← List.take_append_drop w xs]
    simp only [List.mem_append, or_and_right, exists_or]

theorem hasPair_realVectorTerm {n : Nat} {args : List Term} (hn : args.length = n) (hc : c ∈ signs) :
    HasPair c (Synth.realVectorTerm n args).chars ↔ ∃ t ∈ args, HasPair c t.chars := by
  have hlen : args.length ≤ (chunks n).sum := Nat.le_of_eq (hn.trans (sum_chunks n).symm)
  rw [Synth.realVectorTerm]
  split
  · exact hasPair_nativeVector hc
  · rw [hasPair_call (Shape.isWord_name _) hc, ← exists_mem_pieces hlen]
    simp [hasPair_nativeVector hc]

theorem hasPair_realMatrixTerm {r n : Nat} {rows : List Term} (hr : 1 ≤ r) (hc : c ∈ signs) :
    HasPair c (Synth.realMatrixTerm r n rows).chars ↔ ∃ t ∈ rows, HasPair c t.chars := by
  rw [Synth.realMatrixTerm]
  split
  · rw [hasPair_call (Shape.isWord_name _) hc]
    simp only [List.mem_map, List.mem_range, exists_exists_and_eq_and, hasPair_nativeVector hc,
      hasPair_index hc, hasPair_group hc]
    constructor
    · rintro ⟨_, _, h⟩
      exact h
    · exact fun h => ⟨0, hr, h⟩
  · exact hasPair_call (Shape.isWord_name _) hc

theorem hasPair_parts {args : List Term} {field : String} (hf : IsWord field) (hc : c ∈ signs) :
    (∃ t ∈ args.map (Term.part · field), HasPair c t.chars) ↔ ∃ t ∈ args, HasPair c t.chars := by
  simp [hasPair_part hf hc]

/-- A value has the pairs of its elements. -/
theorem hasPair_constructTerm {s : Shape} {args : List Term} (hv : s.Valid)
    (hn : s.length? = some args.length) (hc : c ∈ signs) :
    HasPair c (Synth.constructTerm s args).chars ↔ ∃ t ∈ args, HasPair c t.chars := by
  have hx : IsWord "x" := by decide
  have hy : IsWord "y" := by decide
  have hre : IsWord "real" := by decide
  have him : IsWord "imag" := by decide
  have hvector : ∀ field : String, IsWord field →
      (HasPair c (Synth.realVectorTerm args.length (args.map (Term.part · field))).chars ↔
        ∃ t ∈ args, HasPair c t.chars) := by
    intro field hf
    rw [hasPair_realVectorTerm (List.length_map _) hc, hasPair_parts hf hc]
  cases s with
  | scalar k => cases hn
  | vector n k =>
    obtain rfl : n = args.length := Option.some.inj hn
    cases k with
    | bool | int | real => exact hasPair_realVectorTerm rfl hc
    | complex =>
      rw [Synth.constructTerm, hasPair_call (Shape.isWord_name _) hc]
      simp [hvector "x" hx, hvector "y" hy]
  | matrix r n k =>
    cases k with
    | bool | int | real => exact hasPair_realMatrixTerm hv.1.1 hc
    | complex =>
      rw [Synth.constructTerm, hasPair_call (Shape.isWord_name _) hc]
      simp [hasPair_realMatrixTerm hv.1.1 hc, hasPair_part hre hc, hasPair_part him hc]

theorem hasPair_realElement {s : Shape} (hv : s.Valid) {i : Nat} {base : Term} (hc : c ∈ signs) :
    HasPair c (Synth.realElement s i base).chars ↔ HasPair c base.chars := by
  have hrow : ∀ k : Nat, IsWord s!"a{k}" := isWord_numbered (by decide)
  cases s with
  | scalar k => exact Iff.rfl
  | vector n k =>
    rw [Synth.realElement]
    split
    · exact hasPair_group hc
    · split
      · rw [hasPair_index hc, hasPair_group hc]
      · rw [hasPair_index hc, hasPair_part (hrow _) hc]
  | matrix r n k =>
    rw [Synth.realElement]
    split
    · rw [hasPair_nativeVector hc]
      simp only [List.mem_map, List.mem_range, exists_exists_and_eq_and, hasPair_index hc, hasPair_group hc]
      constructor
      · rintro ⟨_, _, h⟩
        exact h
      · exact fun h => ⟨0, hv.1.1, h⟩
    · exact hasPair_part (hrow i) hc

/-- An element has the pairs of the value that it is taken from. -/
theorem hasPair_elementTerm {s : Shape} (hv : s.Valid) {i : Nat} {base : Term} (hc : c ∈ signs) :
    HasPair c (Synth.elementTerm s i base).chars ↔ HasPair c base.chars := by
  have hre : IsWord "real" := by decide
  have him : IsWord "imag" := by decide
  rw [Synth.elementTerm]
  split
  · rename_i e hk he
    have hpart : s.part.Valid := by
      cases s with
      | scalar k => cases he
      | vector n k =>
        obtain rfl : k = .complex := hk
        exact ⟨hv.1, rfl⟩
      | matrix r n k =>
        obtain rfl : k = .complex := hk
        exact ⟨hv.1, hv.2.1, rfl⟩
    rw [hasPair_call (Shape.isWord_name _) hc]
    simp [hasPair_realElement hpart hc, hasPair_part hre hc, hasPair_part him hc]
  · exact hasPair_realElement hv hc

theorem hasPair_dotTerm {n : Nat} {a b : Term} (hc : c ∈ signs) :
    HasPair c (Synth.dotTerm n a b).chars ↔ HasPair c a.chars ∨ HasPair c b.chars := by
  have hf : IsWord (if n ≤ maxNativeWidth then "dot" else Operation.dot.helperName (.realVector n)) := by
    split
    · decide
    · exact Operation.isWord_helperName _ _
  rw [Synth.dotTerm, hasPair_call hf hc]
  simp

theorem hasPair_times {a b : Term} (ha : a.Readable) (haa : a.isAtom) (hb : b.Readable)
    (hba : b.isAtom) (hc : c ∈ signs) :
    HasPair c (grouped .times a b).chars ↔ HasPair c a.chars ∨ HasPair c b.chars := by
  rw [hasPair_grouped rfl ha haa hb hba hc]
  simp

theorem hasPair_matVecTerm {r n : Nat} {a b : Term} (ha : a.Readable) (haa : a.isAtom)
    (hb : b.Readable) (hba : b.isAtom) (hc : c ∈ signs) :
    HasPair c (Synth.matVecTerm r n a b).chars ↔ HasPair c a.chars ∨ HasPair c b.chars := by
  rw [Synth.matVecTerm]
  split
  · exact hasPair_times ha haa hb hba hc
  · rw [hasPair_call (Operation.isWord_helperName _ _) hc]
    simp

/-- A value with one number in every place. -/
theorem not_hasPair_filled {value : Term} (h : ¬ HasPair c value.chars) {s : Shape} (hv : s.Valid)
    (hc : c ∈ signs) : ¬ HasPair c (s.filled value).chars := by
  have hvec : ∀ n : Nat, ¬ HasPair c (Term.apply s!"vec{n}" [value]).chars := by
    intro n
    rw [hasPair_call (isWord_numbered (by decide) n) hc]
    simpa using h
  induction s, hv using Shape.inductionOn with
  | native s hv hn =>
    rw [Shape.filled_of_native _ hn]
    cases s with
    | scalar k =>
      cases k with
      | bool | int | real => exact h
      | complex => exact hvec 2
    | vector n k =>
      rw [Storage.fillNative]
      split
      · exact h
      · exact hvec n
    | matrix r n k =>
      rw [Storage.fillNative, hasPair_call (isWord_numbered (by decide) r) hc]
      rintro ⟨t, ht, hp⟩
      rw [List.eq_of_mem_replicate ht] at hp
      exact hvec r hp
  | record s hs ih =>
    rw [Shape.filled_of_record _ hs, hasPair_call (Shape.isWord_name _) hc]
    rintro ⟨t, ht, hp⟩
    obtain ⟨m, hm, rfl⟩ := List.mem_map.1 ht
    exact ih m hm hp

theorem hasPair_sumTerm {s : Shape} (hv : s.Valid) {a : Term} (hc : c ∈ signs) :
    HasPair c (sumTerm s a).chars ↔ HasPair c a.chars := by
  rw [sumTerm.eq_def]
  split
  · rw [hasPair_dotTerm hc]
    simp [not_hasPair_filled (not_hasPair_literal .one hc) hv hc]
  · rw [hasPair_call (Operation.isWord_helperName _ _) hc]
    simp

theorem hasPair_promote {t : Term} (hc : c ∈ signs) :
    HasPair c (promote t).chars ↔ HasPair c t.chars := by
  rw [promote, hasPair_call (by decide) hc]
  simp [not_hasPair_literal .zero hc]

theorem hasPair_promoteAll {ts : List Typed} (hc : c ∈ signs) :
    (∃ t ∈ promoteAll ts, HasPair c t.term.chars) ↔ ∃ t ∈ ts, HasPair c t.term.chars := by
  have hitem : ∀ t : Typed, HasPair c
      (if t.shape = .real then (⟨.complex, promote t.term⟩ : Typed) else t).term.chars ↔
        HasPair c t.term.chars := by
    intro t
    split
    · exact hasPair_promote hc
    · rfl
  unfold promoteAll
  split
  · simp [hitem]
  · rfl

/-! ## Terms that are no operations -/

theorem isPlace_combined (w : Entrywise) (s : Shape) (a b : Term) : (s.combined w a b).isPlace := by
  rw [Shape.combined]
  split <;> rfl

theorem isPlace_matVecTerm (r n : Nat) (a b : Term) : (Synth.matVecTerm r n a b).isPlace := by
  rw [Synth.matVecTerm]
  split <;> rfl

theorem isPlace_realVectorTerm (n : Nat) (args : List Term) :
    (Synth.realVectorTerm n args).isPlace := by
  rw [Synth.realVectorTerm]
  split <;> rfl

theorem isPlace_realMatrixTerm (r n : Nat) (rows : List Term) :
    (Synth.realMatrixTerm r n rows).isPlace := by
  rw [Synth.realMatrixTerm]
  split <;> rfl

theorem isPlace_constructTerm {s : Shape} (hd : s.length? ≠ none) (args : List Term) :
    (Synth.constructTerm s args).isPlace := by
  cases s with
  | scalar k => exact absurd rfl hd
  | vector n k =>
    cases k with
    | bool | int | real => exact isPlace_realVectorTerm n args
    | complex => rfl
  | matrix r n k =>
    cases k with
    | bool | int | real => exact isPlace_realMatrixTerm r n args
    | complex => rfl

theorem isPlace_realElement {s : Shape} (hd : s.length? ≠ none) (i : Nat) (base : Term) :
    (Synth.realElement s i base).isPlace := by
  cases s with
  | scalar k => exact absurd rfl hd
  | vector n k =>
    rw [Synth.realElement]
    split
    · rfl
    · split <;> rfl
  | matrix r n k =>
    rw [Synth.realElement]
    split <;> rfl

theorem isPlace_elementTerm {s : Shape} (hd : s.length? ≠ none) (i : Nat) (base : Term) :
    (Synth.elementTerm s i base).isPlace := by
  rw [Synth.elementTerm]
  split
  · rfl
  · exact isPlace_realElement hd i base

theorem isPlace_sumTerm (s : Shape) (a : Term) : (sumTerm s a).isPlace := by
  rw [sumTerm.eq_def]
  split <;> rfl

/-! ## Definitions -/

theorem separates_combined (w : Entrywise) (s : Shape) {a b : Term} (ha : Separates c a.chars)
    (hb : Separates c b.chars) (hc : c ∈ signs) : Separates c (s.combined w a b).chars := by
  rw [Shape.combined]
  split
  · exact separates_group (separates_tight (by cases w <;> rfl) ha hb).not_hasPair hc
  · exact separates_call (Operation.isWord_helperName _ _) (by simp [ha.not_hasPair, hb.not_hasPair]) hc

theorem separates_dotTerm {n : Nat} {a b : Term} (ha : ¬ HasPair c a.chars) (hb : ¬ HasPair c b.chars)
    (hc : c ∈ signs) : Separates c (Synth.dotTerm n a b).chars := by
  refine separates_call ?_ (by simp [ha, hb]) hc
  split
  · decide
  · exact Operation.isWord_helperName _ _

theorem separates_matVecTerm {r n : Nat} {a b : Term} (ha : Separates c a.chars)
    (hb : Separates c b.chars) (hc : c ∈ signs) : Separates c (Synth.matVecTerm r n a b).chars := by
  rw [Synth.matVecTerm]
  split
  · exact separates_group (separates_tight rfl ha hb).not_hasPair hc
  · exact separates_call (Operation.isWord_helperName _ _) (by simp [ha.not_hasPair, hb.not_hasPair]) hc

theorem not_hasPair_total {ts : List Term} (h : ∀ t ∈ ts, Separates c t.chars) (hc : c ∈ signs) :
    ¬ HasPair c (total ts).chars := by
  have hfold : ∀ (ts : List Term) (t : Term), Separates c t.chars → (∀ u ∈ ts, Separates c u.chars) →
      Separates c (ts.foldl (.binary .tight .plus) t).chars := by
    intro ts
    induction ts with
    | nil => exact fun t ht _ => ht
    | cons u ts ih =>
      intro t ht hts
      exact ih _ (separates_tight rfl ht (hts u List.mem_cons_self))
        fun v hv => hts v (List.mem_cons_of_mem _ hv)
  cases ts with
  | nil => exact not_hasPair_literal .zero hc
  | cons t ts =>
    exact (hfold ts t (h t List.mem_cons_self) fun u hu => h u (List.mem_cons_of_mem _ hu)).not_hasPair

theorem separates_memberOf {x field : String} (hx : IsWord x) (hf : IsWord field) (hc : c ∈ signs) :
    Separates c (Term.member (.name x) field).chars :=
  separates_member (separates_name hx hc) hf hc

/-- A function of one expression. -/
theorem unpaired_expression {result name : String} {parameters : List Glsl.Binder} {t : Term}
    (h : ¬ HasPair c t.chars) : (Declaration.function result name parameters (.expression t)).Unpaired c :=
  List.forall_mem_singleton.2 h

theorem unpaired_entrywise (w : Entrywise) {s : Shape} (hs : s.IsRecord) (hc : c ∈ signs) :
    (Item.entrywiseBody w s).Unpaired c := by
  refine unpaired_expression ?_
  rw [hasPair_call s.isWord_name hc]
  rintro ⟨t, ht, hp⟩
  obtain ⟨m, hm, rfl⟩ := List.mem_map.1 ht
  have hword := isWord_member hs hm
  have hleft : Separates c (w.leftPart m.1).chars := by
    cases w with
    | add | sub => exact separates_memberOf (by decide) hword hc
    | scale => exact separates_name (by decide) hc
  exact (separates_combined w m.2 hleft (separates_memberOf (by decide) hword hc) hc).not_hasPair hp

theorem unpaired_dot {s : Shape} (hs : s.IsRecord) (hc : c ∈ signs) : (Item.dotBody s).Unpaired c := by
  refine unpaired_expression (not_hasPair_total (fun t ht => ?_) hc)
  obtain ⟨m, hm, rfl⟩ := List.mem_map.1 ht
  have hword := isWord_member hs hm
  have hmember : ∀ x : String, IsWord x → ¬ HasPair c (Term.member (.name x) m.1).chars := fun x hx =>
    (separates_memberOf hx hword hc).not_hasPair
  exact separates_call (by decide) (by simp [hmember "a" (by decide), hmember "b" (by decide)]) hc

theorem unpaired_matVec (r n : Nat) (hc : c ∈ signs) : (Item.matVecBody r n).Unpaired c := by
  refine unpaired_expression ?_
  rw [hasPair_realVectorTerm (by simp) hc]
  rintro ⟨t, ht, hp⟩
  obtain ⟨k, -, rfl⟩ := List.mem_map.1 ht
  have hrow := separates_memberOf (show IsWord "a" by decide)
    (isWord_numbered (show IsWord "a" by decide) k) hc
  exact (separates_dotTerm hrow.not_hasPair (not_hasPair_name (by decide) hc) hc).not_hasPair hp

theorem unpaired_sum {s : Shape} (h : Operation.sum.HasHelper s) (hc : c ∈ signs) :
    (Item.helper .sum s).body.Unpaired c := by
  obtain ⟨e, n, he, hn, hev, -⟩ := Operation.HasHelper.sum h
  have hres : Separates c (Term.name "res").chars := separates_name (by decide) hc
  have hname : ¬ HasPair c (Term.name "a").chars := not_hasPair_name (by decide) hc
  have hbody : (Item.helper .sum s).body = Item.sumBody s e n := by
    rw [Item.body, he, hn]
    rfl
  intro t ht
  rw [hbody] at ht
  obtain ⟨line, hline, ht⟩ := List.mem_flatMap.1 ht
  rw [Glsl.Body.statements, Item.flatten_sumLines, List.mem_cons, List.mem_append, List.mem_map,
    List.mem_singleton] at hline
  rcases hline with rfl | ⟨u, hu, rfl⟩ | rfl
  · obtain rfl := List.mem_singleton.1 ht
    exact not_hasPair_filled (not_hasPair_literal .zero hc) hev hc
  · obtain rfl := List.mem_singleton.1 ht
    obtain ⟨k, -, rfl⟩ := List.mem_map.1 hu
    have hd : s.length? ≠ none := by simp [hn]
    have hitem : Separates c (Synth.elementTerm s k (.name "a")).chars :=
      ⟨(isOperand_elementTerm hd k isOperand_a.readable).readable.bordered (isPlace_elementTerm hd k _) hc,
        by rwa [hasPair_elementTerm h.1.1 hc]⟩
    exact (separates_combined .add e hres hitem hc).not_hasPair
  · obtain rfl := List.mem_singleton.1 ht
    exact hres.not_hasPair

/-- A difference and a sum as the parts of a complex number. -/
theorem not_hasPair_complexPair {p q r s : Term} (hp : Separates c p.chars) (hq : Separates c q.chars)
    (hr : Separates c r.chars) (hs : Separates c s.chars) (hc : c ∈ signs) :
    ¬ HasPair c (Term.call .loose "vec2" [.binary .tight .minus p q, .binary .tight .plus r s]).chars := by
  have hdifference : Separates c (Term.binary .tight .minus p q).chars := separates_tight rfl hp hq
  have hsum : Separates c (Term.binary .tight .plus r s).chars := separates_tight rfl hr hs
  rw [hasPair_call (by decide) hc]
  simp [hdifference.not_hasPair, hsum.not_hasPair]

theorem unpaired_complexMul (hc : c ∈ signs) : Item.complexMulBody.Unpaired c := by
  have hproduct : ∀ x y : String, IsWord x → IsWord y → Separates c
      (Term.binary .tight .times (.member (.name "a") x) (.member (.name "b") y)).chars :=
    fun x y hx hy => separates_tight rfl (separates_memberOf (by decide) hx hc)
      (separates_memberOf (by decide) hy hc)
  exact unpaired_expression (not_hasPair_complexPair (hproduct _ _ (by decide) (by decide))
    (hproduct _ _ (by decide) (by decide)) (hproduct _ _ (by decide) (by decide))
    (hproduct _ _ (by decide) (by decide)) hc)

theorem unpaired_complexDot (n : Nat) (hc : c ∈ signs) : (Item.complexDotBody n).Unpaired c := by
  have hproduct : ∀ x y : String, IsWord x → IsWord y → Separates c
      (Synth.dotTerm n (.member (.name "a") x) (.member (.name "b") y)).chars :=
    fun x y hx hy => separates_dotTerm (separates_memberOf (by decide) hx hc).not_hasPair
      (separates_memberOf (by decide) hy hc).not_hasPair hc
  exact unpaired_expression (not_hasPair_complexPair (hproduct _ _ (by decide) (by decide))
    (hproduct _ _ (by decide) (by decide)) (hproduct _ _ (by decide) (by decide))
    (hproduct _ _ (by decide) (by decide)) hc)

/-- A difference and a sum as the members of a complex value. -/
theorem not_hasPair_complexMembers {name : String} (hn : IsWord name) (e : Shape) {p q r s : Term}
    (hp : Separates c p.chars) (hq : Separates c q.chars) (hr : Separates c r.chars)
    (hs : Separates c s.chars) (hc : c ∈ signs) :
    ¬ HasPair c (Term.apply name [e.combined .sub p q, e.combined .add r s]).chars := by
  rw [hasPair_call hn hc]
  simp [(separates_combined .sub e hp hq hc).not_hasPair, (separates_combined .add e hr hs hc).not_hasPair]

theorem unpaired_complexScale (s : Shape) (hc : c ∈ signs) : (Item.complexScaleBody s).Unpaired c := by
  have hmultiple : ∀ x field : String, IsWord x → IsWord field → Separates c
      (s.part.combined .scale (.member (.name "a") x) (.member (.name "b") field)).chars :=
    fun x field hx hf => separates_combined .scale _ (separates_memberOf (by decide) hx hc)
      (separates_memberOf (by decide) hf hc) hc
  exact unpaired_expression (not_hasPair_complexMembers s.isWord_name _
    (hmultiple _ _ (by decide) (by decide)) (hmultiple _ _ (by decide) (by decide))
    (hmultiple _ _ (by decide) (by decide)) (hmultiple _ _ (by decide) (by decide)) hc)

theorem unpaired_complexMatVec (r n : Nat) (hc : c ∈ signs) :
    (Item.complexMatVecBody r n).Unpaired c := by
  have hproduct : ∀ x y : String, IsWord x → IsWord y → Separates c
      (Synth.matVecTerm r n (.member (.name "a") x) (.member (.name "b") y)).chars :=
    fun x y hx hy => separates_matVecTerm (separates_memberOf (by decide) hx hc)
      (separates_memberOf (by decide) hy hc) hc
  exact unpaired_expression (not_hasPair_complexMembers (Shape.isWord_name _) _
    (hproduct _ _ (by decide) (by decide)) (hproduct _ _ (by decide) (by decide))
    (hproduct _ _ (by decide) (by decide)) (hproduct _ _ (by decide) (by decide)) hc)

/-- **No definition has two signs in a row.** -/
theorem Item.not_hasPair {x : Item} (hx : x.Admissible) (hc : c ∈ signs) :
    ¬ HasPair c x.body.text.toList := by
  refine Declaration.Unpaired.not_hasPair ?_ (Item.readable_body hx) hc
  cases x with
  | struct s => exact fun t ht => nomatch ht
  | helper op s =>
    cases op with
    | add => exact unpaired_entrywise .add hx hc
    | sub => exact unpaired_entrywise .sub hx hc
    | scale => exact unpaired_entrywise .scale hx hc
    | dot => exact unpaired_dot hx.1 hc
    | matVec => exact unpaired_matVec _ _ hc
    | sum => exact unpaired_sum hx hc
    | complexMul => exact unpaired_complexMul hc
    | complexScale => exact unpaired_complexScale s hc
    | complexMatVec => exact unpaired_complexMatVec _ _ hc
    | complexDot => exact unpaired_complexDot _ hc

/-! ## Texture readers -/

namespace Textures

/-- A name that ends in that of an image. -/
theorem isWord_ofImage {stem image : String} (hs : IsWord stem) (hi : Glsl.isIdentifier image) :
    IsWord (stem ++ image) :=
  hs.append (isWord_of_isIdentifier hi).nameParts

theorem isWord_reader {image : String} (hi : Glsl.isIdentifier image) (channels : Channels) :
    IsWord (channels.reader image) := by
  cases channels with
  | rgba => exact isWord_ofImage (show IsWord "_imagergba_" by decide) hi
  | rgb => exact isWord_ofImage (show IsWord "_imagergb_" by decide) hi

theorem readable_parameters : ∀ b ∈ parameters, b.Readable := by
  unfold parameters Glsl.Binder.Readable
  decide

/-- The condition that a component lies between zero and one. -/
theorem not_hasPair_inUnit {component : String} (h : IsWord component) (hc : c ∈ signs) :
    ¬ HasPair c (inUnit component).1.chars ∧ ¬ HasPair c (inUnit component).2.chars := by
  have hmember := (separates_memberOf (show IsWord "p" by decide) h hc).not_hasPair
  simp only [inUnit, hasPair_loose hc, not_hasPair_literal _ hc, hmember, or_self, not_false_eq_true,
    and_self]

/-- The direction across the bottom edge: its sign begins an argument. -/
theorem not_hasPair_perpendicular (hc : c ∈ signs) : ¬ HasPair c (Term.call .loose "vec2"
    [.negate (.member (.name "B") "y"), .member (.name "B") "x"]).chars := by
  have hmember : ∀ field : String, IsWord field → Separates c (Term.member (.name "B") field).chars :=
    fun field hf => separates_memberOf (by decide) hf hc
  have hy := hmember "y" (by decide)
  rw [hasPair_call (by decide) hc]
  simp [chars_negate, hasPair_cons, hy.not_hasPair, hy.head_ne, (hmember "x" (by decide)).not_hasPair]

theorem not_hasPair_readerBody (version : Version) {image : String} (hi : Glsl.isIdentifier image)
    (hc : c ∈ signs) : ¬ HasPair c (readerBody version image).text.toList := by
  have hname : ∀ {id : String}, IsWord id → ¬ HasPair c (Term.name id).chars := fun h =>
    not_hasPair_name h hc
  have hcall : ∀ {f : String} {a b : Term}, IsWord f → ¬ HasPair c a.chars → ¬ HasPair c b.chars →
      ¬ HasPair c (Term.call .loose f [a, b]).chars := by
    intro f a b hf ha hb
    rw [hasPair_call hf hc]
    simp [ha, hb]
  have hloose : ∀ {op : Glsl.Operator} {a b : Term}, ¬ HasPair c a.chars → ¬ HasPair c b.chars →
      ¬ HasPair c (Term.binary .loose op a b).chars := by
    intro op a b ha hb
    rw [hasPair_loose hc]
    exact not_or.2 ⟨ha, hb⟩
  obtain ⟨hx₀, hx₁⟩ := not_hasPair_inUnit (show IsWord "x" by decide) hc
  obtain ⟨hy₀, hy₁⟩ := not_hasPair_inUnit (show IsWord "y" by decide) hc
  have hratio : IsWord (TextureBinding.ratioOf image) :=
    isWord_ofImage (show IsWord "_ratio_" by decide) hi
  have hsampler : IsWord (TextureBinding.samplerOf image) :=
    isWord_ofImage (show IsWord "_sampler_" by decide) hi
  have hcrop : IsWord (TextureBinding.cropFactorOf image) :=
    isWord_ofImage (show IsWord "_cropfact_" by decide) hi
  have htexture : IsWord version.textureFunction := by cases version <;> decide
  refine Glsl.Body.not_hasPair (fun s hs => ?_) hc
  simp only [readerBody, Glsl.Body.statements, List.flatten_cons, List.flatten_nil, List.append_nil,
    List.mem_append, List.mem_cons, List.not_mem_nil, or_false] at hs
  rcases hs with (rfl | rfl) | rfl | rfl | rfl | rfl
  · exact Glsl.Statement.not_hasPair (by decide) (List.forall_mem_singleton.2 (hname (by decide))) hc
  · exact Glsl.Statement.not_hasPair (by decide) (List.forall_mem_singleton.2 (hname (by decide))) hc
  · refine Glsl.Statement.not_hasPair (by decide) (List.forall_mem_singleton.2 ?_) hc
    exact hcall (by decide) (hname (by decide)) (hname (by decide))
  · refine Glsl.Statement.not_hasPair (List.forall_mem_singleton.2 (by decide))
      (List.forall_mem_singleton.2 ?_) hc
    refine hloose (hcall (by decide) (hcall (by decide) (hname (by decide)) (hname (by decide))) ?_)
      (hname (by decide))
    exact hloose (hname hratio)
      (hcall (by decide) (hname (by decide)) (not_hasPair_perpendicular hc))
  · refine Glsl.Statement.not_hasPair (by rintro _ ⟨⟩)
      (List.forall_mem_cons.2 ⟨?_, List.forall_mem_singleton.2 ?_⟩) hc
    · exact hloose (hloose (hloose hx₀ hx₁) hy₀) hy₁
    · exact hcall htexture (hname hsampler) (hloose (hname (by decide)) (hname hcrop))
  · refine Glsl.Statement.not_hasPair (by rintro _ ⟨⟩) (List.forall_mem_singleton.2 ?_) hc
    rw [hasPair_call (by decide) hc]
    simp [not_hasPair_literal .zero hc]

/-- **No texture reader has two signs in a row.** -/
theorem not_hasPair_reader (version : Version) {image : String} (hi : Glsl.isIdentifier image)
    (hc : c ∈ signs) : ∀ d ∈ reader version image, ¬ HasPair c d.text.toList := by
  have huniform : ∀ {type stem : String}, IsWord type → IsWord stem →
      ¬ HasPair c (Declaration.uniform ⟨type, stem ++ image⟩).text.toList := fun ht hs =>
    Declaration.not_hasPair_uniform ⟨ht, isWord_ofImage hs hi⟩ hc
  have hcolor : ¬ HasPair c (Term.member (.call .loose (Channels.rgba.reader image)
      [.name "A", .name "B", .name "p"]) "rgb").chars := by
    have hname : ∀ id ∈ ["A", "B", "p"], ¬ HasPair c (Term.name id).chars := by
      intro id hid
      have hword : ∀ id ∈ ["A", "B", "p"], IsWord id := by decide
      exact not_hasPair_name (hword id hid) hc
    rw [hasPair_member (by decide) hc, hasPair_call (isWord_reader hi _) hc]
    simpa using hname
  intro d hd
  simp only [reader, List.mem_cons, List.not_mem_nil, or_false] at hd
  rcases hd with rfl | rfl | rfl | rfl | rfl
  · exact huniform (show IsWord "sampler2D" by decide) (show IsWord "_sampler_" by decide)
  · exact huniform (show IsWord "float" by decide) (show IsWord "_ratio_" by decide)
  · exact huniform (show IsWord "vec2" by decide) (show IsWord "_cropfact_" by decide)
  · exact Declaration.not_hasPair_function (by decide) (isWord_reader hi _) readable_parameters
      (not_hasPair_readerBody version hi hc) hc
  · refine Declaration.not_hasPair_function (by decide) (isWord_reader hi _) readable_parameters
      (Glsl.Body.not_hasPair ?_ hc) hc
    refine List.forall_mem_singleton.2 (Glsl.Statement.not_hasPair (by rintro _ ⟨⟩) ?_ hc)
    exact List.forall_mem_singleton.2 hcolor

/-- The text of all readers. -/
theorem not_hasPair_header {version : Version} {t : Textures} {names : List String}
    (h : t.Shows version names) (hn : t.Named) (hc : c ∈ signs) : ¬ HasPair c t.header.toList := by
  have hbreak : Separates c ['\n'] := separates_fixed (by decide) hc
  have hreader : ∀ name ∈ names, ¬ HasPair c (readerText (reader version name)).toList := by
    intro name hname
    have hid : Glsl.isIdentifier name :=
      hn (entry version name) (by rw [h.2]; exact List.mem_map_of_mem hname)
    have htext : (readerText (reader version name)).toList =
        ['\n'].intercalate ((reader version name).map (·.text.toList)) := by
      simp [readerText, Function.comp_def]
    rw [htext, hbreak.intercalate]
    rintro ⟨_, hmem, hp⟩
    obtain ⟨d, hd, rfl⟩ := List.mem_map.1 hmem
    exact not_hasPair_reader version hid hc d hd hp
  have hstruct : t.readers.bodies .struct = [] := by
    simp [Registry.bodies, h.2, entry]
  have htext : t.header.toList =
      names.flatMap fun name => (readerText (reader version name)).toList ++ ['\n'] := by
    rw [header, Registry.header, hstruct, h.bodies_eq, List.nil_append, List.foldl_map,
      Glsl.toList_foldl (f := fun name => (readerText (reader version name)).toList ++ ['\n'])]
    · simp
    · simp
  rw [htext, hbreak.flatMap]
  rintro ⟨name, hname, hp⟩
  exact hreader name hname hp

end Textures

/-- The text of all definitions. -/
theorem Catalog.not_hasPair_header (k : Catalog) (hc : c ∈ signs) :
    ¬ HasPair c k.definitions.header.toList := by
  have hbreak : Separates c ['\n'] := separates_fixed (by decide) hc
  have hheader : k.definitions.header.toList =
      k.definitions.declarations.flatMap fun d => d.text.toList ++ ['\n'] :=
    Glsl.toList_declarations _
  rw [hheader, hbreak.flatMap, k.declarations_eq]
  rintro ⟨d, hd, hp⟩
  obtain ⟨x, hx, rfl⟩ := List.mem_map.1 hd
  exact Item.not_hasPair (k.closed.admissible x (mem_printed.1 hx)) hc hp

/-! ## Expressions -/

namespace Expr

/-- A negative number; the negative zero is one. -/
def IsNegative : Expr → Prop
  | real x => x.negative
  | _ => False

mutual

/-- An expression that takes a negative number from a real number.  What would be computed for an
image that cannot be read does not count. -/
def Decrements (viewport : Viewport) (images : String → Option Image) : Expr → Prop
  | real _ | complex _ _ | uniform _ _ | pixel => False
  | list es => DecrementsAny viewport images es
  | binary op lhs rhs => lhs.Decrements viewport images ∨ rhs.Decrements viewport images ∨
      op = .sub ∧ rhs.IsNegative ∧ ¬ IsShaped viewport lhs .complex
  | sum arg | element arg _ => arg.Decrements viewport images
  | image _ name point => Available images name ∧ point.Decrements viewport images
  | imageOn _ name a b point => Available images name ∧
      (a.Decrements viewport images ∨ b.Decrements viewport images ∨ point.Decrements viewport images)

/-- Some expression of a list takes a negative number from a real number. -/
def DecrementsAny (viewport : Viewport) (images : String → Option Image) : List Expr → Prop
  | [] => False
  | e :: es => e.Decrements viewport images ∨ DecrementsAny viewport images es

end

end Expr

theorem Multiplies.isPlace {items : List Item} {l r : Term} {ls rs : Shape} {t : Typed}
    (h : Multiplies items l r ls rs t) : t.term.isPlace := by
  cases h with
  | realReal | realComplex | complexReal | complexComplex => rfl
  | scale | scaleRight => exact isPlace_combined _ _ _ _
  | complexScale | complexScaleRight | complexMatVec | dot | complexDot => rfl
  | matVec => exact isPlace_matVecTerm _ _ _ _

theorem Combines.isPlace {items : List Item} {op : Binary} {l r t : Typed}
    (h : Combines items op l r t) : t.term.isPlace := by
  cases h with
  | same => exact isPlace_combined _ _ _ _
  | @promoteLeft _ w => exact isPlace_combined w .complex _ _
  | @promoteRight _ w => exact isPlace_combined w .complex _ _
  | mul hu hm => exact hm.isPlace
  | dot hd hr hm => exact hm.isPlace

theorem Reads.isPlace {Γ : Context} {channels : Channels} {name : String} {a b p : Term} {t : Typed}
    (h : Reads Γ channels name a b p t) : t.term.isPlace := by
  cases h with
  | available => rfl
  | unavailable => cases channels <;> rfl

/-- A translated term is a literal just if the expression is a real number. -/
theorem Translates.isPlace_or {Γ : Context} {e : Expr} {t : Typed} (h : Translates Γ e t) :
    t.term.isPlace ∨ ∃ x d, e = .real x ∧ literal? x = .ok d ∧ t = ⟨.real, .literal d⟩ := by
  cases h with
  | real hx => exact .inr ⟨_, _, rfl, hx, rfl⟩
  | complex | uniform | pixel => exact .inl rfl
  | list hts hall hs hi =>
    exact .inl (isPlace_constructTerm (by simp [(Compile.listShape_valid hs).2.1]) _)
  | binary hl hr hc => exact .inl hc.isPlace
  | sum => exact .inl (isPlace_sumTerm _ _)
  | element ht hv he hn hin hi => exact .inl (isPlace_elementTerm (by simp [hn]) _ _)
  | image hp hpp ha hb hr => exact .inl hr.isPlace
  | imageOn hp hpp ha hap hb hbp hr => exact .inl hr.isPlace

/-! ### Pairs in translated terms -/

theorem Translates.isAtom {Γ : Context} {e : Expr} {t : Typed} (h : Translates Γ e t) :
    t.term.isAtom := by
  rcases h.isPlace_or with hp | ⟨x, d, -, -, rfl⟩
  · exact isAtom_of_isPlace hp
  · rfl

/-- A translated term begins with a sign just if the expression is a negative number. -/
theorem Translates.isNegative_iff {Γ : Context} {e : Expr} {t : Typed} (h : Translates Γ e t) :
    (t.term.isNegative ↔ e.IsNegative) ∧ (t.term.isNegative → t.shape = .real) := by
  rcases h.isPlace_or with hp | ⟨x, d, rfl, hx, rfl⟩
  · have hneg := isNegative_of_isPlace hp
    have hne : ¬ e.IsNegative := by
      cases h with
      | real => cases hp
      | complex | list | uniform | pixel | binary | sum | element | image | imageOn => exact id
    simp [hneg, hne]
  · obtain rfl : Decimal.shortest .up x = d := by
      rw [Compile.literal?_of_isFinite (isFinite_of_literal? hx)] at hx
      injection hx
    simp [Glsl.Term.isNegative, Expr.IsNegative, negative_shortest]

theorem Multiplies.hasPair {items : List Item} {l r : Term} {ls rs : Shape} {t : Typed}
    (h : Multiplies items l r ls rs t) (hl : l.Readable) (hla : l.isAtom) (hr : r.Readable)
    (hra : r.isAtom) (hc : c ∈ signs) :
    HasPair c t.term.chars ↔ HasPair c l.chars ∨ HasPair c r.chars := by
  have hscale : ∀ {s : Shape} {a b : Term}, a.Readable → a.isAtom → b.Readable → b.isAtom →
      (HasPair c (s.combined .scale a b).chars ↔ HasPair c a.chars ∨ HasPair c b.chars) := by
    intro s a b ha haa hb hba
    rw [hasPair_combined .scale s ha haa hb hba hc]
    simp
  have hhelper : ∀ {f : String} {a b : Term}, IsWord f →
      (HasPair c (Term.apply f [a, b]).chars ↔ HasPair c a.chars ∨ HasPair c b.chars) := by
    intro f a b hf
    rw [hasPair_call hf hc]
    simp
  cases h with
  | realReal | realComplex | complexReal => exact hasPair_times hl hla hr hra hc
  | complexComplex => exact hhelper (Operation.isWord_helperName _ _)
  | scale => exact hscale hl hla hr hra
  | scaleRight => exact (hscale hr hra hl hla).trans or_comm
  | complexScale => exact hhelper (Operation.isWord_helperName _ _)
  | complexScaleRight => exact (hhelper (Operation.isWord_helperName _ _)).trans or_comm
  | matVec => exact hasPair_matVecTerm hl hla hr hra hc
  | complexMatVec => exact hhelper (Operation.isWord_helperName _ _)
  | dot => exact hasPair_dotTerm hc
  | complexDot => exact hhelper (Operation.isWord_helperName _ _)

theorem Binary.entrywise?_sub {op : Binary} {w : Entrywise} (h : op.entrywise? = some w) :
    w = .sub ↔ op = .sub := by
  cases op <;> cases h <;> decide

/-- **An operation makes a new pair just if a negative number is taken from what is not complex.** -/
theorem Combines.hasPair {items : List Item} {op : Binary} {l r t : Typed}
    (h : Combines items op l r t) (hl : l.term.IsOperand) (hla : l.term.isAtom) (hr : r.term.IsOperand)
    (hra : r.term.isAtom) (hreal : r.term.isNegative → r.shape = .real) (hc : c ∈ signs) :
    HasPair c t.term.chars ↔ HasPair c l.term.chars ∨ HasPair c r.term.chars ∨
      c = '-' ∧ op = .sub ∧ r.term.isNegative ∧ l.shape ≠ .complex := by
  have hbeside : ∀ s : Shape, Shape.real.beside s = .real := fun s => by simp [Shape.beside, Shape.real]
  cases h with
  | @same _ w _ _ s hw hu hv hk hi =>
    rw [unify_eq_beside, Prod.mk.injEq] at hu
    rw [hasPair_combined w s hl.readable hla hr.readable hra hc, Binary.entrywise?_sub hw]
    refine or_congr_right (or_congr_right (and_congr_right fun _ => and_congr_right fun _ => ?_))
    -- A negative number is real, and so is what it stands beside.
    constructor
    · rintro ⟨-, hneg⟩
      refine ⟨hneg, fun hl => ?_⟩
      rw [hreal hneg, hbeside, hl] at hu
      exact absurd (hu.1.trans hu.2.symm) (by decide)
    · rintro ⟨hneg, -⟩
      rw [hreal hneg, hbeside] at hu
      exact ⟨hu.2 ▸ rfl, hneg⟩
  | @promoteLeft _ w _ _ hw hu =>
    rw [unify_eq_beside, Prod.mk.injEq] at hu
    have hneg : ¬ r.term.isNegative := fun hneg => by
      rw [hreal hneg, hbeside] at hu
      exact absurd hu.2 (by decide)
    rw [hasPair_combined w .complex (isOperand_promote hl).readable rfl hr.readable hra hc,
      hasPair_promote hc]
    simp [hneg]
  | @promoteRight _ w _ _ hw hu =>
    rw [unify_eq_beside, Prod.mk.injEq] at hu
    have hcomplex : r.term.isNegative → l.shape = .complex := by
      intro hneg
      have hleft := hu.1
      rw [hreal hneg, Shape.beside] at hleft
      split at hleft
      · rename_i h
        exact absurd h.2 (by decide)
      · split at hleft
        · exact absurd hleft (by decide)
        · exact hleft
    rw [hasPair_combined w .complex hl.readable hla (isOperand_promote hr).readable rfl hc,
      hasPair_promote hc]
    have hnew : ¬ (r.term.isNegative ∧ l.shape ≠ .complex) := fun h => h.2 (hcomplex h.1)
    have hpromote : (promote r.term).isNegative = false := rfl
    simp only [hpromote, Bool.false_eq_true, and_false, or_false, hnew]
  | mul hu hm =>
    rw [hm.hasPair hl.readable hla hr.readable hra hc]
    simp
  | dot hd hr' hm =>
    rw [hm.hasPair hl.readable hla hr.readable hra hc]
    simp

theorem Reads.hasPair {Γ : Context} {channels : Channels} {name : String} {a b p : Term} {t : Typed}
    (h : Reads Γ channels name a b p t) (hc : c ∈ signs) :
    HasPair c t.term.chars ↔ Available Γ.images name ∧
      (HasPair c a.chars ∨ HasPair c b.chars ∨ HasPair c p.chars) := by
  cases h with
  | available h hr =>
    rw [hasPair_call (Textures.isWord_reader h.1 channels) hc]
    simp [h]
  | unavailable h =>
    simp [h, not_hasPair_filled (not_hasPair_literal .zero hc) channels.shape_native.1 hc]

theorem not_hasPair_point {p : Point} {t : Term} (h : Textures.point p = .ok t) (hc : c ∈ signs) :
    ¬ HasPair c t.chars := by
  obtain ⟨d, d', -, -, rfl⟩ := point_eq_ok h
  rw [hasPair_call (by decide) hc]
  simp [not_hasPair_literal _ hc]

mutual

/-- **The pairs of a translated term:** two minus signs for every negative number that is taken from a real
number. -/
theorem Translates.hasPair {Γ : Context} (hc : c ∈ signs) : ∀ {e : Expr} {t : Typed},
    Translates Γ e t → (HasPair c t.term.chars ↔ c = '-' ∧ e.Decrements Γ.viewport Γ.images)
  | _, _, .real (d := d) _ => by simpa [Expr.Decrements] using not_hasPair_literal d hc
  | _, _, .complex _ _ => by
    rw [hasPair_call (by decide) hc]
    simp [Expr.Decrements, not_hasPair_literal _ hc]
  | _, _, .list hts hall hs hi => by
    obtain ⟨hv, hn, -⟩ := Compile.listShape_valid hs
    rw [hasPair_constructTerm hv (by rw [hn, List.length_map, Compile.length_promoteAll]) hc,
      Expr.Decrements, ← hts.hasPair hc, ← hasPair_promoteAll hc]
    simp
  | _, _, .uniform hn hv hu hi => by
    simpa [Expr.Decrements] using not_hasPair_name (isWord_of_isIdentifier hn.1) hc
  | _, _, .pixel => by
    simpa [Expr.Decrements] using not_hasPair_name (show IsWord pixelName by decide) hc
  | _, _, @Translates.binary _ _ lhs _ l _ _ hl hr hcomb => by
    have hshape : l.shape ≠ .complex ↔ ¬ IsShaped Γ.viewport lhs .complex := by
      have hlhs : IsShaped Γ.viewport lhs l.shape := ⟨hl.hasShape, hl.knows.consistent⟩
      exact not_congr ⟨fun h => h ▸ hlhs, hlhs.unique⟩
    rw [hcomb.hasPair hl.isOperand hl.isAtom hr.isOperand hr.isAtom hr.isNegative_iff.2 hc,
      hl.hasPair hc, hr.hasPair hc, hr.isNegative_iff.1, hshape, Expr.Decrements, and_or_left,
      and_or_left]
  | _, _, .sum ht hv hk he hi => by
    rw [hasPair_sumTerm hv hc, ht.hasPair hc, Expr.Decrements]
  | _, _, .element ht hv he hn hin hi => by
    rw [hasPair_elementTerm hv hc, ht.hasPair hc, Expr.Decrements]
  | _, _, .image hp hpp ha hb hr => by
    rw [hr.hasPair hc, hp.hasPair hc, Expr.Decrements]
    simp only [not_hasPair_point ha hc, not_hasPair_point hb hc, false_or]
    exact and_left_comm
  | _, _, .imageOn hp hpp ha hap hb hbp hr => by
    rw [hr.hasPair hc, ha.hasPair hc, hb.hasPair hc, hp.hasPair hc, Expr.Decrements, ← and_or_left,
      ← and_or_left]
    exact and_left_comm

theorem TranslatesAll.hasPair {Γ : Context} (hc : c ∈ signs) : ∀ {es : List Expr} {ts : List Typed},
    TranslatesAll Γ es ts → ((∃ t ∈ ts, HasPair c t.term.chars) ↔
      c = '-' ∧ Expr.DecrementsAny Γ.viewport Γ.images es)
  | _, _, .nil => by simp [Expr.DecrementsAny]
  | _, _, .cons ht hts => by
    rw [List.exists_mem_cons_iff, ht.hasPair hc, hts.hasPair hc, Expr.DecrementsAny, and_or_left]

end

namespace Session

/-- **Where two signs are next to each other in a shader:** nowhere in its definitions and texture readers,
nowhere two plus signs, and two minus signs in its expression just if a negative number is taken
from a real number. -/
theorem adjacent_signs_iff (settings : Settings) (calls : List ((String → Option Image) × Expr))
    (images : String → Option Image) (e : Expr) {p : Program}
    (hp : (((start settings).after calls).compile images e).1 = .ok p) :
    (∀ c ∈ ['+', '-'], ¬ [c, c] <:+: p.header.toList ∧ ¬ [c, c] <:+: p.textureHeader.toList) ∧
      ¬ ['+', '+'] <:+: p.expression.text.toList ∧
        (['-', '-'] <:+: p.expression.text.toList ↔ e.Decrements settings.viewport images) := by
  have hstart := start_isOrdered settings
  have hs := hstart.after calls
  obtain ⟨k, names, readers, hdef, hshows, -, -, htrans⟩ := exists_translation hs hp
  have hempty : (start settings).textures.Named := fun _ h => nomatch h
  have hnamed := (hs.named (hstart.named_after calls hempty) images e).2 p hp
  refine ⟨fun c hc => ⟨?_, Textures.not_hasPair_header hshows hnamed hc⟩, fun hplus => ?_, ?_⟩
  · rw [Program.header, hdef]
    exact k.not_hasPair_header hc
  · exact absurd ((htrans.hasPair (show '+' ∈ signs by decide)).1 hplus).1 (by decide)
  · exact (htrans.hasPair (show '-' ∈ signs by decide)).trans (and_iff_right rfl)

/-- A negative number that is taken from a complex number: its sign begins an argument. -/
theorem adjacent_signs_iff_complex :
    let e : Expr := .binary .sub (.complex ⟨0⟩ .one) (.real (.neg .one))
    ∃ p, (((start .webgl2).after [((fun _ => none), .real .one)]).compile (fun _ => none) e).1 = .ok p ∧
      ¬ ['-', '-'] <:+: p.expression.text.toList := by
  intro e
  have hshaped : IsShaped Settings.webgl2.viewport (.complex ⟨0⟩ .one) .complex :=
    ⟨.complex (by decide) (by decide), fun _ h => nomatch h⟩
  refine ⟨_, rfl, ?_⟩
  rw [(adjacent_signs_iff .webgl2 [((fun _ => none), .real .one)] (fun _ => none) e rfl).2.2]
  simp [e, Expr.Decrements, hshaped]

/-- A negative number that is taken from a real number makes two minus signs. -/
theorem adjacent_signs_difference :
    ∃ p, ((start .webgl2).compile (fun _ => none) (.binary .sub (.real .one) (.real (.neg .one)))).1 =
      .ok p ∧ ['-', '-'] <:+: p.expression.text.toList := by
  have hneg : (Glsl.Term.literal (Decimal.shortest .up (.neg .one))).isNegative :=
    (negative_shortest .up (.neg .one)).trans (by decide)
  refine ⟨_, rfl, ?_⟩
  exact (hasPair_grouped rfl (.literal _) rfl (.literal _) rfl (by decide)).2
    (.inr (.inr ⟨rfl, rfl, hneg⟩))

end Session
end ShaderAlgebra
