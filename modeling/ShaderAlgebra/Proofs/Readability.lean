import ShaderAlgebra.Proofs.Emission
import ShaderAlgebra.Proofs.Layout
import ShaderAlgebra.Proofs.Spelling
import ShaderAlgebra.Proofs.Translation

/-!
# Generated text can be read

All names in generated text are words, and all operands bind tightly enough for the
places they stand in.  So every body of an item and every translated term is read back from its text
(`Item.readable_body`, `Translates.isOperand`).
-/

namespace ShaderAlgebra

open Glsl (Term Binder Declaration Statement IsWord isNameStart isNamePart)

/-! ## Words -/

theorem isNamePart_of_isNameStart {c : Char} (h : isNameStart c) : isNamePart c := by
  rw [isNameStart, Bool.or_eq_true] at h
  rcases h with h | h
  · simp [isNamePart, Char.isAlphanum, h]
  · simp [isNamePart, h]

theorem Glsl.IsWord.nameParts {name : String} (h : IsWord name) : name.toList.all isNamePart := by
  obtain ⟨c, cs, hl, hc, hcs⟩ := h
  rw [hl, List.all_cons, isNamePart_of_isNameStart hc, Bool.true_and, List.all_eq_true]
  exact hcs

/-- A word stays one with letters, digits and underscores behind it. -/
theorem Glsl.IsWord.append {name tail : String} (h : IsWord name) (ht : tail.toList.all isNamePart) :
    IsWord (name ++ tail) := by
  obtain ⟨c, cs, hl, hc, hcs⟩ := h
  refine ⟨c, cs ++ tail.toList, by rw [String.toList_append, hl, List.cons_append], hc, ?_⟩
  intro d hd
  exact (List.mem_append.1 hd).elim (hcs d) (List.all_eq_true.1 ht d)

theorem isWord_numbered {stem : String} (h : IsWord stem) (n : Nat) : IsWord (stem ++ toString n) := by
  refine h.append (List.all_eq_true.2 fun c hc => ?_)
  rw [Nat.toString_eq_repr, Nat.toList_repr] at hc
  exact Glsl.isDigit_isNamePart (Nat.isDigit_of_mem_toDigits (by decide) (by decide) hc)

theorem isWord_numbered₂ {stem : String} (h : IsWord stem) (m n : Nat) :
    IsWord (stem ++ toString m ++ "_" ++ toString n) :=
  isWord_numbered ((isWord_numbered h m).append (by decide)) n

theorem Shape.isWord_name (s : Shape) : IsWord s.name := by
  cases s with
  | scalar k => cases k <;> decide
  | vector n k =>
    cases k with
    | real =>
      rw [Shape.name]
      split
      · decide
      · exact isWord_numbered (by decide) n
    | complex | int | bool => exact isWord_numbered (by decide) n
  | matrix r c k =>
    have hmat : IsWord (if (Shape.matrix r c k).isNative then s!"mat{r}" else s!"mat{r}_{c}") := by
      split
      · exact isWord_numbered (by decide) r
      · exact isWord_numbered₂ (by decide) r c
    cases k with
    | complex => exact isWord_numbered₂ (by decide) r c
    | real | int | bool => exact hmat

/-- The name of a type is no keyword. -/
theorem Shape.name_ne (s : Shape) {word : String}
    (h : word.toList.head? ∉ ['b', 'c', 'f', 'i', 'm', 'v'].map some) : s.name ≠ word := by
  rintro rfl
  refine h ?_
  cases s with
  | scalar k => cases k <;> simp [Shape.name]
  | vector n k =>
    cases k with
    | real =>
      rw [Shape.name]
      split <;> simp [toString]
    | complex | int | bool => simp [Shape.name, toString]
  | matrix r c k =>
    cases k with
    | complex => simp [Shape.name, toString]
    | real | int | bool =>
      rw [Shape.name]
      · split <;> simp [toString]
      · simp

theorem Operation.isWord_helperName (op : Operation) (s : Shape) : IsWord (op.helperName s) := by
  have hword : ∀ stem : String, IsWord stem → IsWord (stem ++ s.name) := fun stem h =>
    h.append s.isWord_name.nameParts
  cases op with
  | add | sub | scale | sum | complexScale =>
    exact hword _ (by decide)
  | dot | complexDot => exact isWord_numbered (by decide) _
  | matVec | complexMatVec => exact isWord_numbered₂ (by decide) _ _
  | complexMul => exact (show IsWord "multc" by decide)

theorem isWord_of_isIdentifier {name : String} (h : Glsl.isIdentifier name) : IsWord name := by
  rw [Glsl.isIdentifier] at h
  cases hl : name.toList with
  | nil => simp [hl, Glsl.isIdentifierList] at h
  | cons c cs =>
    simp only [hl, Glsl.isIdentifierList, Bool.and_eq_true] at h
    exact ⟨c, cs, hl, h.1.1, List.all_eq_true.1 h.1.2⟩

theorem isWord_member {s : Shape} (hs : s.IsRecord) {m : String × Shape} (hm : m ∈ s.members) :
    IsWord m.1 := by
  have hrow : ∀ {parts : List Shape}, m ∈ numbered parts → IsWord m.1 := by
    intro parts hm
    obtain ⟨i, hi, hm⟩ := List.mem_iff_getElem.1 hm
    have hm' := List.getElem?_eq_some_iff.2 ⟨hi, hm⟩
    rw [getElem?_numbered, Option.map_eq_some_iff] at hm'
    obtain ⟨part, -, rfl⟩ := hm'
    exact isWord_numbered (by decide) i
  have hpart : ∀ {part : Shape}, m ∈ [("real", part), ("imag", part)] → IsWord m.1 := by
    intro part hm
    rcases List.mem_cons.1 hm with rfl | hm
    · exact (show IsWord "real" by decide)
    · rw [List.mem_singleton.1 hm]
      exact (show IsWord "imag" by decide)
  have hn := hs.2
  rcases hs.cases with ⟨n, rfl, hw, -⟩ | ⟨n, rfl, -⟩ | ⟨r, c, rfl, -⟩ | ⟨r, c, rfl, -⟩
  · rw [Shape.members_realVector hw] at hm
    exact hrow hm
  · rw [Shape.members_complex hs rfl] at hm
    exact hpart hm
  · rw [Shape.members_realMatrix hn] at hm
    exact hrow hm
  · rw [Shape.members_complex hs rfl] at hm
    exact hpart hm

/-! ## Operands -/

/-- A term that is read back and binds at least as tightly as a sign, so that it can be an operand of
every operator. -/
structure Glsl.Term.IsOperand (t : Term) : Prop where
  readable : t.Readable
  rank_le : t.rank ≤ 1

namespace Glsl.Term

theorem isOperand_literal (d : Decimal) : (literal d).IsOperand :=
  ⟨.literal d, by rw [rank]; split <;> decide⟩

theorem isOperand_name {id : String} (h : IsWord id) : (name id).IsOperand :=
  ⟨.name h, Nat.zero_le _⟩

theorem isOperand_call {spacing : Spacing} {f : String} {args : List Term} (hf : IsWord f)
    (ha : ∀ t ∈ args, t.Readable) : (call spacing f args).IsOperand :=
  ⟨.call hf ha, Nat.zero_le _⟩

theorem isOperand_group {t : Term} (h : t.Readable) : (group t).IsOperand :=
  ⟨.group h, Nat.zero_le _⟩

theorem isOperand_member {t : Term} (h : t.Readable) (hp : t.isPlace) {field : String}
    (hf : IsWord field) : (member t field).IsOperand :=
  ⟨.member h hp hf, Nat.zero_le _⟩

theorem isOperand_index {t : Term} (h : t.Readable) (hp : t.isPlace) (i : Nat) :
    (index t i).IsOperand :=
  ⟨.index h hp, Nat.zero_le _⟩

theorem isOperand_part {t : Term} (h : t.Readable) {field : String} (hf : IsWord field) :
    (t.part field).IsOperand :=
  isOperand_member (.group h) rfl hf

theorem isOperand_grouped {op : Operator} (hop : op.isArithmetic) {a b : Term} (ha : a.IsOperand)
    (hb : b.IsOperand) : (grouped op a b).IsOperand := by
  have hlevel : 2 ≤ op.level := by cases op <;> decide
  exact isOperand_group (.binary hop ha.readable hb.readable
    (Nat.le_trans ha.rank_le (Nat.le_of_succ_le hlevel)) (Nat.lt_of_le_of_lt hb.rank_le hlevel))

theorem readable_pair {a b : Term} (ha : a.Readable) (hb : b.Readable) : ∀ t ∈ [a, b], t.Readable := by
  intro t ht
  rcases List.mem_cons.1 ht with rfl | ht
  · exact ha
  · rw [List.mem_singleton.1 ht]
    exact hb

end Glsl.Term

open Glsl.Term

theorem isOperand_nativeVector {args : List Term} (h : ∀ t ∈ args, t.Readable) :
    (Synth.nativeVector args).IsOperand :=
  isOperand_call (Shape.isWord_name _) h

theorem isOperand_combined (op : Entrywise) (s : Shape) {a b : Term} (ha : a.IsOperand)
    (hb : b.IsOperand) : (s.combined op a b).IsOperand := by
  rw [Shape.combined]
  split
  · exact isOperand_grouped (by cases op <;> rfl) ha hb
  · exact isOperand_call (Operation.isWord_helperName _ _) (readable_pair ha.readable hb.readable)

theorem isOperand_fillNative {value : Term} (h : value.IsOperand) (s : Shape) :
    (Storage.fillNative value s).IsOperand := by
  have hvec : ∀ n : Nat, (Term.apply s!"vec{n}" [value]).IsOperand := fun n =>
    isOperand_call (isWord_numbered (by decide) n)
      fun t ht => List.mem_singleton.1 ht ▸ h.readable
  cases s with
  | scalar k =>
    cases k with
    | complex => exact hvec 2
    | real | int | bool => exact h
  | vector n k =>
    rw [Storage.fillNative]
    split
    · exact h
    · exact hvec n
  | matrix r c k =>
    refine isOperand_call (isWord_numbered (by decide) r) ?_
    intro t ht
    rw [List.eq_of_mem_replicate ht]
    exact (hvec r).readable

theorem isOperand_filled {value : Term} (h : value.IsOperand) {s : Shape} (hv : s.Valid) :
    (s.filled value).IsOperand := by
  induction s, hv using Shape.inductionOn with
  | native s hv hn =>
    rw [Shape.filled_of_native _ hn]
    exact isOperand_fillNative h s
  | record s hs ih =>
    rw [Shape.filled_of_record _ hs]
    refine isOperand_call s.isWord_name fun t ht => ?_
    obtain ⟨m, hm, rfl⟩ := List.mem_map.1 ht
    exact (ih m hm).readable

theorem mem_of_mem_pieces {ws : List Nat} {args piece : List Term} (h : piece ∈ Synth.pieces ws args) :
    ∀ t ∈ piece, t ∈ args := by
  induction ws generalizing args with
  | nil => cases h
  | cons w ws ih =>
    rcases List.mem_cons.1 h with rfl | h
    · exact fun t ht => List.mem_of_mem_take ht
    · exact fun t ht => List.mem_of_mem_drop (ih h t ht)

theorem isOperand_realVectorTerm (n : Nat) {args : List Term} (h : ∀ t ∈ args, t.Readable) :
    (Synth.realVectorTerm n args).IsOperand := by
  rw [Synth.realVectorTerm]
  split
  · exact isOperand_nativeVector h
  · refine isOperand_call (Shape.isWord_name _) fun t ht => ?_
    obtain ⟨piece, hp, rfl⟩ := List.mem_map.1 ht
    exact (isOperand_nativeVector fun t ht => h t (mem_of_mem_pieces hp t ht)).readable

theorem isOperand_realMatrixTerm (r c : Nat) {rows : List Term} (h : ∀ t ∈ rows, t.Readable) :
    (Synth.realMatrixTerm r c rows).IsOperand := by
  rw [Synth.realMatrixTerm]
  split
  · refine isOperand_call (Shape.isWord_name _) fun t ht => ?_
    obtain ⟨k, -, rfl⟩ := List.mem_map.1 ht
    refine (isOperand_nativeVector fun t ht => ?_).readable
    obtain ⟨row, hrow, rfl⟩ := List.mem_map.1 ht
    exact (isOperand_index (.group (h row hrow)) rfl k).readable
  · exact isOperand_call (Shape.isWord_name _) h

theorem readable_parts {args : List Term} (h : ∀ t ∈ args, t.Readable) {field : String}
    (hf : IsWord field) : ∀ t ∈ args.map (Term.part · field), t.Readable := by
  intro t ht
  obtain ⟨u, hu, rfl⟩ := List.mem_map.1 ht
  exact (isOperand_part (h u hu) hf).readable

theorem isOperand_constructTerm {s : Shape} (hd : s.length? ≠ none) {args : List Term}
    (h : ∀ t ∈ args, t.Readable) : (Synth.constructTerm s args).IsOperand := by
  have hx := readable_parts h (show IsWord "x" by decide)
  have hy := readable_parts h (show IsWord "y" by decide)
  have hre := readable_parts h (show IsWord "real" by decide)
  have him := readable_parts h (show IsWord "imag" by decide)
  cases s with
  | scalar k => exact absurd rfl hd
  | vector n k =>
    cases k with
    | complex =>
      exact isOperand_call (Shape.isWord_name _) (readable_pair (isOperand_realVectorTerm n hx).readable
        (isOperand_realVectorTerm n hy).readable)
    | real | int | bool => exact isOperand_realVectorTerm n h
  | matrix r c k =>
    cases k with
    | complex =>
      exact isOperand_call (Shape.isWord_name _) (readable_pair (isOperand_realMatrixTerm r c hre).readable
        (isOperand_realMatrixTerm r c him).readable)
    | real | int | bool => exact isOperand_realMatrixTerm r c h

theorem isOperand_realElement {s : Shape} (hd : s.length? ≠ none) (i : Nat) {base : Term}
    (h : base.Readable) : (Synth.realElement s i base).IsOperand := by
  have hrow : ∀ k : Nat, IsWord s!"a{k}" := isWord_numbered (by decide)
  cases s with
  | scalar k => exact absurd rfl hd
  | vector n k =>
    simp only [Synth.realElement]
    split
    · exact isOperand_group h
    · split
      · exact isOperand_index (.group h) rfl i
      · exact isOperand_index (isOperand_part h (hrow _)).readable rfl _
  | matrix r c k =>
    simp only [Synth.realElement]
    split
    · refine isOperand_nativeVector fun t ht => ?_
      obtain ⟨k, -, rfl⟩ := List.mem_map.1 ht
      exact (isOperand_index (isOperand_index (.group h) rfl k).readable rfl i).readable
    · exact isOperand_part h (hrow i)

theorem isOperand_elementTerm {s : Shape} (hd : s.length? ≠ none) (i : Nat) {base : Term}
    (h : base.Readable) : (Synth.elementTerm s i base).IsOperand := by
  have hdpart : s.part.length? ≠ none := by
    cases s with
    | scalar k => exact absurd rfl hd
    | vector n k | matrix r c k => exact nofun
  have hpart : ∀ field, IsWord field → (Synth.realElement s.part i (base.part field)).Readable :=
    fun field hf => (isOperand_realElement hdpart i (isOperand_part h hf).readable).readable
  rw [Synth.elementTerm.eq_def]
  split
  · exact isOperand_call (Shape.isWord_name _)
      (readable_pair (hpart "real" (by decide))
        (hpart "imag" (by decide)))
  · exact isOperand_realElement hd i h

theorem isOperand_dotTerm (n : Nat) {a b : Term} (ha : a.IsOperand) (hb : b.IsOperand) :
    (Synth.dotTerm n a b).IsOperand := by
  refine isOperand_call ?_ (readable_pair ha.readable hb.readable)
  split
  · decide
  · exact Operation.isWord_helperName _ _

theorem isOperand_matVecTerm (r c : Nat) {m v : Term} (hm : m.IsOperand) (hv : v.IsOperand) :
    (Synth.matVecTerm r c m v).IsOperand := by
  rw [Synth.matVecTerm]
  split
  · exact isOperand_grouped rfl hm hv
  · exact isOperand_call (Operation.isWord_helperName _ _) (readable_pair hm.readable hv.readable)

theorem isOperand_sumTerm {s : Shape} (hv : s.Valid) {a : Term} (ha : a.IsOperand) :
    (sumTerm s a).IsOperand := by
  rw [sumTerm.eq_def]
  split
  · exact isOperand_dotTerm _ ha (isOperand_filled (isOperand_literal _) hv)
  · exact isOperand_call (Operation.isWord_helperName _ _) fun t ht =>
      List.mem_singleton.1 ht ▸ ha.readable

/-! ## Bodies of items -/

theorem isOperand_a : (Term.name "a").IsOperand :=
  isOperand_name (by decide)

theorem isOperand_b : (Term.name "b").IsOperand :=
  isOperand_name (by decide)

/-- A member of a parameter. -/
theorem isOperand_memberOf {x : String} (hx : IsWord x) {field : String} (hf : IsWord field) :
    (Term.member (.name x) field).IsOperand :=
  isOperand_member (.name hx) rfl hf

/-- A function of one expression of two parameters. -/
theorem readable_expression {result name a b : String} (hr : IsWord result) (hne : result ≠ "struct")
    (hn : IsWord name) (ha : IsWord a) (hb : IsWord b) {t : Term} (ht : t.Readable) :
    (Declaration.function result name [⟨a, "a"⟩, ⟨b, "b"⟩] (.expression t)).Readable := by
  refine .function hr hne hn (fun binder hbinder => ?_) fun s hs => ?_
  · rcases List.mem_cons.1 hbinder with rfl | hbinder
    · exact ⟨ha, show IsWord "a" by decide⟩
    · rw [List.mem_singleton.1 hbinder]
      exact ⟨hb, show IsWord "b" by decide⟩
  · rw [List.mem_singleton.1 hs]
    exact .yield ht

theorem readable_struct {s : Shape} (hs : s.IsRecord) : (Item.struct s).body.Readable := by
  refine .struct s.isWord_name fun b hb => ?_
  obtain ⟨m, hm, rfl⟩ := List.mem_map.1 hb
  exact ⟨m.2.isWord_name, isWord_member hs hm⟩

theorem readable_entrywise (op : Entrywise) {s : Shape} (hs : s.IsRecord) :
    (op.item s).body.Readable := by
  have hleft : IsWord (op.leftType s) := by
    cases op with
    | add | sub => exact s.isWord_name
    | scale => exact Shape.real.isWord_name
  rw [op.item_body]
  refine readable_expression s.isWord_name (s.name_ne (by decide)) (Operation.isWord_helperName _ _) hleft
    s.isWord_name (isOperand_call s.isWord_name fun t ht => ?_).readable
  obtain ⟨m, hm, rfl⟩ := List.mem_map.1 ht
  have hpart : (op.leftPart m.1).IsOperand := by
    cases op with
    | add | sub => exact isOperand_memberOf (by decide) (isWord_member hs hm)
    | scale => exact isOperand_a
  exact (isOperand_combined op m.2 hpart
    (isOperand_memberOf (by decide) (isWord_member hs hm))).readable

/-- A sum of calls without parentheses. -/
theorem readable_total {ts : List Term} (h : ∀ t ∈ ts, t.IsOperand) : (Term.total ts).Readable := by
  have hfold : ∀ (ts : List Term) (t : Term), t.Readable → t.rank ≤ 3 → (∀ u ∈ ts, u.IsOperand) →
      (ts.foldl (.binary .tight .plus) t).Readable := by
    intro ts
    induction ts with
    | nil => exact fun t ht _ _ => ht
    | cons u ts ih =>
      intro t ht hrank hts
      have hu := hts u List.mem_cons_self
      have hsum : (Term.binary .tight .plus t u).Readable :=
        .binary rfl ht hu.readable hrank (Nat.lt_of_le_of_lt hu.rank_le (by decide))
      exact ih _ hsum (Nat.le_refl 3) fun x hx => hts x (List.mem_cons_of_mem _ hx)
  cases ts with
  | nil => exact .literal _
  | cons t ts =>
    have ht := h t List.mem_cons_self
    exact hfold ts t ht.readable (Nat.le_trans ht.rank_le (by decide))
      fun u hu => h u (List.mem_cons_of_mem _ hu)

theorem readable_dot {n : Nat} (hs : (Shape.realVector n).IsRecord) :
    (Item.helper .dot (.realVector n)).body.Readable := by
  refine readable_expression (Shape.isWord_name _) (Shape.name_ne _ (by decide))
    (Operation.isWord_helperName _ _) (Shape.isWord_name _) (Shape.isWord_name _)
    (readable_total fun t ht => ?_)
  obtain ⟨m, hm, rfl⟩ := List.mem_map.1 ht
  have hword := isWord_member hs hm
  exact isOperand_call (by decide) (readable_pair (isOperand_memberOf (by decide) hword).readable
    (isOperand_memberOf (by decide) hword).readable)

theorem readable_matVec (r c : Nat) : (Item.matVecBody r c).Readable := by
  refine readable_expression (Shape.isWord_name _) (Shape.name_ne _ (by decide))
    (Operation.isWord_helperName _ _) (Shape.isWord_name _) (Shape.isWord_name _)
    (isOperand_realVectorTerm r fun t ht => ?_).readable
  obtain ⟨k, -, rfl⟩ := List.mem_map.1 ht
  exact (isOperand_dotTerm c (isOperand_memberOf (by decide) (isWord_numbered (by decide) k))
    isOperand_b).readable

theorem readable_sum {s : Shape} (h : Operation.sum.HasHelper s) :
    (Item.helper .sum s).body.Readable := by
  obtain ⟨e, n, he, hn, hev, -⟩ := Operation.HasHelper.sum h
  have hbody : (Item.helper .sum s).body = Item.sumBody s e n := by
    rw [Item.body, he, hn]
    rfl
  rw [hbody]
  refine .function e.isWord_name (e.name_ne (by decide)) (Operation.isWord_helperName _ _) ?_ ?_
  · intro b hb
    rw [List.mem_singleton.1 hb]
    exact ⟨s.isWord_name, show IsWord "a" by decide⟩
  · intro line hline
    rw [Glsl.Body.statements, Item.flatten_sumLines, List.mem_cons, List.mem_append, List.mem_map,
      List.mem_singleton] at hline
    rcases hline with rfl | ⟨t, ht, rfl⟩ | rfl
    · exact .define e.isWord_name (e.name_ne (by decide)) (by decide)
        (isOperand_filled (isOperand_literal _) hev).readable
    · obtain ⟨k, -, rfl⟩ := List.mem_map.1 ht
      exact .assign (by decide) (by decide) (isOperand_combined .add e (isOperand_name (by decide))
        (isOperand_elementTerm (by simp [hn]) k isOperand_a.readable)).readable
    · exact .yield (.name (by decide))

/-- A complex number of a difference and a sum. -/
theorem readable_complexPair {a b c d : Term} (ha : a.Readable ∧ a.rank ≤ 2)
    (hb : b.Readable ∧ b.rank ≤ 2) (hc : c.Readable ∧ c.rank ≤ 2) (hd : d.Readable ∧ d.rank ≤ 2) :
    (Term.call .loose "vec2" [.binary .tight .minus a b, .binary .tight .plus c d]).Readable := by
  have hsum : ∀ {op : Glsl.Operator} {x y : Term}, op.isArithmetic → op.level = 3 →
      x.Readable ∧ x.rank ≤ 2 → y.Readable ∧ y.rank ≤ 2 → (Term.binary .tight op x y).Readable :=
    fun hop hlevel hx hy => .binary hop hx.1 hy.1 (by rw [hlevel]; exact Nat.le_succ_of_le hx.2)
      (by rw [hlevel]; exact Nat.lt_succ_of_le hy.2)
  exact .call (by decide) (readable_pair (hsum rfl rfl ha hb) (hsum rfl rfl hc hd))

theorem readable_complexMul : Item.complexMulBody.Readable := by
  have hproduct : ∀ x y : String, IsWord x → IsWord y →
      (Term.binary .tight .times (.member (.name "a") x) (.member (.name "b") y)).Readable ∧
        (Term.binary .tight .times (.member (.name "a") x) (.member (.name "b") y)).rank ≤ 2 :=
    fun x y hx hy => ⟨.binary rfl (isOperand_memberOf (by decide) hx).readable
      (isOperand_memberOf (by decide) hy).readable (Nat.zero_le _) (Nat.zero_lt_succ _), Nat.le_refl 2⟩
  exact readable_expression (by decide) (by decide) (Operation.isWord_helperName _ _) (by decide)
    (by decide) (readable_complexPair (hproduct _ _ (by decide) (by decide))
      (hproduct _ _ (by decide) (by decide)) (hproduct _ _ (by decide) (by decide))
      (hproduct _ _ (by decide) (by decide)))

theorem readable_complexScale (s : Shape) : (Item.complexScaleBody s).Readable := by
  have hmultiple : ∀ x field : String, IsWord x → IsWord field →
      (s.part.combined .scale (.member (.name "a") x) (.member (.name "b") field)).IsOperand :=
    fun x field hx hf => isOperand_combined .scale _ (isOperand_memberOf (by decide) hx)
      (isOperand_memberOf (by decide) hf)
  refine readable_expression s.isWord_name (s.name_ne (by decide)) (Operation.isWord_helperName _ _)
    (by decide) s.isWord_name (.call s.isWord_name (readable_pair ?_ ?_))
  · exact (isOperand_combined .sub _ (hmultiple "x" "real" (by decide) (by decide))
      (hmultiple "y" "imag" (by decide) (by decide))).readable
  · exact (isOperand_combined .add _ (hmultiple "x" "imag" (by decide) (by decide))
      (hmultiple "y" "real" (by decide) (by decide))).readable

theorem readable_complexMatVec (r c : Nat) : (Item.complexMatVecBody r c).Readable := by
  have hproduct : ∀ x y : String, IsWord x → IsWord y →
      (Synth.matVecTerm r c (.member (.name "a") x) (.member (.name "b") y)).IsOperand :=
    fun x y hx hy => isOperand_matVecTerm r c (isOperand_memberOf (by decide) hx)
      (isOperand_memberOf (by decide) hy)
  refine readable_expression (Shape.isWord_name _) (Shape.name_ne _ (by decide))
    (Operation.isWord_helperName _ _) (Shape.isWord_name _) (Shape.isWord_name _)
    (.call (Shape.isWord_name _) (readable_pair ?_ ?_))
  · exact (isOperand_combined .sub _ (hproduct "real" "real" (by decide) (by decide))
      (hproduct "imag" "imag" (by decide) (by decide))).readable
  · exact (isOperand_combined .add _ (hproduct "real" "imag" (by decide) (by decide))
      (hproduct "imag" "real" (by decide) (by decide))).readable

theorem readable_complexDot (n : Nat) : (Item.complexDotBody n).Readable := by
  have hproduct : ∀ x y : String, IsWord x → IsWord y →
      (Synth.dotTerm n (.member (.name "a") x) (.member (.name "b") y)).Readable ∧
        (Synth.dotTerm n (.member (.name "a") x) (.member (.name "b") y)).rank ≤ 2 :=
    fun x y hx hy => ⟨(isOperand_dotTerm n (isOperand_memberOf (by decide) hx)
      (isOperand_memberOf (by decide) hy)).readable, Nat.zero_le _⟩
  exact readable_expression (by decide) (by decide) (Operation.isWord_helperName _ _)
    (Shape.isWord_name _) (Shape.isWord_name _) (readable_complexPair
      (hproduct _ _ (by decide) (by decide)) (hproduct _ _ (by decide) (by decide))
      (hproduct _ _ (by decide) (by decide)) (hproduct _ _ (by decide) (by decide)))

/-- **The body of an item is read back from its text.** -/
theorem Item.readable_body {x : Item} (hx : x.Admissible) : x.body.Readable := by
  cases x with
  | struct s => exact readable_struct hx
  | helper op s =>
    cases op with
    | add => exact readable_entrywise .add hx
    | sub => exact readable_entrywise .sub hx
    | scale => exact readable_entrywise .scale hx
    | matVec => exact readable_matVec _ _
    | dot =>
      obtain ⟨n, rfl, -⟩ := Operation.HasHelper.dot hx
      exact readable_dot hx.1
    | sum => exact readable_sum hx
    | complexMul => exact readable_complexMul
    | complexScale => exact readable_complexScale s
    | complexMatVec => exact readable_complexMatVec _ _
    | complexDot => exact readable_complexDot _

/-! ## Translated terms -/

theorem Multiplies.isOperand {items : List Item} {l r : Term} {ls rs : Shape} {t : Typed}
    (hl : l.IsOperand) (hr : r.IsOperand) (h : Multiplies items l r ls rs t) : t.term.IsOperand := by
  cases h with
  | realReal | realComplex | complexReal => exact isOperand_grouped rfl hl hr
  | scale => exact isOperand_combined .scale _ hl hr
  | scaleRight => exact isOperand_combined .scale _ hr hl
  | complexComplex | complexScale | complexMatVec | complexDot =>
    exact isOperand_call (Operation.isWord_helperName _ _) (readable_pair hl.readable hr.readable)
  | complexScaleRight =>
    exact isOperand_call (Operation.isWord_helperName _ _) (readable_pair hr.readable hl.readable)
  | matVec => exact isOperand_matVecTerm _ _ hl hr
  | dot => exact isOperand_dotTerm _ hl hr

theorem isOperand_promote {t : Term} (h : t.IsOperand) : (Compile.promote t).IsOperand :=
  isOperand_call (by decide) (readable_pair h.readable (.literal _))

theorem Combines.isOperand {items : List Item} {op : Binary} {l r t : Typed} (hl : l.term.IsOperand)
    (hr : r.term.IsOperand) (h : Combines items op l r t) : t.term.IsOperand := by
  cases h with
  | same => exact isOperand_combined _ _ hl hr
  | @promoteLeft _ w => exact isOperand_combined w .complex (isOperand_promote hl) hr
  | @promoteRight _ w => exact isOperand_combined w .complex hl (isOperand_promote hr)
  | mul _ hm | dot _ _ hm => exact hm.isOperand hl hr

theorem isOperand_promoteAll {ts : List Typed} (h : ∀ t ∈ ts, t.term.IsOperand) :
    ∀ t ∈ Compile.promoteAll ts, t.term.IsOperand := by
  rw [Compile.promoteAll]
  split
  · intro t ht
    obtain ⟨u, hu, rfl⟩ := List.mem_map.1 ht
    split
    · exact isOperand_promote (h u hu)
    · exact h u hu
  · exact h

theorem isOperand_point {p : Point} {t : Term} (h : Textures.point p = .ok t) : t.IsOperand := by
  obtain ⟨d, d', -, -, rfl⟩ := point_eq_ok h
  exact isOperand_call (by decide) (readable_pair (.literal d) (.literal d'))

theorem Reads.isOperand {Γ : Context} {channels : Channels} {name : String} {a b p : Term} {t : Typed}
    (ha : a.IsOperand) (hb : b.IsOperand) (hp : p.IsOperand) (h : Reads Γ channels name a b p t) :
    t.term.IsOperand := by
  cases h with
  | available h =>
    have hname : IsWord (channels.reader name) := by
      have hid := (isWord_of_isIdentifier h.1).nameParts
      cases channels with
      | rgba => exact (show IsWord "_imagergba_" by decide).append hid
      | rgb => exact (show IsWord "_imagergb_" by decide).append hid
    refine isOperand_call hname fun t ht => ?_
    rcases List.mem_cons.1 ht with rfl | ht
    · exact ha.readable
    · exact readable_pair hb.readable hp.readable t ht
  | unavailable =>
    refine isOperand_filled (isOperand_literal _) ?_
    cases channels <;> exact Shape.realVector_valid (by decide)

mutual

/-- **A translated term is read back from its text.** -/
theorem Translates.isOperand {Γ : Context} : ∀ {e : Expr} {t : Typed}, Translates Γ e t →
    t.term.IsOperand
  | _, _, .real _ => isOperand_literal _
  | _, _, .complex _ _ => isOperand_call (by decide) (readable_pair (.literal _) (.literal _))
  | _, _, .list hts _ hs _ =>
    isOperand_constructTerm (by rw [(Compile.listShape_valid hs).2.1]; exact Option.some_ne_none _)
      fun t ht => by
        obtain ⟨u, hu, rfl⟩ := List.mem_map.1 ht
        exact (isOperand_promoteAll hts.isOperand u hu).readable
  | _, _, .uniform hn _ _ _ => isOperand_name (isWord_of_isIdentifier hn.1)
  | _, _, .pixel => isOperand_name (by decide)
  | _, _, .binary hl hr hc => hc.isOperand hl.isOperand hr.isOperand
  | _, _, .sum ht hv _ _ _ => isOperand_sumTerm hv ht.isOperand
  | _, _, .element ht _ _ hn _ _ => isOperand_elementTerm (hn ▸ nofun) _ ht.isOperand.readable
  | _, _, .image hp _ ha hb hr => hr.isOperand (isOperand_point ha) (isOperand_point hb) hp.isOperand
  | _, _, .imageOn hp _ ha _ hb _ hr => hr.isOperand ha.isOperand hb.isOperand hp.isOperand

theorem TranslatesAll.isOperand {Γ : Context} : ∀ {es : List Expr} {ts : List Typed},
    TranslatesAll Γ es ts → ∀ t ∈ ts, t.term.IsOperand
  | _, _, .nil => fun t ht => nomatch ht
  | _, _, .cons h hs => fun t ht => by
    rcases List.mem_cons.1 ht with rfl | ht
    · exact h.isOperand
    · exact hs.isOperand t ht

end

end ShaderAlgebra
