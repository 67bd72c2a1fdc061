import ShaderAlgebra.Proofs.Readability

/-!
# Two signs in a row

A GLSL lexer takes as much as it can for one lexeme, so two minus signs in a row are a decrement, and two
plus signs an increment.  Here is where such pairs can be in the text of a term or of a declaration.

Whatever stands between parentheses, commas, blanks or points is kept apart from its surroundings,
so a pair is inside of an operand.  Only an operator that is written close to its right operand can make one,
with the sign of that operand (`hasPair_grouped`).  And only a negative literal begins with a sign
(`head?_eq_sign`).
-/

namespace ShaderAlgebra

/-- A character stands twice in a row. -/
def HasPair (c : Char) (cs : List Char) : Prop :=
  [c, c] <:+: cs

instance (c : Char) (cs : List Char) : Decidable (HasPair c cs) :=
  inferInstanceAs (Decidable ([c, c] <:+: cs))

/-- The signs that are other lexemes when they stand twice. -/
def signs : List Char :=
  ['+', '-']

section Pairs

variable {c : Char} {xs ys s : List Char}

theorem hasPair_cons {x : Char} :
    HasPair c (x :: xs) ↔ HasPair c xs ∨ x = c ∧ xs.head? = some c := by
  rw [HasPair, List.infix_cons_iff, List.cons_prefix_cons, HasPair, or_comm, eq_comm (a := c)]
  refine or_congr_right (and_congr_right fun _ => ?_)
  cases xs with
  | nil => simp
  | cons y ys => simp [List.cons_prefix_cons, eq_comm]

theorem not_hasPair_nil : ¬ HasPair c [] := by
  simp [HasPair]

/-- A pair in a text is in one of its halves, or where they meet. -/
theorem hasPair_append : HasPair c (xs ++ ys) ↔
    HasPair c xs ∨ HasPair c ys ∨ xs.getLast? = some c ∧ ys.head? = some c := by
  induction xs with
  | nil => simp [not_hasPair_nil]
  | cons x xs ih =>
    rw [List.cons_append, hasPair_cons, hasPair_cons, ih]
    cases xs with
    | nil => simp [not_hasPair_nil]
    | cons y xs => simp only [List.cons_append, List.head?_cons, List.getLast?_cons_cons]; tauto

theorem not_hasPair_of_notMem (h : c ∉ xs) : ¬ HasPair c xs := fun hp =>
  h (hp.subset List.mem_cons_self)

/-- A text that begins and ends with other characters. -/
structure Bordered (c : Char) (s : List Char) : Prop where
  ne_nil : s ≠ []
  head_ne : s.head? ≠ some c
  last_ne : s.getLast? ≠ some c

/-- A text that keeps what stands before it apart from what stands behind it. -/
structure Separates (c : Char) (s : List Char) : Prop extends Bordered c s where
  not_hasPair : ¬ HasPair c s

instance (c : Char) (s : List Char) : Decidable (Separates c s) :=
  decidable_of_iff (s ≠ [] ∧ s.head? ≠ some c ∧ s.getLast? ≠ some c ∧ ¬ HasPair c s)
    ⟨fun ⟨h₁, h₂, h₃, h₄⟩ => ⟨⟨h₁, h₂, h₃⟩, h₄⟩, fun ⟨⟨h₁, h₂, h₃⟩, h₄⟩ => ⟨h₁, h₂, h₃, h₄⟩⟩

theorem separates_of_notMem (h : c ∉ s) (hne : s ≠ []) : Separates c s :=
  ⟨⟨hne, fun hh => h (List.mem_of_mem_head? hh), fun hl => h (List.mem_of_mem_getLast? hl)⟩,
    not_hasPair_of_notMem h⟩

/-- A text takes its borders from its first part and its last. -/
theorem bordered_append (hx : xs ≠ []) (hhead : xs.head? ≠ some c) (hy : ys ≠ [])
    (hlast : ys.getLast? ≠ some c) : Bordered c (xs ++ ys) :=
  ⟨by simp [hx], by rwa [List.head?_append_of_ne_nil _ hx],
    by rwa [List.getLast?_append_of_ne_nil _ hy]⟩

/-- A text by itself. -/
theorem separates_fixed (h : Separates '+' s ∧ Separates '-' s) (hc : c ∈ signs) : Separates c s := by
  rcases List.mem_pair.1 hc with rfl | rfl
  · exact h.1
  · exact h.2

theorem Separates.before (h : Separates c s) : HasPair c (s ++ ys) ↔ HasPair c ys := by
  simp [hasPair_append, h.not_hasPair, h.last_ne]

theorem Separates.behind (h : Separates c s) : HasPair c (xs ++ s) ↔ HasPair c xs := by
  simp [hasPair_append, h.not_hasPair, h.head_ne]

theorem Separates.append {s' : List Char} (h : Separates c s) (h' : Separates c s') :
    Separates c (s ++ s') := by
  refine ⟨bordered_append h.ne_nil h.head_ne h'.ne_nil h'.last_ne, ?_⟩
  rw [h.before]
  exact h'.not_hasPair

theorem Separates.between (h : Separates c s) :
    HasPair c (xs ++ (s ++ ys)) ↔ HasPair c xs ∨ HasPair c ys := by
  obtain ⟨d, s', rfl⟩ := List.exists_cons_of_ne_nil h.ne_nil
  have hd : d ≠ c := by simpa using h.head_ne
  rw [hasPair_append, h.before, List.cons_append, List.head?_cons]
  simp [hd]

theorem Separates.intercalate (h : Separates c s) (xss : List (List Char)) :
    HasPair c (s.intercalate xss) ↔ ∃ xs ∈ xss, HasPair c xs := by
  induction xss with
  | nil => simp [not_hasPair_nil]
  | cons xs xss ih =>
    cases xss with
    | nil => simp
    | cons ys xss =>
      rw [List.intercalate_cons_cons, List.append_assoc, h.between, ih,
        List.exists_mem_cons_iff _ xs (ys :: xss)]

/-- Texts that end the same way one after the other. -/
theorem Separates.flatMap {α : Type} (h : Separates c s) (f : α → List Char) (l : List α) :
    HasPair c (l.flatMap fun x => f x ++ s) ↔ ∃ x ∈ l, HasPair c (f x) := by
  induction l with
  | nil => simp [not_hasPair_nil]
  | cons x l ih =>
    rw [List.flatMap_cons, List.append_assoc, h.between, ih, List.exists_mem_cons_iff]

end Pairs

namespace Glsl

variable {c : Char}

/-! ## Words and literals -/

theorem isNamePart_not_sign {d : Char} (h : isNamePart d) (hc : c ∈ signs) : d ≠ c := by
  rintro rfl
  rcases List.mem_pair.1 hc with rfl | rfl <;> exact absurd h (by decide)

theorem isDigit_not_sign {d : Char} (h : d.isDigit) (hc : c ∈ signs) : d ≠ c :=
  isNamePart_not_sign (isDigit_isNamePart h) hc

theorem IsWord.sign_notMem {name : String} (h : IsWord name) (hc : c ∈ signs) : c ∉ name.toList :=
  fun hmem => isNamePart_not_sign (List.all_eq_true.1 h.nameParts c hmem) hc rfl

theorem IsWord.ne_nil {name : String} (h : IsWord name) : name.toList ≠ [] := by
  obtain ⟨d, ds, hd, -⟩ := h
  rw [hd]
  exact List.cons_ne_nil _ _

theorem IsWord.separates {name : String} (h : IsWord name) (hc : c ∈ signs) :
    Separates c name.toList :=
  separates_of_notMem (h.sign_notMem hc) h.ne_nil

/-- The text of a numeral begins and ends without a sign, and has none beside another. -/
theorem Numeral.separates (n : Numeral) (hc : c ∈ signs) : Separates c n.chars := by
  obtain ⟨whole, fraction, power, hne, hw, hf, hp⟩ := n
  have hdigits : ∀ {ds : List Char}, (∀ d ∈ ds, d.isDigit) → c ∉ ds := fun h hmem =>
    isDigit_not_sign (h c hmem) hc rfl
  have hmantissa : Separates c (whole ++ fractionChars fraction) := by
    refine separates_of_notMem (fun hmem => ?_) (by simp [hne])
    rcases List.mem_append.1 hmem with hmem | hmem
    · exact hdigits hw hmem
    · cases fraction with
      | none => cases hmem
      | some ds =>
        rcases List.mem_cons.1 hmem with rfl | hmem
        · exact absurd hc (by decide)
        · exact hdigits (hf ds rfl) hmem
  cases power with
  | none => simpa [Numeral.chars, powerChars] using hmantissa
  | some x =>
    obtain ⟨negative, ds⟩ := x
    obtain ⟨hds, hd⟩ := hp _ rfl
    have hsep := separates_of_notMem (hdigits hd) hds
    -- The sign of the exponent stands between its mark and a digit.
    have hmark : ∃ mark : List Char, powerChars (some (negative, ds)) = mark ++ ds ∧
        ¬ HasPair c mark := by
      rcases List.mem_pair.1 hc with rfl | rfl <;> cases negative
      · exact ⟨['e'], rfl, by decide⟩
      · exact ⟨['e', '-'], rfl, by decide⟩
      · exact ⟨['e'], rfl, by decide⟩
      · exact ⟨['e', '-'], rfl, by decide⟩
    obtain ⟨mark, hpow, hpair⟩ := hmark
    have hchars : Numeral.chars ⟨whole, fraction, some (negative, ds), hne, hw, hf, hp⟩ =
        (whole ++ fractionChars fraction) ++ (mark ++ ds) := by
      simp [Numeral.chars, hpow]
    rw [hchars]
    refine ⟨bordered_append hmantissa.ne_nil hmantissa.head_ne (by simp [hds]) ?_, ?_⟩
    · rw [List.getLast?_append_of_ne_nil _ hds]
      exact hsep.last_ne
    · rw [hmantissa.before, hsep.behind]
      exact hpair

theorem Operator.toList_tight {op : Operator} (h : op.isArithmetic) :
    (op.text .tight).toList = [op.symbol] := by
  cases op with
  | plus | minus | times => rfl
  | divide | atMost | and => cases h

namespace Term

/-- The terms that begin with a minus sign of their own: negative literals. -/
def isNegative : Term → Bool
  | literal d => d.negative
  | _ => false

theorem chars_literal (d : Decimal) : ∃ n : Numeral,
    (literal d).chars = if d.negative then '-' :: n.chars else n.chars := by
  obtain ⟨n, hn, -⟩ := exists_numeral_literal d
  refine ⟨n, ?_⟩
  rw [← hn]
  simp [chars, text, write]

theorem not_hasPair_literal (d : Decimal) (hc : c ∈ signs) : ¬ HasPair c (literal d).chars := by
  obtain ⟨n, hn⟩ := chars_literal d
  have hsep := n.separates hc
  rw [hn]
  split
  · rw [hasPair_cons]
    rintro (h | ⟨-, h⟩)
    · exact hsep.not_hasPair h
    · exact hsep.head_ne h
  · exact hsep.not_hasPair

/-! ## Pairs in terms -/

theorem not_hasPair_name {id : String} (h : IsWord id) (hc : c ∈ signs) : ¬ HasPair c (name id).chars := by
  have hchars : (name id).chars = id.toList := by simp [chars, text, write]
  rw [hchars]
  exact (h.separates hc).not_hasPair

theorem hasPair_member {base : Term} {field : String} (hf : IsWord field) (hc : c ∈ signs) :
    HasPair c (member base field).chars ↔ HasPair c base.chars := by
  rw [chars_member]
  refine (separates_of_notMem (fun hmem => ?_) (List.cons_ne_nil _ _)).behind
  rcases List.mem_cons.1 hmem with rfl | hmem
  · exact absurd hc (by decide)
  · exact hf.sign_notMem hc hmem

theorem hasPair_index {base : Term} {i : Nat} (hc : c ∈ signs) :
    HasPair c (index base i).chars ↔ HasPair c base.chars := by
  rw [chars_index]
  refine (separates_of_notMem (fun hmem => ?_) (List.cons_ne_nil _ _)).behind
  rw [Nat.toString_eq_repr, Nat.toList_repr, List.mem_cons, List.mem_append, List.mem_singleton] at hmem
  rcases hmem with rfl | hmem | rfl
  · exact absurd hc (by decide)
  · exact isDigit_not_sign (digitsOf_digits i c hmem) hc rfl
  · exact absurd hc (by decide)

theorem separates_comma (spacing : Spacing) (hc : c ∈ signs) : Separates c spacing.comma.toList :=
  separates_fixed (by cases spacing <;> decide) hc

/-- The arguments of a call are kept apart. -/
theorem hasPair_call {spacing : Spacing} {f : String} {args : List Term} (hf : IsWord f)
    (hc : c ∈ signs) : HasPair c (call spacing f args).chars ↔ ∃ t ∈ args, HasPair c t.chars := by
  have hopen : Separates c ['('] := separates_fixed (by decide) hc
  have hclose : Separates c [')'] := separates_fixed (by decide) hc
  rw [chars_call, (hf.separates hc).before, ← List.singleton_append, hopen.before, hclose.behind,
    (separates_comma spacing hc).intercalate]
  simp

theorem hasPair_group {t : Term} (hc : c ∈ signs) : HasPair c (group t).chars ↔ HasPair c t.chars := by
  have hopen : Separates c ['('] := separates_fixed (by decide) hc
  have hclose : Separates c [')'] := separates_fixed (by decide) hc
  rw [chars_group, ← List.singleton_append, hopen.before, hclose.behind]

theorem hasPair_part {t : Term} {field : String} (hf : IsWord field) (hc : c ∈ signs) :
    HasPair c (t.part field).chars ↔ HasPair c t.chars := by
  rw [part, hasPair_member hf hc, hasPair_group hc]

/-- An operator with blanks around it keeps its operands apart. -/
theorem hasPair_loose {op : Operator} {a b : Term} (hc : c ∈ signs) :
    HasPair c (binary .loose op a b).chars ↔ HasPair c a.chars ∨ HasPair c b.chars := by
  have hsep : Separates c (op.text .loose).toList := separates_fixed (by cases op <;> decide) hc
  rw [chars_binary, hsep.between]

/-! ## The ends of terms -/

/-- The terms without an operator at their top: places and literals. -/
def isAtom : Term → Bool
  | literal _ => true
  | t => t.isPlace

theorem isAtom_of_isPlace {t : Term} (h : t.isPlace) : t.isAtom := by
  cases t with
  | raw | literal | binary | negate => cases h
  | name | member | index | call | group => rfl

theorem isNegative_of_isPlace {t : Term} (h : t.isPlace) : t.isNegative = false := by
  cases t with
  | literal => cases h
  | raw | name | member | index | call | binary | negate | group => rfl

theorem isAtom_cases {t : Term} (h : t.isAtom) : t.isPlace ∨ ∃ d, t = literal d := by
  cases t with
  | literal d => exact .inr ⟨d, rfl⟩
  | raw | name | member | index | call | binary | negate | group => exact .inl h

theorem bordered_name {id : String} (h : IsWord id) (hc : c ∈ signs) : Bordered c (name id).chars := by
  have hchars : (name id).chars = id.toList := by simp [chars, text, write]
  rw [hchars]
  exact (h.separates hc).toBordered

theorem bordered_member {base : Term} {field : String} (hb : Bordered c base.chars)
    (hf : IsWord field) (hc : c ∈ signs) : Bordered c (member base field).chars := by
  have hsep := hf.separates hc
  rw [chars_member]
  refine bordered_append hb.ne_nil hb.head_ne (List.cons_ne_nil _ _) ?_
  rw [← List.singleton_append, List.getLast?_append_of_ne_nil _ hsep.ne_nil]
  exact hsep.last_ne

theorem bordered_index {base : Term} {i : Nat} (hb : Bordered c base.chars) (hc : c ∈ signs) :
    Bordered c (index base i).chars := by
  have hclose : Separates c [']'] := separates_fixed (by decide) hc
  rw [chars_index]
  refine bordered_append hb.ne_nil hb.head_ne (List.cons_ne_nil _ _) ?_
  rw [← List.cons_append, List.getLast?_append_of_ne_nil _ hclose.ne_nil]
  exact hclose.last_ne

theorem bordered_call {spacing : Spacing} {f : String} {args : List Term} (hf : IsWord f)
    (hc : c ∈ signs) : Bordered c (call spacing f args).chars := by
  have hclose : Separates c [')'] := separates_fixed (by decide) hc
  have hsep := hf.separates hc
  rw [chars_call]
  refine bordered_append hsep.ne_nil hsep.head_ne (List.cons_ne_nil _ _) ?_
  rw [← List.cons_append, List.getLast?_append_of_ne_nil _ hclose.ne_nil]
  exact hclose.last_ne

theorem bordered_group {t : Term} (hc : c ∈ signs) : Bordered c (group t).chars := by
  have hopen : Separates c ['('] := separates_fixed (by decide) hc
  have hclose : Separates c [')'] := separates_fixed (by decide) hc
  rw [chars_group, ← List.singleton_append]
  refine bordered_append hopen.ne_nil hopen.head_ne (by simp) ?_
  rw [List.getLast?_append_of_ne_nil _ hclose.ne_nil]
  exact hclose.last_ne

/-- A place begins and ends without a sign. -/
theorem Readable.bordered {t : Term} (h : t.Readable) (hp : t.isPlace) (hc : c ∈ signs) :
    Bordered c t.chars := by
  induction h with
  | raw | literal | binary | negate => cases hp
  | name hw => exact bordered_name hw hc
  | member hb hbp hf ih => exact bordered_member (ih hbp) hf hc
  | index hb hbp ih => exact bordered_index (ih hbp) hc
  | call hf ha ih => exact bordered_call hf hc
  | group ht ih => exact bordered_group hc

/-- **A term that is no operation begins with a sign just if it is a negative literal.** -/
theorem Readable.head?_eq_sign {t : Term} (h : t.Readable) (ha : t.isAtom) (hc : c ∈ signs) :
    t.chars.head? = some c ↔ c = '-' ∧ t.isNegative := by
  rcases isAtom_cases ha with hp | ⟨d, rfl⟩
  · simp [(h.bordered hp hc).head_ne, isNegative_of_isPlace hp]
  · obtain ⟨n, hn⟩ := chars_literal d
    rw [hn, isNegative]
    cases d.negative with
    | true => simp [eq_comm]
    | false => simpa using (n.separates hc).head_ne

theorem Readable.getLast?_ne_sign {t : Term} (h : t.Readable) (ha : t.isAtom) (hc : c ∈ signs) :
    t.chars.getLast? ≠ some c := by
  rcases isAtom_cases ha with hp | ⟨d, rfl⟩
  · exact (h.bordered hp hc).last_ne
  · obtain ⟨n, hn⟩ := chars_literal d
    have hsep := n.separates hc
    rw [hn]
    split
    · rw [← List.singleton_append, List.getLast?_append_of_ne_nil _ hsep.ne_nil]
      exact hsep.last_ne
    · exact hsep.last_ne

/-- **Where an operator meets its right operand:** two minus signs are next to each other if the operand
is a negative literal. -/
theorem hasPair_grouped {op : Operator} (hop : op.isArithmetic) {a b : Term} (ha : a.Readable)
    (haa : a.isAtom) (hb : b.Readable) (hba : b.isAtom) (hc : c ∈ signs) :
    HasPair c (grouped op a b).chars ↔
      HasPair c a.chars ∨ HasPair c b.chars ∨ c = '-' ∧ op = .minus ∧ b.isNegative := by
  have hsymbol : op.symbol = c ∧ c = '-' ↔ c = '-' ∧ op = .minus := by
    cases op with
    | plus | times => simp [Operator.symbol]; rintro rfl; decide
    | minus => simp [Operator.symbol, eq_comm]
    | divide | atMost | and => cases hop
  rw [grouped, hasPair_group hc, chars_binary, Operator.toList_tight hop, hasPair_append,
    List.singleton_append, hasPair_cons, hb.head?_eq_sign hba hc, ← and_assoc, hsymbol, and_assoc]
  simp [ha.getLast?_ne_sign haa hc]

/-! ## Terms without pairs

Operands that begin and end without a sign and have no pairs make up others of that kind. -/

theorem separates_name {id : String} (h : IsWord id) (hc : c ∈ signs) : Separates c (name id).chars :=
  ⟨bordered_name h hc, not_hasPair_name h hc⟩

theorem separates_member {base : Term} {field : String} (hb : Separates c base.chars)
    (hf : IsWord field) (hc : c ∈ signs) : Separates c (member base field).chars :=
  ⟨bordered_member hb.toBordered hf hc, by rw [hasPair_member hf hc]; exact hb.not_hasPair⟩

theorem separates_call {spacing : Spacing} {f : String} {args : List Term} (hf : IsWord f)
    (ha : ∀ t ∈ args, ¬ HasPair c t.chars) (hc : c ∈ signs) : Separates c (call spacing f args).chars :=
  ⟨bordered_call hf hc, by rw [hasPair_call hf hc]; exact fun ⟨t, ht, hp⟩ => ha t ht hp⟩

theorem separates_group {t : Term} (h : ¬ HasPair c t.chars) (hc : c ∈ signs) :
    Separates c (group t).chars :=
  ⟨bordered_group hc, by rwa [hasPair_group hc]⟩

theorem separates_tight {op : Operator} (hop : op.isArithmetic) {a b : Term}
    (ha : Separates c a.chars) (hb : Separates c b.chars) :
    Separates c (binary .tight op a b).chars := by
  rw [chars_binary, Operator.toList_tight hop]
  refine ⟨bordered_append ha.ne_nil ha.head_ne (by simp) ?_, ?_⟩
  · rw [List.getLast?_append_of_ne_nil _ hb.ne_nil]
    exact hb.last_ne
  · rw [ha.before, List.singleton_append, hasPair_cons]
    exact not_or.2 ⟨hb.not_hasPair, fun h => hb.head_ne h.2⟩

end Term

/-! ## Pairs in statements and declarations -/

namespace Statement

/-- The types and variables that a statement names. -/
def words : Statement → List String
  | define type name _ => [type, name]
  | assign name _ | decrease name _ => [name]
  | returnIf _ _ | yield _ => []

/-- The terms of a statement. -/
def terms : Statement → List Term
  | define _ _ value | assign _ value | decrease _ value | yield value => [value]
  | returnIf condition value => [condition, value]

theorem Readable.isWord {s : Statement} (h : s.Readable) : ∀ word ∈ s.words, IsWord word := by
  cases h with
  | define ht hne hn hv => exact List.forall_mem_cons.2 ⟨ht, List.forall_mem_singleton.2 hn⟩
  | assign hn hne hv => exact List.forall_mem_singleton.2 hn
  | yield hv => exact fun _ h => nomatch h

/-- A statement has a pair only in its terms. -/
theorem not_hasPair {s : Statement} (hw : ∀ word ∈ s.words, IsWord word)
    (ht : ∀ t ∈ s.terms, ¬ HasPair c t.chars) (hc : c ∈ signs) : ¬ HasPair c s.text.toList := by
  have hblank : Separates c [' '] := separates_fixed (by decide) hc
  have hequals : Separates c ['=', ' '] := separates_fixed (by decide) hc
  have hend : Separates c [';'] := separates_fixed (by decide) hc
  have hword : ∀ word ∈ s.words, Separates c word.toList := fun word h => (hw word h).separates hc
  cases s with
  | define type name value =>
    have htype := hword type (by simp [words])
    have hname := hword name (by simp [words])
    rw [toList_define, (htype.append hblank).before, (hname.append hblank).before, hequals.before,
      hend.behind]
    exact ht value (by simp [terms])
  | assign name value =>
    have hname := hword name (by simp [words])
    rw [toList_assign, (hname.append hblank).before, hequals.before, hend.behind]
    exact ht value (by simp [terms])
  | decrease name value =>
    have hname := hword name (by simp [words])
    have hless : Separates c " -= ".toList := separates_fixed (by decide) hc
    have htext : (decrease name value).text.toList =
        (name.toList ++ " -= ".toList) ++ (value.chars ++ [';']) := by
      rw [text, String.toList_append, Term.toList_write]
      simp [Term.chars, Term.text]
    rw [htext, (hname.append hless).before, hend.behind]
    exact ht value (by simp [terms])
  | returnIf condition value =>
    have hif : Separates c "if (".toList := separates_fixed (by decide) hc
    have hthen : Separates c ")\n        return ".toList := separates_fixed (by decide) hc
    have htext : (returnIf condition value).text.toList = "if (".toList ++
        (condition.chars ++ (")\n        return ".toList ++ (value.chars ++ [';']))) := by
      rw [text, String.toList_append, Term.toList_write, String.toList_append, Term.toList_write]
      simp [Term.chars, Term.text]
    rw [htext, hif.before, hthen.between, hend.behind]
    exact not_or.2 ⟨ht condition (by simp [terms]), ht value (by simp [terms])⟩
  | yield value =>
    have hreturn : Separates c ("return".toList ++ [' ']) := separates_fixed (by decide) hc
    rw [toList_yield, hreturn.before, hend.behind]
    exact ht value (by simp [terms])

end Statement

/-- A body has a pair only in its statements. -/
theorem Body.not_hasPair {b : Body} (h : ∀ s ∈ b.statements, ¬ HasPair c s.text.toList)
    (hc : c ∈ signs) : ¬ HasPair c b.text.toList := by
  have hopen : Separates c ['\x7b'] := separates_fixed (by decide) hc
  have hclose : Separates c ['\x7d'] := separates_fixed (by decide) hc
  have hblank : Separates c [' '] := separates_fixed (by decide) hc
  have hbreak : Separates c ['\n'] := separates_fixed (by decide) hc
  cases b with
  | expression value =>
    rw [toList_expression, hopen.before, hblank.before, (hblank.append hclose).behind]
    exact h _ List.mem_cons_self
  | block lines =>
    have hindent : Separates c [' ', ' ', ' ', ' '] := separates_fixed (by decide) hc
    have hlines : lines.flatMap lineChars = lines.flatMap fun line =>
        ([' ', ' ', ' ', ' '] ++ [' '].intercalate (line.map (·.text.toList))) ++ ['\n'] := by
      simp only [List.append_assoc]
      rfl
    rw [toList_block, hopen.before, hbreak.before, hclose.behind, hlines, hbreak.flatMap]
    rintro ⟨line, hline, hpair⟩
    rw [hindent.before, hblank.intercalate] at hpair
    obtain ⟨_, htext, hpair⟩ := hpair
    obtain ⟨s, hs, rfl⟩ := List.mem_map.1 htext
    exact h s (List.mem_flatten.2 ⟨line, hline, hs⟩) hpair

theorem Binder.Readable.separates {b : Binder} (h : b.Readable) (hc : c ∈ signs) :
    Separates c b.text.toList := by
  have hblank : Separates c [' '] := separates_fixed (by decide) hc
  have htext : b.text.toList = (b.type.toList ++ [' ']) ++ b.name.toList := by
    simp [text]
  rw [htext]
  exact ((h.1.separates hc).append hblank).append (h.2.separates hc)

namespace Declaration

theorem not_hasPair_uniform {b : Binder} (h : b.Readable) (hc : c ∈ signs) :
    ¬ HasPair c (uniform b).text.toList := by
  have hlead : Separates c "uniform ".toList := separates_fixed (by decide) hc
  have hend : Separates c [';'] := separates_fixed (by decide) hc
  have htext : (uniform b).text.toList = "uniform ".toList ++ (b.text.toList ++ [';']) := by
    simp [text]
  rw [htext, hlead.before, hend.behind]
  exact (h.separates hc).not_hasPair

theorem not_hasPair_struct {name : String} {members : List Binder} (hn : IsWord name)
    (hm : ∀ m ∈ members, m.Readable) (hc : c ∈ signs) :
    ¬ HasPair c (struct name members).text.toList := by
  have hlead : Separates c ("struct".toList ++ [' ']) := separates_fixed (by decide) hc
  have hblank : Separates c [' '] := separates_fixed (by decide) hc
  have hopen : Separates c ['\x7b'] := separates_fixed (by decide) hc
  have hclose : Separates c ([' '] ++ (['\x7d'] ++ [';'])) := separates_fixed (by decide) hc
  have hend : Separates c [';'] := separates_fixed (by decide) hc
  rw [toList_struct, hlead.before, ((hn.separates hc).append hblank).before, hopen.before,
    hblank.before, hclose.behind, hblank.intercalate]
  rintro ⟨_, hmem, hpair⟩
  obtain ⟨m, hm', rfl⟩ := List.mem_map.1 hmem
  rw [hend.behind] at hpair
  exact ((hm m hm').separates hc).not_hasPair hpair

theorem not_hasPair_function {result name : String} {parameters : List Binder} {body : Body}
    (hr : IsWord result) (hn : IsWord name) (hp : ∀ b ∈ parameters, b.Readable)
    (hb : ¬ HasPair c body.text.toList) (hc : c ∈ signs) :
    ¬ HasPair c (function result name parameters body).text.toList := by
  have hblank : Separates c [' '] := separates_fixed (by decide) hc
  have hopen : Separates c ['('] := separates_fixed (by decide) hc
  have hclose : Separates c ([')'] ++ [' ']) := separates_fixed (by decide) hc
  have hcomma : Separates c [',', ' '] := separates_fixed (by decide) hc
  rw [toList_function, ((hr.separates hc).append hblank).before, ((hn.separates hc).append hopen).before,
    List.append_assoc, ← List.append_assoc [')'], hclose.between, hcomma.intercalate]
  rintro (⟨_, hmem, hpair⟩ | hpair)
  · obtain ⟨b, hb', rfl⟩ := List.mem_map.1 hmem
    exact ((hp b hb').separates hc).not_hasPair hpair
  · exact hb hpair

/-- The terms of a declaration. -/
def terms : Declaration → List Term
  | uniform _ | struct _ _ => []
  | function _ _ _ body => body.statements.flatMap Statement.terms

/-- A declaration whose terms have no pairs. -/
def Unpaired (c : Char) (d : Declaration) : Prop :=
  ∀ t ∈ d.terms, ¬ HasPair c t.chars

/-- **A declaration has a pair only in its terms.** -/
theorem Unpaired.not_hasPair {d : Declaration} (ht : d.Unpaired c) (h : d.Readable) (hc : c ∈ signs) :
    ¬ HasPair c d.text.toList := by
  cases h with
  | struct hn hm => exact not_hasPair_struct hn hm hc
  | function hr hne hn hp hb =>
    refine not_hasPair_function hr hn hp (Body.not_hasPair (fun s hs => ?_) hc) hc
    exact Statement.not_hasPair (hb s hs).isWord
      (fun t hmem => ht t (List.mem_flatMap.2 ⟨s, hs, hmem⟩)) hc

end Declaration
end Glsl
end ShaderAlgebra
