import Mathlib
import ShaderAlgebra.Glsl.Identifier
import ShaderAlgebra.Decimal.Notation

/-!
# Reading the text of a shader

A text is read into numbers, words and symbols of one character; blanks only set
them apart.  A number is read to the rational that its digits denote, so a literal that is
written is read back without loss (`lex_literal`).  What follows a lexeme
matters: a word ends before a character that cannot stand in a name, and a number before
one that could go on with it.
-/

namespace ShaderAlgebra

/-- The rational that a decimal stands for, without its sign. -/
def Decimal.magnitude (d : Decimal) : ℚ :=
  d.digits * 10 ^ d.exponent

/-- The rational that a decimal stands for. -/
def Decimal.value (d : Decimal) : ℚ :=
  if d.negative then -1 * d.magnitude else d.magnitude

namespace Glsl

/-- A lexeme of a shader. -/
inductive Token where
  | number (value : ℚ)
  | word (name : String)
  | symbol (char : Char)
deriving DecidableEq

/-! ## Numerals -/

/-- The integer after the exponent mark of a numeral. -/
def exponent? (cs : List Char) : Option Int :=
  let digits := fun ds : List Char =>
    if ds ≠ [] ∧ ds.all Char.isDigit then some (Nat.ofDigitChars 10 ds 0 : Int) else none
  match cs with
  | '+' :: ds => digits ds
  | '-' :: ds => (digits ds).map (-·)
  | ds => digits ds

/-- The rational that a numeral denotes: digits, a point among them, and a power of ten. -/
def numeral? (cs : List Char) : Option ℚ :=
  let whole := cs.takeWhile Char.isDigit
  let (fraction, rest) := match cs.dropWhile Char.isDigit with
    | '.' :: ds => (ds.takeWhile Char.isDigit, ds.dropWhile Char.isDigit)
    | ds => ([], ds)
  let power := match rest with
    | [] => some 0
    | mark :: ds => if mark = 'e' ∨ mark = 'E' then exponent? ds else none
  if whole ++ fraction = [] then none
  else power.map fun x : Int =>
    (Nat.ofDigitChars 10 (whole ++ fraction) 0 : ℚ) * 10 ^ (x - fraction.length)

/-- The characters of the exponent that a text starts with, and what follows them. -/
def scanPower : List Char → List Char × List Char
  | mark :: cs =>
    if mark = 'e' ∨ mark = 'E' then
      match cs with
      | '+' :: ds => (mark :: '+' :: ds.takeWhile Char.isDigit, ds.dropWhile Char.isDigit)
      | '-' :: ds => (mark :: '-' :: ds.takeWhile Char.isDigit, ds.dropWhile Char.isDigit)
      | ds => (mark :: ds.takeWhile Char.isDigit, ds.dropWhile Char.isDigit)
    else ([], mark :: cs)
  | [] => ([], [])

/-- The characters in the digits of a numeral. -/
def isMantissa (c : Char) : Bool :=
  c.isDigit || c == '.'

/-- The numeral that a text starts with, and what follows it. -/
def scanNumeral (cs : List Char) : List Char × List Char :=
  let (power, rest) := scanPower (cs.dropWhile isMantissa)
  (cs.takeWhile isMantissa ++ power, rest)

/-- Whether a numeral starts here: at a digit, or at a point before a digit. -/
def startsNumeral : List Char → Bool
  | c :: cs => c.isDigit || (c == '.' && cs.head?.any Char.isDigit)
  | [] => false

/-- The lexeme that a text starts with, or none for a blank, and what follows it. -/
def lexeme? : List Char → Option (List Token × List Char)
  | [] => none
  | c :: cs =>
    if c.isWhitespace then some ([], cs)
    else if startsNumeral (c :: cs) then do
      let q ← numeral? (scanNumeral (c :: cs)).1
      some ([.number q], (scanNumeral (c :: cs)).2)
    else if isNameStart c then
      some ([.word (String.ofList (c :: cs.takeWhile isNamePart))], cs.dropWhile isNamePart)
    else some ([.symbol c], cs)

/-- Lexemes in front of those of a text. -/
def before (ts : List Token) (rest : Option (List Token)) : Option (List Token) :=
  rest.map (ts ++ ·)

/-- An exponent leaves no more than there was. -/
theorem length_scanPower_le (cs : List Char) : (scanPower cs).2.length ≤ cs.length := by
  have hdrop (ds : List Char) : (ds.dropWhile Char.isDigit).length ≤ ds.length :=
    (List.dropWhile_suffix _).length_le
  unfold scanPower
  split
  · rename_i mark cs
    split
    · split
      · exact Nat.le_succ_of_le (Nat.le_succ_of_le (hdrop _))
      · exact Nat.le_succ_of_le (Nat.le_succ_of_le (hdrop _))
      · exact Nat.le_succ_of_le (hdrop _)
    · exact Nat.le_refl _
  · exact Nat.le_refl _

/-- A numeral takes at least its first character. -/
theorem length_scanNumeral_lt {c : Char} {cs : List Char} (h : startsNumeral (c :: cs)) :
    (scanNumeral (c :: cs)).2.length < (c :: cs).length := by
  have hc : isMantissa c := by
    rcases Bool.or_eq_true_iff.1 h with hd | hd
    · simp [isMantissa, hd]
    · simp [isMantissa, (Bool.and_eq_true_iff.1 hd).1]
  have hrest : (cs.dropWhile isMantissa).length ≤ cs.length := (List.dropWhile_suffix _).length_le
  simp only [scanNumeral, List.dropWhile_cons_of_pos hc]
  exact Nat.lt_succ_of_le ((length_scanPower_le _).trans hrest)

/-- A lexeme takes at least one character. -/
theorem length_lexeme?_lt {cs : List Char} {first : List Token × List Char}
    (h : lexeme? cs = some first) : first.2.length < cs.length := by
  cases cs with
  | nil => cases h
  | cons c cs =>
    rw [lexeme?] at h
    split at h
    · obtain rfl := Option.some.inj h
      exact Nat.lt_succ_self _
    · split at h
      · rename_i hnum
        obtain ⟨q, -, hq⟩ := Option.bind_eq_some_iff.1 h
        obtain rfl := Option.some.inj hq
        exact length_scanNumeral_lt hnum
      · split at h
        · obtain rfl := Option.some.inj h
          exact Nat.lt_succ_of_le (List.dropWhile_suffix _).length_le
        · obtain rfl := Option.some.inj h
          exact Nat.lt_succ_self _

/-- The lexemes of a text. -/
def lex (cs : List Char) : Option (List Token) :=
  if cs = [] then some []
  else
    match _hfirst : lexeme? cs with
    | none => none
    | some first => before first.1 (lex first.2)
termination_by cs.length
decreasing_by exact length_lexeme?_lt _hfirst

@[simp] theorem before_nil (rest : Option (List Token)) : before [] rest = rest := by
  cases rest <;> rfl

@[simp] theorem before_before (ts us : List Token) (rest : Option (List Token)) :
    before ts (before us rest) = before (ts ++ us) rest := by
  cases rest <;> simp [before]

/-- A text that cannot go on with a word. -/
def EndsWord (rest : List Char) : Prop :=
  ∀ c ∈ rest.head?, isNamePart c = false

/-- A text that can go on with neither a word nor a number. -/
def EndsNumber (rest : List Char) : Prop :=
  ∀ c ∈ rest.head?, isNamePart c = false ∧ c ≠ '.'

theorem EndsNumber.endsWord {rest : List Char} (h : EndsNumber rest) : EndsWord rest := fun c hc =>
  (h c hc).1

/-! ## Scanning -/

theorem takeWhile_append_stop {p : Char → Bool} {cs rest : List Char} (h : ∀ c ∈ cs, p c)
    (hr : ∀ c ∈ rest.head?, p c = false) : (cs ++ rest).takeWhile p = cs := by
  rw [List.takeWhile_append_of_pos h]
  cases rest with
  | nil => simp
  | cons c rest => simp [hr c rfl]

theorem dropWhile_append_stop {p : Char → Bool} {cs rest : List Char} (h : ∀ c ∈ cs, p c)
    (hr : ∀ c ∈ rest.head?, p c = false) : (cs ++ rest).dropWhile p = rest := by
  rw [List.dropWhile_append_of_pos h]
  cases rest with
  | nil => rfl
  | cons c rest => simp [hr c rfl]

theorem isDigit_isNamePart {c : Char} (h : c.isDigit) : isNamePart c := by
  simp [isNamePart, Char.isAlphanum, h]

theorem EndsNumber.not_digit {rest : List Char} (h : EndsNumber rest) :
    ∀ c ∈ rest.head?, c.isDigit = false := fun c hc => by
  rw [Bool.eq_false_iff]
  exact fun hd => Bool.false_ne_true ((h c hc).1.symm.trans (isDigit_isNamePart hd))

theorem EndsNumber.not_mantissa {rest : List Char} (h : EndsNumber rest) :
    ∀ c ∈ rest.head?, isMantissa c = false := fun c hc => by
  simp [isMantissa, h.not_digit c hc, (h c hc).2]

/-- The characters of the digits after the point of a numeral. -/
def fractionChars : Option (List Char) → List Char
  | none => []
  | some ds => '.' :: ds

/-- The characters of the exponent of a numeral. -/
def powerChars : Option (Bool × List Char) → List Char
  | none => []
  | some (negative, ds) => 'e' :: (if negative then '-' :: ds else ds)

/-- The power of ten in an exponent. -/
def powerValue : Option (Bool × List Char) → Int
  | none => 0
  | some (negative, ds) =>
    if negative then -(Nat.ofDigitChars 10 ds 0 : Int) else Nat.ofDigitChars 10 ds 0

/-- Digits before the point, and if they are there, digits after it and an exponent. -/
structure Numeral where
  whole : List Char
  fraction : Option (List Char)
  power : Option (Bool × List Char)
  whole_ne_nil : whole ≠ []
  whole_digits : ∀ c ∈ whole, c.isDigit
  fraction_digits : ∀ ds ∈ fraction, ∀ c ∈ ds, c.isDigit
  power_digits : ∀ x ∈ power, x.2 ≠ [] ∧ ∀ c ∈ x.2, c.isDigit

namespace Numeral

/-- The characters of a numeral. -/
def chars (n : Numeral) : List Char :=
  n.whole ++ (fractionChars n.fraction ++ powerChars n.power)

/-- The rational that a numeral denotes. -/
def value (n : Numeral) : ℚ :=
  Nat.ofDigitChars 10 (n.whole ++ n.fraction.getD []) 0 *
    10 ^ (powerValue n.power - (n.fraction.getD []).length)

end Numeral

theorem digits_not_sign {ds : List Char} (h : ∀ c ∈ ds, c.isDigit) (rest : List Char)
    (hne : ds ≠ []) : ∃ c cs, ds ++ rest = c :: cs ∧ c ≠ '+' ∧ c ≠ '-' := by
  cases ds with
  | nil => exact absurd rfl hne
  | cons c cs =>
    have hc := h c List.mem_cons_self
    refine ⟨c, cs ++ rest, rfl, ?_, ?_⟩ <;> rintro rfl <;> revert hc <;> decide

theorem exponent?_power {negative : Bool} {ds : List Char} (hne : ds ≠ []) (h : ∀ c ∈ ds, c.isDigit) :
    exponent? (if negative then '-' :: ds else ds) = some (powerValue (some (negative, ds))) := by
  have hall : ds.all Char.isDigit := List.all_eq_true.2 h
  cases negative with
  | true => simp [exponent?, powerValue, hne, hall]
  | false =>
    obtain ⟨c, cs, hcs, hplus, hminus⟩ := digits_not_sign h [] hne
    rw [List.append_nil] at hcs
    simp only [Bool.false_eq_true, if_false, powerValue]
    rw [hcs] at hall ⊢
    unfold exponent?
    split
    · rename_i he
      exact absurd (List.cons.inj he).1 hplus
    · rename_i he
      exact absurd (List.cons.inj he).1 hminus
    · simp [hall]

/-- **A numeral denotes its value.** -/
theorem numeral?_chars (n : Numeral) : numeral? n.chars = some n.value := by
  obtain ⟨whole, fraction, power, hne, hw, hf, hp⟩ := n
  have hstop : ∀ c ∈ (fractionChars fraction ++ powerChars power).head?, c.isDigit = false := by
    cases fraction with
    | some ds => simp [fractionChars]
    | none => cases power <;> simp [fractionChars, powerChars]
  have hpower : ∀ c ∈ (powerChars power).head?, c.isDigit = false := by
    cases power <;> simp [powerChars]
  have hmark : (match powerChars power with
      | [] => some 0
      | mark :: ds => if mark = 'e' ∨ mark = 'E' then exponent? ds else none) =
      some (powerValue power) := by
    cases power with
    | none => rfl
    | some x =>
      obtain ⟨negative, ds⟩ := x
      exact exponent?_power (hp _ rfl).1 (hp _ rfl).2
  unfold numeral?
  simp only [Numeral.chars, takeWhile_append_stop hw hstop, dropWhile_append_stop hw hstop]
  cases fraction with
  | none =>
    have hsplit : (match fractionChars none ++ powerChars power with
        | '.' :: ds => (ds.takeWhile Char.isDigit, ds.dropWhile Char.isDigit)
        | ds => ([], ds)) = ([], powerChars power) := by
      cases power <;> rfl
    rw [hsplit]
    simp only [List.append_nil, hne, if_false, hmark, Option.map_some]
    simp [Numeral.value]
  | some ds =>
    simp only [fractionChars, List.cons_append,
      takeWhile_append_stop (hf ds rfl) hpower, dropWhile_append_stop (hf ds rfl) hpower]
    simp [hne, hmark, Numeral.value]

theorem scanPower_chars {power : Option (Bool × List Char)}
    (hp : ∀ x ∈ power, x.2 ≠ [] ∧ ∀ c ∈ x.2, c.isDigit) {rest : List Char} (hr : EndsNumber rest) :
    scanPower (powerChars power ++ rest) = (powerChars power, rest) := by
  cases power with
  | none =>
    cases rest with
    | nil => rfl
    | cons c rest =>
      have hc : ¬ (c = 'e' ∨ c = 'E') := by
        rintro (rfl | rfl) <;> exact absurd (hr _ rfl).1 (by decide)
      simp [powerChars, scanPower, hc]
  | some x =>
    obtain ⟨negative, ds⟩ := x
    obtain ⟨hne, hd⟩ : ds ≠ [] ∧ ∀ c ∈ ds, c.isDigit := hp _ rfl
    have htake := takeWhile_append_stop hd hr.not_digit
    have hdrop := dropWhile_append_stop hd hr.not_digit
    cases negative with
    | true => simp [powerChars, scanPower, htake, hdrop]
    | false =>
      obtain ⟨c, cs, hcs, hplus, hminus⟩ := digits_not_sign hd rest hne
      simp only [powerChars, Bool.false_eq_true, if_false, List.cons_append, scanPower, true_or, if_true]
      rw [hcs] at htake hdrop ⊢
      split
      · rename_i he
        exact absurd (List.cons.inj he).1 hplus
      · rename_i he
        exact absurd (List.cons.inj he).1 hminus
      · rw [htake, hdrop]

/-- **A numeral is scanned whole,** and nothing behind it. -/
theorem scanNumeral_chars (n : Numeral) {rest : List Char} (hr : EndsNumber rest) :
    scanNumeral (n.chars ++ rest) = (n.chars, rest) := by
  obtain ⟨whole, fraction, power, hne, hw, hf, hp⟩ := n
  have hmantissa : ∀ c ∈ whole ++ fractionChars fraction, isMantissa c := by
    intro c hc
    rcases List.mem_append.1 hc with hc | hc
    · simp [isMantissa, hw c hc]
    · cases fraction with
      | none => cases hc
      | some ds =>
        rcases List.mem_cons.1 hc with rfl | hc
        · rfl
        · simp [isMantissa, hf ds rfl c hc]
  have hstop : ∀ c ∈ (powerChars power ++ rest).head?, isMantissa c = false := by
    cases power with
    | none => exact hr.not_mantissa
    | some x => simp [powerChars, isMantissa]
  have hchars : Numeral.chars ⟨whole, fraction, power, hne, hw, hf, hp⟩ ++ rest =
      (whole ++ fractionChars fraction) ++ (powerChars power ++ rest) := by
    simp [Numeral.chars]
  rw [hchars, scanNumeral, takeWhile_append_stop hmantissa hstop,
    dropWhile_append_stop hmantissa hstop, scanPower_chars hp hr]
  simp [Numeral.chars]

/-! ## Lexemes -/

theorem isDigit_not_whitespace {c : Char} (h : c.isDigit) : c.isWhitespace = false := by
  rw [Bool.eq_false_iff]
  intro hw
  simp only [Char.isWhitespace, Bool.or_eq_true, decide_eq_true_eq] at hw
  rcases hw with ((rfl | rfl) | rfl) | rfl <;> exact absurd h (by decide)

theorem isNameStart_not_whitespace {c : Char} (h : isNameStart c) : c.isWhitespace = false := by
  rw [Bool.eq_false_iff]
  intro hw
  simp only [Char.isWhitespace, Bool.or_eq_true, decide_eq_true_eq] at hw
  rcases hw with ((rfl | rfl) | rfl) | rfl <;> exact absurd h (by decide)

theorem isNameStart_not_digit {c : Char} (h : isNameStart c) : c.isDigit = false := by
  simp only [isNameStart, Char.isAlpha, Char.isUpper, Char.isLower, Bool.or_eq_true,
    Bool.and_eq_true, decide_eq_true_eq, beq_iff_eq, ge_iff_le, UInt32.le_iff_toNat_le] at h
  rw [Bool.eq_false_iff, ne_eq, Char.isDigit]
  simp only [Bool.and_eq_true, decide_eq_true_eq, ge_iff_le, UInt32.le_iff_toNat_le]
  have h9 : '9'.val.toNat = 57 := rfl
  have hA : 'A'.val.toNat = 65 := rfl
  have ha : 'a'.val.toNat = 97 := rfl
  rcases h with (h | h) | rfl
  · omega
  · omega
  · decide

theorem lex_nil : lex [] = some [] := by
  rw [lex, if_pos rfl]

theorem lex_of_lexeme? {cs rest : List Char} {ts : List Token} (h : lexeme? cs = some (ts, rest)) :
    lex cs = before ts (lex rest) := by
  have hne : cs ≠ [] := by
    rintro rfl
    cases h
  rw [lex, if_neg hne]
  split
  · rename_i hnone
    cases h.symm.trans hnone
  · rename_i first hfirst
    obtain rfl := Option.some.inj (h.symm.trans hfirst)
    rfl

/-- A blank sets lexemes apart. -/
theorem lex_blank {c : Char} (h : c.isWhitespace) (rest : List Char) : lex (c :: rest) = lex rest := by
  have hfirst : lexeme? (c :: rest) = some ([], rest) := if_pos h
  rw [lex_of_lexeme? hfirst, before_nil]

/-- A symbol is a lexeme by itself. -/
theorem lex_symbol {c : Char} (hw : c.isWhitespace = false) (hd : c.isDigit = false)
    (hn : isNameStart c = false) {rest : List Char} (hr : c = '.' → ∀ d ∈ rest.head?, d.isDigit = false) :
    lex (c :: rest) = before [.symbol c] (lex rest) := by
  have hnum : startsNumeral (c :: rest) = false := by
    rw [startsNumeral, hd, Bool.false_or, Bool.and_eq_false_iff, beq_eq_false_iff_ne]
    by_cases hc : c = '.'
    · refine .inr ?_
      cases rest with
      | nil => rfl
      | cons d rest => simpa using hr hc d rfl
    · exact .inl hc
  exact lex_of_lexeme? (by simp only [lexeme?, hw, hnum, hn, Bool.false_eq_true, if_false])

/-- A name that is a word. -/
def IsWord (name : String) : Prop :=
  ∃ c cs, name.toList = c :: cs ∧ isNameStart c ∧ ∀ d ∈ cs, isNamePart d

theorem isWord_iff {name : String} : IsWord name ↔
    (match name.toList with
      | [] => false
      | c :: cs => isNameStart c && cs.all isNamePart) = true := by
  unfold IsWord
  cases name.toList with
  | nil => simp
  | cons c cs => simp

instance (name : String) : Decidable (IsWord name) :=
  decidable_of_iff _ isWord_iff.symm

/-- A word is a lexeme. -/
theorem lex_word {name : String} (hn : IsWord name) {rest : List Char} (hr : EndsWord rest) :
    lex (name.toList ++ rest) = before [.word name] (lex rest) := by
  obtain ⟨c, cs, hcs, hc, hpart⟩ := hn
  have hdot : c ≠ '.' := by
    rintro rfl
    exact absurd hc (by decide)
  have hnum : startsNumeral (c :: (cs ++ rest)) = false := by
    simp [startsNumeral, isNameStart_not_digit hc, hdot]
  have hword : String.ofList (c :: cs) = name := by
    rw [← hcs, String.ofList_toList]
  rw [hcs, List.cons_append]
  refine lex_of_lexeme? ?_
  simp only [lexeme?, isNameStart_not_whitespace hc, hnum, hc, Bool.false_eq_true, if_false, if_true,
    takeWhile_append_stop hpart hr, dropWhile_append_stop hpart hr, hword]

/-- A numeral is a lexeme. -/
theorem lex_numeral (n : Numeral) {rest : List Char} (hr : EndsNumber rest) :
    lex (n.chars ++ rest) = before [.number n.value] (lex rest) := by
  have hscan := scanNumeral_chars n hr
  have hvalue := numeral?_chars n
  obtain ⟨c, cs, hc⟩ := List.exists_cons_of_ne_nil n.whole_ne_nil
  have hd : c.isDigit := n.whole_digits c (hc ▸ List.mem_cons_self)
  have hchars : n.chars ++ rest = c :: (cs ++ (fractionChars n.fraction ++ powerChars n.power) ++ rest) := by
    rw [Numeral.chars, hc]
    simp
  rw [hchars] at hscan ⊢
  have hnum : startsNumeral (c :: (cs ++ (fractionChars n.fraction ++ powerChars n.power) ++ rest)) := by
    simp [startsNumeral, hd]
  refine lex_of_lexeme? ?_
  simp only [lexeme?, isDigit_not_whitespace hd, hnum, Bool.false_eq_true, if_false, if_true, hscan,
    hvalue]
  rfl

/-! ## Texts in front of other texts -/

theorem takeWhile_append_before {p : Char → Bool} (cs : List Char) {rest : List Char}
    (hr : ∀ c ∈ rest.head?, p c = false) : (cs ++ rest).takeWhile p = cs.takeWhile p := by
  induction cs with
  | nil => exact takeWhile_append_stop nofun hr
  | cons c cs ih =>
    rw [List.cons_append, List.takeWhile_cons, List.takeWhile_cons, ih]

theorem dropWhile_append_before {p : Char → Bool} (cs : List Char) {rest : List Char}
    (hr : ∀ c ∈ rest.head?, p c = false) : (cs ++ rest).dropWhile p = cs.dropWhile p ++ rest := by
  induction cs with
  | nil => exact dropWhile_append_stop nofun hr
  | cons c cs ih =>
    rw [List.cons_append, List.dropWhile_cons, List.dropWhile_cons, ih]
    split <;> rfl

theorem startsNumeral_append {c : Char} {cs rest : List Char} (hr : EndsNumber rest) :
    startsNumeral (c :: cs ++ rest) = startsNumeral (c :: cs) := by
  cases cs with
  | cons => rfl
  | nil =>
    have hany : rest.head?.any Char.isDigit = false := by
      cases hh : rest.head? with
      | none => rfl
      | some d => exact hr.not_digit d hh
    rw [List.cons_append, List.nil_append, startsNumeral, startsNumeral, hany]
    rfl

/-- An exponent mark needs digits behind it. -/
theorem numeral?_mark {cs : List Char} (h : ∀ c ∈ cs, isMantissa c) {mark : Char}
    (hm : mark = 'e' ∨ mark = 'E') : numeral? (cs ++ [mark]) = none := by
  have hdigit : ∀ c ∈ [mark].head?, c.isDigit = false := by
    rcases hm with rfl | rfl <;> simp
  -- What is left of the digits stands before the mark, and neither is an exponent.
  have hpower : ∀ ds : List Char, (∀ c ∈ ds, isMantissa c) → (match ds ++ [mark] with
      | [] => some 0
      | mark :: ds => if mark = 'e' ∨ mark = 'E' then exponent? ds else none) = none := by
    intro ds hds
    cases ds with
    | nil => exact if_pos hm
    | cons d ds =>
      refine if_neg ?_
      rintro (rfl | rfl) <;> exact absurd (hds _ List.mem_cons_self) (by decide)
  have hsuffix {ds : List Char} (hds : ∀ c ∈ ds, isMantissa c) :
      ∀ c ∈ ds.dropWhile Char.isDigit, isMantissa c := fun c hc =>
    hds c ((List.dropWhile_suffix _).subset hc)
  have hleft := hsuffix h
  unfold numeral?
  rw [dropWhile_append_before cs hdigit]
  refine ite_eq_left_iff.2 fun _ => Option.map_eq_none_iff.2 ?_
  cases hcs : cs.dropWhile Char.isDigit with
  | nil => rcases hm with rfl | rfl <;> rfl
  | cons d ds =>
    rw [hcs] at hleft
    by_cases hd : d = '.'
    · subst hd
      simp only [List.cons_append, dropWhile_append_before ds hdigit]
      exact hpower _ (hsuffix fun c hc => hleft c (List.mem_cons_of_mem _ hc))
    · have hsplit : (match d :: ds ++ [mark] with
          | '.' :: ds => (ds.takeWhile Char.isDigit, ds.dropWhile Char.isDigit)
          | ds => ([], ds)) = ([], d :: ds ++ [mark]) := by
        split
        · rename_i he
          exact absurd (List.cons.inj he).1 hd
        · rfl
      exact (congrArg (fun split : List Char × List Char => match split.2 with
        | [] => some 0
        | mark :: ds => if mark = 'e' ∨ mark = 'E' then exponent? ds else none) hsplit).trans
        (hpower _ hleft)

theorem scanPower_digits {mark d : Char} (hm : mark = 'e' ∨ mark = 'E') (hplus : d ≠ '+')
    (hminus : d ≠ '-') (ds : List Char) : scanPower (mark :: d :: ds) =
      (mark :: (d :: ds).takeWhile Char.isDigit, (d :: ds).dropWhile Char.isDigit) := by
  rw [scanPower, if_pos hm]
  · exact fun _ he => hplus (List.cons.inj he).1
  · exact fun _ he => hminus (List.cons.inj he).1

theorem scanPower_append {cs rest : List Char} (hr : EndsNumber rest)
    (hmark : ∀ mark, mark = 'e' ∨ mark = 'E' → cs ≠ [mark]) :
    scanPower (cs ++ rest) = ((scanPower cs).1, (scanPower cs).2 ++ rest) := by
  have htake (ds : List Char) := takeWhile_append_before ds hr.not_digit
  have hdrop (ds : List Char) := dropWhile_append_before ds hr.not_digit
  cases cs with
  | nil =>
    have hnone : ∀ x ∈ (none : Option (Bool × List Char)), x.2 ≠ [] ∧ ∀ c ∈ x.2, c.isDigit := nofun
    exact scanPower_chars hnone hr
  | cons mark cs =>
    by_cases hm : mark = 'e' ∨ mark = 'E'
    · cases cs with
      | nil => exact absurd rfl (hmark mark hm)
      | cons d ds =>
        simp only [List.cons_append]
        by_cases hplus : d = '+'
        · subst hplus
          simp only [scanPower, if_pos hm, htake, hdrop]
        by_cases hminus : d = '-'
        · subst hminus
          simp only [scanPower, if_pos hm, htake, hdrop]
        rw [scanPower_digits hm hplus hminus, ← List.cons_append, htake, hdrop,
          scanPower_digits hm hplus hminus]
    · simp only [List.cons_append, scanPower, if_neg hm]

/-- A numeral ends where it does alone. -/
theorem scanNumeral_append {cs rest : List Char} {q : ℚ} (hr : EndsNumber rest)
    (h : numeral? (scanNumeral cs).1 = some q) :
    scanNumeral (cs ++ rest) = ((scanNumeral cs).1, (scanNumeral cs).2 ++ rest) := by
  have hmark : ∀ mark, mark = 'e' ∨ mark = 'E' → cs.dropWhile isMantissa ≠ [mark] := by
    intro mark hm hcs
    have hscan : (scanNumeral cs).1 = cs.takeWhile isMantissa ++ [mark] := by
      rw [scanNumeral, hcs]
      simp [scanPower, hm]
    rw [hscan, numeral?_mark (fun c hc => List.mem_takeWhile_imp hc) hm] at h
    cases h
  rw [scanNumeral, takeWhile_append_before cs hr.not_mantissa, dropWhile_append_before cs hr.not_mantissa,
    scanPower_append hr hmark, scanNumeral]

/-- A lexeme ends where it does alone. -/
theorem lexeme?_append {cs left rest : List Char} {ts : List Token} (hr : EndsNumber rest)
    (h : lexeme? cs = some (ts, left)) : lexeme? (cs ++ rest) = some (ts, left ++ rest) := by
  cases cs with
  | nil => cases h
  | cons c cs =>
    have hnum : startsNumeral (c :: cs ++ rest) = startsNumeral (c :: cs) := startsNumeral_append hr
    rw [lexeme?] at h
    rw [List.cons_append] at hnum ⊢
    rw [lexeme?, hnum, ← List.cons_append]
    by_cases hblank : c.isWhitespace
    · rw [if_pos hblank] at h ⊢
      obtain ⟨rfl, rfl⟩ := Prod.mk.inj (Option.some.inj h)
      rfl
    rw [if_neg hblank] at h ⊢
    by_cases hstart : startsNumeral (c :: cs)
    · rw [if_pos hstart] at h ⊢
      obtain ⟨q, hq, hts⟩ := Option.bind_eq_some_iff.1 h
      obtain ⟨rfl, rfl⟩ := Prod.mk.inj (Option.some.inj hts)
      rw [scanNumeral_append hr hq]
      simp only [hq]
      rfl
    rw [if_neg hstart] at h ⊢
    by_cases hname : isNameStart c
    · rw [if_pos hname] at h ⊢
      obtain ⟨rfl, rfl⟩ := Prod.mk.inj (Option.some.inj h)
      rw [takeWhile_append_before cs hr.endsWord, dropWhile_append_before cs hr.endsWord]
    · rw [if_neg hname] at h ⊢
      obtain ⟨rfl, rfl⟩ := Prod.mk.inj (Option.some.inj h)
      rfl

/-- **A text that is read alone is read the same in front of another,** if that goes on with
neither a word nor a number. -/
theorem lex_append {cs rest : List Char} {ts : List Token} (h : lex cs = some ts) (hr : EndsNumber rest) :
    lex (cs ++ rest) = before ts (lex rest) := by
  rw [lex] at h
  split at h
  · rename_i hcs
    subst hcs
    obtain rfl := Option.some.inj h
    rw [List.nil_append, before_nil]
  · split at h
    · cases h
    · rename_i first hfirst
      obtain ⟨us, hus, rfl⟩ := Option.map_eq_some_iff.1 h
      rw [lex_of_lexeme? (lexeme?_append hr hfirst), lex_append hus hr, before_before]
termination_by cs.length
decreasing_by exact length_lexeme?_lt ‹_›

/-! ## Literals -/

theorem ofDigitChars_zeros (k init : Nat) :
    Nat.ofDigitChars 10 (List.replicate k '0') init = init * 10 ^ k := by
  induction k generalizing init with
  | zero => simp [Nat.ofDigitChars]
  | succ k ih =>
    rw [List.replicate_succ, Nat.ofDigitChars_cons, ih, Nat.pow_succ]
    simp only [Nat.sub_self, Nat.add_zero]
    ring

theorem digitsOf_digits (n : Nat) : ∀ c ∈ Decimal.digitsOf n, c.isDigit := fun _ hc =>
  Nat.isDigit_of_mem_toDigits (by decide) (by decide) hc

theorem digitsOf_value (n : Nat) : Nat.ofDigitChars 10 (Decimal.digitsOf n) 0 = n :=
  Nat.ofDigitChars_ten_toDigits

theorem digitsOf_ne_nil (n : Nat) : Decimal.digitsOf n ≠ [] :=
  Nat.toDigits_ne_nil

theorem isDigit_of_mem_replicate {k : Nat} {c : Char} (h : c ∈ List.replicate k '0') : c.isDigit := by
  rw [List.eq_of_mem_replicate h]
  rfl

theorem ten_zpow_congr {a b : Int} (h : a = b) : (10 : ℚ) ^ a = 10 ^ b := by
  rw [h]

/-- The digits of a decimal that stand before the point. -/
def wholeDigits (d : Decimal) : List Char :=
  if d.leading + 1 ≤ 0 then ['0']
  else (Decimal.digitsOf d.digits).take (d.leading + 1).toNat ++
    List.replicate ((d.leading + 1).toNat - (Decimal.digitsOf d.digits).length) '0'

namespace Numeral

variable {ds : List Char} (hds : ∀ c ∈ ds, c.isDigit)

/-- All digits after the point, behind `k` zeros. -/
def afterPoint (k : Nat) : Numeral where
  whole := ['0']
  fraction := some (List.replicate k '0' ++ ds)
  power := none
  whole_ne_nil := List.cons_ne_nil _ _
  whole_digits := by simp
  fraction_digits := by
    rintro _ ⟨⟩
    exact List.forall_mem_append.2 ⟨fun c hc => isDigit_of_mem_replicate hc, hds⟩
  power_digits := by simp

theorem value_afterPoint (k : Nat) :
    (afterPoint hds k).value = Nat.ofDigitChars 10 ds 0 * 10 ^ (-(k + ds.length : Int)) := by
  have hzeros : Nat.ofDigitChars 10 (['0'] ++ (List.replicate k '0' ++ ds)) 0 =
      Nat.ofDigitChars 10 ds 0 := by
    rw [Nat.ofDigitChars_append, Nat.ofDigitChars_append]
    change Nat.ofDigitChars 10 ds (Nat.ofDigitChars 10 (List.replicate k '0') 0) = _
    rw [ofDigitChars_zeros, Nat.zero_mul]
  simp only [value, afterPoint, Option.getD_some, hzeros, powerValue, List.length_append,
    List.length_replicate]
  exact congrArg _ (ten_zpow_congr (by omega))

/-- All digits before the point, in front of `k` zeros. -/
def beforePoint (hne : ds ≠ []) (k : Nat) : Numeral where
  whole := ds ++ List.replicate k '0'
  fraction := some ['0']
  power := none
  whole_ne_nil := List.append_ne_nil_of_left_ne_nil hne _
  whole_digits := List.forall_mem_append.2 ⟨hds, fun c hc => isDigit_of_mem_replicate hc⟩
  fraction_digits := by simp
  power_digits := by simp

theorem value_beforePoint (hne : ds ≠ []) (k : Nat) :
    (beforePoint hds hne k).value = Nat.ofDigitChars 10 ds 0 * 10 ^ (k : Int) := by
  have hzero : Nat.ofDigitChars 10 ((ds ++ List.replicate k '0') ++ ['0']) 0 =
      Nat.ofDigitChars 10 ds 0 * 10 ^ k * 10 := by
    rw [Nat.ofDigitChars_append, Nat.ofDigitChars_append, ofDigitChars_zeros]
    exact Nat.mul_comm _ _
  simp only [value, beforePoint, Option.getD_some, hzero, powerValue, List.length_singleton]
  push_cast
  rw [mul_assoc, show (10 : ℚ) * 10 ^ (-1 : ℤ) = 1 by norm_num, mul_one, zpow_natCast]

/-- The first `k` digits before the point, the others after it. -/
def aroundPoint {k : Nat} (h0 : 0 < k) (hlt : k < ds.length) : Numeral where
  whole := ds.take k
  fraction := some (ds.drop k)
  power := none
  whole_ne_nil := List.ne_nil_of_length_pos (by rw [List.length_take]; omega)
  whole_digits := fun c hc => hds c (List.mem_of_mem_take hc)
  fraction_digits := by
    rintro _ ⟨⟩ c hc
    exact hds c (List.mem_of_mem_drop hc)
  power_digits := by simp

theorem value_aroundPoint {k : Nat} (h0 : 0 < k) (hlt : k < ds.length) :
    (aroundPoint hds h0 hlt).value = Nat.ofDigitChars 10 ds 0 * 10 ^ (k - ds.length : Int) := by
  simp only [value, aroundPoint, Option.getD_some, List.take_append_drop, powerValue, List.length_drop]
  exact congrArg _ (ten_zpow_congr (by omega))

end Numeral

/-- Positional digits are a numeral with a point and no exponent. -/
theorem exists_numeral_pointAfter (d : Decimal) :
    ∃ n : Numeral, Decimal.pointAfter (d.leading + 1) true (Decimal.digitsOf d.digits) = n.chars ∧
      n.value = d.magnitude ∧ n.whole = wholeDigits d ∧ n.power = none ∧
        ∃ ds, n.fraction = some ds ∧ ds ≠ [] := by
  have hdigits := digitsOf_digits d.digits
  have hvalue := digitsOf_value d.digits
  have hlead : d.leading + 1 = d.exponent + (Decimal.digitsOf d.digits).length := by
    rw [Decimal.leading]
    omega
  rw [Decimal.magnitude, wholeDigits, hlead]
  generalize hds : Decimal.digitsOf d.digits = ds at hdigits hvalue ⊢
  have hne : ds ≠ [] := hds ▸ digitsOf_ne_nil d.digits
  unfold Decimal.pointAfter
  by_cases hle : d.exponent + ds.length ≤ 0
  · rw [if_pos hle, if_pos hle]
    refine ⟨.afterPoint hdigits (-(d.exponent + ds.length)).toNat,
      by simp [Numeral.afterPoint, Numeral.chars, fractionChars, powerChars], ?_, rfl, rfl, _, rfl,
      by simp [hne]⟩
    rw [Numeral.value_afterPoint, hvalue]
    exact congrArg _ (ten_zpow_congr (by omega))
  · rw [if_neg hle, if_neg hle]
    dsimp only
    split
    · rename_i hdrop
      have hlen : ds.length ≤ (d.exponent + ds.length).toNat := List.drop_eq_nil_iff.1 hdrop
      rw [List.take_of_length_le hlen]
      refine ⟨.beforePoint hdigits hne ((d.exponent + ds.length).toNat - ds.length),
        by simp [Numeral.beforePoint, Numeral.chars, fractionChars, powerChars], ?_, rfl, rfl, _, rfl,
        List.cons_ne_nil _ _⟩
      rw [Numeral.value_beforePoint, hvalue]
      exact congrArg _ (ten_zpow_congr (by omega))
    · rename_i hdrop
      have hlen : (d.exponent + ds.length).toNat < ds.length :=
        Nat.lt_of_not_le fun h => hdrop (List.drop_eq_nil_iff.2 h)
      rw [Nat.sub_eq_zero_of_le (Nat.le_of_lt hlen), List.replicate_zero, List.append_nil]
      refine ⟨.aroundPoint hdigits (by omega) hlen,
        by simp [Numeral.aroundPoint, Numeral.chars, fractionChars, powerChars], ?_, rfl, rfl, _, rfl,
        hdrop⟩
      rw [Numeral.value_aroundPoint, hvalue]
      exact congrArg _ (ten_zpow_congr (by omega))

/-- The characters of the exponent of a numeral, with a sign before a positive one if there is to
be one. -/
def signedPowerChars (plusSign : Bool) : Option (Bool × List Char) → List Char
  | none => []
  | some (negative, ds) => 'e' :: (if negative then '-' :: ds else if plusSign then '+' :: ds else ds)

theorem signedPowerChars_false (power : Option (Bool × List Char)) :
    signedPowerChars false power = powerChars power := by
  cases power <;> rfl

/-- Digits in scientific notation are a numeral with one digit before the point and the leading
power of ten for an exponent. -/
theorem exists_numeral_scientific (plusSign : Bool) (d : Decimal) :
    ∃ n : Numeral, Decimal.scientific d.leading plusSign (Decimal.digitsOf d.digits) =
        n.whole ++ (fractionChars n.fraction ++ signedPowerChars plusSign n.power) ∧
      n.value = d.magnitude ∧ n.whole.length = 1 ∧ n.fraction ≠ some [] ∧
        n.power = some (decide (d.leading < 0), Decimal.digitsOf d.leading.natAbs) := by
  have hdigits := digitsOf_digits d.digits
  have hvalue := digitsOf_value d.digits
  have hlead : d.leading = d.exponent + (Decimal.digitsOf d.digits).length - 1 := rfl
  have hpower : powerValue (some (decide (d.leading < 0), Decimal.digitsOf d.leading.natAbs)) =
      d.leading := by
    simp only [powerValue, decide_eq_true_eq, digitsOf_value]
    split <;> omega
  have hmark : ∀ ds : List Char, (if d.leading < 0 then ['e', '-'] else if plusSign then ['e', '+']
      else ['e']) ++ ds = signedPowerChars plusSign (some (decide (d.leading < 0), ds)) := by
    intro ds
    by_cases h : d.leading < 0 <;> cases plusSign <;> simp [signedPowerChars, h]
  have hdigits' : ∀ x ∈ some (decide (d.leading < 0), Decimal.digitsOf d.leading.natAbs),
      x.2 ≠ [] ∧ ∀ c ∈ x.2, c.isDigit := by
    rintro _ ⟨⟩
    exact ⟨digitsOf_ne_nil _, digitsOf_digits _⟩
  unfold Decimal.scientific
  dsimp only
  rw [List.append_assoc, hmark, Decimal.magnitude]
  generalize hds : Decimal.digitsOf d.digits = ds at hdigits hvalue hlead ⊢
  match ds, hdigits, hvalue, hlead with
  | [], _, _, _ => exact absurd hds (digitsOf_ne_nil _)
  | [c], hdigits, hvalue, hlead =>
    refine ⟨⟨[c], none, some (_, _), by simp, hdigits, by simp, hdigits'⟩, rfl, ?_, rfl, by simp, rfl⟩
    simp only [Numeral.value, Option.getD_none, List.append_nil, hvalue, hpower, List.length_nil]
    rw [List.length_singleton] at hlead
    exact congrArg _ (ten_zpow_congr (by omega))
  | c :: c' :: cs, hdigits, hvalue, hlead =>
    refine ⟨⟨[c], some (c' :: cs), some (_, _), by simp, ?_, ?_, hdigits'⟩, rfl, ?_, rfl, by simp, rfl⟩
    · intro x hx
      exact hdigits x (List.mem_singleton.1 hx ▸ List.mem_cons_self)
    · rintro _ ⟨⟩ x hx
      exact hdigits x (List.mem_cons_of_mem _ hx)
    · simp only [Numeral.value, Option.getD_some, List.cons_append, List.nil_append, hvalue, hpower]
      rw [List.length_cons] at hlead
      exact congrArg _ (ten_zpow_congr (by omega))

/-- The lexemes of a literal. -/
def literalTokens (d : Decimal) : List Token :=
  if d.negative then [.symbol '-', .number d.magnitude] else [.number d.magnitude]

/-- A literal is a numeral, with a minus sign before it if the decimal is negative. -/
theorem exists_numeral_literal (d : Decimal) : ∃ n : Numeral, (d.text .literal).toList =
    (if d.negative then '-' :: n.chars else n.chars) ∧ n.value = d.magnitude := by
  rw [Decimal.text, String.toList_ofList]
  by_cases hp : d.digits = 0 ∨ Decimal.Layout.literal.positional d.leading
  · obtain ⟨n, hn, hv, -⟩ := exists_numeral_pointAfter d
    exact ⟨n, by rw [← hn, if_pos hp]; rfl, hv⟩
  · obtain ⟨n, hn, hv, -⟩ := exists_numeral_scientific false d
    rw [signedPowerChars_false] at hn
    exact ⟨n, by rw [Numeral.chars, ← hn, if_neg hp]; rfl, hv⟩

/-- **A literal is read back to the decimal that it writes.** -/
theorem lex_literal (d : Decimal) {rest : List Char} (hr : EndsNumber rest) :
    lex ((d.text .literal).toList ++ rest) = before (literalTokens d) (lex rest) := by
  obtain ⟨n, hn, hv⟩ := exists_numeral_literal d
  have hlex := lex_numeral n hr
  rw [hn, literalTokens, ← hv]
  cases d.negative with
  | false => exact hlex
  | true =>
    simp only [if_true, List.cons_append]
    rw [lex_symbol rfl rfl rfl (fun h => absurd h (by decide)), hlex, before_before]
    rfl

/-- An index is read back. -/
theorem lex_nat (i : Nat) {rest : List Char} (hr : EndsNumber rest) :
    lex ((toString i).toList ++ rest) = before [.number i] (lex rest) := by
  have hchars : (toString i).toList = Decimal.digitsOf i := Nat.toList_repr
  have hlex := lex_numeral ⟨Decimal.digitsOf i, none, none, digitsOf_ne_nil i, digitsOf_digits i,
    by simp, by simp⟩ hr
  simp only [Numeral.chars, fractionChars, powerChars, List.append_nil, Numeral.value,
    Option.getD_none, digitsOf_value, powerValue, List.length_nil] at hlex
  rw [hchars, hlex]
  simp

end Glsl
end ShaderAlgebra
