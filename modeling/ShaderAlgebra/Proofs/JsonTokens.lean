import ShaderAlgebra.Json.Read

/-!
# Tokens are read back

What the writer of JSON puts down for blanks, numbers and strings, and the tokens
that the reader cuts from it.

Only numbers need an assumption.  A number *reads back* if its text, alone, is
one token with that number; it then is one wherever it stands, since what follows
it in a JSON text never carries a numeral on.  Natural numbers of 64 bits read
back, and doubles that are read from their own text do.
-/

namespace ShaderAlgebra
namespace Json

/-! ## Blanks -/

@[simp] theorem Symbol.ofString_append (s t : String) :
    ofString (s ++ t) = ofString s ++ ofString t := by
  simp [ofString]

theorem tokens_blank {c : Char} (h : isBlank c) (rest : List Symbol) :
    tokens (.char c :: rest) = tokens rest := by
  rw [tokens, if_pos h]

theorem tokens_cons {c : Char} (hc : isBlank c = false) (rest : List Symbol) :
    tokens (.char c :: rest) =
      match scanToken c rest with
      | .ok (t, after) => t :: tokens after
      | .error cut => [.cut cut] := by
  rw [tokens, if_neg (by simp [hc])]
  split <;> rename_i hs <;> rw [hs]

theorem tokens_of_scanToken {c : Char} {rest after : List Symbol} {t : Token}
    (hc : isBlank c = false) (h : scanToken c rest = .ok (t, after)) :
    tokens (.char c :: rest) = t :: tokens after := by
  rw [tokens_cons hc, h]

theorem tokens_of_scanToken_error {c : Char} {rest : List Symbol} {cut : Cut}
    (hc : isBlank c = false) (h : scanToken c rest = .error cut) :
    tokens (.char c :: rest) = [.cut cut] := by
  rw [tokens_cons hc, h]

theorem tokens_null (rest : List Symbol) :
    tokens (Symbol.ofString "null" ++ rest) = .null :: tokens rest :=
  tokens_of_scanToken rfl rfl

/-- A text without tokens is blank. -/
theorem exists_blank_of_tokens_eq_nil {text : List Symbol} (h : tokens text = []) :
    ∀ s ∈ text, ∃ c, s = .char c ∧ isBlank c := by
  induction text with
  | nil => simp
  | cons s rest ih =>
    cases s with
    | byte b => simp [tokens] at h
    | char c =>
      cases hc : isBlank c with
      | true =>
        rw [tokens_blank hc] at h
        rintro s (_ | ⟨_, hs⟩)
        · exact ⟨c, rfl, hc⟩
        · exact ih h s hs
      | false =>
        cases ht : scanToken c rest with
        | error cut => simp [tokens_of_scanToken_error hc ht] at h
        | ok r => simp [tokens_of_scanToken hc ht] at h

theorem tokens_blanks {blanks : List Symbol} (h : ∀ s ∈ blanks, ∃ c, s = .char c ∧ isBlank c)
    (rest : List Symbol) : tokens (blanks ++ rest) = tokens rest := by
  induction blanks with
  | nil => rfl
  | cons s blanks ih =>
    obtain ⟨c, rfl, hc⟩ := h s List.mem_cons_self
    rw [List.cons_append, tokens_blank hc, ih fun s hs => h s (List.mem_cons_of_mem _ hs)]

theorem tokens_lineBreak (style : Style) (depth : Nat) (rest : List Symbol) :
    tokens (Symbol.ofString (style.lineBreak depth) ++ rest) = tokens rest := by
  refine tokens_blanks (fun s hs => ?_) rest
  cases style with
  | compact => simp [Style.lineBreak, Symbol.ofString] at hs
  | pretty =>
    simp only [Style.lineBreak, Symbol.ofString, String.toList_ofList, List.map_cons, List.map_replicate,
      List.mem_cons, List.mem_replicate] at hs
    rcases hs with rfl | ⟨-, rfl⟩
    · exact ⟨'\n', rfl, rfl⟩
    · exact ⟨' ', rfl, rfl⟩

/-! ## Numbers

What a numeral is does not depend on what follows, if that does not carry on the
numeral. -/

/-- A symbol that may carry on a numeral. -/
def carriesOn : Symbol → Bool
  | .char c => c.isDigit || c == '.' || c == 'e' || c == 'E'
  | .byte _ => false

/-- A text that does not carry on a numeral before it. -/
def EndsNumber (text : List Symbol) : Prop :=
  ∀ s ∈ text.head?, carriesOn s = false

theorem EndsNumber.cons {c : Char} (h : carriesOn (.char c) = false) (rest : List Symbol) :
    EndsNumber (.char c :: rest) := by
  rintro _ ⟨⟩
  exact h

theorem EndsNumber.ne {rest : List Symbol} (h : EndsNumber rest) {c : Char}
    (hc : carriesOn (.char c) = true) : ∀ s ∈ rest.head?, s ≠ .char c := by
  rintro _ hs rfl
  rw [h _ hs] at hc
  cases hc

theorem EndsNumber.spanDigits {rest : List Symbol} (h : EndsNumber rest) : spanDigits rest = ([], rest) := by
  match rest with
  | [] => rfl
  | .byte b :: rest => rfl
  | .char c :: rest =>
    have hc : c.isDigit = false := by
      have := h (.char c) rfl
      simp only [carriesOn, Bool.or_eq_false_iff] at this
      exact this.1.1.1
    simp [Json.spanDigits, digit?, hc]

theorem forall_head_append {p : Symbol → Prop} {text rest : List Symbol} (h : ∀ s ∈ text.head?, p s)
    (hr : ∀ s ∈ rest.head?, p s) : ∀ s ∈ (text ++ rest).head?, p s := by
  cases text with
  | nil => exact hr
  | cons s text => exact h

theorem spanDigits_append (text : List Symbol) {rest : List Symbol} (h : EndsNumber rest) :
    spanDigits (text ++ rest) = ((spanDigits text).1, (spanDigits text).2 ++ rest) := by
  induction text with
  | nil => exact h.spanDigits
  | cons s text ih =>
    rw [List.cons_append, spanDigits, spanDigits, ih]
    cases digit? s <;> rfl

theorem scanWhole_append {text after rest : List Symbol} {ds : List Nat}
    (h : scanWhole text = .ok (ds, after)) (hr : EndsNumber rest) :
    scanWhole (text ++ rest) = .ok (ds, after ++ rest) := by
  rw [scanWhole, spanDigits_append text hr]
  rw [scanWhole] at h
  generalize spanDigits text = p at h ⊢
  match p, h with
  | (0 :: _ :: _, _), h => cases h
  | ([0], _), h => cases h; rfl
  | ((_ + 1) :: _, _), h => cases h; rfl

theorem scanFraction_of_ne {text : List Symbol} (h : ∀ s ∈ text.head?, s ≠ .char '.') :
    scanFraction text = .ok (none, text) := by
  rw [scanFraction]
  rintro rest rfl
  exact h _ rfl rfl

theorem scanFraction_append {text after rest : List Symbol} {f : Option (List Nat)}
    (h : scanFraction text = .ok (f, after)) (hr : EndsNumber rest) :
    scanFraction (text ++ rest) = .ok (f, after ++ rest) := by
  by_cases hp : text.head? = some (.char '.')
  · obtain ⟨text, rfl⟩ := List.head?_eq_some_iff.1 hp
    rw [List.cons_append, scanFraction, spanDigits_append text hr]
    rw [scanFraction] at h
    generalize spanDigits text = p at h ⊢
    match p, h with
    | ([], _), h => cases h
    | (_ :: _, _), h => cases h; rfl
  · have hne : ∀ s ∈ text.head?, s ≠ .char '.' := by
      rintro _ hs rfl
      exact hp hs
    rw [scanFraction_of_ne hne] at h
    cases h
    exact scanFraction_of_ne (forall_head_append hne (hr.ne rfl))

theorem scanExponent_of_ne {text : List Symbol} (h : ∀ s ∈ text.head?, s ≠ .char 'e' ∧ s ≠ .char 'E') :
    scanExponent text = .ok (none, text) := by
  match text with
  | [] => rfl
  | .byte b :: text => rfl
  | .char c :: text =>
    have hc := h (.char c) rfl
    simp only [ne_eq, Symbol.char.injEq] at hc
    unfold scanExponent
    exact if_neg (not_or.2 hc)

/-- The sign of an exponent, which points down or up, and what follows it. -/
def exponentSign : List Symbol → Bool × List Symbol
  | .char '+' :: rest => (false, rest)
  | .char '-' :: rest => (true, rest)
  | rest => (false, rest)

theorem exponentSign_append {text : List Symbol} (h : text ≠ []) (rest : List Symbol) :
    exponentSign (text ++ rest) = ((exponentSign text).1, (exponentSign text).2 ++ rest) := by
  match text with
  | s :: text =>
    rw [List.cons_append]
    unfold exponentSign
    split
    · rename_i heq
      cases heq
      rfl
    · rename_i heq
      cases heq
      rfl
    · rename_i hplus hminus
      split
      · rename_i heq
        cases heq
        exact absurd rfl (hplus _)
      · rename_i heq
        cases heq
        exact absurd rfl (hminus _)
      · rfl

theorem scanExponent_mark {c : Char} (h : c = 'e' ∨ c = 'E') (rest : List Symbol) :
    scanExponent (.char c :: rest) =
      match spanDigits (exponentSign rest).2 with
      | ([], _) => .error (cutNumber (exponentSign rest).2)
      | (ds, after) => .ok (some ((exponentSign rest).1, ds), after) := by
  unfold scanExponent exponentSign
  exact if_pos h

theorem scanExponent_append {text after rest : List Symbol} {e : Option (Bool × List Nat)}
    (h : scanExponent text = .ok (e, after)) (hr : EndsNumber rest) :
    scanExponent (text ++ rest) = .ok (e, after ++ rest) := by
  by_cases hm : ∃ c, text.head? = some (.char c) ∧ (c = 'e' ∨ c = 'E')
  · obtain ⟨c, hs, hc⟩ := hm
    obtain ⟨text, rfl⟩ := List.head?_eq_some_iff.1 hs
    rw [scanExponent_mark hc] at h
    rw [List.cons_append, scanExponent_mark hc]
    match text, h with
    | [], h => cases h
    | s :: text, h =>
      rw [exponentSign_append (List.cons_ne_nil s text), spanDigits_append _ hr]
      generalize spanDigits (exponentSign (s :: text)).2 = p at h ⊢
      match p, h with
      | ([], _), h => cases h
      | (_ :: _, _), h => cases h; rfl
  · have hne : ∀ s ∈ text.head?, s ≠ .char 'e' ∧ s ≠ .char 'E' := by
      intro s hs
      constructor
      · rintro rfl
        exact hm ⟨'e', hs, .inl rfl⟩
      · rintro rfl
        exact hm ⟨'E', hs, .inr rfl⟩
    rw [scanExponent_of_ne hne] at h
    cases h
    exact scanExponent_of_ne (forall_head_append hne fun s hs => ⟨hr.ne rfl s hs, hr.ne rfl s hs⟩)

theorem scanNumeral_eq_ok {negative : Bool} {text after : List Symbol} {n : Numeral} :
    scanNumeral negative text = .ok (n, after) ↔ ∃ rest rest', n.negative = negative ∧
      scanWhole text = .ok (n.whole, rest) ∧ scanFraction rest = .ok (n.fraction, rest') ∧
        scanExponent rest' = .ok (n.exponent, after) := by
  simp only [scanNumeral, bind, Except.bind, pure, Except.pure]
  constructor
  · intro h
    cases hw : scanWhole text with
    | error cut => simp [hw] at h
    | ok w =>
      cases hf : scanFraction w.2 with
      | error cut => simp [hw, hf] at h
      | ok f =>
        cases he : scanExponent f.2 with
        | error cut => simp [hw, hf, he] at h
        | ok e =>
          simp only [hw, hf, he] at h
          cases h
          exact ⟨w.2, f.2, rfl, rfl, hf, he⟩
  · rintro ⟨rest, rest', rfl, hw, hf, he⟩
    simp only [hw, hf, he]

theorem scanNumeral_append {negative : Bool} {text after rest : List Symbol} {n : Numeral}
    (h : scanNumeral negative text = .ok (n, after)) (hr : EndsNumber rest) :
    scanNumeral negative (text ++ rest) = .ok (n, after ++ rest) := by
  rw [scanNumeral_eq_ok] at h ⊢
  obtain ⟨text₁, text₂, hn, hw, hf, he⟩ := h
  exact ⟨text₁ ++ rest, text₂ ++ rest, hn, scanWhole_append hw hr, scanFraction_append hf hr,
    scanExponent_append he hr⟩

/-- A character that starts a numeral. -/
def StartsNumeral (c : Char) : Prop :=
  c = '-' ∨ c.isDigit

/-- The symbols of a numeral after its sign, if its first character is `c`. -/
def unsigned (c : Char) (rest : List Symbol) : List Symbol :=
  if c = '-' then rest else .char c :: rest

theorem scanToken_of_startsNumeral {c : Char} (h : StartsNumeral c) (rest : List Symbol) :
    scanToken c rest =
      (scanNumeral (c = '-') (unsigned c rest)).map fun (n, after) => (n.token, after) := by
  rcases h with rfl | hd
  · rfl
  · have hc : c ≠ '-' := by
      rintro rfl
      cases hd
    rw [unsigned, if_neg hc, decide_eq_false hc]
    unfold scanToken
    split
    case h_12 => rw [if_pos hd]
    case h_11 => exact absurd rfl hc
    all_goals cases hd

theorem startsNumeral_of_scanToken {c : Char} {rest after : List Symbol}
    {v : Except TextFault Number} (h : scanToken c rest = .ok (.num v, after)) : StartsNumeral c := by
  unfold scanToken at h
  split at h
  case h_7 => cases hs : scanString .empty rest <;> simp [hs, Except.map] at h
  case h_8 | h_9 | h_10 =>
    generalize scanWord _ rest = r at h
    cases r <;> simp [Except.map] at h
  case h_11 => exact .inl rfl
  case h_12 =>
    split at h
    · exact .inr ‹_›
    · cases h
  all_goals cases h

theorem StartsNumeral.not_isBlank {c : Char} (h : StartsNumeral c) : isBlank c = false := by
  rcases h with rfl | hd
  · rfl
  · cases hb : isBlank c with
    | false => rfl
    | true =>
      simp only [isBlank, Bool.or_eq_true, beq_iff_eq] at hb
      rcases hb with ((rfl | rfl) | rfl) | rfl <;> cases hd

theorem scanToken_append_of_num {c : Char} {text after rest : List Symbol}
    {v : Except TextFault Number} (h : scanToken c text = .ok (.num v, after)) (hr : EndsNumber rest) :
    scanToken c (text ++ rest) = .ok (.num v, after ++ rest) := by
  have hc := startsNumeral_of_scanToken h
  have hu : unsigned c (text ++ rest) = unsigned c text ++ rest := by
    unfold unsigned
    split <;> rfl
  rw [scanToken_of_startsNumeral hc] at h ⊢
  cases hn : scanNumeral (c = '-') (unsigned c text) with
  | error cut => simp [hn, Except.map] at h
  | ok r =>
    rw [hn] at h
    cases h
    rw [hu, scanNumeral_append hn hr]
    rfl

/-- A text that is one number stays one in front of a text that does not carry it on. -/
theorem tokens_append_of_num {text rest : List Symbol} {v : Except TextFault Number}
    (h : tokens text = [.num v]) (hr : EndsNumber rest) :
    tokens (text ++ rest) = .num v :: tokens rest := by
  induction text with
  | nil => simp [tokens] at h
  | cons s text ih =>
    cases s with
    | byte b => simp [tokens] at h
    | char c =>
      cases hb : isBlank c with
      | true =>
        rw [tokens_blank hb] at h
        rw [List.cons_append, tokens_blank hb, ih h]
      | false =>
        cases ht : scanToken c text with
        | error cut => simp [tokens_of_scanToken_error hb ht] at h
        | ok r =>
          obtain ⟨t, after⟩ := r
          rw [tokens_of_scanToken hb ht, List.cons.injEq] at h
          obtain ⟨rfl, hnil⟩ := h
          rw [List.cons_append, tokens_of_scanToken hb (scanToken_append_of_num ht hr),
            tokens_blanks (exists_blank_of_tokens_eq_nil hnil)]

/-- A number whose text, alone, is one token with that number. -/
def Number.ReadsBack (n : Number) : Prop :=
  tokens (Symbol.ofString n.text) = [.num (.ok n)]

/-! ### Natural numbers -/

/-- The value of a decimal digit. -/
def digitValue (c : Char) : Nat :=
  c.toNat - '0'.toNat

theorem spanDigits_digits {cs : List Char} (h : ∀ c ∈ cs, c.isDigit) :
    spanDigits (cs.map .char) = (cs.map digitValue, []) := by
  induction cs with
  | nil => rfl
  | cons c cs ih =>
    rw [List.map_cons, spanDigits, ih fun c hc => h c (List.mem_cons_of_mem _ hc)]
    simp [digit?, h c List.mem_cons_self, digitValue]

theorem le_ofDigitChars (cs : List Char) (s : Nat) : s ≤ Nat.ofDigitChars 10 cs s := by
  induction cs generalizing s with
  | nil => exact Nat.le_refl s
  | cons c cs ih =>
    rw [Nat.ofDigitChars_cons]
    exact Nat.le_trans (by omega) (ih _)

/-- Digits whose value fits are all gathered. -/
theorem gatherWhole_digits (cs : List Char) (s : Nat)
    (h : Nat.ofDigitChars 10 cs s ≤ Numeral.maxSignificand) :
    Numeral.gatherWhole s (cs.map digitValue) = (Nat.ofDigitChars 10 cs s, 0) := by
  induction cs generalizing s with
  | nil => rfl
  | cons c cs ih =>
    rw [Nat.ofDigitChars_cons] at h ⊢
    have hs : s * 10 + digitValue c = 10 * s + (c.toNat - '0'.toNat) := by
      rw [digitValue, Nat.mul_comm]
    rw [List.map_cons, Numeral.gatherWhole, hs, if_pos (Nat.le_trans (le_ofDigitChars cs _) h), ih _ h]

/-- Only zero has a zero in front. -/
theorem eq_zero_of_toDigits {n : Nat} {cs : List Char} (h : Nat.toDigits 10 n = '0' :: cs) : n = 0 := by
  induction n using Nat.strongRecOn generalizing cs with
  | ind n ih =>
    by_cases hn : n < 10
    · rw [Nat.toDigits_of_lt_base hn] at h
      have : ∀ n < 10, Nat.digitChar n = '0' → n = 0 := by decide
      exact this n hn (List.cons.inj h).1
    · rw [Nat.toDigits_of_base_le (by decide) (by omega)] at h
      cases hd : Nat.toDigits 10 (n / 10) with
      | nil => exact absurd hd Nat.toDigits_ne_nil
      | cons c ds =>
        rw [hd] at h
        cases h
        have := ih (n / 10) (by omega) hd
        omega

theorem isDigit_toDigits (n : Nat) : ∀ c ∈ Nat.toDigits 10 n, c.isDigit := fun _ hc =>
  Nat.isDigit_of_mem_toDigits (by decide) (by decide) hc

theorem exists_toDigits (n : Nat) : ∃ c cs, Nat.toDigits 10 n = c :: cs ∧ c.isDigit := by
  cases hd : Nat.toDigits 10 n with
  | nil => exact absurd hd Nat.toDigits_ne_nil
  | cons c cs => exact ⟨c, cs, rfl, isDigit_toDigits n c (by rw [hd]; exact List.mem_cons_self)⟩

theorem scanWhole_toDigits (n : Nat) :
    scanWhole ((Nat.toDigits 10 n).map .char) = .ok ((Nat.toDigits 10 n).map digitValue, []) := by
  rw [scanWhole, spanDigits_digits (isDigit_toDigits n)]
  match hd : Nat.toDigits 10 n with
  | [] => exact absurd hd Nat.toDigits_ne_nil
  | [c] =>
    simp only [List.map_cons, List.map_nil]
    split <;> simp_all
  | c :: c' :: cs =>
    have hc : digitValue c ≠ 0 := by
      intro hz
      have hle := isDigit_toDigits n c (by rw [hd]; exact List.mem_cons_self)
      rw [Char.isDigit_iff_toNat] at hle
      rw [digitValue] at hz
      obtain rfl : c = '0' := Char.toNat_inj.1 (by omega)
      obtain rfl := eq_zero_of_toDigits hd
      cases hd
    simp only [List.map_cons]
    split <;> simp_all

/-- Natural numbers of 64 bits read back. -/
theorem Number.nat_readsBack {n : Nat} (h : n < UInt64.size) : (nat n).ReadsBack := by
  have htext : Symbol.ofString (nat n).text = (Nat.toDigits 10 n).map .char :=
    congrArg (List.map Symbol.char) Nat.toList_repr
  have hscan : scanNumeral false ((Nat.toDigits 10 n).map .char) =
      .ok (⟨false, (Nat.toDigits 10 n).map digitValue, none, none⟩, []) :=
    scanNumeral_eq_ok.2 ⟨[], [], rfl, scanWhole_toDigits n, rfl, rfl⟩
  have hvalue : Numeral.value? ⟨false, (Nat.toDigits 10 n).map digitValue, none, none⟩ = some (.nat n) := by
    have hn := gatherWhole_digits (Nat.toDigits 10 n) 0
    rw [Nat.ofDigitChars_ten_toDigits] at hn
    simp only [Numeral.value?, hn (Nat.le_sub_one_of_lt h)]
    rfl
  obtain ⟨c, cs, hd, hdigit⟩ := exists_toDigits n
  have hne : c ≠ '-' := by
    rintro rfl
    cases hdigit
  have hc : StartsNumeral c := .inr hdigit
  rw [hd] at htext hscan hvalue
  have ht : scanToken c (cs.map .char) = .ok (.num (.ok (.nat n)), []) := by
    rw [scanToken_of_startsNumeral hc, unsigned, if_neg hne, decide_eq_false hne, ← List.map_cons, hscan]
    simp only [Except.map, Numeral.token, hvalue]
  rw [ReadsBack, htext, List.map_cons, tokens_of_scanToken hc.not_isBlank ht, tokens]

/-! ### Doubles

The text of a double has a point or an exponent, so it is never read as an
integer. -/

/-- The digits of a decimal start with a digit, and have a point or an exponent behind it. -/
def IsDecimal (cs : List Char) : Prop :=
  ∃ c rest, cs = c :: rest ∧ c.isDigit ∧ ∃ mark ∈ rest, mark = '.' ∨ mark = 'e'

theorem isDecimal_pointAfter (n : Int) (k : Nat) :
    IsDecimal (Decimal.pointAfter n true (Decimal.digitsOf k)) := by
  unfold Decimal.pointAfter
  split
  · exact ⟨'0', _, rfl, rfl, '.', List.mem_cons_self, .inl rfl⟩
  · rename_i hn
    obtain ⟨c, cs, hd, hc⟩ := exists_toDigits k
    obtain ⟨m, hm⟩ : ∃ m, n.toNat = m + 1 := ⟨n.toNat - 1, by omega⟩
    simp only [Decimal.digitsOf, hd, hm, List.take_succ_cons, List.cons_append]
    split
    · exact ⟨c, _, rfl, hc, '.', by simp, .inl rfl⟩
    · exact ⟨c, _, rfl, hc, '.', by simp, .inl rfl⟩

theorem isDecimal_scientific (n : Int) (plusSign : Bool) (k : Nat) :
    IsDecimal (Decimal.scientific n plusSign (Decimal.digitsOf k)) := by
  have hmark : 'e' ∈ (if n < 0 then ['e', '-'] else if plusSign then ['e', '+'] else ['e']) := by
    split
    · exact List.mem_cons_self
    · split <;> exact List.mem_cons_self
  obtain ⟨c, cs, hd, hc⟩ := exists_toDigits k
  rw [Decimal.digitsOf, hd]
  unfold Decimal.scientific
  cases cs with
  | nil => exact ⟨c, _, rfl, hc, 'e', List.mem_append_left _ hmark, .inr rfl⟩
  | cons c' cs => exact ⟨c, _, rfl, hc, '.', List.mem_cons_self, .inl rfl⟩

/-- The text of a decimal starts as a numeral and goes on to a point or an exponent. -/
theorem text_json_cases (d : Decimal) : ∃ c rest, (d.text .json).toList = c :: rest ∧ StartsNumeral c ∧
    ∃ mark ∈ rest, mark = '.' ∨ mark = 'e' := by
  have hbody : IsDecimal (if d.digits = 0 ∨ Decimal.Layout.json.positional d.leading then
      Decimal.pointAfter (d.leading + 1) true (Decimal.digitsOf d.digits)
    else Decimal.scientific d.leading true (Decimal.digitsOf d.digits)) := by
    split
    · exact isDecimal_pointAfter _ _
    · exact isDecimal_scientific _ _ _
  obtain ⟨c, rest, hcs, hc, mark, hm, hmark⟩ := hbody
  rw [Decimal.text, String.toList_ofList]
  cases d.negative with
  | false => exact ⟨c, rest, hcs, .inr hc, mark, hm, hmark⟩
  | true =>
    refine ⟨'-', c :: rest, ?_, .inl rfl, mark, List.mem_cons_of_mem _ hm, hmark⟩
    rw [← hcs]
    rfl

theorem mem_spanDigits {s : Symbol} : ∀ {text : List Symbol}, s ∈ text →
    (digit? s).isSome ∨ s ∈ (spanDigits text).2
  | s' :: text, h => by
    rw [spanDigits]
    cases hd : digit? s' with
    | none => exact .inr h
    | some d =>
      rcases List.mem_cons.1 h with rfl | h
      · exact .inl (by rw [hd]; rfl)
      · exact mem_spanDigits h

theorem mem_scanWhole {s : Symbol} {text after : List Symbol} {ds : List Nat}
    (h : scanWhole text = .ok (ds, after)) (hs : s ∈ text) : (digit? s).isSome ∨ s ∈ after := by
  have := mem_spanDigits hs
  rw [scanWhole] at h
  generalize spanDigits text = p at h this
  match p, h with
  | (0 :: _ :: _, _), h => cases h
  | ([0], _), h => cases h; exact this
  | ((_ + 1) :: _, _), h => cases h; exact this

theorem eq_of_scanFraction {text after : List Symbol} (h : scanFraction text = .ok (none, after)) :
    after = text := by
  unfold scanFraction at h
  split at h
  · split at h <;> cases h
  · cases h
    rfl

theorem eq_of_scanExponent {text after : List Symbol} (h : scanExponent text = .ok (none, after)) :
    after = text := by
  unfold scanExponent at h
  split at h
  · split at h
    · dsimp only at h
      split at h <;> cases h
    · cases h
      rfl
  · cases h
    rfl

/-- A numeral that takes in a symbol other than a digit has a fraction or an exponent. -/
theorem isSome_of_scanNumeral {negative : Bool} {text after : List Symbol} {n : Numeral} {s : Symbol}
    (h : scanNumeral negative text = .ok (n, after)) (hs : s ∈ text) (hd : digit? s = none)
    (ha : s ∉ after) : n.fraction.isSome ∨ n.exponent.isSome := by
  obtain ⟨rest, rest', -, hw, hf, he⟩ := scanNumeral_eq_ok.1 h
  cases hfr : n.fraction with
  | some f => exact .inl rfl
  | none =>
    cases hex : n.exponent with
    | some e => exact .inr rfl
    | none =>
      rw [hfr] at hf
      rw [hex] at he
      obtain rfl := eq_of_scanFraction hf
      obtain rfl := eq_of_scanExponent he
      rcases mem_scanWhole hw hs with h' | h'
      · rw [hd] at h'
        cases h'
      · exact absurd h' ha

/-- Such a numeral is a double. -/
theorem exists_float_of_value? {n : Numeral} {v : Number} (h : n.value? = some v)
    (hn : n.fraction.isSome ∨ n.exponent.isSome) : ∃ x, v = .float x := by
  have hmap : ∀ {y : Option Binary64}, y.map Number.float = some v → ∃ x, v = .float x := by
    intro y hy
    obtain ⟨x, -, rfl⟩ := Option.map_eq_some_iff.1 hy
    exact ⟨x, rfl⟩
  unfold Numeral.value? at h
  dsimp only at h
  split at h
  · rename_i hf he
    rw [hf, he] at hn
    cases hn <;> contradiction
  · split at h
    · exact hmap h
    · split at h
      · exact hmap h
      · split at h
        · cases h
        · cases h
          exact ⟨_, rfl⟩

end Json

/-- A double that is read from its text, unchanged. -/
def Binary64.ReadsBack (x : Binary64) : Prop :=
  (Json.Document.ofString (Json.Number.float x).text).read (fun _ => Json.Doc.float) = .ok x

instance (x : Binary64) : Decidable x.ReadsBack :=
  match h : (Json.Document.ofString (Json.Number.float x).text).read fun _ => Json.Doc.float with
  | .ok y => decidable_of_iff (y = x) (by rw [Binary64.ReadsBack, h, Except.ok.injEq])
  | .error _ => .isFalse (by rw [Binary64.ReadsBack, h]; exact nofun)

/-- What is not finite is written as `null`, which is no number. -/
theorem Binary64.isFinite_of_read {x y : Binary64}
    (h : (Json.Document.ofString (Json.Number.float x).text).read (fun _ => Json.Doc.float) = .ok y) :
    x.isFinite := by
  cases hf : x.isFinite with
  | true => rfl
  | false =>
    have hnull := Json.tokens_null []
    rw [Json.Number.text, hf, Json.Document.ofString, Json.Document.ofSymbols] at h
    rw [List.append_nil] at hnull
    simp only [Bool.false_eq_true, if_false, hnull, Json.tokens] at h
    cases h

theorem Binary64.ReadsBack.isFinite {x : Binary64} (h : x.ReadsBack) : x.isFinite :=
  isFinite_of_read h

namespace Json

/-- A text that starts as a numeral and is read as a double is a numeral. -/
theorem scanNumeral_of_read_float {c : Char} {rest : List Symbol} {x : Binary64} (hc : StartsNumeral c)
    (h : (Document.ofSymbols (.char c :: rest)).read (fun _ => Doc.float) = .ok x) :
    ∃ n after v, scanNumeral (c = '-') (unsigned c rest) = .ok (n, after) ∧ tokens after = [] ∧
      n.value? = some v ∧ v.toBinary64 = x := by
  have hb := hc.not_isBlank
  have hscan := scanToken_of_startsNumeral hc rest
  rw [Document.ofSymbols] at h
  cases hn : scanNumeral (c = '-') (unsigned c rest) with
  | error cut =>
    rw [hn] at hscan
    rw [tokens_of_scanToken_error hb hscan] at h
    cases h
  | ok r =>
    obtain ⟨n, after⟩ := r
    rw [hn] at hscan
    rw [tokens_of_scanToken hb hscan] at h
    cases hv : n.value? with
    | none =>
      simp only [Numeral.token, hv] at h
      cases ha : tokens after <;> rw [ha] at h <;> cases h
    | some v =>
      simp only [Numeral.token, hv] at h
      cases ha : tokens after with
      | nil =>
        rw [ha] at h
        exact ⟨n, after, v, rfl, ha, hv, Except.ok.inj h⟩
      | cons t ts =>
        rw [ha] at h
        cases h

/-- A double whose text is read as a number is one token there. -/
theorem tokens_float {x y : Binary64}
    (h : (Document.ofString (Number.float x).text).read (fun _ => Doc.float) = .ok y) :
    tokens (Symbol.ofString (Number.float x).text) = [.num (.ok (.float y))] := by
  have hfinite := Binary64.isFinite_of_read h
  obtain ⟨c, rest, htext, hc, mark, hm, hmark⟩ := text_json_cases (Decimal.shortest .even x)
  have hsymbols : Symbol.ofString (Number.float x).text = .char c :: rest.map .char := by
    rw [Symbol.ofString, Number.text, if_pos hfinite, htext]
    rfl
  rw [Document.ofString, hsymbols] at h
  obtain ⟨n, after, v, hn, ha, hv, rfl⟩ := scanNumeral_of_read_float hc h
  have hmem : Symbol.char mark ∈ unsigned c (rest.map .char) := by
    have := List.mem_map_of_mem (f := Symbol.char) hm
    unfold unsigned
    split
    · exact this
    · exact List.mem_cons_of_mem _ this
  have hafter : Symbol.char mark ∉ after := by
    intro hmem
    obtain ⟨_, ⟨⟩, hblank⟩ := exists_blank_of_tokens_eq_nil ha _ hmem
    rcases hmark with rfl | rfl <;> cases hblank
  have hdigit : digit? (.char mark) = none := by
    rcases hmark with rfl | rfl <;> rfl
  -- the mark is no digit, so the numeral is no integer
  obtain ⟨y, rfl⟩ := exists_float_of_value? hv (isSome_of_scanNumeral hn hmem hdigit hafter)
  have hscan := scanToken_of_startsNumeral hc (rest.map .char)
  rw [hn] at hscan
  rw [hsymbols, tokens_of_scanToken hc.not_isBlank hscan, ha, Numeral.token, hv]
  rfl

/-- A double that is read from its text reads back. -/
theorem Number.float_readsBack {x : Binary64} (h : x.ReadsBack) : (float x).ReadsBack :=
  tokens_float h

/-! ## Strings -/

/-- A string of which these characters are read, in reverse, without a fault. -/
def Quoted.clean (cs : List Char) : Quoted :=
  ⟨cs, none, false, false⟩

theorem hexDigit?_digitChar : ∀ n < 16, hexDigit? (.char (Nat.digitChar n)) = some n := by
  decide

theorem pushUnit_clean {c : Char} (h : c.toNat < 0x20) (cs : List Char) :
    (Quoted.clean cs).pushUnit c.toNat = .clean (c :: cs) := by
  rw [Quoted.pushUnit, if_neg (by omega), if_neg (by omega), Char.ofNat_toNat]
  rfl

/-- An escaped character is read back. -/
theorem scanString_escape (c : Char) (cs : List Char) (rest : List Symbol) :
    scanString (.clean cs) ((escape c).map .char ++ rest) = scanString (.clean (c :: cs)) rest := by
  by_cases hc : c = '"' ∨ c = '\\' ∨ c = '\x08' ∨ c = '\x0c' ∨ c = '\n' ∨ c = '\r' ∨ c = '\t'
  · -- one letter stands for the character
    rcases hc with rfl | rfl | rfl | rfl | rfl | rfl | rfl <;> rfl
  · simp only [not_or] at hc
    simp only [escape, hc, if_false]
    by_cases hlow : c.toNat < 0x20
    · -- the other control characters are written in hexadecimal
      have hunit : unit? (.char '0') (.char '0') (.char (Nat.digitChar (c.toNat / 16)))
          (.char (Nat.digitChar (c.toNat % 16))) = some c.toNat := by
        have h₁ := hexDigit?_digitChar (c.toNat / 16) (by omega)
        have h₂ := hexDigit?_digitChar (c.toNat % 16) (by omega)
        simp only [unit?, h₁, h₂, show hexDigit? (.char '0') = some 0 from rfl, Option.bind_eq_bind,
          Option.bind_some, Option.pure_def, Option.some.injEq]
        omega
      rw [if_pos hlow]
      simp only [List.map_cons, List.map_nil, List.cons_append, List.nil_append]
      rw [scanString, hunit]
      exact congrArg (scanString · rest) (pushUnit_clean hlow cs)
    · rw [if_neg hlow, List.map_singleton, List.singleton_append, scanString, if_neg hlow]
      · rfl
      all_goals simp [hc]

theorem scanString_escapes (cs done : List Char) (rest : List Symbol) :
    scanString (.clean done) ((cs.flatMap escape).map .char ++ Symbol.char '"' :: rest) =
      .ok (.ok (String.ofList (done.reverse ++ cs)), rest) := by
  induction cs generalizing done with
  | nil =>
    rw [List.append_nil]
    rfl
  | cons c cs ih =>
    rw [List.flatMap_cons, List.map_append, List.append_assoc, scanString_escape, ih]
    simp

theorem tokens_quote (s : String) (rest : List Symbol) :
    tokens (Symbol.ofString (quote s) ++ rest) = .str (.ok s) :: tokens rest := by
  have hsymbols : Symbol.ofString (quote s) ++ rest =
      .char '"' :: ((s.toList.flatMap escape).map .char ++ Symbol.char '"' :: rest) := by
    simp [quote, Symbol.ofString]
  have hscan := scanString_escapes s.toList [] rest
  rw [List.reverse_nil, List.nil_append, String.ofList_toList] at hscan
  rw [hsymbols]
  refine tokens_of_scanToken rfl ?_
  change (scanString (.clean []) _).map _ = _
  rw [hscan]
  rfl

end Json
end ShaderAlgebra
