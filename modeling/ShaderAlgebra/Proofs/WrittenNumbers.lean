import ShaderAlgebra.Proofs.JsonTokens
import ShaderAlgebra.Proofs.Lexer
import ShaderAlgebra.Proofs.Rounding

/-!
# Every finite double that is written is read as some double

Reading a numeral gathers its digits, makes a double of them and scales that by a
power of ten.  The two roundings may lead away from the double that was written,
and upwards they may lead past the largest one.

They do not, for the text of a finite double.  What is gathered denotes at most
what the numeral denotes, and the numeral at most half a unit of the last place more
than the double.  Below the last three doubles that leaves room for both roundings
(`writable`); those three, of either sign, are read one by one.
-/

namespace ShaderAlgebra
namespace Json

open Glsl (fractionChars signedPowerChars powerValue)

/-! ## Numerals

The characters of a numeral are scanned as its digits. -/

theorem spanDigits_append_digits {cs : List Char} (h : ∀ c ∈ cs, c.isDigit) {rest : List Symbol}
    (hr : ∀ s ∈ rest.head?, digit? s = none) :
    spanDigits (cs.map .char ++ rest) = (cs.map digitValue, rest) := by
  induction cs with
  | nil =>
    cases rest with
    | nil => rfl
    | cons s rest => simp [spanDigits, hr s rfl]
  | cons c cs ih =>
    rw [List.map_cons, List.cons_append, spanDigits, ih fun c hc => h c (List.mem_cons_of_mem _ hc)]
    simp [digit?, h c List.mem_cons_self, digitValue]

/-- Digits of which none but a single zero starts with a zero. -/
def IsWhole (cs : List Char) : Prop :=
  cs = ['0'] ∨ cs.head? ≠ some '0'

theorem scanWhole_append_digits {cs : List Char} (hne : cs ≠ []) (h : ∀ c ∈ cs, c.isDigit)
    (hw : IsWhole cs) {rest : List Symbol} (hr : ∀ s ∈ rest.head?, digit? s = none) :
    scanWhole (cs.map .char ++ rest) = .ok (cs.map digitValue, rest) := by
  rw [scanWhole, spanDigits_append_digits h hr]
  cases cs with
  | nil => exact absurd rfl hne
  | cons c cs =>
    rcases hw with hw | hw
    · rw [hw]
      rfl
    · have hc : digitValue c ≠ 0 := by
        intro hz
        have hdigit := h c List.mem_cons_self
        rw [Char.isDigit_iff_toNat] at hdigit
        rw [digitValue] at hz
        exact hw (congrArg some (Char.toNat_inj.1 (by omega)))
      simp only [List.map_cons]
      split <;> simp_all

theorem scanFraction_append_digits {fraction : Option (List Char)}
    (h : ∀ ds ∈ fraction, ∀ c ∈ ds, c.isDigit) (hne : fraction ≠ some []) {rest : List Symbol}
    (hr : ∀ s ∈ rest.head?, digit? s = none ∧ s ≠ .char '.') :
    scanFraction ((fractionChars fraction).map .char ++ rest) =
      .ok (fraction.map (List.map digitValue), rest) := by
  cases fraction with
  | none => exact scanFraction_of_ne fun s hs => (hr s hs).2
  | some ds =>
    rw [fractionChars, List.map_cons, List.cons_append, scanFraction,
      spanDigits_append_digits (h ds rfl) fun s hs => (hr s hs).1]
    cases ds with
    | nil => exact absurd rfl hne
    | cons c ds => rfl

theorem scanExponent_digits {power : Option (Bool × List Char)}
    (h : ∀ x ∈ power, x.2 ≠ [] ∧ ∀ c ∈ x.2, c.isDigit) :
    scanExponent ((signedPowerChars true power).map .char) =
      .ok (power.map fun x => (x.1, x.2.map digitValue), []) := by
  cases power with
  | none => rfl
  | some x =>
    obtain ⟨negative, ds⟩ := x
    obtain ⟨hne, hdigits⟩ := h _ rfl
    have hspan := spanDigits_digits hdigits
    have hsign : exponentSign ((if negative then '-' :: ds else if (true : Bool) then '+' :: ds else ds).map
        Symbol.char) = (negative, ds.map .char) := by
      cases negative <;> rfl
    rw [signedPowerChars, List.map_cons, scanExponent_mark (.inl rfl), hsign, hspan]
    cases ds with
    | nil => exact absurd rfl hne
    | cons c ds => rfl

/-- The digits of a numeral, as they are scanned. -/
def Numeral.ofChars (negative : Bool) (n : Glsl.Numeral) : Numeral where
  negative := negative
  whole := n.whole.map digitValue
  fraction := n.fraction.map (List.map digitValue)
  exponent := n.power.map fun x => (x.1, x.2.map digitValue)

/-- **A numeral is scanned as its digits.** -/
theorem scanNumeral_chars (negative : Bool) {n : Glsl.Numeral} (hw : IsWhole n.whole)
    (hf : n.fraction ≠ some []) :
    scanNumeral negative
        ((n.whole ++ (fractionChars n.fraction ++ signedPowerChars true n.power)).map .char) =
      .ok (.ofChars negative n, []) := by
  have hpower : ∀ s ∈ ((signedPowerChars true n.power).map Symbol.char).head?,
      digit? s = none ∧ s ≠ .char '.' := by
    cases n.power with
    | none => exact nofun
    | some x =>
      rintro _ ⟨⟩
      exact ⟨rfl, by decide⟩
  have hfraction : ∀ s ∈ ((fractionChars n.fraction).map Symbol.char ++
      (signedPowerChars true n.power).map Symbol.char).head?, digit? s = none := by
    cases n.fraction with
    | none => exact fun s hs => (hpower s hs).1
    | some ds =>
      rintro _ ⟨⟩
      rfl
  rw [scanNumeral_eq_ok, List.map_append, List.map_append]
  exact ⟨_, _, rfl, scanWhole_append_digits n.whole_ne_nil n.whole_digits hw hfraction,
    scanFraction_append_digits n.fraction_digits hf hpower, scanExponent_digits n.power_digits⟩

/-! ## Gathering

What is gathered from digits is at most what they denote. -/

theorem mul_pow_le_ofDigitChars (cs : List Char) (s : Nat) :
    s * 10 ^ cs.length ≤ Nat.ofDigitChars 10 cs s := by
  induction cs generalizing s with
  | nil => simp [Nat.ofDigitChars]
  | cons c cs ih =>
    rw [Nat.ofDigitChars_cons]
    calc s * 10 ^ (cs.length + 1) = 10 * s * 10 ^ cs.length := by ring
      _ ≤ (10 * s + (c.toNat - '0'.toNat)) * 10 ^ cs.length := Nat.mul_le_mul_right _ (Nat.le_add_right _ _)
      _ ≤ Nat.ofDigitChars 10 cs (10 * s + (c.toNat - '0'.toNat)) := ih _

theorem ofDigitChars_lt {cs : List Char} (h : ∀ c ∈ cs, c.isDigit) (s : Nat) :
    Nat.ofDigitChars 10 cs s < (s + 1) * 10 ^ cs.length := by
  induction cs generalizing s with
  | nil => simp [Nat.ofDigitChars]
  | cons c cs ih =>
    have hc := h c List.mem_cons_self
    rw [Char.isDigit_iff_toNat] at hc
    rw [Nat.ofDigitChars_cons]
    calc Nat.ofDigitChars 10 cs (10 * s + (c.toNat - '0'.toNat))
        < (10 * s + (c.toNat - '0'.toNat) + 1) * 10 ^ cs.length :=
          ih (fun c hc => h c (List.mem_cons_of_mem _ hc)) _
      _ ≤ (10 * (s + 1)) * 10 ^ cs.length := by
          refine Nat.mul_le_mul_right _ ?_
          change 48 ≤ c.toNat ∧ c.toNat ≤ 57 at hc
          change 10 * s + (c.toNat - 48) + 1 ≤ _
          omega
      _ = (s + 1) * 10 ^ (cs.length + 1) := by ring

theorem mul_ten_add_digitValue (s : Nat) (c : Char) :
    s * 10 + digitValue c = 10 * s + (c.toNat - '0'.toNat) := by
  rw [digitValue, Nat.mul_comm]

/-- Fraction digits that do not fit are left out. -/
theorem gatherFraction_le (cs : List Char) (s : Nat) :
    (Numeral.gatherFraction s (cs.map digitValue)).2 ≤ cs.length ∧
      (Numeral.gatherFraction s (cs.map digitValue)).1 *
          10 ^ (cs.length - (Numeral.gatherFraction s (cs.map digitValue)).2) ≤
        Nat.ofDigitChars 10 cs s := by
  induction cs generalizing s with
  | nil => simp [Numeral.gatherFraction, Nat.ofDigitChars]
  | cons c cs ih =>
    rw [List.map_cons, Numeral.gatherFraction, mul_ten_add_digitValue]
    split
    · obtain ⟨hlen, hle⟩ := ih (10 * s + (c.toNat - '0'.toNat))
      rw [Nat.ofDigitChars_cons]
      refine ⟨Nat.succ_le_succ hlen, ?_⟩
      simpa using hle
    · exact ⟨Nat.zero_le _, mul_pow_le_ofDigitChars (c :: cs) s⟩

/-- The digits that are left out only make the number smaller. -/
theorem gathered_le (whole fraction : List Char) {p e : Int}
    (he : e ≤ p - (Numeral.gatherFraction (Nat.ofDigitChars 10 whole 0) (fraction.map digitValue)).2) :
    ((Numeral.gatherFraction (Nat.ofDigitChars 10 whole 0) (fraction.map digitValue)).1 : ℚ) * 10 ^ e ≤
      Nat.ofDigitChars 10 (whole ++ fraction) 0 * 10 ^ (p - fraction.length) := by
  obtain ⟨hused, hle⟩ := gatherFraction_le fraction (Nat.ofDigitChars 10 whole 0)
  generalize Numeral.gatherFraction (Nat.ofDigitChars 10 whole 0) (fraction.map digitValue) = g
    at he hused hle ⊢
  have hle' : (g.1 : ℚ) * 10 ^ (fraction.length - g.2) ≤ Nat.ofDigitChars 10 (whole ++ fraction) 0 := by
    rw [Nat.ofDigitChars_append]
    exact_mod_cast hle
  calc (g.1 : ℚ) * 10 ^ e ≤ g.1 * 10 ^ (p - g.2) := by
        gcongr
        norm_num
    _ = g.1 * 10 ^ (fraction.length - g.2) * 10 ^ (p - fraction.length) := by
        rw [mul_assoc, ← zpow_natCast, ← zpow_add₀ (by norm_num)]
        congr 2
        push_cast [hused]
        ring
    _ ≤ Nat.ofDigitChars 10 (whole ++ fraction) 0 * 10 ^ (p - fraction.length) := by gcongr

/-- The digits of an exponent are read if they denote no more than the largest one. -/
theorem exponentValue?_digits (cs : List Char) :
    Numeral.exponentValue? (cs.map digitValue) =
      if Nat.ofDigitChars 10 cs 0 ≤ Numeral.maxExponent then some (Nat.ofDigitChars 10 cs 0) else none := by
  have hnone : ∀ ds : List Nat, ds.foldl (fun v d => v.bind fun v =>
      if v * 10 + d ≤ Numeral.maxExponent then some (v * 10 + d) else none) none = none := by
    intro ds
    induction ds with
    | nil => rfl
    | cons d ds ih => exact ih
  have hfold : ∀ s ≤ Numeral.maxExponent, (cs.map digitValue).foldl (fun v d => v.bind fun v =>
      if v * 10 + d ≤ Numeral.maxExponent then some (v * 10 + d) else none) (some s) =
        if Nat.ofDigitChars 10 cs s ≤ Numeral.maxExponent then some (Nat.ofDigitChars 10 cs s) else none := by
    intro s hs
    induction cs generalizing s with
    | nil => exact (if_pos hs).symm
    | cons c cs ih =>
      rw [List.map_cons, List.foldl_cons, Option.bind_some, mul_ten_add_digitValue, Nat.ofDigitChars_cons]
      split
      · exact ih _ (by assumption)
      · have hle := le_ofDigitChars cs (10 * s + (c.toNat - '0'.toNat))
        rw [hnone, if_neg (by omega)]
  exact hfold 0 (Nat.zero_le _)

/-! ## Scaling -/

namespace Numeral

open Binary64 (overflow)

/-- What may be gathered and scaled without an overflow: two roundings upwards still end below
it. -/
def writable : ℚ :=
  (2 ^ 53 - 7 / 2) * 2 ^ (971 : Int)

theorem writable_mul_lt : writable * (1 + (2 ^ 53)⁻¹) * (1 + (2 ^ 53)⁻¹) < overflow := by
  have hpos : (0 : ℚ) < 2 ^ (971 : Int) := zpow_pos (by norm_num) _
  calc writable * (1 + (2 ^ 53)⁻¹) * (1 + (2 ^ 53)⁻¹)
      = (2 ^ 53 - 7 / 2) * (1 + (2 ^ 53)⁻¹) * (1 + (2 ^ 53)⁻¹) * 2 ^ (971 : Int) := by
        rw [writable]
        ring
    _ < overflow := mul_lt_mul_of_pos_right (by norm_num) hpos

theorem writable_lt : writable < overflow :=
  mul_lt_mul_of_pos_right (by norm_num) (zpow_pos (by norm_num) _)

theorem writable_lt_tenPow : writable < 10 ^ 309 := by
  have hpow : 2 ^ 1024 < 10 ^ 309 := by decide +kernel
  calc writable < 2 ^ (1024 : Int) := writable_lt.trans Binary64.overflow_lt
    _ = ((2 ^ 1024 : Nat) : ℚ) := by
        rw [Nat.cast_pow, Nat.cast_ofNat]
        exact zpow_natCast 2 1024
    _ < ((10 ^ 309 : Nat) : ℚ) := Nat.cast_lt.2 hpow
    _ = 10 ^ 309 := by rw [Nat.cast_pow, Nat.cast_ofNat]

/-- Scaling down never fails. -/
theorem isSome_scale?_of_neg (f : Binary64) {e : Int} (h : e < 0) : (scale? f e).isSome := by
  rw [scale?]
  by_cases hsmall : e.natAbs ≤ 308
  · rw [if_pos hsmall, if_neg (by omega)]
    rfl
  · rw [if_neg hsmall, if_neg (show ¬0 < e by omega)]
    split
    · rfl
    · exact isSome_scale?_of_neg _ (by omega)
termination_by e.natAbs

/-- A natural number and a power of ten whose product is writable have a finite product as doubles. -/
theorem isFinite_mul_tenPow {s k : Nat} (hs : 0 < s) (h : (s : ℚ) * 10 ^ k ≤ writable) :
    ((Binary64.ofNat s).mul (Binary64.tenPow k)).isFinite := by
  have hone : (1 : ℚ) ≤ s := by exact_mod_cast hs
  have hpow : (1 : ℚ) ≤ 10 ^ k := one_le_pow₀ (by norm_num)
  have hs' : (s : ℚ) ≤ writable := (le_mul_of_one_le_right (by linarith) hpow).trans h
  have hk' : (10 : ℚ) ^ k ≤ writable := (le_mul_of_one_le_left (by linarith) hone).trans h
  have h₁ := Binary64.magnitude_ofNat_le hs (hs'.trans_lt writable_lt)
  have h₂ := Binary64.magnitude_tenPow_le (hk'.trans_lt writable_lt)
  refine Binary64.isFinite_mul (lt_of_le_of_lt ?_ writable_mul_lt)
  calc (Binary64.ofNat s).magnitude * (Binary64.tenPow k).magnitude
      ≤ (s * (1 + (2 ^ 53)⁻¹)) * (10 ^ k * (1 + (2 ^ 53)⁻¹)) :=
        mul_le_mul h₁ h₂ (mul_nonneg (Nat.cast_nonneg _) (zpow_nonneg (by norm_num) _)) (by positivity)
    _ = (s * 10 ^ k) * (1 + (2 ^ 53)⁻¹) * (1 + (2 ^ 53)⁻¹) := by ring
    _ ≤ writable * (1 + (2 ^ 53)⁻¹) * (1 + (2 ^ 53)⁻¹) := by gcongr

/-- **Scaling a natural number within what is writable does not fail.** -/
theorem isSome_scale?_ofNat {s : Nat} {e : Int} (h : e < 0 ∨ (s : ℚ) * 10 ^ e ≤ writable) :
    (scale? (Binary64.ofNat s) e).isSome := by
  by_cases hneg : e < 0
  · exact isSome_scale?_of_neg _ hneg
  obtain ⟨k, rfl⟩ := Int.eq_ofNat_of_zero_le (not_lt.1 hneg)
  replace h := h.resolve_left hneg
  rw [zpow_natCast] at h
  rw [scale?, Int.natAbs_natCast, if_pos (Int.natCast_nonneg k)]
  rcases Nat.eq_zero_or_pos s with rfl | hs
  · have hfinite : ((Binary64.ofNat 0).mul (Binary64.tenPow k)).isFinite := by
      refine Binary64.isFinite_mul ?_
      rw [show (Binary64.ofNat 0).magnitude = 0 from zero_mul _, zero_mul]
      exact mul_pos (by norm_num) (zpow_pos (by norm_num) _)
    split
    · simp only [hfinite, if_true, Option.isSome_some]
    · rfl
  · have hfinite := isFinite_mul_tenPow hs h
    -- the power of ten is in the table, since the number is not zero
    have hk : k < 309 := by
      have hone : (1 : ℚ) ≤ s := by exact_mod_cast hs
      have hle : (10 : ℚ) ^ k ≤ writable := (le_mul_of_one_le_left (by positivity) hone).trans h
      exact (pow_lt_pow_iff_right₀ (by norm_num)).1 (hle.trans_lt writable_lt_tenPow)
    rw [if_pos (by omega)]
    simp only [hfinite, if_true, Option.isSome_some]

theorem isSome_floatOf? (negative : Bool) {s : Nat} {e : Int}
    (h : e < 0 ∨ (s : ℚ) * 10 ^ e ≤ writable) : (floatOf? negative s e).isSome := by
  rw [floatOf?, Option.isSome_map]
  exact isSome_scale?_ofNat h

/-- An exponent that is kept within bounds is not raised, unless it stays negative. -/
theorem clampExponent_cases (e : Int) : clampExponent e < 0 ∨ clampExponent e ≤ e := by
  have hmin : Int32.minValue.toInt = -2147483648 := rfl
  have hmax : Int32.maxValue.toInt = 2147483647 := rfl
  unfold clampExponent
  omega

/-- **A numeral with a point or an exponent that denotes no more than is writable has a value.** -/
theorem isSome_value?_ofChars (negative : Bool) {n : Glsl.Numeral}
    (hw : Nat.ofDigitChars 10 n.whole 0 ≤ maxSignificand)
    (hn : n.fraction.isSome ∨ n.power.isSome)
    (hp : ∀ ds, n.power = some (false, ds) → Nat.ofDigitChars 10 ds 0 ≤ maxExponent)
    (hv : n.value ≤ writable) : (ofChars negative n).value?.isSome := by
  obtain ⟨whole, fraction, power, hne, hwhole, hfraction, hpower⟩ := n
  dsimp only at hw hn hp
  have hdigits : (fraction.map (List.map digitValue)).getD [] = (fraction.getD []).map digitValue := by
    cases fraction <;> rfl
  have hgather := gatherWhole_digits whole 0 hw
  have hvalue := fun (e : Int) he =>
    (gathered_le whole (fraction.getD []) (p := powerValue power) (e := e) he).trans hv
  generalize hg : gatherFraction (Nat.ofDigitChars 10 whole 0) ((fraction.getD []).map digitValue) = g
    at hvalue
  have hsomething : ¬((fraction.map (List.map digitValue)) = none ∧
      power.map (fun x => (x.1, x.2.map digitValue)) = none) := by
    rintro ⟨hf, hp⟩
    rw [Option.map_eq_none_iff] at hf hp
    rw [hf, hp] at hn
    simp at hn
  unfold value? ofChars
  dsimp only
  rw [hgather]
  split
  · rename_i hf hp
    exact absurd ⟨hf, hp⟩ hsomething
  rw [hdigits, hg]
  dsimp only
  cases power with
  | none =>
    rw [Option.map_none]
    dsimp only
    rw [Option.isSome_map]
    exact isSome_floatOf? _ (.inr (hvalue _ (by simp [powerValue])))
  | some x =>
    obtain ⟨down, ds⟩ := x
    rw [Option.map_some]
    dsimp only
    rw [exponentValue?_digits]
    by_cases hfits : Nat.ofDigitChars 10 ds 0 ≤ maxExponent
    · rw [if_pos hfits]
      dsimp only
      rw [Option.isSome_map]
      refine isSome_floatOf? _ ((clampExponent_cases _).imp_right fun hle => ?_)
      refine hvalue _ (hle.trans (le_of_eq ?_))
      cases down <;> simp [powerValue] <;> ring
    · rw [if_neg hfits]
      cases down with
      | true => simp
      | false => exact absurd (hp ds rfl) hfits

end Numeral
end Json

/-! ## Shortest decimals

The shortest decimal of a double lies within half a unit of the last place. -/

namespace Decimal

theorem magnitude_normalize (d : Decimal) : d.normalize.magnitude = d.magnitude := by
  fun_induction normalize d with
  | case1 d h => simp [magnitude, h]
  | case2 d h hmod ih =>
    have hdigits : (d.digits : ℚ) = (d.digits / 10 : Nat) * 10 := by
      exact_mod_cast (Nat.div_mul_cancel (Nat.dvd_of_mod_eq_zero hmod)).symm
    rw [ih, magnitude, magnitude, zpow_add_one₀ (by norm_num), hdigits]
    ring
  | case3 d h hmod => rfl

theorem exponent_normalize {d : Decimal} (h : d.normalize.digits = 0) : d.normalize.exponent = 0 := by
  fun_induction normalize d with
  | case1 d hz => rfl
  | case2 d hz hmod ih => exact ih h
  | case3 d hz hmod => exact absurd h hz

/-- The shortest decimal of zero has no power of ten. -/
theorem exponent_shortest {tie : Tie} {x : Binary64} (h : (shortest tie x).digits = 0) :
    (shortest tie x).exponent = 0 := by
  unfold shortest at h ⊢
  split
  · rfl
  · rename_i hz
    rw [if_neg hz] at h
    exact exponent_normalize h

namespace Interval

/-- A grid point in an interval is at most its upper end. -/
theorem le_of_holds {v : Interval} (hden : 0 < v.unitDen) {p : Int} {d : Nat}
    (h : v.holds (v.grid p) d) : (d : ℚ) * 10 ^ p ≤ v.high * (v.unitNum / v.unitDen) := by
  have hden' : (0 : ℚ) < v.unitDen := by exact_mod_cast hden
  have hle : d * (v.grid p).den ≤ v.high * (v.grid p).num := by
    unfold holds at h
    split at h
    · exact (by simpa using h : _ ∧ _).2
    · exact Nat.le_of_lt (by simpa using h : _ ∧ _).2
  rw [← mul_div_assoc, le_div_iff₀ hden']
  unfold grid at hle
  split at hle
  · obtain ⟨k, rfl⟩ := Int.eq_ofNat_of_zero_le (by assumption)
    have hnat : d * (v.unitDen * 10 ^ k) ≤ v.high * v.unitNum := hle
    have hrat : (d : ℚ) * (v.unitDen * 10 ^ k) ≤ v.high * v.unitNum := by exact_mod_cast hnat
    rw [zpow_natCast]
    linarith
  · obtain ⟨k, rfl⟩ : ∃ k : Nat, p = -k := ⟨(-p).toNat, by omega⟩
    have hnat : d * v.unitDen ≤ v.high * (v.unitNum * 10 ^ k) := by
      rw [neg_neg, Int.toNat_natCast] at hle
      exact hle
    have hrat : (d : ℚ) * v.unitDen ≤ v.high * (v.unitNum * 10 ^ k) := by exact_mod_cast hnat
    rw [zpow_neg, zpow_natCast, mul_right_comm, ← div_eq_mul_inv, div_le_iff₀ (by positivity)]
    linarith

theorem holds_of_pick {v : Interval} {tie : Tie} {g : Grid} {d : Nat} (h : v.pick tie g = some d) :
    v.holds g d := by
  unfold pick at h
  dsimp only at h
  split at h
  · rename_i hdown hup
    split at h
    · cases h
      exact hdown
    · split at h
      · cases h
        exact hup
      · split at h
        · cases h
          exact hup
        · split at h <;> cases h <;> assumption
  · cases h
    assumption
  · cases h
    assumption
  · cases h

theorem unitDen_pos (x : Binary64) : 0 < (ofBinary64 x).unitDen := by
  unfold ofBinary64
  dsimp only
  split
  · exact Nat.one_pos
  · rw [Nat.shiftLeft_eq, Nat.one_mul]
    exact Nat.two_pow_pos _

/-- The unit of an interval is a quarter of the last place. -/
theorem unit_eq (x : Binary64) :
    ((ofBinary64 x).unitNum : ℚ) / (ofBinary64 x).unitDen = 2 ^ (x.exponent - 2) := by
  unfold ofBinary64
  dsimp only
  generalize x.exponent - 2 = q
  split
  · obtain ⟨k, rfl⟩ := Int.eq_ofNat_of_zero_le (by assumption)
    simp [Nat.shiftLeft_eq]
  · obtain ⟨k, rfl⟩ : ∃ k : Nat, q = -k := ⟨(-q).toNat, by omega⟩
    simp [Nat.shiftLeft_eq]

end Interval

/-- **The shortest decimal of a double exceeds it by at most half a unit of the last place.** -/
theorem magnitude_shortest_le (tie : Tie) (x : Binary64) :
    (shortest tie x).magnitude ≤ (x.significand + 1 / 2) * 2 ^ x.exponent := by
  have hpos : (0 : ℚ) ≤ (x.significand + 1 / 2) * 2 ^ x.exponent := by positivity
  unfold shortest
  split
  · simpa [magnitude] using hpos
  dsimp only
  rw [magnitude_normalize]
  cases hhit : (List.range 17).findSome? _ with
  | none => simpa [magnitude] using hpos
  | some d =>
    obtain ⟨i, -, hi⟩ := List.exists_of_findSome?_eq_some hhit
    obtain ⟨n, hn, rfl⟩ := Option.map_eq_some_iff.1 hi
    have hle := Interval.le_of_holds (Interval.unitDen_pos x) (Interval.holds_of_pick hn)
    rw [Interval.unit_eq] at hle
    rw [Option.getD_some]
    refine hle.trans (le_of_eq ?_)
    have hhigh : (Interval.ofBinary64 x).high = 4 * x.significand + 2 := rfl
    rw [hhigh, zpow_sub₀ (by norm_num)]
    push_cast
    ring

theorem pow_length_le {n : Nat} (h : n ≠ 0) : 10 ^ ((digitsOf n).length - 1) ≤ n := by
  by_contra hlt
  by_cases hone : (digitsOf n).length - 1 = 0
  · rw [hone] at hlt
    omega
  · have := Nat.toDigits_length 10 n _ (Nat.pos_of_ne_zero hone) (not_le.1 hlt)
    rw [digitsOf] at hone this
    omega

/-- A decimal is at least the power of ten of its leading digit. -/
theorem tenPow_leading_le {d : Decimal} (h : d.digits ≠ 0) : (10 : ℚ) ^ d.leading ≤ d.magnitude := by
  have hlen : 0 < (digitsOf d.digits).length := List.length_pos_iff.2 (Glsl.digitsOf_ne_nil _)
  have hpow : (10 : ℚ) ^ ((digitsOf d.digits).length - 1) ≤ d.digits := by
    exact_mod_cast pow_length_le h
  have hlead : d.leading = ((digitsOf d.digits).length - 1 : Nat) + d.exponent := by
    rw [leading]
    omega
  rw [hlead, zpow_add₀ (by norm_num), zpow_natCast, magnitude]
  gcongr

theorem length_wholeDigits (d : Decimal) :
    (Glsl.wholeDigits d).length = max 1 (d.leading + 1).toNat := by
  unfold Glsl.wholeDigits
  split
  · rw [List.length_singleton]
    omega
  · rw [List.length_append, List.length_take, List.length_replicate]
    omega

theorem isWhole_wholeDigits {d : Decimal} (hz : d.digits = 0 → d.exponent = 0) :
    Json.IsWhole (Glsl.wholeDigits d) := by
  unfold Glsl.wholeDigits
  split
  · exact .inl rfl
  · rename_i hle
    obtain ⟨k, hk⟩ : ∃ k, (d.leading + 1).toNat = k + 1 := ⟨(d.leading + 1).toNat - 1, by omega⟩
    obtain ⟨c, cs, hd, -⟩ := Json.exists_toDigits d.digits
    by_cases hzero : d.digits = 0
    · have hdigits : digitsOf d.digits = ['0'] := by rw [hzero]; rfl
      have hlead : d.leading = 0 := by
        rw [leading, hdigits, hz hzero]
        rfl
      rw [hdigits, hlead]
      exact .inl rfl
    · refine .inr ?_
      rw [digitsOf, hd, hk, List.take_succ_cons, List.cons_append, List.head?_cons]
      rintro ⟨⟩
      exact hzero (Json.eq_zero_of_toDigits hd)

/-- The text of a decimal is a numeral with a point or an exponent that reading does not reject
for its form. -/
theorem exists_numeral_json {d : Decimal} (hz : d.digits = 0 → d.exponent = 0) :
    ∃ n : Glsl.Numeral, (d.text .json).toList =
        (if d.negative then ['-'] else []) ++
          (n.whole ++ (Glsl.fractionChars n.fraction ++ Glsl.signedPowerChars true n.power)) ∧
      n.value = d.magnitude ∧ Json.IsWhole n.whole ∧ n.whole.length ≤ 16 ∧ n.fraction ≠ some [] ∧
      (n.fraction.isSome ∨ n.power.isSome) ∧
      ∀ ds, n.power = some (false, ds) → (Nat.ofDigitChars 10 ds 0 : Int) = d.leading ∧ d.digits ≠ 0 := by
  have hsign : ∀ body : List Char, (if d.negative then '-' :: body else body) =
      (if d.negative then ['-'] else []) ++ body := by
    intro body
    cases d.negative <;> rfl
  rw [text, String.toList_ofList, hsign]
  by_cases hp : d.digits = 0 ∨ Layout.json.positional d.leading
  · obtain ⟨n, hn, hv, hw, hpower, ds, hf, hne⟩ := Glsl.exists_numeral_pointAfter d
    have hlead : d.leading < 16 := by
      rcases hp with hzero | hp
      · rw [leading, hz hzero, hzero]
        decide
      · exact (by simpa [Layout.json] using hp : _ ∧ _).2
    refine ⟨n, ?_, hv, hw ▸ isWhole_wholeDigits hz, ?_, ?_, .inl (by rw [hf]; rfl), ?_⟩
    · rw [if_pos hp, show Layout.json.pointZero = true from rfl, hn, Glsl.Numeral.chars, hpower]
      rfl
    · rw [hw, length_wholeDigits]
      omega
    · rw [hf]
      exact fun h => hne (Option.some.inj h)
    · rw [hpower]
      rintro _ ⟨⟩
  · obtain ⟨n, hn, hv, hw, hf, hpower⟩ := Glsl.exists_numeral_scientific true d
    refine ⟨n, ?_, hv, ?_, by omega, hf, .inr (by rw [hpower]; rfl), ?_⟩
    · rw [if_neg hp, show Layout.json.plusSign = true from rfl, hn]
    · obtain ⟨c, hc⟩ := List.length_eq_one_iff.1 hw
      rw [hc]
      by_cases hzero : c = '0'
      · exact .inl (by rw [hzero])
      · exact .inr fun h => hzero (Option.some.inj h)
    · intro ds hds
      rw [hpower] at hds
      obtain ⟨hneg, rfl⟩ := Prod.mk.inj (Option.some.inj hds)
      rw [Glsl.digitsOf_value]
      have := of_decide_eq_false hneg
      exact ⟨by omega, fun hzero => hp (.inl hzero)⟩

/-- **A writable decimal is read from its text.** -/
theorem exists_tokens_text {d : Decimal} (hz : d.digits = 0 → d.exponent = 0)
    (h : d.magnitude ≤ Json.Numeral.writable) :
    ∃ v, Json.tokens (Json.Symbol.ofString (d.text .json)) = [.num (.ok v)] := by
  obtain ⟨n, htext, hv, hw, hlen, hf, hsome, hpower⟩ := exists_numeral_json hz
  have hwhole : Nat.ofDigitChars 10 n.whole 0 ≤ Json.Numeral.maxSignificand := by
    have hlt := Json.ofDigitChars_lt n.whole_digits 0
    have hpow : 10 ^ n.whole.length ≤ 10 ^ 16 := Nat.pow_le_pow_right (by decide) hlen
    have hmax : 10 ^ 16 ≤ Json.Numeral.maxSignificand := by decide
    omega
  have hexponent : ∀ ds, n.power = some (false, ds) →
      Nat.ofDigitChars 10 ds 0 ≤ Json.Numeral.maxExponent := by
    intro ds hds
    obtain ⟨hlead, hne⟩ := hpower ds hds
    have hle := ((tenPow_leading_le hne).trans h).trans_lt Json.Numeral.writable_lt_tenPow
    rw [← hlead, zpow_natCast] at hle
    have hlt := (pow_lt_pow_iff_right₀ (by norm_num)).1 hle
    have hmax : 309 ≤ Json.Numeral.maxExponent := by decide
    omega
  have hvalue : ∀ negative, ∃ v, (Json.Numeral.ofChars negative n).value? = some v := fun negative =>
    Option.isSome_iff_exists.1
      (Json.Numeral.isSome_value?_ofChars negative hwhole hsome hexponent (hv.trans_le h))
  obtain ⟨c, cs, hc⟩ := List.exists_cons_of_ne_nil n.whole_ne_nil
  have hdigit : c.isDigit := n.whole_digits c (by rw [hc]; exact List.mem_cons_self)
  have hscan := fun negative => Json.scanNumeral_chars negative hw hf
  rw [hc, List.cons_append] at hscan
  rw [hc, List.cons_append] at htext
  rw [Json.Symbol.ofString, htext]
  cases d.negative with
  | true =>
    obtain ⟨v, hv⟩ := hvalue true
    have hstart : Json.StartsNumeral '-' := .inl rfl
    refine ⟨v, ?_⟩
    simp only [if_true, List.cons_append, List.nil_append, List.map_cons]
    rw [Json.tokens_cons hstart.not_isBlank, Json.scanToken_of_startsNumeral hstart, Json.unsigned,
      if_pos rfl, ← List.map_cons, decide_eq_true rfl, hscan true]
    simp only [Except.map, Json.Numeral.token, hv, Json.tokens]
  | false =>
    obtain ⟨v, hv⟩ := hvalue false
    have hstart : Json.StartsNumeral c := .inr hdigit
    have hne : c ≠ '-' := by
      rintro rfl
      cases hdigit
    refine ⟨v, ?_⟩
    simp only [Bool.false_eq_true, if_false, List.nil_append, List.map_cons]
    rw [Json.tokens_cons hstart.not_isBlank, Json.scanToken_of_startsNumeral hstart, Json.unsigned,
      if_neg hne, ← List.map_cons, decide_eq_false hne, hscan false]
    simp only [Except.map, Json.Numeral.token, hv, Json.tokens]

end Decimal

/-! ## Doubles -/

namespace Binary64

/-- What the text of a double is read as, if it is read as a number. -/
def reread? (x : Binary64) : Option Binary64 :=
  ((Json.Document.ofString (Json.Number.float x).text).read fun _ => Json.Doc.float).toOption

theorem read_of_reread? {x y : Binary64} (h : x.reread? = some y) :
    (Json.Document.ofString (Json.Number.float x).text).read (fun _ => Json.Doc.float) = .ok y := by
  rw [reread?] at h
  generalize (Json.Document.ofString (Json.Number.float x).text).read (fun _ => Json.Doc.float) = r at h
  cases r with
  | error fault => cases h
  | ok z => exact congrArg Except.ok (Option.some.inj h)

theorem fraction_lt (x : Binary64) : x.fraction < 2 ^ 52 :=
  Nat.mod_lt _ (by decide)

theorem exponentField_lt {x : Binary64} (h : x.isFinite) : x.exponentField < 2047 := by
  have hlt : x.exponentField < 2048 := Nat.mod_lt _ (by decide)
  have hne : x.exponentField ≠ 2047 := by simpa [isFinite] using h
  omega

/-- A double is put together again from its fields. -/
theorem ofFields_fields (x : Binary64) :
    ofFields x.negative (x.exponentField * 2 ^ 52 + x.fraction) = x := by
  obtain ⟨bits⟩ := x
  have hlt : bits.toNat < 2 ^ 64 := bits.toNat_lt
  unfold ofFields negative exponentField fraction
  simp only [Nat.shiftRight_eq_div_pow, show 1 <<< 11 = 2 ^ 11 from rfl, show 1 <<< 52 = 2 ^ 52 from rfl,
    show 1 <<< 63 = 2 ^ 63 from rfl, beq_iff_eq]
  congr 1
  rw [← UInt64.toNat_inj, UInt64.toNat_ofNat']
  split <;> omega

/-- A finite double is writable with half a unit of the last place to spare, unless it is one of the
last three of either sign. -/
theorem le_writable_or {x : Binary64} (h : x.isFinite) :
    (x.significand + 1 / 2) * (2 : ℚ) ^ x.exponent ≤ Json.Numeral.writable ∨
      ∃ k : Fin 3, x = ofFields x.negative (2047 * 2 ^ 52 - 1 - k) := by
  have hfraction := x.fraction_lt
  have hfield := exponentField_lt h
  have hsignificand : x.significand ≤ x.fraction + 2 ^ 52 := by
    unfold significand
    split
    · exact Nat.le_add_right _ _
    · exact le_rfl
  by_cases htop : x.exponentField = 2046 ∧ 2 ^ 52 ≤ x.fraction + 3
  · -- one of the last three
    refine .inr ⟨⟨2 ^ 52 - 1 - x.fraction, by omega⟩, ?_⟩
    have hfields : 2047 * 2 ^ 52 - 1 - (2 ^ 52 - 1 - x.fraction) =
        x.exponentField * 2 ^ 52 + x.fraction := by omega
    rw [hfields, ofFields_fields]
  refine .inl ?_
  unfold Json.Numeral.writable
  by_cases hbinade : x.exponentField = 2046
  · -- the last binade
    have hle : (x.significand : ℚ) ≤ 2 ^ 53 - 4 := by
      have : x.significand + 4 ≤ 2 ^ 53 := by omega
      have : (x.significand : ℚ) + 4 ≤ 2 ^ 53 := by exact_mod_cast this
      linarith
    have hexponent : x.exponent = 971 := by
      rw [exponent, hbinade]
      rfl
    rw [hexponent]
    exact mul_le_mul_of_nonneg_right (by linarith) (zpow_nonneg (by norm_num) _)
  · have hle : (x.significand : ℚ) ≤ 2 ^ 53 := by
      have : x.significand ≤ 2 ^ 53 := by omega
      exact_mod_cast this
    have hexponent : x.exponent ≤ 970 := by
      unfold exponent
      omega
    calc (x.significand + 1 / 2) * (2 : ℚ) ^ x.exponent
        ≤ (2 ^ 53 + 1 / 2) * 2 ^ (970 : Int) := by
          gcongr
          norm_num
      _ ≤ (2 ^ 53 - 7 / 2) * 2 * 2 ^ (970 : Int) :=
          mul_le_mul_of_nonneg_right (by norm_num) (zpow_nonneg (by norm_num) _)
      _ = (2 ^ 53 - 7 / 2) * 2 ^ (971 : Int) := by
          rw [show (971 : Int) = 970 + 1 from rfl, zpow_add_one₀ (by norm_num)]
          ring

theorem isSome_reread?_top : ∀ (negative : Bool) (k : Fin 3),
    (ofFields negative (2047 * 2 ^ 52 - 1 - k)).reread?.isSome := by
  decide +kernel

/-- **The text of a double is read as a number iff the double is finite.** -/
theorem isSome_reread?_iff {x : Binary64} : x.reread?.isSome ↔ x.isFinite := by
  constructor
  · intro h
    obtain ⟨y, hy⟩ := Option.isSome_iff_exists.1 h
    exact isFinite_of_read (read_of_reread? hy)
  · intro h
    rcases le_writable_or h with hle | ⟨k, hx⟩
    · obtain ⟨v, hv⟩ := Decimal.exists_tokens_text Decimal.exponent_shortest
        ((Decimal.magnitude_shortest_le .even x).trans hle)
      rw [reread?, Json.Number.text, if_pos h, Json.Document.ofString, Json.Document.ofSymbols, hv]
      rfl
    · rw [hx]
      exact isSome_reread?_top _ k

end Binary64
end ShaderAlgebra
