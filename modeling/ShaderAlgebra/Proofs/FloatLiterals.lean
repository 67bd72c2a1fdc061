import ShaderAlgebra.Synth.Basic
import ShaderAlgebra.Proofs.NearestDoubles

/-!
# The text of a literal

A finite double is written by the shortest decimal that rounds to it.  Here it is said what such a text
is: one numeral, with a minus sign before it for a double that is negative; never an integer; denoting a
number that rounds to the double; with as few digits as any that does; and with an exponent exactly where
the double is too small or too large (`literal_spec`).

The search walks grids of powers of ten, from the decade of the double downwards.  That its first hit is
shortest rests on two facts: a point of a grid in the interval of a double makes the search stop at this grid
(`isSome_pick_of_contains`), and a decimal with fewer digits that lies in another decade forces the end
of the double's own decade into the interval, which is a point of every grid (`exists_contains_grid`).
-/

namespace ShaderAlgebra
namespace Decimal

/-! ## The decade of a number -/

/-- The leading digit of a quotient stands at the largest power of ten that the quotient reaches. -/
theorem lt_tenPow_leadingPower {num den : Nat} (hn : 0 < num) (hd : 0 < den) :
    (num : ℚ) / den < 10 ^ (leadingPower num den + 1) := by
  have hn' : (0 : ℚ) < num := by exact_mod_cast hn
  have hd' : (0 : ℚ) < den := by exact_mod_cast hd
  unfold leadingPower
  split
  · have hlt := lt_pow_length (num / den)
    have hceil : num < 10 ^ (digitsOf (num / den)).length * den :=
      calc num < num / den * den + den := Nat.lt_div_mul_add hd
        _ = (num / den + 1) * den := (Nat.succ_mul _ _).symm
        _ ≤ 10 ^ (digitsOf (num / den)).length * den := Nat.mul_le_mul_right _ hlt
    rw [sub_add_cancel, zpow_natCast, div_lt_iff₀ hd']
    exact_mod_cast hceil
  · rename_i hlt
    have hquotient : den / num ≠ 0 := (Nat.div_pos (by omega) hn).ne'
    have hlength : 0 < (digitsOf (den / num)).length := List.length_pos_iff.2 (Glsl.digitsOf_ne_nil _)
    have hpow : 10 ^ ((digitsOf (den / num)).length - 1) * num ≤ den :=
      (Nat.mul_le_mul_right num (pow_length_le hquotient)).trans (Nat.div_mul_le_self den num)
    generalize (digitsOf (den / num)).length = t at hlength hpow
    have hinv : ∀ k : Nat, num * 10 ^ k < den → (num : ℚ) / den < 10 ^ (-(k : Int)) := by
      intro k hk
      have hrat : (num : ℚ) * 10 ^ k < den := by exact_mod_cast hk
      rw [zpow_neg, zpow_natCast, div_lt_iff₀ hd', lt_inv_mul_iff₀ (by positivity)]
      linarith
    dsimp only
    split
    · rename_i hle
      have heq : den = num * 10 ^ (t - 1) := Nat.le_antisymm hle (by rw [Nat.mul_comm]; exact hpow)
      have hcast : (t : Int) - 1 = ((t - 1 : Nat) : Int) := by omega
      rw [zpow_add_one₀ (by norm_num), heq, hcast, zpow_neg, zpow_natCast]
      push_cast
      rw [div_mul_eq_div_div, div_self hn'.ne', one_div]
      exact lt_mul_of_one_lt_right (by positivity) (by norm_num)
    · rename_i hle
      have hexp : -(t : Int) + 1 = -((t - 1 : Nat) : Int) := by omega
      rw [hexp]
      exact hinv _ (not_le.1 hle)

/-- A decimal is below the power of ten past its leading digit. -/
theorem lt_tenPow_leading (d : Decimal) : d.magnitude < 10 ^ (d.leading + 1) := by
  have hlt : (d.digits : ℚ) < 10 ^ (digitsOf d.digits).length := by exact_mod_cast lt_pow_length d.digits
  have hlead : d.leading + 1 = (digitsOf d.digits).length + d.exponent := by
    rw [leading]
    omega
  rw [hlead, zpow_add₀ (by norm_num), zpow_natCast, magnitude]
  exact mul_lt_mul_of_pos_right hlt (by positivity)

/-- The leading power of a decimal is known by the powers of ten that it reaches. -/
theorem tenPow_le_magnitude_iff {d : Decimal} (h : d.digits ≠ 0) {k : Int} :
    (10 : ℚ) ^ k ≤ d.magnitude ↔ k ≤ d.leading := by
  constructor
  · intro hle
    exact Int.lt_add_one_iff.1 ((zpow_lt_zpow_iff_right₀ (by norm_num)).1 (hle.trans_lt d.lt_tenPow_leading))
  · intro hle
    exact (zpow_le_zpow_right₀ (by norm_num) hle).trans (tenPow_leading_le h)

namespace Interval

variable {v : Interval}

/-- An interval has no holes. -/
theorem Contains.between {a b c : ℚ} (ha : v.Contains a) (hc : v.Contains c) (hab : a ≤ b) (hbc : b ≤ c) :
    v.Contains b := by
  unfold Contains at *
  split_ifs at *
  · exact ⟨ha.1.trans hab, hbc.trans hc.2⟩
  · exact ⟨ha.1.trans_le hab, hbc.trans_lt hc.2⟩

/-- The point of a grid below the value of an interval. -/
theorem floor_grid (hden : 0 < v.unitDen) (p : Int) :
    v.value * (v.grid p).num / (v.grid p).den = ⌊v.value * v.unit / 10 ^ p⌋₊ := by
  have hgrid := grid_mul_unit hden p
  have hgden : ((v.grid p).den : ℚ) ≠ 0 := by exact_mod_cast (grid_den_pos hden p).ne'
  rw [← Nat.floor_div_eq_div (K := ℚ)]
  congr 1
  push_cast
  rw [div_eq_div_iff hgden (by positivity)]
  linear_combination -(v.value : ℚ) * hgrid

/-- A search in a grid takes one of the two points beside the value. -/
theorem eq_or_eq_of_pick {tie : Tie} {g : Grid} {n : Nat} (h : v.pick tie g = some n) :
    n = v.value * g.num / g.den ∨ n = v.value * g.num / g.den + 1 := by
  unfold pick at h
  dsimp only at h
  split at h
  · cases tie <;> simp only at h <;> split_ifs at h <;> simp_all
  · exact .inl (Option.some.inj h).symm
  · exact .inr (Option.some.inj h).symm
  · cases h

/-- **A grid with a point in an interval has one beside the value.** -/
theorem isSome_pick_of_contains (tie : Tie) (hnum : 0 < v.unitNum) (hden : 0 < v.unitDen)
    (hvalue : v.Contains (v.value * v.unit)) {p : Int} {n : Nat} (h : v.Contains (n * 10 ^ p)) :
    (v.pick tie (v.grid p)).isSome := by
  have hten : (0 : ℚ) < 10 ^ p := by positivity
  have hunit : 0 ≤ v.unit := div_nonneg (Nat.cast_nonneg _) (Nat.cast_nonneg _)
  have hquotient : 0 ≤ v.value * v.unit / 10 ^ p := by positivity
  refine isSome_pick_of_holds tie ?_
  rw [holds_iff_contains hnum hden, holds_iff_contains hnum hden, floor_grid hden]
  rcases le_or_gt (n * (10 : ℚ) ^ p) (v.value * v.unit) with hle | hlt
  · refine .inl (h.between hvalue ?_ ?_)
    · have hfloor : n ≤ ⌊v.value * v.unit / 10 ^ p⌋₊ := Nat.le_floor ((le_div_iff₀ hten).2 hle)
      gcongr
    · exact (le_div_iff₀ hten).1 (Nat.floor_le hquotient)
  · refine .inr (hvalue.between h ?_ ?_)
    · have hceil := Nat.lt_floor_add_one (v.value * v.unit / 10 ^ p)
      push_cast
      exact ((div_lt_iff₀ hten).1 hceil).le
    · have hfloor : ⌊v.value * v.unit / 10 ^ p⌋₊ < n := (Nat.floor_lt hquotient).2 ((div_lt_iff₀ hten).2 hlt)
      have hfloor' : ⌊v.value * v.unit / 10 ^ p⌋₊ + 1 ≤ n := hfloor
      gcongr

end Interval
end Decimal

namespace Binary64

open Decimal (Interval)

variable {x : Binary64}

theorem value_mul_unit (x : Binary64) :
    (Interval.ofBinary64 x).value * (Interval.ofBinary64 x).unit = x.magnitude := by
  rw [unit_ofBinary64, Interval.ofBinary64, magnitude]
  push_cast
  ring

theorem magnitude_eq_div (x : Binary64) : x.magnitude =
    ((Interval.ofBinary64 x).value * (Interval.ofBinary64 x).unitNum : Nat) / (Interval.ofBinary64 x).unitDen := by
  rw [← value_mul_unit, Interval.unit]
  push_cast
  ring

theorem value_pos (hz : ¬ x.isZero) : 0 < (Interval.ofBinary64 x).value :=
  Nat.mul_pos (by decide) (significand_pos hz)

/-- **The decade of a double** lies between two powers of ten. -/
theorem decade_spec (hz : ¬ x.isZero) : (10 : ℚ) ^ x.decade ≤ x.magnitude ∧ x.magnitude < 10 ^ (x.decade + 1) := by
  have hnum := Nat.mul_pos (value_pos hz) (Interval.unitNum_pos x)
  have hden := Interval.unitDen_pos x
  rw [magnitude_eq_div]
  exact ⟨Decimal.tenPow_leadingPower_le hnum hden, Decimal.lt_tenPow_leadingPower hnum hden⟩

/-- A double lies in its interval. -/
theorem contains_magnitude (hz : ¬ x.isZero) : (Interval.ofBinary64 x).Contains x.magnitude := by
  have hgap := x.gapBelow_pos
  have hplace : (0 : ℚ) < 2 ^ x.exponent := by positivity
  refine (contains_iff hz).2 ⟨⟨by linarith, by linarith⟩, ?_⟩
  rintro (h | h) <;> linarith

end Binary64

namespace Decimal

/-! ## Digits -/

theorem digits_normalize_le (d : Decimal) : d.normalize.digits ≤ d.digits := by
  fun_induction normalize d with
  | case1 => exact Nat.zero_le _
  | case2 d _ _ ih => exact ih.trans (Nat.div_le_self _ _)
  | case3 => exact Nat.le_refl _

/-- No zero is left at the end. -/
theorem digits_normalize_mod {d : Decimal} (h : d.normalize.digits ≠ 0) : d.normalize.digits % 10 ≠ 0 := by
  fun_induction normalize d with
  | case1 => exact absurd rfl h
  | case2 d _ _ ih => exact ih h
  | case3 d _ hmod => exact hmod

/-- Up to a power of ten, which loses its zeros, digits are no more than the power. -/
theorem length_normalize_le {d : Decimal} {k : Nat} (hk : 1 ≤ k) (h : d.digits ≤ 10 ^ k) :
    (digitsOf d.normalize.digits).length ≤ k := by
  by_cases hzero : d.normalize.digits = 0
  · rw [hzero]
    exact hk
  · have hne : d.normalize.digits ≠ 10 ^ k := by
      intro hpow
      refine digits_normalize_mod hzero ?_
      rw [hpow]
      exact Nat.mod_eq_zero_of_dvd (dvd_pow_self 10 (by omega))
    have hlt : d.normalize.digits < 10 ^ k := lt_of_le_of_ne (d.digits_normalize_le.trans h) hne
    have := (Nat.pow_lt_pow_iff_right (by decide)).1 ((pow_length_le hzero).trans_lt hlt)
    omega

section Shortest

variable {x : Binary64} (hz : ¬ x.isZero)

include hz

/-- A hit in the grid of `i + 1` digits has so many digits, or is the power of ten past them. -/
theorem bounds_of_pick {tie : Tie} {i n : Nat}
    (h : (Interval.ofBinary64 x).pick tie ((Interval.ofBinary64 x).grid (x.decade - i)) = some n) :
    10 ^ i ≤ n ∧ n ≤ 10 ^ (i + 1) := by
  obtain ⟨hlow, hhigh⟩ := Binary64.decade_spec hz
  have hten : (0 : ℚ) < 10 ^ (x.decade - i) := by positivity
  have hfloor := Interval.floor_grid (Interval.unitDen_pos x) (x.decade - i)
  rw [Binary64.value_mul_unit] at hfloor
  have hge : 10 ^ i ≤ ⌊x.magnitude / 10 ^ (x.decade - i)⌋₊ := by
    refine Nat.le_floor ((le_div_iff₀ hten).2 ?_)
    push_cast
    rwa [← zpow_natCast, ← zpow_add₀ (by norm_num), add_sub_cancel]
  have hlt : ⌊x.magnitude / 10 ^ (x.decade - i)⌋₊ < 10 ^ (i + 1) := by
    have hnonneg : 0 ≤ x.magnitude := (by positivity : (0 : ℚ) ≤ 10 ^ x.decade).trans hlow
    refine (Nat.floor_lt (div_nonneg hnonneg hten.le)).2 ((div_lt_iff₀ hten).2 ?_)
    push_cast
    rwa [← zpow_natCast, ← zpow_add₀ (by norm_num), show ((i + 1 : Nat) : Int) + (x.decade - i) = x.decade + 1 by
      push_cast; ring]
  rcases Interval.eq_or_eq_of_pick h with rfl | rfl <;> rw [hfloor] <;> omega

/-- The shortest decimal of a double stays in the double's decade, or is the end of it. -/
theorem magnitude_shortest_mem (tie : Tie) :
    (10 : ℚ) ^ x.decade ≤ (shortest tie x).magnitude ∧ (shortest tie x).magnitude ≤ 10 ^ (x.decade + 1) := by
  obtain ⟨i, n, hn, -, hshortest⟩ := exists_hit hz tie
  obtain ⟨hge, hle⟩ := bounds_of_pick hz hn
  have hscale (k : Nat) : ((10 ^ k : Nat) : ℚ) * 10 ^ (x.decade - i) = 10 ^ (x.decade - i + k) := by
    push_cast
    rw [← zpow_natCast, ← zpow_add₀ (by norm_num), add_comm]
  rw [hshortest, magnitude_normalize]
  constructor
  · rw [show x.decade = x.decade - i + i by ring, ← hscale i, sub_add_cancel]
    exact mul_le_mul_of_nonneg_right (by exact_mod_cast hge) (by positivity)
  · rw [show x.decade + 1 = x.decade - i + (i + 1 : Nat) by push_cast; ring, ← hscale (i + 1)]
    exact mul_le_mul_of_nonneg_right (by exact_mod_cast hle) (by positivity)

/-- **A decimal that rounds to a double** shows that the grid with its number of digits meets the interval of the
double: the grid has the decimal itself, or the end of the double's decade that lies before it. -/
theorem exists_contains_grid {e : Decimal} (h : (Interval.ofBinary64 x).Contains e.magnitude) :
    ∃ n : Nat, (Interval.ofBinary64 x).Contains
      (n * 10 ^ (x.decade - ((digitsOf e.digits).length - 1 : Nat))) := by
  obtain ⟨hlow, hhigh⟩ := Binary64.decade_spec hz
  have hx := Binary64.contains_magnitude hz
  have hlength : 0 < (digitsOf e.digits).length := List.length_pos_iff.2 (Glsl.digitsOf_ne_nil _)
  have hdigits : e.digits ≠ 0 := by
    intro hzero
    have hpos := Binary64.pos_of_contains hz h
    rw [magnitude, hzero, Nat.cast_zero, zero_mul] at hpos
    exact lt_irrefl _ hpos
  have hscale (k : Nat) (p : Int) : ((10 ^ k : Nat) : ℚ) * 10 ^ p = 10 ^ (k + p) := by
    push_cast
    rw [← zpow_natCast, ← zpow_add₀ (by norm_num)]
  rcases lt_trichotomy e.leading x.decade with hlt | heq | hlt
  · refine ⟨10 ^ ((digitsOf e.digits).length - 1), ?_⟩
    rw [hscale, add_sub_cancel]
    refine h.between hx (e.lt_tenPow_leading.le.trans ?_) hlow
    exact zpow_le_zpow_right₀ (by norm_num) hlt
  · refine ⟨e.digits, ?_⟩
    rw [show x.decade - ((digitsOf e.digits).length - 1 : Nat) = e.exponent by rw [← heq, leading]; omega]
    exact h
  · refine ⟨10 ^ (digitsOf e.digits).length, ?_⟩
    rw [hscale, show ((digitsOf e.digits).length : Int) + (x.decade - ((digitsOf e.digits).length - 1 : Nat)) =
      x.decade + 1 by omega]
    refine hx.between h hhigh.le (le_trans ?_ (tenPow_leading_le hdigits))
    exact zpow_le_zpow_right₀ (by norm_num) hlt

/-- **No decimal with fewer digits rounds to the double.** -/
theorem length_shortest_le (tie : Tie) {e : Decimal} (h : (Interval.ofBinary64 x).Contains e.magnitude) :
    (digitsOf (shortest tie x).digits).length ≤ (digitsOf e.digits).length := by
  have hlength : 0 < (digitsOf e.digits).length := List.length_pos_iff.2 (Glsl.digitsOf_ne_nil _)
  obtain ⟨i, n, hn, hfirst, hshortest⟩ := exists_hit hz tie
  obtain ⟨k, hk⟩ := exists_contains_grid hz h
  have hvalue := Binary64.contains_magnitude hz
  rw [← Binary64.value_mul_unit] at hvalue
  have hsome := Interval.isSome_pick_of_contains tie (Interval.unitNum_pos x) (Interval.unitDen_pos x) hvalue hk
  -- the search did not pass this grid
  have hi : ¬ (digitsOf e.digits).length - 1 < i := fun hlt => by
    rw [hfirst _ hlt] at hsome
    cases hsome
  have hle : (digitsOf (shortest tie x).digits).length ≤ i + 1 := by
    rw [hshortest]
    exact length_normalize_le (Nat.le_add_left _ _) (bounds_of_pick hz hn).2
  omega

/-- A double and its shortest decimal reach the same power of ten, if the power is not rounded down. -/
theorem tenPow_le_shortest_iff (hx : x.isFinite) (tie : Tie) {k : Int} (num den : Nat) (hd : 0 < den)
    (hk : (num : ℚ) / den = 10 ^ k) (hround : ∀ s, (10 : ℚ) ^ k ≤ (Binary64.ofRatio s num den).magnitude) :
    (10 : ℚ) ^ k ≤ (shortest tie x).magnitude ↔ (10 : ℚ) ^ k ≤ x.magnitude := by
  obtain ⟨hlow, hhigh⟩ := Binary64.decade_spec hz
  obtain ⟨hge, hle⟩ := magnitude_shortest_mem hz tie
  constructor
  · intro hreach
    by_contra hlt
    have hdecade : x.decade + 1 ≤ k := (zpow_lt_zpow_iff_right₀ (by norm_num)).1 (hlow.trans_lt (not_le.1 hlt))
    -- the decimal is the power itself, so the double is what the power is rounded to
    have heq : (shortest tie x).magnitude = num / den := by
      rw [hk]
      exact le_antisymm (hle.trans (zpow_le_zpow_right₀ (by norm_num) hdecade)) hreach
    have hcontains := contains_shortest hz tie
    rw [heq] at hcontains
    rw [← Binary64.ofRatio_of_contains hx hz hd hcontains] at hlt
    exact hlt (hround _)
  · intro hreach
    have hdecade := (zpow_lt_zpow_iff_right₀ (by norm_num)).1 (hreach.trans_lt hhigh)
    exact (zpow_le_zpow_right₀ (by norm_num) (Int.lt_add_one_iff.1 hdecade)).trans hge

end Shortest

/-- The ends of the positional range are not rounded down. -/
theorem tenPow_le_ofRatio (s : Bool) : (10 : ℚ) ^ (16 : Int) ≤ (Binary64.ofRatio s (10 ^ 16) 1).magnitude ∧
    (10 : ℚ) ^ (-4 : Int) ≤ (Binary64.ofRatio s 1 (10 ^ 4)).magnitude := by
  have hlarge : (Binary64.ofRatio s (10 ^ 16) 1).significand = 5000000000000000 ∧
      (Binary64.ofRatio s (10 ^ 16) 1).exponent = 1 := by cases s <;> decide
  have hsmall : (Binary64.ofRatio s 1 (10 ^ 4)).significand = 7378697629483821 ∧
      (Binary64.ofRatio s 1 (10 ^ 4)).exponent = -66 := by cases s <;> decide
  rw [Binary64.magnitude, Binary64.magnitude, hlarge.1, hlarge.2, hsmall.1, hsmall.2]
  norm_num

/-! ## Notation -/

/-- **The text of a decimal as a literal** is a numeral with a point or an exponent, and without an
exponent in the positional range. -/
theorem exists_numeral_float (d : Decimal) : ∃ n : Glsl.Numeral,
    (d.text .literal).toList = (if d.negative then ['-'] else []) ++ n.chars ∧ n.value = d.magnitude ∧
      n.fraction ≠ some [] ∧ ('.' ∈ n.chars ∨ 'e' ∈ n.chars) ∧
        (n.power = none ↔ d.digits = 0 ∨ Layout.literal.positional d.leading) ∧
          (n.power ≠ none → n.whole.length = 1) := by
  have hsign : ∀ body : List Char, (if d.negative then '-' :: body else body) =
      (if d.negative then ['-'] else []) ++ body := by
    intro body
    cases d.negative <;> rfl
  rw [text, String.toList_ofList, hsign]
  by_cases hp : d.digits = 0 ∨ Layout.literal.positional d.leading
  · obtain ⟨n, hn, hv, -, hpower, ds, hf, hne⟩ := Glsl.exists_numeral_pointAfter d
    refine ⟨n, by rw [← hn, if_pos hp]; rfl, hv, ?_, .inl ?_, by simp [hpower, hp], fun h => absurd hpower h⟩
    · rw [hf]
      exact fun h => hne (Option.some.inj h)
    · simp [Glsl.Numeral.chars, Glsl.fractionChars, hf]
  · obtain ⟨n, hn, hv, hwhole, hf, hpower⟩ := Glsl.exists_numeral_scientific false d
    rw [Glsl.signedPowerChars_false] at hn
    refine ⟨n, by rw [Glsl.Numeral.chars, ← hn, if_neg hp]; rfl, hv, hf, .inr ?_, by simp [hpower, hp],
      fun _ => hwhole⟩
    simp [Glsl.Numeral.chars, Glsl.powerChars, hpower]

/-- **Where a double is written positionally:** at zero, and from `10⁻⁴` up to `10¹⁶`. -/
theorem positional_shortest_iff {x : Binary64} (hx : x.isFinite) (tie : Tie) :
    ((shortest tie x).digits = 0 ∨ Layout.literal.positional (shortest tie x).leading) ↔
      x.isZero ∨ (10 : ℚ) ^ (-4 : Int) ≤ x.magnitude ∧ x.magnitude < 10 ^ (16 : Int) := by
  by_cases hz : x.isZero
  · refine iff_of_true (.inl ?_) (.inl hz)
    rw [shortest, if_pos hz]
  · have hdigits : (shortest tie x).digits ≠ 0 := by
      intro hzero
      have hpos := Binary64.pos_of_contains hz (contains_shortest hz tie)
      rw [magnitude, hzero, Nat.cast_zero, zero_mul] at hpos
      exact lt_irrefl _ hpos
    have hsmall := tenPow_le_shortest_iff hz hx (k := -4) tie 1 (10 ^ 4) (by decide) (by norm_num) fun s =>
      (tenPow_le_ofRatio s).2
    have hlarge := tenPow_le_shortest_iff hz hx (k := 16) tie (10 ^ 16) 1 (by decide) (by norm_num) fun s =>
      (tenPow_le_ofRatio s).1
    rw [tenPow_le_magnitude_iff hdigits] at hsmall hlarge
    rw [← not_le, ← hsmall, ← hlarge, not_le]
    simp [hdigits, hz, Layout.literal]

end Decimal

namespace Binary64

open Decimal (Interval)

variable {x : Binary64}

/-! ## Literals -/

/-- A double is not finite if it is no number or an infinity. -/
theorem isFinite_eq_false_iff : x.isFinite = false ↔ x.isNaN ∨ ∃ s, x = infinity s := by
  constructor
  · intro h
    have hfield : x.exponentField = 2047 := by simpa [isFinite] using h
    by_cases hfraction : x.fraction = 0
    · refine .inr ⟨x.negative, ?_⟩
      have hfields := ofFields_fields x
      rw [hfield, hfraction] at hfields
      exact hfields.symm.trans (congrArg (ofFields x.negative) (by decide))
    · exact .inl (by simp [isNaN, hfield, hfraction])
  · rintro (h | ⟨s, rfl⟩)
    · have hfield : x.exponentField = 2047 := (by simpa [isNaN] using h : _ ∧ _).1
      simp [isFinite, hfield]
    · cases s <;> rfl

theorem magnitude_of_isZero (hz : x.isZero) : x.magnitude = 0 := by
  obtain ⟨hfield, hfraction⟩ : x.exponentField = 0 ∧ x.fraction = 0 := by simpa [isZero] using hz
  rw [magnitude, significand, if_pos hfield, hfraction, Nat.cast_zero, zero_mul]

/-- Zero is rounded to zero, of either sign. -/
theorem isNearestTo_zero (hx : x.isFinite) (hz : x.isZero) : x.IsNearestTo 0 := by
  have hzero := magnitude_of_isZero hz
  refine ⟨hx, ?_, fun y _ => ?_, fun y _ hne heq => ?_⟩
  · exact mul_pos (by norm_num) (zpow_pos (by norm_num) _)
  · rw [hzero, sub_zero, abs_zero]
    exact abs_nonneg _
  · rw [hzero, sub_zero, abs_zero, zero_sub, abs_neg, abs_eq_zero] at heq
    exact absurd (heq.trans hzero.symm) hne

/-- The shortest decimal of a double is rounded to the double. -/
theorem isNearestTo_shortest (hx : x.isFinite) (tie : Tie) : x.IsNearestTo (Decimal.shortest tie x).magnitude := by
  by_cases hz : x.isZero
  · have hshortest : (Decimal.shortest tie x).magnitude = 0 := by
      rw [Decimal.shortest, if_pos hz, Decimal.magnitude, Nat.cast_zero, zero_mul]
    rw [hshortest]
    exact isNearestTo_zero hx hz
  · exact isNearestTo_of_contains hx hz (Decimal.contains_shortest hz tie)

/-- The shortest decimal of a double is rounded to the double also by `ofRatio`, with the sign of a zero. -/
theorem ofRatio_shortest (hx : x.isFinite) (tie : Tie) {num den : Nat} (hd : 0 < den)
    (h : (num : ℚ) / den = (Decimal.shortest tie x).magnitude) : ofRatio x.negative num den = x := by
  by_cases hz : x.isZero
  · obtain ⟨hfield, hfraction⟩ : x.exponentField = 0 ∧ x.fraction = 0 := by simpa [isZero] using hz
    have hden : (den : ℚ) ≠ 0 := by exact_mod_cast hd.ne'
    have hnum : num = 0 := by
      rw [Decimal.shortest, if_pos hz, Decimal.magnitude, Nat.cast_zero, zero_mul, div_eq_zero_iff] at h
      exact_mod_cast h.resolve_right hden
    have hfields := ofFields_fields x
    rw [hfield, hfraction] at hfields
    rw [ofRatio, if_pos hnum]
    exact hfields
  · refine ofRatio_of_contains hx hz hd ?_
    rw [h]
    exact Decimal.contains_shortest hz tie

/-- The shortest decimal of a double has the fewest digits of all that are rounded to it. -/
theorem IsNearestTo.length_le {e : Decimal} (h : x.IsNearestTo e.magnitude) (tie : Tie) :
    (Decimal.digitsOf (Decimal.shortest tie x).digits).length ≤ (Decimal.digitsOf e.digits).length := by
  by_cases hz : x.isZero
  · have hdigits : (Decimal.shortest tie x).digits = 0 := by rw [Decimal.shortest, if_pos hz]
    rw [hdigits]
    exact List.length_pos_iff.2 (Glsl.digitsOf_ne_nil _)
  · exact Decimal.length_shortest_le hz tie (h.contains hz)

/-- **Literals are exact.**  The text of a double fails if and only if the double is no number or infinite, and
the failure names it.  Else the text is a numeral that is not an integer, after a minus sign if the sign bit is
set; the number it denotes is rounded to the double, and so with the sign of a zero; it has an exponent exactly
outside the positional range, after one digit before the point; and no decimal with fewer digits is
rounded to the double. -/
theorem literal_spec (x : Binary64) :
    (literal? x = .error (.literal x) ↔ x.isNaN ∨ ∃ s, x = infinity s) ∧
    (¬ (x.isNaN ∨ ∃ s, x = infinity s) → ∃ (d : Decimal) (n : Glsl.Numeral), literal? x = .ok d ∧
      (d.text .literal).toList = (if x.negative then ['-'] else []) ++ n.chars ∧
      n.fraction ≠ some [] ∧ ('.' ∈ n.chars ∨ 'e' ∈ n.chars) ∧
      x.IsNearestTo n.value ∧
      (∀ num den : Nat, 0 < den → (num : ℚ) / den = n.value → ofRatio x.negative num den = x) ∧
      (n.power = none ↔ x.isZero ∨ (10 : ℚ) ^ (-4 : Int) ≤ x.magnitude ∧ x.magnitude < 10 ^ (16 : Int)) ∧
      (n.power ≠ none → n.whole.length = 1) ∧
      ∀ e : Decimal, x.IsNearestTo e.magnitude →
        (Decimal.digitsOf d.digits).length ≤ (Decimal.digitsOf e.digits).length) := by
  rw [← isFinite_eq_false_iff]
  cases hx : x.isFinite with
  | false =>
    have hliteral : literal? x = .error (.literal x) := if_neg (by simp [hx])
    exact ⟨iff_of_true hliteral rfl, fun h => absurd rfl h⟩
  | true =>
    have hliteral : literal? x = .ok (Decimal.shortest .up x) := if_pos hx
    refine ⟨iff_of_false (by rw [hliteral]; exact fun h => by cases h) (by decide), fun _ => ?_⟩
    obtain ⟨n, htext, hvalue, hfraction, hmark, hpower, hwhole⟩ := (Decimal.shortest .up x).exists_numeral_float
    rw [Decimal.negative_shortest] at htext
    rw [Decimal.positional_shortest_iff hx] at hpower
    refine ⟨_, n, hliteral, htext, hfraction, hmark, ?_, fun num den hd h => ?_, hpower, hwhole, fun e he => ?_⟩
    · rw [hvalue]
      exact isNearestTo_shortest hx .up
    · exact ofRatio_shortest hx .up hd (h.trans hvalue)
    · exact he.length_le .up

end Binary64
end ShaderAlgebra
