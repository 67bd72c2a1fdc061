import ShaderAlgebra.Proofs.WrittenNumbers

/-!
# The shortest decimal of a double rounds to the double

The numbers that round to a double fill its interval (`ofRatio_of_contains`).  Above the double it
reaches half a unit of the last place.  Below a power of two the last place is worth half as much, so
there the interval reaches a quarter of a unit, and a number in that quarter gets to the double by
a carry out of the significand.

The search for a decimal ends in the interval (`contains_shortest`): ten to the sixteenth exceeds
every significand, so the step of the seventeenth grid is shorter than the interval, and one of the
two neighbours of the double on that grid lies inside.
-/

namespace ShaderAlgebra
namespace Binary64

/-! ## Numbers that round to a double -/

/-- A rational is rounded to a natural number: no other one is nearer, and of two the even one is taken. -/
def RoundsTo (r : ℚ) (k : Nat) : Prop :=
  |r - k| < 1 / 2 ∨ |r - k| = 1 / 2 ∧ k % 2 = 0

theorem RoundsTo.bounds {r : ℚ} {k : Nat} (h : RoundsTo r k) : (k : ℚ) - 1 / 2 ≤ r ∧ r ≤ k + 1 / 2 := by
  have hle : |r - k| ≤ 1 / 2 := h.elim le_of_lt fun h => h.1.le
  obtain ⟨hlow, hhigh⟩ := abs_le.1 hle
  exact ⟨by linarith, by linarith⟩

theorem roundHalfEven_eq {num den k : Nat} (hd : 0 < den) (h : RoundsTo (num / den) k) :
    roundHalfEven num den = k := by
  have hd' : (0 : ℚ) < den := by exact_mod_cast hd
  have hscale : (num : ℚ) / den - k = (num - k * den) / den := by
    rw [sub_div, mul_div_cancel_right₀ _ hd'.ne']
  have hnat : 2 * num < 2 * (k * den) + den ∧ 2 * (k * den) < 2 * num + den ∨
      (2 * num = 2 * (k * den) + den ∨ 2 * (k * den) = 2 * num + den) ∧ k % 2 = 0 := by
    unfold RoundsTo at h
    rw [hscale, abs_div, abs_of_pos hd', div_lt_iff₀ hd', div_eq_iff hd'.ne', abs_lt] at h
    rcases h with ⟨hlow, hhigh⟩ | ⟨heq, hk⟩
    · refine .inl ⟨?_, ?_⟩
      · have : 2 * (num : ℚ) < 2 * (k * den) + den := by linarith
        exact_mod_cast this
      · have : 2 * ((k : ℚ) * den) < 2 * num + den := by linarith
        exact_mod_cast this
    · refine .inr ⟨?_, hk⟩
      rcases eq_or_eq_neg_of_abs_eq heq with heq | heq
      · have : 2 * (num : ℚ) = 2 * (k * den) + den := by linarith
        exact .inl (by exact_mod_cast this)
      · have : 2 * ((k : ℚ) * den) = 2 * num + den := by linarith
        exact .inr (by exact_mod_cast this)
  have hsplit : num / den * den + num % den = num := Nat.div_add_mod' num den
  have hmod := Nat.mod_lt num hd
  -- the number is the quotient rounded down or the one after it
  have hk : k = num / den ∨ k = num / den + 1 := by
    have hge : num / den ≤ k := by
      by_contra hlt
      have := Nat.mul_le_mul_right den (show k + 1 ≤ num / den by omega)
      rw [Nat.succ_mul] at this
      omega
    have hle : k ≤ num / den + 1 := by
      by_contra hlt
      have := Nat.mul_le_mul_right den (show num / den + 2 ≤ k by omega)
      rw [Nat.add_mul] at this
      omega
    omega
  unfold roundHalfEven
  dsimp only
  rcases hk with rfl | rfl
  · split_ifs <;> omega
  · rw [Nat.succ_mul (num / den)] at hnat
    split_ifs <;> omega

section Quotient

variable {num den : Nat} (hn : 0 < num) (hd : 0 < den)

include hn hd

/-- The last place of a quotient, from the binade in which it lies. -/
theorem lastPlace_eq {e : Int} (hlt : (num : ℚ) / den < 2 ^ (e + 53))
    (hge : e = -1074 ∨ -1074 ≤ e ∧ (2 : ℚ) ^ (e + 52) ≤ num / den) : lastPlace num den = e := by
  obtain ⟨hlow, hhigh⟩ := floorLog2_spec hn hd
  have hup := (zpow_lt_zpow_iff_right₀ (by norm_num)).1 (hlow.trans_lt hlt)
  unfold lastPlace
  rcases hge with rfl | ⟨hmin, hge⟩
  · omega
  · have hdown := (zpow_lt_zpow_iff_right₀ (by norm_num)).1 (hge.trans_lt hhigh)
    omega

/-- The double of a quotient, from its binade and the significand to which it is rounded. -/
theorem ofRatio_of_roundsTo (negative : Bool) {k q : Nat}
    (hlt : (num : ℚ) / den / 2 ^ ((k : Int) - 1074) < 2 ^ 53)
    (hge : k = 0 ∨ 2 ^ 52 ≤ (num : ℚ) / den / 2 ^ ((k : Int) - 1074))
    (hq : RoundsTo (num / den / 2 ^ ((k : Int) - 1074)) q) (hfields : k * 2 ^ 52 + q < 2047 * 2 ^ 52) :
    ofRatio negative num den = ofFields negative (k * 2 ^ 52 + q) := by
  have hplace : (0 : ℚ) < 2 ^ ((k : Int) - 1074) := zpow_pos (by norm_num) _
  have hlast : lastPlace num den = (k : Int) - 1074 := by
    refine lastPlace_eq hn hd ?_ ?_
    · rw [div_lt_iff₀ hplace] at hlt
      rw [add_comm, zpow_add₀ (by norm_num)]
      exact hlt
    · rcases hge with rfl | hge
      · exact .inl rfl
      · refine .inr ⟨by omega, ?_⟩
        rw [le_div_iff₀ hplace] at hge
        rw [add_comm, zpow_add₀ (by norm_num)]
        exact hge
  have hrounded : rounded num den = q := by
    unfold rounded
    refine roundHalfEven_eq (scaled_pos num hd _) ?_
    rw [scaled_div, hlast]
    exact hq
  have hfield : (lastPlace num den + 1074).toNat = k := by omega
  rw [ofRatio_eq negative hn, hrounded, hfield, if_pos hfields]

end Quotient

end Binary64

namespace Decimal
namespace Interval

/-- The unit of an interval. -/
def unit (v : Interval) : ℚ :=
  v.unitNum / v.unitDen

/-- A rational lies in an interval. -/
def Contains (v : Interval) (r : ℚ) : Prop :=
  if v.closed then v.low * v.unit ≤ r ∧ r ≤ v.high * v.unit else v.low * v.unit < r ∧ r < v.high * v.unit

theorem Contains.le_and_le {v : Interval} {r : ℚ} (h : v.Contains r) :
    v.low * v.unit ≤ r ∧ r ≤ v.high * v.unit := by
  unfold Contains at h
  split at h
  · exact h
  · exact ⟨h.1.le, h.2.le⟩

end Interval
end Decimal

namespace Binary64

open Decimal (Interval)

theorem significand_pos {x : Binary64} (h : ¬ x.isZero) : 0 < x.significand := by
  unfold significand
  split
  · rename_i hfield
    have hfraction : x.fraction ≠ 0 := by simpa [isZero, hfield] using h
    omega
  · exact Nat.add_pos_right _ (by decide)

theorem significand_lt (x : Binary64) : x.significand < 2 ^ 53 := by
  have hfraction := x.fraction_lt
  unfold significand
  split <;> omega

theorem significand_of_power {x : Binary64} (hfraction : x.fraction = 0) (hone : 1 < x.exponentField) :
    x.significand = 2 ^ 52 := by
  rw [significand, if_neg (by omega), hfraction]
  rfl

section Interval

variable {x : Binary64} {r : ℚ}

/-- The unit of the interval of a double is a quarter of the double's last place. -/
theorem unit_ofBinary64 (x : Binary64) : (Interval.ofBinary64 x).unit = 2 ^ x.exponent / 4 := by
  rw [Interval.unit, Interval.unit_eq, zpow_sub₀ (by norm_num)]
  norm_num

theorem low_ofBinary64 (hz : ¬ x.isZero) : ((Interval.ofBinary64 x).low : ℚ) =
    4 * x.significand - if x.fraction = 0 ∧ 1 < x.exponentField then 1 else 2 := by
  have hpos := significand_pos hz
  unfold Interval.ofBinary64
  dsimp only
  rw [Nat.cast_sub (by split <;> omega)]
  push_cast
  rfl

/-- In units of the last place, a number in the interval of a double is rounded to its significand. -/
theorem roundsTo_of_contains (hz : ¬ x.isZero) (h : (Interval.ofBinary64 x).Contains r) :
    RoundsTo (r / 2 ^ x.exponent) x.significand := by
  have hplace : (0 : ℚ) < 2 ^ x.exponent := zpow_pos (by norm_num) _
  have hlow : (x.significand - 1 / 2 : ℚ) * 2 ^ x.exponent ≤
      (Interval.ofBinary64 x).low * (Interval.ofBinary64 x).unit := by
    rw [unit_ofBinary64, low_ofBinary64 hz]
    split_ifs <;> linarith
  have hhigh : (Interval.ofBinary64 x).high * (Interval.ofBinary64 x).unit =
      (x.significand + 1 / 2 : ℚ) * 2 ^ x.exponent := by
    rw [unit_ofBinary64, Interval.ofBinary64]
    push_cast
    ring
  unfold Interval.Contains at h
  rw [hhigh] at h
  split at h
  · rename_i hclosed
    have heven : x.significand % 2 = 0 := of_decide_eq_true hclosed
    have hdown : (x.significand - 1 / 2 : ℚ) ≤ r / 2 ^ x.exponent := (le_div_iff₀ hplace).2 (hlow.trans h.1)
    have hup : r / 2 ^ x.exponent ≤ x.significand + 1 / 2 := (div_le_iff₀ hplace).2 h.2
    rcases (abs_le.2 ⟨by linarith, by linarith⟩ :
      |r / 2 ^ x.exponent - x.significand| ≤ 1 / 2).lt_or_eq with hlt | heq
    · exact .inl hlt
    · exact .inr ⟨heq, heven⟩
  · have hdown : (x.significand - 1 / 2 : ℚ) < r / 2 ^ x.exponent :=
      (lt_div_iff₀ hplace).2 (hlow.trans_lt h.1)
    have hup : r / 2 ^ x.exponent < x.significand + 1 / 2 := (div_lt_iff₀ hplace).2 h.2
    exact .inl (abs_lt.2 ⟨by linarith, by linarith⟩)

theorem pos_of_contains (hz : ¬ x.isZero) (h : (Interval.ofBinary64 x).Contains r) : 0 < r := by
  have hone : (1 : ℚ) ≤ x.significand := by exact_mod_cast significand_pos hz
  have hlow := (roundsTo_of_contains hz h).bounds.1
  have hdiv : 0 < r / 2 ^ x.exponent := by linarith
  exact (div_pos_iff_of_pos_right (zpow_pos (by norm_num) _)).1 hdiv

/-- Below a power of two the interval of a double reaches a quarter of a unit of the last place. -/
theorem le_div_of_contains (hz : ¬ x.isZero) (h : (Interval.ofBinary64 x).Contains r) (hfraction : x.fraction = 0)
    (hfield : 1 < x.exponentField) : (x.significand - 1 / 4 : ℚ) ≤ r / 2 ^ x.exponent := by
  have hlow := h.le_and_le.1
  rw [unit_ofBinary64, low_ofBinary64 hz, if_pos ⟨hfraction, hfield⟩] at hlow
  rw [le_div_iff₀ (zpow_pos (by norm_num) _)]
  linarith

end Interval

section Contained

variable {x : Binary64} (hx : x.isFinite) (hz : ¬ x.isZero) {num den : Nat} (hn : 0 < num) (hd : 0 < den)
  (h : (Interval.ofBinary64 x).Contains (num / den))

include hx hz hn hd h

/-- Below a power of two the last place is worth half, and the quotient rounds up to the power. -/
theorem ofRatio_of_carry (hfraction : x.fraction = 0) (hone : 1 < x.exponentField)
    (hlt : (num : ℚ) / den / 2 ^ x.exponent < 2 ^ 52) : ofRatio x.negative num den = x := by
  have hfield := exponentField_lt hx
  have hnear := le_div_of_contains hz h hfraction hone
  rw [significand_of_power hfraction hone] at hnear
  push_cast at hnear
  have hplace : ((x.exponentField - 2 : Nat) : Int) - 1074 = x.exponent - 1 := by
    unfold exponent
    omega
  have hhalf : (num : ℚ) / den / 2 ^ (((x.exponentField - 2 : Nat) : Int) - 1074) =
      2 * (num / den / 2 ^ x.exponent) := by
    rw [hplace, zpow_sub_one₀ (by norm_num), div_mul_eq_div_div, div_inv_eq_mul, mul_comm]
  have hrounds : RoundsTo (2 * (num / den / 2 ^ x.exponent)) (2 ^ 53) := by
    unfold RoundsTo
    push_cast
    rcases hnear.lt_or_eq with hlt' | heq
    · exact .inl (abs_lt.2 ⟨by linarith, by linarith⟩)
    · refine .inr ⟨?_, by decide⟩
      rw [← heq]
      norm_num
  have hfields : (x.exponentField - 2) * 2 ^ 52 + 2 ^ 53 = x.exponentField * 2 ^ 52 + x.fraction := by omega
  rw [← hhalf] at hrounds
  rw [ofRatio_of_roundsTo hn hd x.negative (by rw [hhalf]; linarith) (.inr (by rw [hhalf]; linarith)) hrounds
    (by omega), hfields, ofFields_fields]

/-- A quotient in the binade of the double, or in the lowest one, rounds to the significand. -/
theorem ofRatio_of_binade (hge : x.exponentField ≤ 1 ∨ 2 ^ 52 ≤ (num : ℚ) / den / 2 ^ x.exponent) :
    ofRatio x.negative num den = x := by
  have hfield := exponentField_lt hx
  have hfraction := x.fraction_lt
  have hrounds := roundsTo_of_contains hz h
  have hlt : (num : ℚ) / den / 2 ^ x.exponent < 2 ^ 53 := by
    have hle : (x.significand : ℚ) + 1 ≤ 2 ^ 53 := by exact_mod_cast x.significand_lt
    linarith [hrounds.bounds]
  have hplace : ((max x.exponentField 1 - 1 : Nat) : Int) - 1074 = x.exponent := by
    unfold exponent
    omega
  have hfields : (max x.exponentField 1 - 1) * 2 ^ 52 + x.significand =
      x.exponentField * 2 ^ 52 + x.fraction := by
    unfold significand
    split <;> omega
  have hge' : max x.exponentField 1 - 1 = 0 ∨ 2 ^ 52 ≤ (num : ℚ) / den / 2 ^ x.exponent :=
    hge.imp_left fun hle => by omega
  rw [← hplace] at hlt hge' hrounds
  rw [ofRatio_of_roundsTo hn hd x.negative hlt hge' hrounds (by omega), hfields, ofFields_fields]

end Contained

/-- **A quotient in the interval of a double rounds to the double.** -/
theorem ofRatio_of_contains {x : Binary64} (hx : x.isFinite) (hz : ¬ x.isZero) {num den : Nat} (hd : 0 < den)
    (h : (Interval.ofBinary64 x).Contains (num / den)) : ofRatio x.negative num den = x := by
  have hn : 0 < num := by
    have hpos := pos_of_contains hz h
    rw [div_pos_iff_of_pos_right (by exact_mod_cast hd)] at hpos
    exact_mod_cast hpos
  by_cases hone : x.exponentField ≤ 1
  · exact ofRatio_of_binade hx hz hn hd h (.inl hone)
  · by_cases hge : 2 ^ 52 ≤ (num : ℚ) / den / 2 ^ x.exponent
    · exact ofRatio_of_binade hx hz hn hd h (.inr hge)
    · -- only the interval of a power of two reaches below the double's binade
      have hfraction : x.fraction = 0 := by
        by_contra hne
        have hnat : 2 ^ 52 + 1 ≤ x.significand := by
          rw [significand, if_neg (by omega)]
          omega
        have hrat : (2 ^ 52 + 1 : ℚ) ≤ x.significand := by exact_mod_cast hnat
        linarith [(roundsTo_of_contains hz h).bounds]
      exact ofRatio_of_carry hx hz hn hd h hfraction (not_le.1 hone) (not_le.1 hge)

/-- The power of ten of the leading digit of a double. -/
def decade (x : Binary64) : Int :=
  Decimal.leadingPower ((Interval.ofBinary64 x).value * (Interval.ofBinary64 x).unitNum)
    (Interval.ofBinary64 x).unitDen

end Binary64

namespace Decimal

/-! ## The search for a decimal -/

namespace Interval

variable {v : Interval}

/-- A grid compares with the units of an interval as a power of ten does. -/
theorem grid_mul_unit (hden : 0 < v.unitDen) (p : Int) :
    ((v.grid p).den : ℚ) * v.unit = (v.grid p).num * 10 ^ p := by
  have hden' : (v.unitDen : ℚ) ≠ 0 := by exact_mod_cast hden.ne'
  unfold grid unit
  split
  · obtain ⟨k, rfl⟩ := Int.eq_ofNat_of_zero_le (by assumption)
    rw [Int.toNat_natCast, zpow_natCast, show Nat.pow 10 k = 10 ^ k from rfl]
    push_cast
    field_simp
  · obtain ⟨k, rfl⟩ : ∃ k : Nat, p = -k := ⟨(-p).toNat, by omega⟩
    rw [neg_neg, Int.toNat_natCast, zpow_neg, zpow_natCast, show Nat.pow 10 k = 10 ^ k from rfl]
    push_cast
    field_simp

theorem grid_num_pos (hnum : 0 < v.unitNum) (p : Int) : 0 < (v.grid p).num := by
  unfold grid
  split
  · exact hnum
  · exact Nat.mul_pos hnum (Nat.pow_pos (by decide))

theorem grid_den_pos (hden : 0 < v.unitDen) (p : Int) : 0 < (v.grid p).den := by
  unfold grid
  split
  · exact Nat.mul_pos hden (Nat.pow_pos (by decide))
  · exact hden

/-- A grid point is found in an interval if and only if it lies there. -/
theorem holds_iff_contains (hnum : 0 < v.unitNum) (hden : 0 < v.unitDen) {p : Int} {d : Nat} :
    v.holds (v.grid p) d ↔ v.Contains (d * 10 ^ p) := by
  have hunit : 0 < v.unit := div_pos (by exact_mod_cast hnum) (by exact_mod_cast hden)
  have hgrid : (0 : ℚ) < (v.grid p).num := by exact_mod_cast grid_num_pos hnum p
  have hscale : ∀ a : Nat, ((d * (v.grid p).den : ℚ) - a * (v.grid p).num) * v.unit =
      (v.grid p).num * (d * 10 ^ p - a * v.unit) := by
    intro a
    linear_combination (d : ℚ) * grid_mul_unit hden p
  have hle : ∀ a : Nat, a * (v.grid p).num ≤ d * (v.grid p).den ↔ (a : ℚ) * v.unit ≤ d * 10 ^ p := by
    intro a
    rw [← sub_nonneg (b := (a : ℚ) * v.unit), ← mul_nonneg_iff_of_pos_left hgrid, ← hscale,
      mul_nonneg_iff_of_pos_right hunit, sub_nonneg]
    exact_mod_cast Iff.rfl
  have hlt : ∀ a : Nat, a * (v.grid p).num < d * (v.grid p).den ↔ (a : ℚ) * v.unit < d * 10 ^ p := by
    intro a
    rw [← sub_pos (b := (a : ℚ) * v.unit), ← mul_pos_iff_of_pos_left hgrid, ← hscale,
      mul_pos_iff_of_pos_right hunit, sub_pos]
    exact_mod_cast Iff.rfl
  have hle' : ∀ a : Nat, d * (v.grid p).den ≤ a * (v.grid p).num ↔ (d : ℚ) * 10 ^ p ≤ a * v.unit := fun a => by
    rw [← not_lt, ← not_lt, hlt a]
  have hlt' : ∀ a : Nat, d * (v.grid p).den < a * (v.grid p).num ↔ (d : ℚ) * 10 ^ p < a * v.unit := fun a => by
    rw [← not_le, ← not_le, hle a]
  unfold holds Contains
  split
  · rw [Bool.and_eq_true, decide_eq_true_eq, decide_eq_true_eq, hle, hle']
  · rw [Bool.and_eq_true, decide_eq_true_eq, decide_eq_true_eq, hlt, hlt']

theorem holds_of_lt {g : Grid} {d : Nat} (hlow : v.low * g.num < d * g.den)
    (hhigh : d * g.den < v.high * g.num) : v.holds g d := by
  unfold holds
  split
  · simpa using ⟨hlow.le, hhigh.le⟩
  · simpa using ⟨hlow, hhigh⟩

theorem isSome_pick_of_holds (tie : Tie) {g : Grid} (h : v.holds g (v.value * g.num / g.den) ∨
    v.holds g (v.value * g.num / g.den + 1)) : (v.pick tie g).isSome := by
  unfold pick
  dsimp only
  split
  · cases tie <;> split_ifs <;> rfl
  · rfl
  · rfl
  · rename_i hdown hup
    rw [hdown, hup] at h
    simp at h

/-- **A grid whose step is shorter than the interval has a point in it.** -/
theorem isSome_pick (tie : Tie) {g : Grid} (hden : 0 < g.den) (hnum : 0 < g.num) (hlow : v.low < v.value)
    (hhigh : v.value < v.high) (hstep : g.den < (v.high - v.low) * g.num) : (v.pick tie g).isSome := by
  refine isSome_pick_of_holds tie ?_
  have hfloor := Nat.div_mul_le_self (v.value * g.num) g.den
  have hceil := Nat.lt_div_mul_add hden (a := v.value * g.num)
  have hlow' := Nat.mul_lt_mul_of_pos_right hlow hnum
  have hhigh' := Nat.mul_lt_mul_of_pos_right hhigh hnum
  rw [Nat.sub_mul] at hstep
  generalize v.value * g.num / g.den = d at hfloor hceil ⊢
  by_cases hdown : v.low * g.num < d * g.den
  · exact .inl (holds_of_lt hdown (by omega))
  · refine .inr (holds_of_lt ?_ ?_) <;> rw [Nat.succ_mul] <;> omega

end Interval

theorem lt_pow_length (n : Nat) : n < 10 ^ (digitsOf n).length := by
  have hlt := Json.ofDigitChars_lt (Glsl.digitsOf_digits n) 0
  rwa [Glsl.digitsOf_value, Nat.zero_add, Nat.one_mul] at hlt

/-- The leading digit of a quotient stands at a power of ten that the quotient reaches. -/
theorem tenPow_leadingPower_le {num den : Nat} (hn : 0 < num) (hd : 0 < den) :
    (10 : ℚ) ^ leadingPower num den ≤ num / den := by
  have hn' : (0 : ℚ) < num := by exact_mod_cast hn
  have hd' : (0 : ℚ) < den := by exact_mod_cast hd
  have hsmall : ∀ k : Nat, den ≤ num * 10 ^ k → (10 : ℚ) ^ (-(k : Int)) ≤ num / den := by
    intro k hk
    have hrat : (den : ℚ) ≤ num * 10 ^ k := by exact_mod_cast hk
    rw [zpow_neg, zpow_natCast, le_div_iff₀ hd', inv_mul_le_iff₀ (by positivity)]
    linarith
  unfold leadingPower
  split
  · rename_i hle
    have hquotient : num / den ≠ 0 := (Nat.div_pos hle hd).ne'
    have hlength : 0 < (digitsOf (num / den)).length := List.length_pos_iff.2 (Glsl.digitsOf_ne_nil _)
    have hpow : 10 ^ ((digitsOf (num / den)).length - 1) * den ≤ num :=
      (Nat.mul_le_mul_right den (pow_length_le hquotient)).trans (Nat.div_mul_le_self num den)
    have hcast : ((digitsOf (num / den)).length : Int) - 1 = ((digitsOf (num / den)).length - 1 : Nat) := by omega
    rw [hcast, zpow_natCast, le_div_iff₀ hd']
    exact_mod_cast hpow
  · have hlength : 0 < (digitsOf (den / num)).length := List.length_pos_iff.2 (Glsl.digitsOf_ne_nil _)
    dsimp only
    split
    · rename_i hle
      have hcast : ((digitsOf (den / num)).length : Int) - 1 = ((digitsOf (den / num)).length - 1 : Nat) := by omega
      rw [hcast]
      exact hsmall _ hle
    · refine hsmall _ ?_
      have hlt := lt_pow_length (den / num)
      have hceil := Nat.lt_div_mul_add hn (a := den)
      calc den ≤ den / num * num + num := hceil.le
        _ = num * (den / num + 1) := by ring
        _ ≤ num * 10 ^ (digitsOf (den / num)).length := Nat.mul_le_mul_left _ hlt

theorem Interval.unitNum_pos (x : Binary64) : 0 < (Interval.ofBinary64 x).unitNum := by
  unfold Interval.ofBinary64
  dsimp only
  split
  · rw [Nat.shiftLeft_eq, Nat.one_mul]
    exact Nat.two_pow_pos _
  · exact Nat.one_pos

/-- In units of its interval a double is less than sixteen decimal places of the interval's width. -/
theorem Interval.value_lt (x : Binary64) : (Interval.ofBinary64 x).value <
    10 ^ 16 * ((Interval.ofBinary64 x).high - (Interval.ofBinary64 x).low) := by
  have hsignificand := x.significand_lt
  unfold Interval.ofBinary64
  dsimp only
  split
  · rename_i hpower
    have hsignificand := Binary64.significand_of_power hpower.1 hpower.2
    omega
  · omega

/-- The first hit of a search through a range, with the misses before it. -/
theorem exists_first_of_findSome? {α : Type} {f : Nat → Option α} {n : Nat} {a : α}
    (h : (List.range n).findSome? f = some a) : ∃ i, f i = some a ∧ ∀ j < i, f j = none := by
  induction n with
  | zero => cases h
  | succ n ih =>
    rw [List.range_succ, List.findSome?_append, Option.or_eq_some_iff] at h
    rcases h with h | ⟨hnone, h⟩
    · exact ih h
    · refine ⟨n, by simpa using h, fun j hj => ?_⟩
      exact List.findSome?_eq_none_iff.1 hnone j (List.mem_range.2 hj)

section Shortest

variable {x : Binary64} (hz : ¬ x.isZero) (tie : Tie)

include hz

/-- The seventeenth grid of a double has a point in the interval of the double. -/
theorem isSome_pick_ofBinary64 :
    ((Interval.ofBinary64 x).pick tie ((Interval.ofBinary64 x).grid (leadingPower
      ((Interval.ofBinary64 x).value * (Interval.ofBinary64 x).unitNum) (Interval.ofBinary64 x).unitDen -
        (16 : Nat)))).isSome := by
  have hpos := Binary64.significand_pos hz
  have hlow : (Interval.ofBinary64 x).low < (Interval.ofBinary64 x).value := by
    unfold Interval.ofBinary64
    dsimp only
    split <;> omega
  have hhigh : (Interval.ofBinary64 x).value < (Interval.ofBinary64 x).high := by
    unfold Interval.ofBinary64
    exact Nat.lt_add_of_pos_right (by decide)
  have hwidth := Interval.value_lt x
  have hnum := Interval.unitNum_pos x
  have hden := Interval.unitDen_pos x
  generalize Interval.ofBinary64 x = v at *
  have hunit : 0 < v.unit := div_pos (by exact_mod_cast hnum) (by exact_mod_cast hden)
  have hlead := tenPow_leadingPower_le (Nat.mul_pos (Nat.zero_lt_of_lt hlow) hnum) hden
  generalize leadingPower (v.value * v.unitNum) v.unitDen = top at hlead ⊢
  have hgrid := Interval.grid_mul_unit hden (top - (16 : Nat))
  have hgnum := Interval.grid_num_pos hnum (top - (16 : Nat))
  have hgden := Interval.grid_den_pos hden (top - (16 : Nat))
  generalize v.grid (top - (16 : Nat)) = g at hgrid hgnum hgden ⊢
  -- the step of the grid is sixteen places below the leading digit
  have hstep : 10 ^ 16 * g.den ≤ v.value * g.num := by
    have hrat : (10 ^ 16 * g.den : ℚ) * v.unit ≤ v.value * g.num * v.unit := by
      calc (10 ^ 16 * g.den : ℚ) * v.unit = g.num * (10 ^ (top - (16 : Nat)) * 10 ^ 16) := by
            rw [mul_assoc, hgrid]
            ring
        _ = g.num * 10 ^ top := by
            rw [← zpow_natCast (10 : ℚ) 16, ← zpow_add₀ (by norm_num), sub_add_cancel]
        _ ≤ g.num * (v.value * v.unit) := by
            refine mul_le_mul_of_nonneg_left (hlead.trans_eq ?_) (Nat.cast_nonneg _)
            rw [Interval.unit]
            push_cast
            ring
        _ = v.value * g.num * v.unit := by ring
    exact_mod_cast le_of_mul_le_mul_right hrat hunit
  refine Interval.isSome_pick tie hgden hgnum hlow hhigh (lt_of_not_ge fun hge => ?_)
  have hle : 10 ^ 16 * (v.high - v.low) * g.num ≤ v.value * g.num :=
    calc 10 ^ 16 * (v.high - v.low) * g.num = 10 ^ 16 * ((v.high - v.low) * g.num) := Nat.mul_assoc _ _ _
      _ ≤ 10 ^ 16 * g.den := Nat.mul_le_mul_left _ hge
      _ ≤ v.value * g.num := hstep
  exact hwidth.not_ge (Nat.le_of_mul_le_mul_right hle hgnum)

/-- **The search for a decimal** ends at the first grid that meets the interval of the double. -/
theorem exists_hit : ∃ i n : Nat,
    (Interval.ofBinary64 x).pick tie ((Interval.ofBinary64 x).grid (x.decade - i)) = some n ∧
      (∀ j < i, (Interval.ofBinary64 x).pick tie ((Interval.ofBinary64 x).grid (x.decade - j)) = none) ∧
        shortest tie x = normalize ⟨x.negative, n, x.decade - i⟩ := by
  unfold shortest
  rw [if_neg hz]
  dsimp only
  cases hhit : (List.range 17).findSome? _ with
  | none =>
    have hlast := List.findSome?_eq_none_iff.1 hhit 16 (by decide)
    rw [Option.map_eq_none_iff] at hlast
    exact absurd hlast (Option.isSome_iff_ne_none.1 (isSome_pick_ofBinary64 hz tie))
  | some d =>
    obtain ⟨i, hi, hfirst⟩ := exists_first_of_findSome? hhit
    obtain ⟨n, hn, rfl⟩ := Option.map_eq_some_iff.1 hi
    exact ⟨i, n, hn, fun j hj => Option.map_eq_none_iff.1 (hfirst j hj), rfl⟩

/-- **The shortest decimal of a double lies in the interval of the double.** -/
theorem contains_shortest : (Interval.ofBinary64 x).Contains (shortest tie x).magnitude := by
  obtain ⟨i, n, hn, -, hshortest⟩ := exists_hit hz tie
  rw [hshortest, magnitude_normalize]
  exact (Interval.holds_iff_contains (Interval.unitNum_pos x) (Interval.unitDen_pos x)).1
    (Interval.holds_of_pick hn)

end Shortest

theorem negative_normalize (d : Decimal) : d.normalize.negative = d.negative := by
  fun_induction normalize d with
  | case1 => rfl
  | case2 d _ _ ih => exact ih
  | case3 => rfl

/-- The shortest decimal of a number has its sign. -/
theorem negative_shortest (tie : Tie) (x : Binary64) : (shortest tie x).negative = x.negative := by
  have hgetD : ∀ hit : Option Decimal, (∀ d, hit = some d → d.negative = x.negative) →
      (hit.getD ⟨x.negative, 0, 0⟩).negative = x.negative := by
    intro hit h
    cases hit with
    | none => rfl
    | some d => exact h d rfl
  unfold shortest
  split
  · rfl
  · rw [negative_normalize]
    refine hgetD _ fun d hd => ?_
    obtain ⟨i, -, hi⟩ := List.exists_of_findSome?_eq_some hd
    obtain ⟨n, -, rfl⟩ := Option.map_eq_some_iff.1 hi
    rfl

end Decimal

namespace Binary64

/-- The double nearest to a rational, a tie going to the even significand. -/
def nearest (q : ℚ) : Binary64 :=
  ofRatio (decide (q < 0)) q.num.natAbs q.den

theorem nearest_zero : nearest 0 = zero false :=
  rfl

theorem natAbs_num_div_den (q : ℚ) : (q.num.natAbs : ℚ) / q.den = |q| := by
  rw [Nat.cast_natAbs, Int.cast_abs, ← Nat.abs_cast q.den, ← abs_div, Rat.num_div_den]

theorem isNaN_of_isFinite {x : Binary64} (h : x.isFinite) : x.isNaN = false := by
  have hne : x.exponentField ≠ 2047 := by simpa [isFinite] using h
  simp [isNaN, hne]

/-- **The shortest decimal of a finite double rounds to the double.**  A rational has no sign of zero, so the
two zeros are one number here. -/
theorem sameNumber_nearest_shortest {x : Binary64} (hx : x.isFinite) (tie : Tie) :
    (nearest (Decimal.shortest tie x).value).sameNumber x := by
  have hnan := isNaN_of_isFinite hx
  by_cases hz : x.isZero
  · have hvalue : (Decimal.shortest tie x).value = 0 := by
      rw [Decimal.shortest, if_pos hz]
      simp [Decimal.value, Decimal.magnitude]
    have hzero : (zero false).isNaN = false ∧ (zero false).isZero = true := by decide
    simp [hvalue, nearest_zero, sameNumber, hnan, hz, hzero]
  · have hcontains := Decimal.contains_shortest hz tie
    have hpos := pos_of_contains hz hcontains
    have hnearest : nearest (Decimal.shortest tie x).value = x := by
      have hneg : decide ((Decimal.shortest tie x).value < 0) = x.negative := by
        rw [← Decimal.negative_shortest tie x, Decimal.value]
        cases (Decimal.shortest tie x).negative <;> simp [hpos, hpos.le]
      have habs : |(Decimal.shortest tie x).value| = (Decimal.shortest tie x).magnitude := by
        rw [Decimal.value]
        split <;> simp [abs_of_pos hpos]
      rw [nearest, hneg]
      refine ofRatio_of_contains hx hz (Rat.den_pos _) ?_
      rwa [natAbs_num_div_den, habs]
    rw [hnearest, sameNumber, hnan]
    simp

end Binary64
end ShaderAlgebra
