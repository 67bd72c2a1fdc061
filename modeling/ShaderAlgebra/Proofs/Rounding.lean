import Mathlib
import ShaderAlgebra.Binary64

/-!
# Rounding to a double

`Binary64.ofRatio` rounds a quotient to a multiple of a power of two and adds the
multiple to the exponent field.  That the bits so put together denote the rounded
multiple is `magnitude_ofRatio`; the carry out of the significand needs no case
there, since the next binade starts where this one ends.

Two bounds follow.  A quotient below `overflow` gives a finite double, and a finite
double is above the quotient by at most half a unit of its last place.
-/

namespace ShaderAlgebra
namespace Binary64

/-- The rational that a finite double stands for, without its sign. -/
def magnitude (x : Binary64) : ℚ :=
  x.significand * 2 ^ x.exponent

/-- Where rounding leaves the finite doubles: half a unit of the last place past the largest. -/
def overflow : ℚ :=
  (2 ^ 53 - 1 / 2) * 2 ^ (971 : Int)

theorem overflow_lt : overflow < 2 ^ (1024 : Int) := by
  rw [show (1024 : Int) = 53 + 971 from rfl, zpow_add₀ (by norm_num)]
  exact mul_lt_mul_of_pos_right (by norm_num) (zpow_pos (by norm_num) _)

/-! ## Fields -/

theorem toNat_bits_ofFields (negative : Bool) {fields : Nat} (h : fields < 2 ^ 63) :
    (ofFields negative fields).bits.toNat = (if negative then 2 ^ 63 else 0) + fields := by
  rw [ofFields, UInt64.toNat_ofNat']
  cases negative <;> simp only [Bool.false_eq_true, if_false, if_true] <;> omega

theorem exponentField_ofFields (negative : Bool) {fields : Nat} (h : fields < 2 ^ 63) :
    (ofFields negative fields).exponentField = fields / 2 ^ 52 := by
  rw [exponentField, toNat_bits_ofFields negative h, Nat.shiftRight_eq_div_pow,
    show 1 <<< 11 = 2 ^ 11 from rfl]
  cases negative <;> simp only [Bool.false_eq_true, if_false, if_true] <;> omega

theorem fraction_ofFields (negative : Bool) {fields : Nat} (h : fields < 2 ^ 63) :
    (ofFields negative fields).fraction = fields % 2 ^ 52 := by
  rw [fraction, toNat_bits_ofFields negative h, show 1 <<< 52 = 2 ^ 52 from rfl]
  cases negative <;> simp only [Bool.false_eq_true, if_false, if_true] <;> omega

theorem isFinite_ofFields (negative : Bool) {fields : Nat} (h : fields < 2047 * 2 ^ 52) :
    (ofFields negative fields).isFinite := by
  have hfield := exponentField_ofFields negative (show fields < 2 ^ 63 by omega)
  rw [isFinite, hfield, bne_iff_ne]
  omega

/-- A multiple of a power of two that is added to the fields of that power is the double's
magnitude, also if the sum carries into the next binade. -/
theorem magnitude_ofFields (negative : Bool) {k q : Nat} (hq : q ≤ 2 ^ 53) (hk : k = 0 ∨ 2 ^ 52 ≤ q)
    (h : k * 2 ^ 52 + q < 2047 * 2 ^ 52) :
    (ofFields negative (k * 2 ^ 52 + q)).magnitude = q * 2 ^ ((k : Int) - 1074) := by
  have hlt : k * 2 ^ 52 + q < 2 ^ 63 := by omega
  rw [magnitude, significand, exponent, exponentField_ofFields negative hlt,
    fraction_ofFields negative hlt]
  by_cases hsub : q < 2 ^ 52
  · -- below the first binade
    obtain rfl : k = 0 := by omega
    rw [if_pos (by omega), show (0 * 2 ^ 52 + q) % 2 ^ 52 = q by omega,
      show (0 * 2 ^ 52 + q) / 2 ^ 52 = 0 by omega]
    norm_num
  by_cases hcarry : q < 2 ^ 53
  · have hdiv : (k * 2 ^ 52 + q) / 2 ^ 52 = k + 1 := by omega
    have hmod : (k * 2 ^ 52 + q) % 2 ^ 52 + 1 <<< 52 = q := by omega
    rw [hdiv, if_neg (by omega), hmod, Nat.max_eq_left (by omega)]
    congr 2
    push_cast
    ring
  · -- the significand is full, and the next binade has one that starts anew
    obtain rfl : q = 2 ^ 53 := by omega
    have hdiv : (k * 2 ^ 52 + 2 ^ 53) / 2 ^ 52 = k + 2 := by omega
    have hmod : (k * 2 ^ 52 + 2 ^ 53) % 2 ^ 52 + 1 <<< 52 = 2 ^ 52 := by omega
    have hexp : ((k + 2 : Nat) : Int) - 1075 = ((k : Int) - 1074) + 1 := by
      push_cast
      ring
    rw [hdiv, if_neg (by omega), hmod, Nat.max_eq_left (by omega), hexp, zpow_add_one₀ (by norm_num)]
    push_cast
    ring

/-! ## Rounding -/

theorem roundHalfEven_le {den : Nat} (num : Nat) (h : 0 < den) :
    (roundHalfEven num den : ℚ) ≤ num / den + 1 / 2 := by
  have hd : (0 : ℚ) < den := by exact_mod_cast h
  have hnat : 2 * (roundHalfEven num den * den) ≤ 2 * num + den := by
    have hsplit := Nat.div_add_mod num den
    have hmod := Nat.mod_lt num h
    rw [Nat.mul_comm] at hsplit
    have hsucc : (num / den + 1) * den = num / den * den + den := Nat.succ_mul _ _
    unfold roundHalfEven
    dsimp only
    split_ifs <;> omega
  have hrat : 2 * ((roundHalfEven num den : ℚ) * den) ≤ 2 * num + den := by exact_mod_cast hnat
  rw [← sub_le_iff_le_add, le_div_iff₀ hd]
  linarith

theorem le_roundHalfEven {den k : Nat} (num : Nat) (h : 0 < den) (hk : (k : ℚ) ≤ num / den) :
    k ≤ roundHalfEven num den := by
  rw [le_div_iff₀ (by exact_mod_cast h)] at hk
  have hdiv : k ≤ num / den := (Nat.le_div_iff_mul_le h).2 (by exact_mod_cast hk)
  unfold roundHalfEven
  dsimp only
  split_ifs <;> omega

/-- A quotient in units of a power of two, as its two parts in `ofRatio`. -/
def scaled (num den : Nat) (e : Int) : Nat × Nat :=
  if 0 ≤ e then (num, den <<< e.toNat) else (num <<< (-e).toNat, den)

theorem scaled_pos {den : Nat} (num : Nat) (h : 0 < den) (e : Int) : 0 < (scaled num den e).2 := by
  unfold scaled
  split
  · rw [Nat.shiftLeft_eq]
    exact Nat.mul_pos h (Nat.two_pow_pos _)
  · exact h

theorem scaled_div (num den : Nat) (e : Int) :
    ((scaled num den e).1 : ℚ) / (scaled num den e).2 = num / den / 2 ^ e := by
  unfold scaled
  split
  · obtain ⟨k, rfl⟩ := Int.eq_ofNat_of_zero_le (by assumption)
    simp only [Nat.shiftLeft_eq, Int.toNat_natCast, zpow_natCast]
    push_cast
    rw [div_div]
  · obtain ⟨k, rfl⟩ : ∃ k : Nat, e = -k := ⟨(-e).toNat, by omega⟩
    simp only [Nat.shiftLeft_eq, neg_neg, Int.toNat_natCast, zpow_neg, zpow_natCast, div_inv_eq_mul]
    push_cast
    ring

theorem le_scaled_iff {num den : Nat} (h : 0 < den) (e : Int) :
    (scaled num den e).2 ≤ (scaled num den e).1 ↔ (2 : ℚ) ^ e ≤ num / den := by
  have hpos : (0 : ℚ) < (scaled num den e).2 := by exact_mod_cast scaled_pos num h e
  rw [← one_le_div₀ (zpow_pos (by norm_num) e), ← scaled_div, one_le_div₀ hpos, Nat.cast_le]

/-- The binary logarithm of a quotient, rounded down. -/
theorem floorLog2_spec {num den : Nat} (hn : 0 < num) (hd : 0 < den) :
    (2 : ℚ) ^ floorLog2 num den ≤ num / den ∧ (num : ℚ) / den < 2 ^ (floorLog2 num den + 1) := by
  have hd' : (0 : ℚ) < den := by exact_mod_cast hd
  -- the logarithms of the two parts give that of the quotient up to one
  have hlow : (2 : ℚ) ^ ((num.log2 : Int) - den.log2 - 1) ≤ num / den := by
    have h₁ : (2 : ℚ) ^ num.log2 ≤ num := by exact_mod_cast Nat.log2_self_le hn.ne'
    have h₂ : (den : ℚ) ≤ 2 ^ (den.log2 + 1) := by exact_mod_cast (Nat.lt_log2_self (n := den)).le
    calc (2 : ℚ) ^ ((num.log2 : Int) - den.log2 - 1) = 2 ^ num.log2 / 2 ^ (den.log2 + 1) := by
          rw [sub_sub, zpow_sub₀ (by norm_num), zpow_natCast, ← zpow_natCast 2 (den.log2 + 1)]
          push_cast
          rfl
      _ ≤ num / den := div_le_div₀ (by positivity) h₁ hd' h₂
  have hhigh : (num : ℚ) / den < 2 ^ ((num.log2 : Int) - den.log2 + 1) := by
    have h₁ : (num : ℚ) < 2 ^ (num.log2 + 1) := by exact_mod_cast Nat.lt_log2_self
    have h₂ : (2 : ℚ) ^ den.log2 ≤ den := by exact_mod_cast Nat.log2_self_le hd.ne'
    calc (num : ℚ) / den < 2 ^ (num.log2 + 1) / 2 ^ den.log2 :=
          div_lt_div₀ h₁ h₂ (by positivity) (by positivity)
      _ = 2 ^ ((num.log2 : Int) - den.log2 + 1) := by
          rw [sub_add_eq_add_sub, zpow_sub₀ (by norm_num), zpow_natCast,
            ← zpow_natCast 2 (num.log2 + 1)]
          push_cast
          rfl
  have hcases : floorLog2 num den = if (2 : ℚ) ^ ((num.log2 : Int) - den.log2) ≤ num / den
      then (num.log2 : Int) - den.log2 else (num.log2 : Int) - den.log2 - 1 := by
    simp only [← le_scaled_iff hd]
    unfold floorLog2 scaled
    dsimp only
    split <;> rfl
  rw [hcases]
  split
  · exact ⟨by assumption, hhigh⟩
  · rw [sub_add_cancel]
    exact ⟨hlow, lt_of_not_ge (by assumption)⟩

/-! ## Quotients -/

/-- The exponent of the last place to which a quotient is rounded. -/
def lastPlace (num den : Nat) : Int :=
  max (floorLog2 num den - 52) (-1074)

/-- The significand to which a quotient is rounded. -/
def rounded (num den : Nat) : Nat :=
  let r := scaled num den (lastPlace num den)
  roundHalfEven r.1 r.2

theorem neg_le_lastPlace (num den : Nat) : -1074 ≤ lastPlace num den :=
  le_max_right _ _

theorem ofRatio_eq (negative : Bool) {num den : Nat} (h : 0 < num) :
    ofRatio negative num den =
      if (lastPlace num den + 1074).toNat * 2 ^ 52 + rounded num den < 2047 * 2 ^ 52 then
        ofFields negative ((lastPlace num den + 1074).toNat * 2 ^ 52 + rounded num den)
      else infinity negative := by
  have hq : rounded num den = if 0 ≤ lastPlace num den then
      roundHalfEven num (den <<< (lastPlace num den).toNat)
      else roundHalfEven (num <<< (-lastPlace num den).toNat) den := by
    unfold rounded scaled
    dsimp only
    split <;> rfl
  rw [hq, ofRatio, if_neg h.ne', ← Nat.shiftLeft_eq]
  rfl

section Quotient

variable {num den : Nat} (hn : 0 < num) (hd : 0 < den)

include hn hd

/-- A quotient is below twice the first significand's worth of its last place. -/
theorem div_lastPlace_lt : (num : ℚ) / den / 2 ^ lastPlace num den < 2 ^ 53 := by
  rw [div_lt_iff₀ (zpow_pos (by norm_num) _)]
  calc (num : ℚ) / den < 2 ^ (floorLog2 num den + 1) := (floorLog2_spec hn hd).2
    _ ≤ 2 ^ (53 + lastPlace num den) := by
        refine zpow_le_zpow_right₀ (by norm_num) ?_
        have := le_max_left (floorLog2 num den - 52) (-1074)
        unfold lastPlace
        omega
    _ = 2 ^ 53 * 2 ^ lastPlace num den := by
        rw [zpow_add₀ (by norm_num)]
        norm_num

theorem rounded_le : rounded num den ≤ 2 ^ 53 := by
  have hle := roundHalfEven_le (scaled num den (lastPlace num den)).1
    (scaled_pos num hd (lastPlace num den))
  rw [scaled_div] at hle
  have hlt : (rounded num den : ℚ) < 2 ^ 53 + 1 := by
    have := div_lastPlace_lt hn hd
    unfold rounded
    linarith
  exact Nat.lt_succ_iff.1 (by exact_mod_cast hlt)

theorem le_rounded (h : lastPlace num den ≠ -1074) : 2 ^ 52 ≤ rounded num den := by
  have hlast : lastPlace num den = floorLog2 num den - 52 := by
    unfold lastPlace at h ⊢
    omega
  refine le_roundHalfEven _ (scaled_pos num hd _) ?_
  rw [scaled_div, le_div_iff₀ (zpow_pos (by norm_num) _), hlast]
  calc ((2 ^ 52 : Nat) : ℚ) * 2 ^ (floorLog2 num den - 52) = 2 ^ floorLog2 num den := by
        rw [zpow_sub₀ (by norm_num)]
        push_cast
        exact mul_div_cancel₀ _ (by norm_num)
    _ ≤ num / den := (floorLog2_spec hn hd).1

/-- **A quotient is rounded to a multiple of its last place.** -/
theorem magnitude_ofRatio (negative : Bool) (h : (ofRatio negative num den).isFinite) :
    (ofRatio negative num den).magnitude = rounded num den * 2 ^ lastPlace num den := by
  have hlast := neg_le_lastPlace num den
  rw [ofRatio_eq negative hn] at h ⊢
  split at h
  · rename_i hlt
    rw [if_pos hlt, magnitude_ofFields negative (rounded_le hn hd) ?_ hlt]
    · congr 2
      omega
    · by_cases hbottom : lastPlace num den = -1074
      · exact .inl (by rw [hbottom]; rfl)
      · exact .inr (le_rounded hn hd hbottom)
  · cases negative <;> exact absurd h (by decide)

/-- **A quotient below the overflow gives a finite double.** -/
theorem isFinite_ofRatio (negative : Bool) (h : (num : ℚ) / den < overflow) :
    (ofRatio negative num den).isFinite := by
  have hlast := neg_le_lastPlace num den
  have hle := rounded_le hn hd
  have hmax : lastPlace num den ≤ 971 := by
    have hlt : (2 : ℚ) ^ floorLog2 num den < 2 ^ (1024 : Int) :=
      ((floorLog2_spec hn hd).1.trans_lt h).trans overflow_lt
    have := (zpow_lt_zpow_iff_right₀ (by norm_num)).1 hlt
    unfold lastPlace
    omega
  have hfields : (lastPlace num den + 1074).toNat * 2 ^ 52 + rounded num den < 2047 * 2 ^ 52 := by
    by_cases htop : lastPlace num den = 971
    · -- in the last binade the quotient does not round up to the next
      have hround := roundHalfEven_le (scaled num den (lastPlace num den)).1
        (scaled_pos num hd (lastPlace num den))
      have hquot : (num : ℚ) / den / 2 ^ (971 : Int) < 2 ^ 53 - 1 / 2 := by
        rw [div_lt_iff₀ (zpow_pos (by norm_num) _)]
        exact h
      rw [scaled_div, htop] at hround
      have hlt : (rounded num den : ℚ) < 2 ^ 53 := by
        unfold rounded
        rw [htop]
        linarith
      have hlt' : rounded num den < 2 ^ 53 := by exact_mod_cast hlt
      rw [htop]
      omega
    · omega
  rw [ofRatio_eq negative hn, if_pos hfields]
  exact isFinite_ofFields negative hfields

/-- **A quotient is rounded up by at most half a unit of the last place.** -/
theorem magnitude_ofRatio_le (negative : Bool) (h : (num : ℚ) / den < overflow)
    (hnormal : (2 : ℚ) ^ (-1022 : Int) ≤ num / den) :
    (ofRatio negative num den).magnitude ≤ num / den * (1 + (2 ^ 53)⁻¹) := by
  have hround := roundHalfEven_le (scaled num den (lastPlace num den)).1
    (scaled_pos num hd (lastPlace num den))
  rw [scaled_div] at hround
  have hpos : (0 : ℚ) < 2 ^ lastPlace num den := zpow_pos (by norm_num) _
  -- a unit of the last place is a small part of the quotient
  have hplace : (2 : ℚ) ^ lastPlace num den * 2 ^ 52 ≤ num / den := by
    rw [← zpow_natCast 2 52, ← zpow_add₀ (by norm_num)]
    unfold lastPlace
    rcases max_cases (floorLog2 num den - 52) (-1074) with ⟨he, -⟩ | ⟨he, -⟩ <;> rw [he]
    · simpa using (floorLog2_spec hn hd).1
    · simpa using hnormal
  rw [magnitude_ofRatio hn hd negative (isFinite_ofRatio hn hd negative h)]
  calc (rounded num den : ℚ) * 2 ^ lastPlace num den
      ≤ (num / den / 2 ^ lastPlace num den + 1 / 2) * 2 ^ lastPlace num den :=
        mul_le_mul_of_nonneg_right hround hpos.le
    _ = num / den + 2 ^ lastPlace num den * 2 ^ 52 * (2 ^ 53)⁻¹ := by
        rw [add_mul, div_mul_cancel₀ _ hpos.ne']
        ring
    _ ≤ num / den + num / den * (2 ^ 53)⁻¹ := by gcongr
    _ = num / den * (1 + (2 ^ 53)⁻¹) := by ring

end Quotient

/-! ## Products -/

theorem isFinite_zero (negative : Bool) : (zero negative).isFinite := by
  cases negative <;> rfl

/-- **A product below the overflow is finite.** -/
theorem isFinite_mul {x y : Binary64} (h : x.magnitude * y.magnitude < overflow) :
    (x.mul y).isFinite := by
  have hratio : ∀ (negative : Bool) (num den : Nat), 0 < den → (num : ℚ) / den < overflow →
      (ofRatio negative num den).isFinite := by
    intro negative num den hd hlt
    rcases Nat.eq_zero_or_pos num with rfl | hn
    · rw [ofRatio, if_pos rfl]
      exact isFinite_zero negative
    · exact isFinite_ofRatio hn hd negative hlt
  have hvalue : ((x.significand * y.significand : Nat) : ℚ) * 2 ^ (x.exponent + y.exponent) =
      x.magnitude * y.magnitude := by
    rw [magnitude, magnitude, zpow_add₀ (by norm_num)]
    push_cast
    ring
  rw [← hvalue] at h
  unfold mul
  dsimp only
  generalize x.significand * y.significand = m at h
  generalize x.exponent + y.exponent = e at h
  split
  · obtain ⟨k, rfl⟩ := Int.eq_ofNat_of_zero_le (by assumption)
    refine hratio _ _ _ Nat.one_pos (lt_of_eq_of_lt ?_ h)
    simp [Nat.shiftLeft_eq]
  · obtain ⟨k, rfl⟩ : ∃ k : Nat, e = -k := ⟨(-e).toNat, by omega⟩
    refine hratio _ _ _ (by simp [Nat.shiftLeft_eq]) (lt_of_eq_of_lt ?_ h)
    simp [Nat.shiftLeft_eq, div_eq_mul_inv]

/-- A natural number from one on is rounded up by at most half a unit of the last place. -/
theorem magnitude_ofNat_le {n : Nat} (hn : 0 < n) (h : (n : ℚ) < overflow) :
    (ofNat n).magnitude ≤ n * (1 + (2 ^ 53)⁻¹) := by
  have hone : (1 : ℚ) ≤ n := by exact_mod_cast hn
  have hle := magnitude_ofRatio_le hn Nat.one_pos false
  rw [Nat.cast_one, div_one] at hle
  exact hle h ((zpow_le_one_of_nonpos₀ (by norm_num) (by norm_num)).trans hone)

theorem magnitude_tenPow_le {k : Nat} (h : (10 : ℚ) ^ k < overflow) :
    (tenPow k).magnitude ≤ 10 ^ k * (1 + (2 ^ 53)⁻¹) := by
  have hcast : ((Nat.pow 10 k : Nat) : ℚ) = 10 ^ k := Nat.cast_pow 10 k
  have hle := magnitude_ofNat_le (n := Nat.pow 10 k) (Nat.pow_pos (by norm_num)) (by rwa [hcast])
  rwa [hcast] at hle

end Binary64
end ShaderAlgebra
