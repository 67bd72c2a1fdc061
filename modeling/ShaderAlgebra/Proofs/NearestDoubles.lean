import ShaderAlgebra.Proofs.ShortestDecimals

/-!
# The double nearest to a number

`Binary64.IsNearestTo` says what rounding to nearest is, without a word on how it is done: no finite double
is nearer, and if another is as near, the significand is even.

For a double other than zero, the numbers that it is nearest to are those in its interval.  That
they are (`isNearestTo_of_contains`) holds since no magnitude lies in the gaps beside the double (`magnitude_gaps`);
that there are no others (`IsNearestTo.contains`), since the gaps end at magnitudes of doubles (`exists_next`,
`exists_previous`).
-/

namespace ShaderAlgebra
namespace Binary64

open Decimal (Interval)

/-- **Rounding to nearest, ties to even:** the magnitude of a finite double is that to which a number is
rounded. -/
structure IsNearestTo (x : Binary64) (r : ℚ) : Prop where
  finite : x.isFinite
  lt_overflow : r < overflow
  nearest : ∀ y : Binary64, y.isFinite → |r - x.magnitude| ≤ |r - y.magnitude|
  even : ∀ y : Binary64, y.isFinite → y.magnitude ≠ x.magnitude → |r - y.magnitude| = |r - x.magnitude| →
    x.significand % 2 = 0

/-! ## Gaps between doubles -/

/-- The gap below a double: that above it, or half of it below a power of two. -/
def gapBelow (x : Binary64) : ℚ :=
  if x.fraction = 0 ∧ 1 < x.exponentField then 2 ^ x.exponent / 2 else 2 ^ x.exponent

theorem gapBelow_pos (x : Binary64) : 0 < x.gapBelow := by
  unfold gapBelow
  split <;> positivity

theorem gapBelow_le (x : Binary64) : x.gapBelow ≤ 2 ^ x.exponent := by
  have hpos : (0 : ℚ) < 2 ^ x.exponent := by positivity
  unfold gapBelow
  split
  · linarith
  · exact le_rfl

/-- Past the lowest binade a significand has its leading one. -/
theorem le_significand {x : Binary64} (h : 1 ≤ x.exponentField) : 2 ^ 52 ≤ x.significand := by
  rw [significand, if_neg (by omega)]
  exact Nat.le_add_left _ _

/-- **No magnitude of a double lies in the gaps beside a double.** -/
theorem magnitude_gaps (x y : Binary64) : y.magnitude = x.magnitude ∨
    x.magnitude + 2 ^ x.exponent ≤ y.magnitude ∨ y.magnitude ≤ x.magnitude - x.gapBelow := by
  have hx : (0 : ℚ) < 2 ^ x.exponent := by positivity
  have hy : (0 : ℚ) < 2 ^ y.exponent := by positivity
  have hfull (z : Binary64) : (z.significand : ℚ) + 1 ≤ 2 ^ 53 := by exact_mod_cast z.significand_lt
  unfold magnitude
  rcases lt_trichotomy y.exponent x.exponent with hlt | heq | hlt
  · -- a lower binade ends at least one of its own places below the double
    refine .inr (.inr ?_)
    have hfield : 1 < x.exponentField := by
      unfold exponent at hlt
      omega
    have hplace : (2 : ℚ) ^ y.exponent ≤ 2 ^ x.exponent / 2 := by
      rw [div_eq_mul_inv, ← zpow_sub_one₀ (by norm_num)]
      exact zpow_le_zpow_right₀ (by norm_num) (by omega)
    have htop : (y.significand : ℚ) * 2 ^ y.exponent ≤ (2 ^ 53 - 1) * (2 ^ x.exponent / 2) := by
      have := hfull y
      gcongr
      linarith
    by_cases hfraction : x.fraction = 0
    · rw [gapBelow, if_pos ⟨hfraction, hfield⟩, significand_of_power hfraction hfield]
      push_cast
      linarith
    · have hnat : 2 ^ 52 + 1 ≤ x.significand := by
        rw [significand, if_neg (by omega)]
        omega
      have hrat : (2 ^ 52 + 1 : ℚ) ≤ x.significand := by exact_mod_cast hnat
      rw [gapBelow, if_neg fun h => hfraction h.1]
      nlinarith
  · rw [heq]
    rcases lt_trichotomy y.significand x.significand with hlt | heq' | hlt
    · have hrat : (y.significand : ℚ) + 1 ≤ x.significand := by exact_mod_cast hlt
      have := x.gapBelow_le
      exact .inr (.inr (by nlinarith))
    · exact .inl (by rw [heq'])
    · have hrat : (x.significand : ℚ) + 1 ≤ y.significand := by exact_mod_cast hlt
      exact .inr (.inl (by nlinarith))
  · -- a higher binade starts where this one would end
    refine .inr (.inl ?_)
    have hfield : 1 ≤ y.exponentField := by
      unfold exponent at hlt
      omega
    have hrat : (2 ^ 52 : ℚ) ≤ y.significand := by exact_mod_cast le_significand hfield
    have hplace : 2 * (2 : ℚ) ^ x.exponent ≤ 2 ^ y.exponent := by
      rw [mul_comm, ← zpow_add_one₀ (by norm_num)]
      exact zpow_le_zpow_right₀ (by norm_num) (by omega)
    have := hfull x
    nlinarith

/-- The fields of a double in the form in which a significand is added to an exponent. -/
theorem fields_eq (x : Binary64) : (max x.exponentField 1 - 1) * 2 ^ 52 + x.significand =
    x.exponentField * 2 ^ 52 + x.fraction := by
  unfold significand
  split <;> omega

theorem exponent_eq (x : Binary64) : ((max x.exponentField 1 - 1 : Nat) : Int) - 1074 = x.exponent := by
  unfold exponent
  omega

/-- **The gap above a double ends at a double,** unless the double is the largest. -/
theorem exists_next {x : Binary64} (hx : x.isFinite) :
    (∃ y : Binary64, y.isFinite ∧ y.magnitude = x.magnitude + 2 ^ x.exponent) ∨
      overflow = x.magnitude + 2 ^ x.exponent / 2 ∧ x.significand % 2 = 1 := by
  have hfield := exponentField_lt hx
  have hfraction := x.fraction_lt
  have hsignificand := x.significand_lt
  by_cases hlast : x.exponentField * 2 ^ 52 + x.fraction + 1 < 2047 * 2 ^ 52
  · have hlt : (max x.exponentField 1 - 1) * 2 ^ 52 + (x.significand + 1) < 2047 * 2 ^ 52 := by
      rw [← Nat.add_assoc, x.fields_eq]
      exact hlast
    refine .inl ⟨_, isFinite_ofFields false hlt, ?_⟩
    have hbinade : max x.exponentField 1 - 1 = 0 ∨ 2 ^ 52 ≤ x.significand + 1 := by
      by_cases hone : 1 ≤ x.exponentField
      · exact .inr ((le_significand hone).trans (Nat.le_succ _))
      · exact .inl (by omega)
    rw [magnitude_ofFields false (by omega) hbinade hlt, x.exponent_eq, magnitude]
    push_cast
    ring
  · -- the largest finite double
    have htop : x.exponentField = 2046 ∧ x.fraction = 2 ^ 52 - 1 := by omega
    have hexponent : x.exponent = 971 := by
      rw [exponent, htop.1]
      rfl
    have hfull : x.significand = 2 ^ 53 - 1 := by
      rw [significand, htop.1, htop.2]
      rfl
    refine .inr ⟨?_, by omega⟩
    rw [overflow, magnitude, hexponent, hfull]
    generalize (2 : ℚ) ^ (971 : Int) = place
    push_cast
    ring

/-- **The gap below a double ends at a double.** -/
theorem exists_previous {x : Binary64} (hx : x.isFinite) (hz : ¬ x.isZero) :
    ∃ y : Binary64, y.isFinite ∧ y.magnitude = x.magnitude - x.gapBelow := by
  have hfield := exponentField_lt hx
  have hfraction := x.fraction_lt
  have hsignificand := x.significand_lt
  have hpos := significand_pos hz
  have hfields := x.fields_eq
  by_cases hpower : x.fraction = 0 ∧ 1 < x.exponentField
  · -- the binade below is full
    have hlt : (x.exponentField - 2) * 2 ^ 52 + (2 ^ 53 - 1) < 2047 * 2 ^ 52 := by omega
    refine ⟨_, isFinite_ofFields false hlt, ?_⟩
    have hplace : ((x.exponentField - 2 : Nat) : Int) - 1074 = x.exponent - 1 := by
      unfold exponent
      omega
    rw [magnitude_ofFields false (by omega) (.inr (by omega)) hlt, hplace, zpow_sub_one₀ (by norm_num), magnitude,
      gapBelow, if_pos hpower, significand_of_power hpower.1 hpower.2]
    push_cast
    ring
  · have hlt : (max x.exponentField 1 - 1) * 2 ^ 52 + (x.significand - 1) < 2047 * 2 ^ 52 := by omega
    refine ⟨_, isFinite_ofFields false hlt, ?_⟩
    have hbinade : max x.exponentField 1 - 1 = 0 ∨ 2 ^ 52 ≤ x.significand - 1 := by
      by_cases hone : 1 < x.exponentField
      · right
        rw [significand, if_neg (by omega)]
        omega
      · exact .inl (by omega)
    rw [magnitude_ofFields false (by omega) hbinade hlt, x.exponent_eq, magnitude, gapBelow, if_neg hpower,
      Nat.cast_sub hpos]
    push_cast
    ring

/-! ## The interval of a double -/

section Interval

variable {x : Binary64} {r : ℚ}

theorem low_mul_unit (hz : ¬ x.isZero) : (Interval.ofBinary64 x).low * (Interval.ofBinary64 x).unit =
    x.magnitude - x.gapBelow / 2 := by
  rw [unit_ofBinary64, low_ofBinary64 hz, magnitude, gapBelow]
  split <;> ring

theorem high_mul_unit (x : Binary64) : (Interval.ofBinary64 x).high * (Interval.ofBinary64 x).unit =
    x.magnitude + 2 ^ x.exponent / 2 := by
  rw [unit_ofBinary64, Interval.ofBinary64, magnitude]
  push_cast
  ring

/-- A number in the interval of a double lies at most half way to the doubles beside it, and just half way
only if the significand is even. -/
theorem contains_iff (hz : ¬ x.isZero) : (Interval.ofBinary64 x).Contains r ↔
    (x.magnitude - x.gapBelow / 2 ≤ r ∧ r ≤ x.magnitude + 2 ^ x.exponent / 2) ∧
      (r = x.magnitude - x.gapBelow / 2 ∨ r = x.magnitude + 2 ^ x.exponent / 2 → x.significand % 2 = 0) := by
  have hclosed : (Interval.ofBinary64 x).closed = true ↔ x.significand % 2 = 0 := decide_eq_true_iff
  rw [Interval.Contains, low_mul_unit hz, high_mul_unit]
  by_cases heven : x.significand % 2 = 0
  · rw [if_pos (hclosed.2 heven)]
    exact ⟨fun h => ⟨h, fun _ => heven⟩, fun h => h.1⟩
  · rw [if_neg (mt hclosed.1 heven)]
    constructor
    · rintro ⟨hlow, hhigh⟩
      exact ⟨⟨hlow.le, hhigh.le⟩, fun h => h.elim (absurd · hlow.ne') (absurd · hhigh.ne)⟩
    · rintro ⟨⟨hlow, hhigh⟩, hends⟩
      exact ⟨lt_of_le_of_ne hlow fun h => heven (hends (.inl h.symm)),
        lt_of_le_of_ne hhigh fun h => heven (hends (.inr h))⟩

/-- The magnitudes of finite doubles stay below the overflow by half a gap. -/
theorem add_le_overflow (hx : x.isFinite) : x.magnitude + 2 ^ x.exponent / 2 ≤ overflow := by
  have hplace : (2 : ℚ) ^ x.exponent ≤ 2 ^ (971 : Int) := by
    refine zpow_le_zpow_right₀ (by norm_num) ?_
    have := exponentField_lt hx
    unfold exponent
    omega
  have hfull : (x.significand : ℚ) + 1 ≤ 2 ^ 53 := by exact_mod_cast x.significand_lt
  calc x.magnitude + 2 ^ x.exponent / 2 = (x.significand + 1 / 2) * 2 ^ x.exponent := by
        rw [magnitude]
        ring
    _ ≤ (2 ^ 53 - 1 / 2) * 2 ^ (971 : Int) := by
        refine mul_le_mul (by linarith) hplace (by positivity) (by norm_num)

/-- **A number in the interval of a double is rounded to the double.** -/
theorem isNearestTo_of_contains (hx : x.isFinite) (hz : ¬ x.isZero)
    (h : (Interval.ofBinary64 x).Contains r) : x.IsNearestTo r := by
  obtain ⟨⟨hlow, hhigh⟩, hends⟩ := (contains_iff hz).1 h
  have hgap := x.gapBelow_pos
  have hplace : (0 : ℚ) < 2 ^ x.exponent := by positivity
  have habove {t : ℚ} (ht : x.magnitude + 2 ^ x.exponent ≤ t) : |r - t| = t - r := by
    rw [abs_sub_comm, abs_of_nonneg (by linarith)]
  have hbelow {t : ℚ} (ht : t ≤ x.magnitude - x.gapBelow) : |r - t| = r - t := abs_of_nonneg (by linarith)
  refine ⟨hx, ?_, fun y _ => ?_, fun y _ hne heq => ?_⟩
  · rcases exists_next hx with ⟨y, hy, hnext⟩ | ⟨hover, hodd⟩
    · have hy' : (0 : ℚ) < 2 ^ y.exponent := by positivity
      linarith [add_le_overflow hy]
    · rw [hover]
      refine lt_of_le_of_ne hhigh fun hend => ?_
      have := hends (.inr hend)
      omega
  · rcases magnitude_gaps x y with heq | hup | hdown
    · rw [heq]
    · rw [habove hup, abs_le]
      constructor <;> linarith
    · rw [hbelow hdown, abs_le]
      constructor <;> linarith
  · rcases magnitude_gaps x y with heq' | hup | hdown
    · exact absurd heq' hne
    · rw [habove hup] at heq
      rcases abs_choice (r - x.magnitude) with habs | habs <;> rw [habs] at heq
      · exact hends (.inr (by linarith))
      · exact absurd (by linarith) hne
    · rw [hbelow hdown] at heq
      rcases abs_choice (r - x.magnitude) with habs | habs <;> rw [habs] at heq
      · exact absurd (by linarith) hne
      · exact hends (.inl (by linarith))

/-- **Only the numbers in the interval of a double are rounded to the double.** -/
theorem IsNearestTo.contains (hz : ¬ x.isZero) (h : x.IsNearestTo r) : (Interval.ofBinary64 x).Contains r := by
  have hgap := x.gapBelow_pos
  have hplace : (0 : ℚ) < 2 ^ x.exponent := by positivity
  obtain ⟨y, hy, hprevious⟩ := exists_previous h.finite hz
  -- a number beyond the middle of a gap would be nearer to the double at the gap's end
  have hlow : x.magnitude - x.gapBelow / 2 ≤ r := by
    by_contra hlt
    have hnear := h.nearest y hy
    rw [hprevious, abs_of_neg (by linarith : r - x.magnitude < 0), le_abs] at hnear
    rcases hnear with hnear | hnear <;> linarith
  have hhigh : r ≤ x.magnitude + 2 ^ x.exponent / 2 := by
    rcases exists_next h.finite with ⟨z, hz', hnext⟩ | ⟨hover, -⟩
    · by_contra hlt
      have hnear := h.nearest z hz'
      rw [hnext, abs_of_pos (by linarith : 0 < r - x.magnitude), le_abs] at hnear
      rcases hnear with hnear | hnear <;> linarith
    · exact hover ▸ h.lt_overflow.le
  refine (contains_iff hz).2 ⟨⟨hlow, hhigh⟩, ?_⟩
  rintro (hend | hend)
  · refine h.even y hy (by linarith) ?_
    rw [hprevious, hend, abs_of_pos (by linarith), abs_of_neg (by linarith)]
    ring
  · rcases exists_next h.finite with ⟨z, hz', hnext⟩ | ⟨hover, -⟩
    · refine h.even z hz' (by linarith) ?_
      rw [hnext, hend, abs_of_neg (by linarith), abs_of_pos (by linarith)]
      ring
    · exact absurd h.lt_overflow (by rw [hover, hend]; exact lt_irrefl _)

end Interval

end Binary64
end ShaderAlgebra
