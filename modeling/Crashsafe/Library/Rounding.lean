import Mathlib

/- Rounding to a grid whose step may grow with the number that is rounded, as the doubles do. -/
namespace Rounding

/-- What any rounding to an integer has: it keeps the order and it keeps integers. -/
structure RoundsIntegers (round : ℚ → ℤ) : Prop where
  mono : Monotone round
  fixes : ∀ n : ℤ, round n = n

/-- The multiple of the step at `q` that `q` is rounded to. -/
def onGrid (round : ℚ → ℤ) (step : ℚ → ℚ) (q : ℚ) : ℚ := round (q / step q) * step q

variable {round : ℚ → ℤ} {step : ℚ → ℚ} {p q m : ℚ}

section Grid
variable (rounds : RoundsIntegers round)
include rounds

theorem grid_nonneg (positive : 0 < step q) (nonneg : 0 ≤ q) : 0 ≤ onGrid round step q := by
  have above := rounds.mono (div_nonneg nonneg positive.le)
  have zero := rounds.fixes 0
  rw [Int.cast_zero] at zero
  rw [zero] at above
  exact mul_nonneg (Int.cast_nonneg above) positive.le

theorem grid_le (positive : 0 < step p) (le : p ≤ m) {n : ℤ} (multiple : m = n * step p) :
    onGrid round step p ≤ m := by
  have below : round (p / step p) ≤ n := by
    rw [← rounds.fixes n]
    refine rounds.mono ((div_le_iff₀ positive).mpr ?_)
    rwa [← multiple]
  rw [multiple]
  exact mul_le_mul_of_nonneg_right (Int.cast_le.mpr below) positive.le

theorem le_grid (positive : 0 < step q) (le : m ≤ q) {n : ℤ} (multiple : m = n * step q) :
    m ≤ onGrid round step q := by
  have above : n ≤ round (q / step q) := by
    rw [← rounds.fixes n]
    refine rounds.mono ((le_div_iff₀ positive).mpr ?_)
    rwa [← multiple]
  rw [multiple]
  exact mul_le_mul_of_nonneg_right (Int.cast_le.mpr above) positive.le

theorem grid_same_step (positive : 0 < step q) (same : step p = step q) (le : p ≤ q) :
    onGrid round step p ≤ onGrid round step q := by
  unfold onGrid
  rw [same]
  refine mul_le_mul_of_nonneg_right (Int.cast_le.mpr (rounds.mono ?_)) positive.le
  exact div_le_div_of_nonneg_right le positive.le

/-- Rounding to a fixed number of binary digits, with a least exponent, keeps the order: numbers
    of one exponent have one step, and the power of two between two exponents is on both grids. -/
theorem binary_grid_mono {exponent : ℚ → ℤ}
    (spec : ∀ x, 0 < x → (2 : ℚ) ^ exponent x ≤ x ∧ x < 2 ^ (exponent x + 1)) (least : ℤ)
    (digits : ℕ) (positive : 0 < p) (le : p ≤ q) :
    onGrid round (fun x => 2 ^ (max (exponent x) least - digits)) p ≤
      onGrid round (fun x => 2 ^ (max (exponent x) least - digits)) q := by
  have below := spec p positive
  have above := spec q (positive.trans_le le)
  have power : ∀ e : ℤ, (0 : ℚ) < 2 ^ e := fun e => zpow_pos two_pos e
  have rises : exponent p ≤ exponent q := by
    have between : (2 : ℚ) ^ exponent p < 2 ^ (exponent q + 1) := below.1.trans_lt (le.trans_lt above.2)
    have exponents := (zpow_lt_zpow_iff_right₀ one_lt_two).mp between
    omega
  by_cases same : max (exponent p) least = max (exponent q) least
  · exact grid_same_step rounds (power _) (by rw [same]) le
  · have further : max (exponent p) least + 1 ≤ exponent q := by omega
    have multiple : ∀ e : ℤ, e - digits ≤ exponent q →
        (2 : ℚ) ^ exponent q = ((2 ^ (exponent q - (e - digits)).toNat : ℤ) : ℚ) * 2 ^ (e - digits) := by
      intro e small
      rw [Int.cast_pow, Int.cast_ofNat, ← zpow_natCast, ← zpow_add₀ two_ne_zero]
      congr 1
      omega
    have under : p ≤ (2 : ℚ) ^ exponent q :=
      below.2.le.trans (zpow_le_zpow_right₀ one_le_two (by omega))
    calc onGrid round (fun x => 2 ^ (max (exponent x) least - digits)) p
        ≤ 2 ^ exponent q := grid_le rounds (power _) under (multiple _ (by omega))
      _ ≤ onGrid round (fun x => 2 ^ (max (exponent x) least - digits)) q :=
        le_grid rounds (power _) above.1 (multiple _ (by omega))

end Grid

end Rounding
