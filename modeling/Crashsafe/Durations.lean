import Crashsafe.Observability
import Crashsafe.Library.Rounding

/- Durations in milliseconds. The seconds, the product and the result are each rounded, and every
   rounding keeps the order. -/
namespace Crashsafe
open Rounding

variable {p q : Rat}

theorem round_half_even_bounds (q : Rat) : q.floor ≤ roundHalfEven q ∧ roundHalfEven q ≤ q.floor + 1 := by
  simp only [roundHalfEven]
  split
  · omega
  · split
    · omega
    · split <;> omega

theorem round_half_even_mono : Monotone roundHalfEven := by
  intro p q le
  have floors := Rat.floor_monotone le
  rcases floors.lt_or_eq with lt | same
  · have below := (round_half_even_bounds p).2
    have above := (round_half_even_bounds q).1
    omega
  · -- With one floor, the number with the larger rest is rounded up if the other one is.
    have rests : p - p.floor ≤ q - q.floor := by
      rw [same]
      exact sub_le_sub_right le _
    simp only [roundHalfEven, same] at rests ⊢
    split
    · split
      · exact le_rfl
      · split
        · omega
        · split <;> omega
    · rename_i half
      rw [if_neg (not_lt.mpr ((not_lt.mp half).trans rests))]
      split
      · rename_i more
        rw [if_pos (more.trans_le rests)]
      · split
        · split <;> omega
        · split <;> omega

theorem round_half_even_rounds : RoundsIntegers roundHalfEven where
  mono := round_half_even_mono
  fixes n := by simp [roundHalfEven, Rat.floor_intCast]

theorem log2_bounds {n : Nat} (positive : 0 < n) :
    (2 : Rat) ^ (Nat.log2 n : Int) ≤ n ∧ (n : Rat) < 2 ^ ((Nat.log2 n : Int) + 1) := by
  have low : 2 ^ Nat.log2 n ≤ n := Nat.log2_self_le (by omega)
  have high : n < 2 ^ (Nat.log2 n + 1) := Nat.lt_log2_self
  constructor
  · rw [zpow_natCast]
    exact_mod_cast low
  · rw [← Nat.cast_succ, zpow_natCast]
    exact_mod_cast high

theorem floor_log2_spec (q : Rat) (positive : 0 < q) :
    (2 : Rat) ^ floorLog2 q ≤ q ∧ q < 2 ^ (floorLog2 q + 1) := by
  have num : ((q.num.natAbs : Int) : Rat) = q.num := by
    rw [Int.natAbs_of_nonneg (Rat.num_nonneg.mpr positive.le)]
  have quotient : q = (q.num.natAbs : Rat) / q.den := by
    rw [← Int.cast_natCast, num, Rat.num_div_den]
  have numerator := log2_bounds (Int.natAbs_pos.mpr (Rat.num_pos.mpr positive).ne')
  have denominator := log2_bounds q.den_pos
  generalize exponent : (Nat.log2 q.num.natAbs : Int) - Nat.log2 q.den = e
  have power : ∀ i : Int, (0 : Rat) < 2 ^ i := fun i => zpow_pos two_pos i
  have low : (2 : Rat) ^ (e - 1) ≤ q.num.natAbs / q.den := by
    rw [show e - 1 = Nat.log2 q.num.natAbs - (Nat.log2 q.den + 1 : Int) by omega, zpow_sub₀ two_ne_zero]
    exact div_le_div₀ (Nat.cast_nonneg _) numerator.1 (Nat.cast_pos.mpr q.den_pos) denominator.2.le
  have high : (q.num.natAbs / q.den : Rat) < 2 ^ (e + 1) := by
    rw [show e + 1 = (Nat.log2 q.num.natAbs + 1 : Int) - Nat.log2 q.den by omega, zpow_sub₀ two_ne_zero]
    exact div_lt_div₀ numerator.2 denominator.1 (power _).le (power _)
  rw [← quotient] at low high
  simp only [floorLog2, exponent, abs_of_pos positive]
  split
  · rename_i reached
    exact ⟨reached, high⟩
  · rename_i short
    rw [sub_add_cancel]
    exact ⟨low, not_le.mp short⟩

theorem nearest_double_nonneg (nonneg : 0 ≤ q) : 0 ≤ nearestDouble q := by
  have grid : 0 ≤ onGrid roundHalfEven (fun x => 2 ^ (max (floorLog2 x) (-1022) - 52)) q :=
    grid_nonneg round_half_even_rounds (zpow_pos two_pos _) nonneg
  exact grid

theorem nearest_double_mono (nonneg : 0 ≤ p) (le : p ≤ q) : nearestDouble p ≤ nearestDouble q := by
  rcases nonneg.lt_or_eq with positive | rfl
  · exact binary_grid_mono round_half_even_rounds floor_log2_spec (-1022) 52 positive le
  · have zero : nearestDouble 0 = 0 := by decide +kernel
    rw [zero]
    exact nearest_double_nonneg le

theorem milliseconds_mono {a b : Int} (nonneg : 0 ≤ a) (le : a ≤ b) : milliseconds a ≤ milliseconds b := by
  have seconds : (0 : Rat) ≤ a / 1000000 := div_nonneg (Int.cast_nonneg nonneg) (by norm_num)
  have longer : (a / 1000000 : Rat) ≤ b / 1000000 :=
    div_le_div_of_nonneg_right (Int.cast_le.mpr le) (by norm_num)
  refine round_half_even_mono (nearest_double_mono ?_ ?_)
  · exact mul_nonneg (nearest_double_nonneg seconds) (by norm_num)
  · exact mul_le_mul_of_nonneg_right (nearest_double_mono seconds longer) (by norm_num)

theorem milliseconds_nonneg {a : Int} (nonneg : 0 ≤ a) : 0 ≤ milliseconds a := by
  have zero : milliseconds 0 = 0 := by decide +kernel
  rw [← zero]
  exact milliseconds_mono le_rfl nonneg

end Crashsafe
