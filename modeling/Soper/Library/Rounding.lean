import Mathlib.Algebra.Order.Field.Power
import Mathlib.Data.Int.Log
import Mathlib.Data.Rat.Floor
import Mathlib.Tactic.Linarith
import Mathlib.Tactic.FieldSimp
import Mathlib.Tactic.Positivity
import Mathlib.Tactic.Ring

/-!
# Rounding to a binary significand

Floating-point arithmetic of the IEEE kind, read over the rationals: the result of an operation
is the exact one, rounded to the nearest number with `p` significant bits, ties to the even
significand (`roundTo p`). The range of exponents is unbounded, so overflow and subnormal numbers
do not occur; `roundTo 53` is the arithmetic of `double` away from both.

Programs that compute bounds of integer ranges need five facts: a number with a short
significand is not rounded (`roundTo_eq_self`), rounding stays between the powers of two around
its argument (`roundTo_bounds`) and is monotone (`roundTo_mono`), its relative error is at most
`2 ^ (-p)` (`abs_roundTo_sub_le`), and taking one from a rounded number is exact as long as its
unit in the last place is at most one (`roundTo_sub_one`).
-/

namespace Rounding

/-- The nearest integer; halfway between two, the even one. -/
def tiesToEven (q : ℚ) : ℤ :=
  if q - ⌊q⌋ < 1 / 2 then ⌊q⌋
  else if 1 / 2 < q - ⌊q⌋ then ⌊q⌋ + 1
  else if ⌊q⌋ % 2 = 0 then ⌊q⌋
  else ⌊q⌋ + 1

/-- The exponent of the unit in the last place of a significand of `p` bits. -/
def ulpExp (p : ℕ) (q : ℚ) : ℤ := Int.log 2 |q| + 1 - p

/-- The nearest number with `p` significant bits; halfway between two, the one whose significand
is even. -/
def roundTo (p : ℕ) (q : ℚ) : ℚ := tiesToEven (q / 2 ^ ulpExp p q) * 2 ^ ulpExp p q

/-- Rounding toward zero, as a conversion to an integer type does. -/
def truncate (q : ℚ) : ℤ := if 0 ≤ q then ⌊q⌋ else ⌈q⌉

variable {p : ℕ} {q r : ℚ}

/-! ### To the nearest integer -/

@[simp]
theorem tiesToEven_intCast (z : ℤ) : tiesToEven z = z := by
  simp [tiesToEven]

theorem le_tiesToEven {z : ℤ} (h : (z : ℚ) ≤ q) : z ≤ tiesToEven q := by
  have hfloor : z ≤ ⌊q⌋ := Int.le_floor.mpr h
  unfold tiesToEven
  split_ifs <;> omega

theorem tiesToEven_le {z : ℤ} (h : q ≤ z) : tiesToEven q ≤ z := by
  have hfloor : ⌊q⌋ ≤ z := by exact_mod_cast (Int.floor_le q).trans h
  rcases hfloor.lt_or_eq with hlt | heq
  · unfold tiesToEven
    split_ifs <;> omega
  · -- the floor is `z` only for `q = z`, which is not rounded
    have hq : q = z := le_antisymm h (by rw [← heq]; exact Int.floor_le q)
    rw [hq, tiesToEven_intCast]

theorem tiesToEven_mono (h : q ≤ r) : tiesToEven q ≤ tiesToEven r := by
  have hfloor : ⌊q⌋ ≤ ⌊r⌋ := Int.floor_mono h
  rcases hfloor.lt_or_eq with hlt | heq
  · -- each of the two is one of the neighbours of its argument
    unfold tiesToEven
    split_ifs <;> omega
  · unfold tiesToEven
    rw [heq]
    split_ifs <;> first | omega | (exfalso; linarith)

/-- The error is at most one half. -/
theorem abs_tiesToEven_sub_le (q : ℚ) : |(tiesToEven q : ℚ) - q| ≤ 1 / 2 := by
  have hlow := Int.floor_le q
  have hhigh := Int.lt_floor_add_one q
  unfold tiesToEven
  rw [abs_le]
  split_ifs <;> push_cast <;> constructor <;> linarith

/-! ### To a significand of `p` bits -/

/-- Below `2 ^ p` the unit in the last place is at most one. -/
theorem ulpExp_nonpos (hq : 0 < q) (h : q < 2 ^ (p : ℤ)) : ulpExp p q ≤ 0 := by
  have hlog : Int.log 2 q < p :=
    (Int.lt_zpow_iff_log_lt (by norm_num) hq).mp (by simpa only [Nat.cast_ofNat] using h)
  rw [ulpExp, abs_of_pos hq]
  omega

/-- A scaled argument has `p` bits before the point. -/
theorem scaled_bounds (hq : 0 < q) :
    (2 : ℚ) ^ ((p : ℤ) - 1) ≤ q / 2 ^ ulpExp p q ∧ q / 2 ^ ulpExp p q ≤ (2 : ℚ) ^ (p : ℤ) := by
  have hpow : (0 : ℚ) < 2 ^ ulpExp p q := by positivity
  have hlow := Int.zpow_log_le_self (b := 2) (by norm_num) hq
  have hhigh := Int.lt_zpow_succ_log_self (b := 2) (by norm_num) q
  push_cast at hlow hhigh
  constructor
  · rw [le_div_iff₀ hpow, ← zpow_add₀ (by norm_num), ulpExp, abs_of_pos hq]
    refine le_trans (le_of_eq ?_) hlow
    congr 1
    ring
  · rw [div_le_iff₀ hpow, ← zpow_add₀ (by norm_num), ulpExp, abs_of_pos hq]
    refine hhigh.le.trans (le_of_eq ?_)
    congr 1
    ring

/-- Rounding a positive number stays between the powers of two around it. -/
theorem roundTo_bounds (hp : 0 < p) (hq : 0 < q) :
    (2 : ℚ) ^ Int.log 2 q ≤ roundTo p q ∧ roundTo p q ≤ (2 : ℚ) ^ (Int.log 2 q + 1) := by
  have hpow : (0 : ℚ) < 2 ^ ulpExp p q := by positivity
  obtain ⟨hlow, hhigh⟩ := scaled_bounds (p := p) hq
  obtain ⟨k, rfl⟩ : ∃ k, p = k + 1 := ⟨p - 1, by omega⟩
  -- both bounds of the scaled argument are integers, so rounding respects them
  have hlow' : ((2 ^ k : ℤ) : ℚ) ≤ q / 2 ^ ulpExp (k + 1) q := by
    refine le_trans (le_of_eq ?_) hlow
    push_cast
    rw [add_sub_cancel_right, zpow_natCast]
  have hhigh' : q / 2 ^ ulpExp (k + 1) q ≤ ((2 ^ (k + 1) : ℤ) : ℚ) := by
    refine hhigh.trans (le_of_eq ?_)
    rw [zpow_natCast]
    norm_cast
  have hr : ((2 ^ k : ℤ) : ℚ) ≤ (tiesToEven (q / 2 ^ ulpExp (k + 1) q) : ℚ) :=
    Int.cast_le.mpr (le_tiesToEven hlow')
  have hr' : (tiesToEven (q / 2 ^ ulpExp (k + 1) q) : ℚ) ≤ ((2 ^ (k + 1) : ℤ) : ℚ) :=
    Int.cast_le.mpr (tiesToEven_le hhigh')
  constructor
  · calc (2 : ℚ) ^ Int.log 2 q = ((2 ^ k : ℤ) : ℚ) * 2 ^ ulpExp (k + 1) q := by
          push_cast
          rw [← zpow_natCast, ← zpow_add₀ (by norm_num), ulpExp, abs_of_pos hq]
          congr 1
          push_cast
          ring
      _ ≤ roundTo (k + 1) q := mul_le_mul_of_nonneg_right hr hpow.le
  · calc roundTo (k + 1) q ≤ ((2 ^ (k + 1) : ℤ) : ℚ) * 2 ^ ulpExp (k + 1) q :=
          mul_le_mul_of_nonneg_right hr' hpow.le
      _ = (2 : ℚ) ^ (Int.log 2 q + 1) := by
          push_cast
          rw [← zpow_natCast, ← zpow_add₀ (by norm_num), ulpExp, abs_of_pos hq]
          congr 1
          push_cast
          ring

/-- **Relative error.** -/
theorem abs_roundTo_sub_le (hq : 0 < q) : |roundTo p q - q| ≤ q / 2 ^ p := by
  have hpow : (0 : ℚ) < 2 ^ ulpExp p q := by positivity
  -- the significand has `p` bits, so the argument is at least `2 ^ (p - 1)` units
  have hunit : (2 : ℚ) ^ ulpExp p q * 2 ^ ((p : ℤ) - 1) ≤ q := by
    rw [mul_comm, ← le_div_iff₀ hpow]
    exact (scaled_bounds hq).1
  calc |roundTo p q - q|
      = |(tiesToEven (q / 2 ^ ulpExp p q) : ℚ) - q / 2 ^ ulpExp p q| * 2 ^ ulpExp p q := by
        rw [← abs_of_pos hpow, ← abs_mul, abs_of_pos hpow, sub_mul, div_mul_cancel₀ _ hpow.ne']
        rfl
    _ ≤ 1 / 2 * 2 ^ ulpExp p q :=
        mul_le_mul_of_nonneg_right (abs_tiesToEven_sub_le _) hpow.le
    _ = 2 ^ ulpExp p q * 2 ^ ((p : ℤ) - 1) / 2 ^ p := by
        rw [zpow_sub₀ (by norm_num), zpow_natCast]
        field_simp
    _ ≤ q / 2 ^ p := div_le_div_of_nonneg_right hunit (by positivity)

theorem one_le_roundTo (hp : 0 < p) (hq : 1 ≤ q) : 1 ≤ roundTo p q := by
  have hlog : 0 ≤ Int.log 2 q := by
    rw [← Int.zpow_le_iff_le_log (by norm_num) (by linarith)]
    simpa using hq
  exact (one_le_zpow₀ (by norm_num) hlog).trans (roundTo_bounds hp (by linarith)).1

/-- **Monotonicity.** -/
theorem roundTo_mono (hp : 0 < p) (hq : 0 < q) (h : q ≤ r) : roundTo p q ≤ roundTo p r := by
  have hr : 0 < r := hq.trans_le h
  rcases (Int.log_mono_right (b := 2) hq h).lt_or_eq with hlt | heq
  -- a power of two lies between the arguments
  · calc roundTo p q ≤ 2 ^ (Int.log 2 q + 1) := (roundTo_bounds hp hq).2
      _ ≤ 2 ^ Int.log 2 r := zpow_le_zpow_right₀ (by norm_num) hlt
      _ ≤ roundTo p r := (roundTo_bounds hp hr).1
  -- both are rounded to the same unit
  · have hulp : ulpExp p q = ulpExp p r := by
      rw [ulpExp, ulpExp, abs_of_pos hq, abs_of_pos hr, heq]
    have hpow : (0 : ℚ) < 2 ^ ulpExp p r := by positivity
    have hscaled : q / 2 ^ ulpExp p r ≤ r / 2 ^ ulpExp p r :=
      div_le_div_of_nonneg_right h hpow.le
    rw [roundTo, roundTo, hulp]
    exact mul_le_mul_of_nonneg_right (Int.cast_le.mpr (tiesToEven_mono hscaled)) hpow.le

@[simp]
theorem roundTo_zero : roundTo p 0 = 0 := by
  simp [roundTo, tiesToEven]

/-- **Short significands are exact.** -/
theorem roundTo_eq_self {k e : ℤ} (hk : |k| < 2 ^ p) (hq : q = k * 2 ^ e) : roundTo p q = q := by
  rcases eq_or_ne q 0 with rfl | hne
  · exact roundTo_zero
  have hpos : 0 < |q| := abs_pos.mpr hne
  have hle : ulpExp p q ≤ e := by
    have hlt : |q| < 2 ^ (p + e) := by
      rw [hq, abs_mul, abs_of_pos (by positivity : (0 : ℚ) < 2 ^ e), zpow_add₀ (by norm_num),
        zpow_natCast]
      exact mul_lt_mul_of_pos_right (by exact_mod_cast hk) (by positivity)
    have hlog := (Int.lt_zpow_iff_log_lt (b := 2) (by norm_num) hpos).mp (by exact_mod_cast hlt)
    unfold ulpExp
    omega
  -- scaled, the number is an integer
  have hscaled : q / 2 ^ ulpExp p q = ((k * 2 ^ (e - ulpExp p q).toNat : ℤ) : ℚ) := by
    have hexp : ((e - ulpExp p q).toNat : ℤ) = e - ulpExp p q := Int.toNat_of_nonneg (by omega)
    push_cast
    rw [← zpow_natCast, hexp, zpow_sub₀ (by norm_num), ← mul_div_assoc, ← hq]
  rw [roundTo, hscaled, tiesToEven_intCast, ← hscaled]
  exact div_mul_cancel₀ q (by positivity)

/-- **Taking one is exact** from a rounded number of at least one, as long as the unit in the
last place does not exceed one. -/
theorem roundTo_sub_one (hq : 0 < q) (hulp : ulpExp p q ≤ 0)
    (hone : 1 ≤ roundTo p q) : roundTo p (roundTo p q - 1) = roundTo p q - 1 := by
  set k := tiesToEven (q / 2 ^ ulpExp p q) with hk
  set d := (-ulpExp p q).toNat with hd
  have hpow : (0 : ℚ) < 2 ^ ulpExp p q := by positivity
  have hinv : ((2 ^ d : ℤ) : ℚ) * 2 ^ ulpExp p q = 1 := by
    push_cast
    rw [← zpow_natCast, ← zpow_add₀ (by norm_num), hd, Int.toNat_of_nonneg (by omega)]
    simp
  -- one is a whole number of units, so the difference is a shorter significand
  have hval : roundTo p q - 1 = ((k - 2 ^ d : ℤ) : ℚ) * 2 ^ ulpExp p q := by
    rw [Int.cast_sub, sub_mul, hinv]
    rfl
  refine roundTo_eq_self ?_ hval
  have hlow : 2 ^ d ≤ k := by
    have : ((2 ^ d : ℤ) : ℚ) * 2 ^ ulpExp p q ≤ (k : ℚ) * 2 ^ ulpExp p q := by
      rw [hinv]
      exact hone
    exact_mod_cast le_of_mul_le_mul_right this hpow
  have hhigh : k ≤ 2 ^ p := by
    refine tiesToEven_le ((scaled_bounds hq).2.trans (le_of_eq ?_))
    rw [zpow_natCast]
    norm_cast
  have hpos : (0 : ℤ) < 2 ^ d := by positivity
  rw [abs_of_nonneg (by omega)]
  omega

/-! ### Truncation -/

theorem truncate_of_nonneg (hq : 0 ≤ q) : truncate q = ⌊q⌋ := if_pos hq

theorem truncate_mono (hq : 0 ≤ q) (h : q ≤ r) : truncate q ≤ truncate r := by
  rw [truncate_of_nonneg hq, truncate_of_nonneg (hq.trans h)]
  exact Int.floor_mono h

theorem truncate_sub_one (hq : 1 ≤ q) : truncate (q - 1) = truncate q - 1 := by
  rw [truncate_of_nonneg (by linarith), truncate_of_nonneg (by linarith), Int.floor_sub_one]

end Rounding
