import Mathlib.Tactic.NormNum
import Soper.Library.Rounding
import Soper.Library.Scan
import Soper.Pow

/-!
# The ranges of the threads

`manage_threads` of the final project divides `[0, POW_LIMIT)` in floating point: the `i`-th
thread searches from `(int)((POW_LIMIT / (double)n_threads) * i)` to
`(int)(((POW_LIMIT / (double)n_threads) * (i + 1)) - 1)`. Each operation is rounded to the 53
bits of a `double`, each conversion truncates.

For any number of threads up to `POW_LIMIT`, the rounded products stay within one half of the
exact ones at the end (`abs_cociente_mul_sub_le`), and taking one from them is exact. So each
range ends where the next one begins (`rangoMax_eq`), and together they reach the limit or one
below it (`rangoMin_self_bounds`). Of the hundred thread counts the program admits, four fall
short, and the last nonce belongs to no thread (`rangoMin_self`).
-/

namespace Soper.Proyecto

open Rounding (roundTo truncate)

/-- `#define MAX_THREADS 100`. -/
def MAX_THREADS : ℕ := 100

/-- The result of an operation on `double`. -/
def double (q : ℚ) : ℚ := roundTo 53 q

/-- `POW_LIMIT / (double)n_threads`. -/
def cociente (n : ℕ) : ℚ := double (POW_LIMIT / n)

/-- `busqueda[i].min`. -/
def rangoMin (n i : ℕ) : ℤ := truncate (double (cociente n * i))

/-- `busqueda[i].max`. -/
def rangoMax (n i : ℕ) : ℤ := truncate (double (double (cociente n * (i + 1)) - 1))

/-- The thread counts whose ranges miss the last nonce. -/
def cuentasCortas : List ℕ := [37, 43, 74, 86]

variable {n i j : ℕ}

theorem le_limit_of_le_maxThreads (hn : n ≤ MAX_THREADS) : (n : ℤ) ≤ POW_LIMIT := by
  simp only [MAX_THREADS, POW_LIMIT] at hn ⊢
  omega

/-! ### The rounded quotient -/

/-- There are at most as many threads as nonces, so each is meant to have one. -/
theorem one_le_cociente (hn : 1 ≤ n) (hn' : (n : ℤ) ≤ POW_LIMIT) : 1 ≤ cociente n := by
  have hpos : (0 : ℚ) < n := by exact_mod_cast hn
  refine Rounding.one_le_roundTo (by norm_num) ?_
  rw [le_div_iff₀ hpos, one_mul]
  exact_mod_cast hn'

/-- **The shares add up to the limit**, with an error of at most one half. -/
theorem abs_cociente_mul_sub_le (hn : 1 ≤ n) : |cociente n * n - POW_LIMIT| ≤ 1 / 2 := by
  have hpos : (0 : ℚ) < n := by exact_mod_cast hn
  have hlim : (0 : ℚ) < (POW_LIMIT : ℤ) := by norm_num [POW_LIMIT]
  calc |cociente n * n - POW_LIMIT|
      = |cociente n - (POW_LIMIT : ℤ) / n| * n := by
        rw [← abs_of_pos hpos, ← abs_mul, abs_of_pos hpos, sub_mul, div_mul_cancel₀ _ hpos.ne']
    _ ≤ (POW_LIMIT : ℤ) / n / 2 ^ 53 * n :=
        mul_le_mul_of_nonneg_right (Rounding.abs_roundTo_sub_le (div_pos hlim hpos)) hpos.le
    _ = (POW_LIMIT : ℤ) / 2 ^ 53 := by
        field_simp
    _ ≤ 1 / 2 := by norm_num [POW_LIMIT]

/-- No product of the loop exceeds the limit by more than one half. -/
theorem cociente_mul_le (hn : 1 ≤ n) (hn' : (n : ℤ) ≤ POW_LIMIT) (hi : i ≤ n) :
    cociente n * i ≤ POW_LIMIT + 1 / 2 := by
  have hcoc : 0 ≤ cociente n := by linarith [one_le_cociente hn hn']
  have hsum := (abs_le.mp (abs_cociente_mul_sub_le hn)).2
  have hmono : cociente n * i ≤ cociente n * n :=
    mul_le_mul_of_nonneg_left (by exact_mod_cast hi) hcoc
  linarith

/-! ### The ranges -/

/-- The rounded products from the first on. -/
theorem one_le_producto (hn : 1 ≤ n) (hn' : (n : ℤ) ≤ POW_LIMIT) (hi : 1 ≤ i) :
    1 ≤ double (cociente n * i) :=
  Rounding.one_le_roundTo (by norm_num)
    (one_le_mul_of_one_le_of_one_le (one_le_cociente hn hn') (by exact_mod_cast hi))

/-- **The ranges are adjacent.** -/
theorem rangoMax_eq (hi : i < n) (hn : (n : ℤ) ≤ POW_LIMIT) :
    rangoMax n i = rangoMin n (i + 1) - 1 := by
  have hn₁ : 1 ≤ n := Nat.one_le_of_lt hi
  have hround := one_le_producto hn₁ hn (Nat.le_add_left 1 i)
  have hpos : 0 < cociente n * (i + 1 : ℕ) :=
    mul_pos (by linarith [one_le_cociente hn₁ hn]) (by positivity)
  -- the product is below `2 ^ 53`, so subtracting one is exact
  have hlt : cociente n * (i + 1 : ℕ) < 2 ^ ((53 : ℕ) : ℤ) := by
    refine (cociente_mul_le hn₁ hn hi).trans_lt ?_
    norm_num [POW_LIMIT]
  have hexact : double (double (cociente n * (i + 1 : ℕ)) - 1) =
      double (cociente n * (i + 1 : ℕ)) - 1 :=
    Rounding.roundTo_sub_one hpos (Rounding.ulpExp_nonpos hpos hlt) hround
  rw [rangoMax, ← Nat.cast_succ, Nat.succ_eq_add_one, hexact, Rounding.truncate_sub_one hround,
    rangoMin]

/-- The first range begins at zero. -/
theorem rangoMin_zero (n : ℕ) : rangoMin n 0 = 0 := by
  simp [rangoMin, double, truncate]

/-- Each range begins at or above the one before. -/
theorem rangoMin_mono (hn : 1 ≤ n) (hn' : (n : ℤ) ≤ POW_LIMIT) (h : i ≤ j) :
    rangoMin n i ≤ rangoMin n j := by
  have hcoc := one_le_cociente hn hn'
  rcases Nat.eq_zero_or_pos i with rfl | hi
  · rcases Nat.eq_zero_or_pos j with rfl | hj
    · exact le_rfl
    · have hround := one_le_producto hn hn' hj
      rw [rangoMin_zero, rangoMin, Rounding.truncate_of_nonneg (by linarith)]
      exact Int.floor_nonneg.mpr (by linarith)
  · have hround := one_le_producto hn hn' hi
    have hpos : (0 : ℚ) < i := by exact_mod_cast hi
    have hle : cociente n * i ≤ cociente n * j :=
      mul_le_mul_of_nonneg_left (by exact_mod_cast h) (by linarith)
    exact Rounding.truncate_mono (by linarith)
      (Rounding.roundTo_mono (by norm_num) (mul_pos (by linarith) hpos) hle)

theorem rangoMin_nonneg (hn : 1 ≤ n) (hn' : (n : ℤ) ≤ POW_LIMIT) (i : ℕ) :
    0 ≤ rangoMin n i :=
  (rangoMin_zero n).ge.trans (rangoMin_mono hn hn' (Nat.zero_le i))

/-- Halves below `2 ^ 52` are not rounded. -/
theorem double_half {z : ℤ} (hz : |z| < 2 ^ 53) : double (z / 2) = z / 2 := by
  have heq : (z : ℚ) / 2 = z * 2 ^ (-1 : ℤ) := by rw [zpow_neg_one, div_eq_mul_inv]
  rw [heq]
  exact Rounding.roundTo_eq_self hz rfl

/-- **Where the ranges end**: at the limit, or one below it. -/
theorem rangoMin_self_bounds (hn : 1 ≤ n) (hn' : (n : ℤ) ≤ POW_LIMIT) :
    POW_LIMIT - 1 ≤ rangoMin n n ∧ rangoMin n n ≤ POW_LIMIT := by
  obtain ⟨hlow, hhigh⟩ := abs_le.mp (abs_cociente_mul_sub_le hn)
  have hround := one_le_producto hn hn' hn
  have hlim : (1 : ℚ) < (POW_LIMIT : ℤ) := by norm_num [POW_LIMIT]
  -- the product lies between two halves, which are not rounded
  have hlow' : (POW_LIMIT : ℚ) - 1 / 2 ≤ double (cociente n * n) := by
    calc (POW_LIMIT : ℚ) - 1 / 2 = ((2 * POW_LIMIT - 1 : ℤ) : ℚ) / 2 := by push_cast; ring
      _ = double (((2 * POW_LIMIT - 1 : ℤ) : ℚ) / 2) := (double_half (by decide)).symm
      _ ≤ double (cociente n * n) :=
        Rounding.roundTo_mono (by norm_num) (by push_cast; linarith) (by push_cast; linarith)
  have hhigh' : double (cociente n * n) ≤ (POW_LIMIT : ℚ) + 1 / 2 := by
    calc double (cociente n * n) ≤ double (((2 * POW_LIMIT + 1 : ℤ) : ℚ) / 2) :=
        Rounding.roundTo_mono (by norm_num) (by linarith) (by push_cast; linarith)
      _ = ((2 * POW_LIMIT + 1 : ℤ) : ℚ) / 2 := double_half (by decide)
      _ = (POW_LIMIT : ℚ) + 1 / 2 := by push_cast; ring
  rw [rangoMin, Rounding.truncate_of_nonneg (by linarith)]
  constructor
  · refine Int.le_floor.mpr ?_
    push_cast
    linarith
  · refine Int.lt_add_one_iff.mp (Int.floor_lt.mpr ?_)
    push_cast
    linarith

/-- **Where the last range ends.** The rounded product is `POW_LIMIT`, or one less for the four
short counts. -/
theorem rangoMin_self (hn : 1 ≤ n) (hn' : n ≤ MAX_THREADS) :
    rangoMin n n = if n ∈ cuentasCortas then POW_LIMIT - 1 else POW_LIMIT := by
  have hall : ∀ k ∈ List.range MAX_THREADS, rangoMin (k + 1) (k + 1) =
      if k + 1 ∈ cuentasCortas then POW_LIMIT - 1 else POW_LIMIT := by
    -- a hundred counts, each rounded exactly
    decide +kernel
  obtain ⟨k, rfl⟩ : ∃ k, n = k + 1 := ⟨n - 1, by omega⟩
  exact hall k (List.mem_range.mpr hn')

/-- Every nonce below the end of the last range belongs to a thread. -/
theorem exists_rango {x : ℤ} (hn : (n : ℤ) ≤ POW_LIMIT) (hx : 0 ≤ x)
    (hx' : x < rangoMin n n) : ∃ j < n, rangoMin n j ≤ x ∧ x ≤ rangoMax n j := by
  obtain ⟨j, hj, hlow, hhigh⟩ :=
    Scan.exists_part (rangoMin n) ((rangoMin_zero n).le.trans hx) hx'
  refine ⟨j, hj, hlow, ?_⟩
  rw [rangoMax_eq hj hn]
  omega

end Soper.Proyecto
