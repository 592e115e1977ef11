import Mathlib.Data.Int.GCD
import Mathlib.Data.Set.Function
import Mathlib.RingTheory.Coprime.Lemmas
import Mathlib.Tactic.NormNum.GCD
import Mathlib.Tactic.LinearCombination
import Mathlib.Tactic.Ring

/-!
# The proof-of-work hash

`pow_hash` maps `x` to `(x * BIG_X + BIG_Y) % PRIME` on `long int`. The file `pow.c` stands
four times in the sources (the two pipe programs, the voting program and the final project)
with the same constants and the same function, so one definition serves all of them.

`long` is 64 bits wide and `int` 32; `toLong` and `toInt` are the two's complement values of a
mathematical integer at these widths. A signed product that leaves the range is undefined in C
and is read here as wrapping; for arguments of `int` size the product stays in range
(`powHash_of_int`), so nothing below depends on that reading.

On `[0, POW_LIMIT)` the hash is an affine map modulo `POW_LIMIT` whose factor is invertible:
each target has exactly one nonce (`powHash_nonce`, `eq_nonce`), so the hash permutes the nonces
(`powHash_bijOn`).
-/

namespace Soper

/-- `#define POW_LIMIT 99997669`: hash results lie below it. -/
def POW_LIMIT : ℤ := 99997669

/-- `#define BIG_X 435679812`. -/
def BIG_X : ℤ := 435679812

/-- `#define BIG_Y 100001819`. -/
def BIG_Y : ℤ := 100001819

/-- The value of a 32-bit `int`. -/
def toInt (x : ℤ) : ℤ := x.bmod (2 ^ 32)

/-- The value of a 64-bit `long int`. -/
def toLong (x : ℤ) : ℤ := x.bmod (2 ^ 64)

/-- `pow_hash`: the product and the sum are `long`, and `%` truncates toward zero. -/
def powHash (x : ℤ) : ℤ := (toLong (x * BIG_X + BIG_Y)).tmod POW_LIMIT

theorem toInt_eq_self {x : ℤ} (h₁ : -2 ^ 31 ≤ x) (h₂ : x < 2 ^ 31) : toInt x = x :=
  Int.bmod_eq_of_le (by norm_num; omega) (by norm_num; omega)

theorem toLong_eq_self {x : ℤ} (h₁ : -2 ^ 63 ≤ x) (h₂ : x < 2 ^ 63) : toLong x = x :=
  Int.bmod_eq_of_le (by norm_num; omega) (by norm_num; omega)

/-- Adding after narrowing is narrowing after adding. -/
theorem toInt_toInt_add (x y : ℤ) : toInt (toInt x + y) = toInt (x + y) := Int.bmod_add_bmod

/-- Neither the product nor the sum of `pow_hash` leaves the range of `long`. -/
structure NoOverflow (x : ℤ) : Prop where
  product : -2 ^ 63 ≤ x * BIG_X ∧ x * BIG_X < 2 ^ 63
  sum : -2 ^ 63 ≤ x * BIG_X + BIG_Y ∧ x * BIG_X + BIG_Y < 2 ^ 63

/-- Arguments of `int` size do not overflow `long`. -/
theorem noOverflow_of_int {x : ℤ} (h₁ : -2 ^ 31 ≤ x) (h₂ : x < 2 ^ 31) : NoOverflow x := by
  constructor <;> simp only [BIG_X, BIG_Y] <;> omega

/-- Without overflow the hash is the remainder of the exact sum. -/
theorem NoOverflow.powHash_eq {x : ℤ} (h : NoOverflow x) :
    powHash x = (x * BIG_X + BIG_Y).tmod POW_LIMIT := by
  rw [powHash, toLong_eq_self h.sum.1 h.sum.2]

theorem powHash_of_int {x : ℤ} (h₁ : -2 ^ 31 ≤ x) (h₂ : x < 2 ^ 31) :
    powHash x = (x * BIG_X + BIG_Y).tmod POW_LIMIT :=
  (noOverflow_of_int h₁ h₂).powHash_eq

/-- On nonnegative nonces of `int` size the remainder is the residue modulo `POW_LIMIT`. -/
theorem powHash_of_nonneg {x : ℤ} (h₁ : 0 ≤ x) (h₂ : x < 2 ^ 31) :
    powHash x = (x * BIG_X + BIG_Y) % POW_LIMIT := by
  rw [powHash_of_int (by omega) h₂, Int.tmod_eq_emod_of_nonneg]
  simp only [BIG_X, BIG_Y]
  omega

/-- The hash of a nonnegative nonce is in `[0, POW_LIMIT)`. -/
theorem powHash_mem_range {x : ℤ} (h₁ : 0 ≤ x) (h₂ : x < 2 ^ 31) :
    0 ≤ powHash x ∧ powHash x < POW_LIMIT := by
  rw [powHash_of_nonneg h₁ h₂]
  exact ⟨Int.emod_nonneg _ (by decide), Int.emod_lt_of_pos _ (by decide)⟩

/-- A remainder is smaller than `POW_LIMIT`, and may be negative. -/
theorem powHash_bounds (x : ℤ) : -POW_LIMIT < powHash x ∧ powHash x < POW_LIMIT := by
  have hpos : (0 : ℤ) < POW_LIMIT := by decide
  exact ⟨Int.lt_tmod_of_pos _ hpos, Int.tmod_lt_of_pos _ hpos⟩

/-- A hash fits an `int`, whatever was hashed. -/
theorem toInt_powHash (x : ℤ) : toInt (powHash x) = powHash x := by
  have hlim : POW_LIMIT < 2 ^ 31 := by decide
  obtain ⟨hlow, hhigh⟩ := powHash_bounds x
  exact toInt_eq_self (by omega) (by omega)

/-! ### One nonce for each target -/

/-- `BIG_X` is invertible modulo `POW_LIMIT`. -/
private theorem isCoprime_limit_bigX : IsCoprime POW_LIMIT BIG_X := by
  rw [Int.isCoprime_iff_gcd_eq_one]
  norm_num [POW_LIMIT, BIG_X]

/-- **Injectivity.** Two nonces below `POW_LIMIT` with one hash are equal. -/
theorem powHash_injOn {x y : ℤ} (hx : 0 ≤ x) (hx' : x < POW_LIMIT) (hy : 0 ≤ y)
    (hy' : y < POW_LIMIT) (h : powHash x = powHash y) : x = y := by
  have hlim : POW_LIMIT < 2 ^ 31 := by decide
  rw [powHash_of_nonneg hx (by omega), powHash_of_nonneg hy (by omega)] at h
  have hdvd : POW_LIMIT ∣ (x - y) * BIG_X := by
    have hsub : POW_LIMIT ∣ (x * BIG_X + BIG_Y) - (y * BIG_X + BIG_Y) :=
      Int.dvd_of_emod_eq_zero (Int.emod_eq_emod_iff_emod_sub_eq_zero.mp h)
    rwa [show (x * BIG_X + BIG_Y) - (y * BIG_X + BIG_Y) = (x - y) * BIG_X by ring] at hsub
  have hxy : POW_LIMIT ∣ x - y := isCoprime_limit_bigX.dvd_of_dvd_mul_right hdvd
  have habs : |x - y| < POW_LIMIT := by rw [abs_lt]; omega
  have := Int.eq_zero_of_abs_lt_dvd hxy habs
  omega

/-- The inverse of `BIG_X` modulo `POW_LIMIT`. -/
def bigXInv : ℤ := 1243652

/-- The nonce of a target: the affine map is undone modulo `POW_LIMIT`. -/
def nonce (t : ℤ) : ℤ := (t - BIG_Y) * bigXInv % POW_LIMIT

theorem nonce_nonneg (t : ℤ) : 0 ≤ nonce t := Int.emod_nonneg _ (by decide)

theorem nonce_lt (t : ℤ) : nonce t < POW_LIMIT := Int.emod_lt_of_pos _ (by decide)

/-- The nonce of a target below `POW_LIMIT` hashes to it. -/
theorem powHash_nonce {t : ℤ} (ht : 0 ≤ t) (ht' : t < POW_LIMIT) : powHash (nonce t) = t := by
  have hlim : POW_LIMIT < 2 ^ 31 := by decide
  have h0 := nonce_nonneg t
  have h1 := nonce_lt t
  have hinv : ∃ k, bigXInv * BIG_X = POW_LIMIT * k + 1 := ⟨5418467, by decide⟩
  obtain ⟨k, hk⟩ := hinv
  calc powHash (nonce t)
      = (nonce t * BIG_X + BIG_Y) % POW_LIMIT := powHash_of_nonneg h0 (by omega)
    _ = ((t - BIG_Y) * bigXInv * BIG_X + BIG_Y) % POW_LIMIT := by
        rw [nonce, Int.add_emod, Int.mul_emod, Int.emod_emod_of_dvd _ dvd_rfl, ← Int.mul_emod,
          ← Int.add_emod]
    _ = (t + POW_LIMIT * ((t - BIG_Y) * k)) % POW_LIMIT := by
        congr 1
        linear_combination (t - BIG_Y) * hk
    _ = t := by rw [Int.add_mul_emod_self_left, Int.emod_eq_of_lt ht ht']

/-- There is no other nonce below `POW_LIMIT`. -/
theorem eq_nonce {x t : ℤ} (hx : 0 ≤ x) (hx' : x < POW_LIMIT) (h : powHash x = t) :
    x = nonce t := by
  have ht : 0 ≤ t ∧ t < POW_LIMIT := h ▸ powHash_mem_range hx (hx'.trans (by decide))
  exact powHash_injOn hx hx' (nonce_nonneg t) (nonce_lt t)
    (h.trans (powHash_nonce ht.1 ht.2).symm)

/-- The nonces the searches try: `[0, POW_LIMIT)`. -/
def nonces : Set ℤ := {x | 0 ≤ x ∧ x < POW_LIMIT}

/-- **The hash is a permutation** of the nonces below `POW_LIMIT`. -/
theorem powHash_bijOn : Set.BijOn powHash nonces nonces := by
  refine ⟨?_, ?_, ?_⟩
  · intro x hx
    exact powHash_mem_range hx.1 (hx.2.trans (by decide))
  · intro x hx y hy h
    exact powHash_injOn hx.1 hx.2 hy.1 hy.2 h
  · intro t ht
    exact ⟨nonce t, ⟨nonce_nonneg t, nonce_lt t⟩, powHash_nonce ht.1 ht.2⟩

end Soper
