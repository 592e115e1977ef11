import Mathlib.Data.Int.Order.Basic
import Mathlib.Tactic.Ring

/-!
# Searching a range in parts

A search for an integer with a property `p` that is divided among several workers: each scans
its own range from below and reports the first hit, or `-1` (`scan`); the reports are joined in
order, a later hit replacing an earlier one (`join`). Ranges start at zero or above, so `-1` is
no hit.

`scan_cases` and `join_cases` say what the two loops return, and `join_scan_cases` puts them
together: the joined report is a hit of one of the ranges, or `-1` where no range holds one.

The workers are started and joined by calls that may fail; `Outcomes` lists which of them
succeed.
-/

namespace Scan

section Range

variable (p : ℤ → Prop) [DecidablePred p]

/-- The first of the `k` integers from `i` on that has the property, or `-1`. -/
def scan : ℕ → ℤ → ℤ
  | 0, _ => -1
  | k + 1, i => if p i then i else scan k (i + 1)

variable {p}

/-- A scan reports a hit of its range, or `-1` where there is none. -/
theorem scan_cases (k : ℕ) (i : ℤ) :
    (i ≤ scan p k i ∧ scan p k i < i + k ∧ p (scan p k i)) ∨
      (scan p k i = -1 ∧ ∀ x, i ≤ x → x < i + k → ¬ p x) := by
  induction k generalizing i with
  | zero => exact Or.inr ⟨rfl, fun x hx hx' => absurd hx' (by push_cast; omega)⟩
  | succ k ih =>
    rw [scan]
    split
    · rename_i hi
      exact Or.inl ⟨le_rfl, by push_cast; omega, hi⟩
    · rename_i hi
      rcases ih (i + 1) with ⟨hlow, hhigh, hhit⟩ | ⟨hnone, hall⟩
      · exact Or.inl ⟨by omega, by push_cast; omega, hhit⟩
      · refine Or.inr ⟨hnone, fun x hx hx' => ?_⟩
        rcases hx.lt_or_eq with hlt | rfl
        · exact hall x (by omega) (by push_cast at hx'; omega)
        · exact hi

/-- The first hit is reported. -/
theorem scan_eq {k : ℕ} {i x : ℤ} (hlow : i ≤ x) (hhigh : x < i + k) (hx : p x)
    (hfirst : ∀ y, i ≤ y → y < x → ¬ p y) : scan p k i = x := by
  induction k generalizing i with
  | zero => exact absurd hhigh (by push_cast; omega)
  | succ k ih =>
    rw [scan]
    rcases hlow.lt_or_eq with hlt | rfl
    · rw [if_neg (hfirst i le_rfl hlt)]
      exact ih (by omega) (by push_cast at hhigh; omega) fun y hy hy' =>
        hfirst y (by omega) hy'
    · exact if_pos hx

end Range

/-- The reports of the first `n` workers, joined in order. -/
def join (report : ℕ → ℤ) : ℕ → ℤ
  | 0 => -1
  | n + 1 => if report n ≠ -1 then report n else join report n

/-- Joining yields one of the hits, or `-1` where there is none. -/
theorem join_cases (report : ℕ → ℤ) (n : ℕ) :
    (∃ j < n, join report n = report j ∧ report j ≠ -1) ∨
      (join report n = -1 ∧ ∀ j < n, report j = -1) := by
  induction n with
  | zero => exact Or.inr ⟨rfl, fun _ hj => absurd hj (Nat.not_lt_zero _)⟩
  | succ n ih =>
    rw [join]
    split
    · rename_i hn
      exact Or.inl ⟨n, Nat.lt_succ_self n, rfl, hn⟩
    · rename_i hn
      rcases ih with ⟨j, hj, heq, hne⟩ | ⟨heq, hall⟩
      · exact Or.inl ⟨j, Nat.lt_succ_of_lt hj, heq, hne⟩
      · exact Or.inr ⟨heq, Nat.forall_lt_succ_right.mpr ⟨hall, not_not.mp hn⟩⟩

/-- **Divided search.** Where each worker `j` scans `len j` integers from `start j ≥ 0` on, the
joined report is a hit of one of the ranges, or `-1` where no range holds a hit. -/
theorem join_scan_cases {p : ℤ → Prop} [DecidablePred p] {start : ℕ → ℤ} (len : ℕ → ℕ) (n : ℕ)
    (hstart : ∀ j < n, 0 ≤ start j) :
    (∃ j < n, start j ≤ join (fun j => scan p (len j) (start j)) n ∧
        join (fun j => scan p (len j) (start j)) n < start j + len j ∧
        p (join (fun j => scan p (len j) (start j)) n)) ∨
      (join (fun j => scan p (len j) (start j)) n = -1 ∧
        ∀ j < n, ∀ x, start j ≤ x → x < start j + len j → ¬ p x) := by
  rcases join_cases (fun j => scan p (len j) (start j)) n with
    ⟨j, hj, heq, hne⟩ | ⟨heq, hall⟩
  · rcases scan_cases (p := p) (len j) (start j) with hhit | ⟨hnone, -⟩
    · exact Or.inl ⟨j, hj, by rw [heq]; exact hhit⟩
    -- a report other than `-1` is a hit
    · exact absurd hnone hne
  · refine Or.inr ⟨heq, fun j hj => ?_⟩
    rcases scan_cases (p := p) (len j) (start j) with ⟨hlow, -, -⟩ | ⟨-, hnone⟩
    · have := hall j hj
      have := hstart j hj
      omega
    · exact hnone

/-! ### The parts -/

/-- Where each part begins at the end of the one before, every integer from the beginning of the
first to the end of the last is in one of them. -/
theorem exists_part (start : ℕ → ℤ) {n : ℕ} {x : ℤ} (hlow : start 0 ≤ x) (hhigh : x < start n) :
    ∃ j < n, start j ≤ x ∧ x < start (j + 1) := by
  induction n with
  | zero => omega
  | succ n ih =>
    rcases lt_or_ge x (start n) with hlt | hge
    · obtain ⟨j, hj, hpart⟩ := ih hlt
      exact ⟨j, Nat.lt_succ_of_lt hj, hpart⟩
    · exact ⟨n, Nat.lt_succ_self n, hge, hhigh⟩

/-- Where the parts begin in order, no integer is in two of them. -/
theorem part_unique {start : ℕ → ℤ} (hmono : ∀ ⦃a b⦄, a ≤ b → start a ≤ start b) {i j : ℕ} {x : ℤ}
    (hi : start i ≤ x) (hi' : x < start (i + 1)) (hj : start j ≤ x) (hj' : x < start (j + 1)) :
    i = j := by
  by_contra hne
  rcases Nat.lt_or_gt_of_ne hne with hlt | hgt
  · exact absurd (hi'.trans_le (hmono hlt)) (not_lt.mpr hj)
  · exact absurd (hj'.trans_le (hmono hgt)) (not_lt.mpr hi)

/-! ### The calls -/

/-- Which calls of a divided search succeed: the allocation, and for each worker its creation
and its join. -/
structure Outcomes where
  alloc : Bool
  create : ℕ → Bool
  join : ℕ → Bool

/-- No call for the first `n` workers fails. -/
structure Outcomes.AllSucceed (o : Outcomes) (n : ℕ) : Prop where
  alloc : o.alloc = true
  create : ∀ j < n, o.create j = true
  join : ∀ j < n, o.join j = true

end Scan
