import Mathlib.Algebra.BigOperators.Group.Finset.Piecewise
import Mathlib.Algebra.Order.BigOperators.Group.Finset
import Mathlib.Data.Fintype.BigOperators
import Mathlib.Data.Fintype.Fin

/-!
# Totals over a family of processes

A finite family `f : ι → σ` holds the local state of each process, and a weight `w : σ → ℕ`
says how much one local state contributes: the number of processes at a program point, the
tokens they hold, the steps they still have to take. When one process moves, the total changes
by the change of its own weight (`total_update`), whatever the others do.

A family over `Fin n` may come into being one member after the other. How many have been created
changes with the creation of the next one only (`created_update`, `created_update_succ`).
-/

universe u v

namespace Family

variable {ι : Type u} {σ : Type v} [Fintype ι] [DecidableEq ι]

/-- The weights of all members added up. -/
def total (w : σ → ℕ) (f : ι → σ) : ℕ := ∑ i, w (f i)

/-- **Update rule.** Replacing one member exchanges its weight. -/
theorem total_update (w : σ → ℕ) (f : ι → σ) (i : ι) (x : σ) :
    total w (Function.update f i x) + w (f i) = total w f + w x := by
  have hnew : total w (Function.update f i x) = w x + ∑ j ∈ Finset.univ \ {i}, w (f j) := by
    have hcomp : (fun j => w (Function.update f i x j)) =
        Function.update (fun j => w (f j)) i (w x) := by
      funext j
      exact Function.apply_update (fun _ => w) f i x j
    rw [total, hcomp, Finset.sum_update_of_mem (Finset.mem_univ i)]
  have hold : total w f = w (f i) + ∑ j ∈ Finset.univ \ {i}, w (f j) := by
    rw [total, ← Finset.add_sum_erase _ _ (Finset.mem_univ i), Finset.sdiff_singleton_eq_erase]
  omega

/-- A member that gets lighter makes the total smaller. -/
theorem total_update_lt {w : σ → ℕ} {f : ι → σ} {i : ι} {x : σ} (h : w x < w (f i)) :
    total w (Function.update f i x) < total w f := by
  have := total_update w f i x
  omega

/-- A member that keeps its weight keeps the total. -/
theorem total_update_eq {w : σ → ℕ} {f : ι → σ} {i : ι} {x : σ} (h : w x = w (f i)) :
    total w (Function.update f i x) = total w f := by
  have := total_update w f i x
  omega

/-- Where all members together weigh at most one, no two of them weigh something. -/
theorem eq_of_total_le_one {w : σ → ℕ} {f : ι → σ} (h : total w f ≤ 1) {i j : ι}
    (hi : 0 < w (f i)) (hj : 0 < w (f j)) : i = j := by
  by_contra hne
  have hpair : ∑ k ∈ {i, j}, w (f k) ≤ total w f :=
    Finset.sum_le_sum_of_subset (Finset.subset_univ _)
  rw [Finset.sum_pair hne] at hpair
  omega

omit [DecidableEq ι] in
/-- Families whose members weigh the same have the same total. -/
theorem total_congr {w : σ → ℕ} {f g : ι → σ} (h : ∀ i, w (f i) = w (g i)) :
    total w f = total w g :=
  Finset.sum_congr rfl fun i _ => h i

omit [DecidableEq ι] in
/-- Nobody weighs anything. -/
theorem total_eq_zero {w : σ → ℕ} {f : ι → σ} (h : ∀ i, w (f i) = 0) : total w f = 0 :=
  Finset.sum_eq_zero fun i _ => h i

omit [DecidableEq ι] in
/-- Where the total is not zero, some member weighs something. -/
theorem exists_pos_of_total_pos {w : σ → ℕ} {f : ι → σ} (h : 0 < total w f) :
    ∃ i, 0 < w (f i) := by
  by_contra hnone
  refine Nat.lt_irrefl 0 (h.trans_eq (total_eq_zero fun i => ?_))
  exact Nat.eq_zero_of_not_pos fun hi => hnone ⟨i, hi⟩

omit [DecidableEq ι] in
/-- Members that weigh at most one each weigh at most their number. -/
theorem total_le_card {w : σ → ℕ} {f : ι → σ} (hw : ∀ x, w x ≤ 1) :
    total w f ≤ Fintype.card ι := by
  calc total w f ≤ ∑ _i : ι, 1 := Finset.sum_le_sum fun i _ => hw (f i)
    _ = Fintype.card ι := by simp

/-- Where one of them weighs nothing, they weigh at most the number of the others. -/
theorem total_le_card_pred {w : σ → ℕ} {f : ι → σ} {c : ι} (hw : ∀ x, w x ≤ 1)
    (hc : w (f c) = 0) : total w f ≤ Fintype.card ι - 1 := by
  rw [total, ← Finset.add_sum_erase _ _ (Finset.mem_univ c), hc, zero_add]
  calc ∑ i ∈ Finset.univ.erase c, w (f i)
      ≤ ∑ _i ∈ Finset.univ.erase c, 1 := Finset.sum_le_sum fun i _ => hw (f i)
    _ = Fintype.card ι - 1 := by
      rw [Finset.sum_const, Finset.card_erase_of_mem (Finset.mem_univ c), Finset.card_univ,
        Nat.nsmul_eq_mul, mul_one]

omit [DecidableEq ι] in
/-- Where each member weighs at most one and the total is the number of members, each weighs
one. -/
theorem eq_one_of_card_le {w : σ → ℕ} {f : ι → σ} (hw : ∀ x, w x ≤ 1)
    (h : Fintype.card ι ≤ total w f) (i : ι) : w (f i) = 1 := by
  by_contra hne
  have hlt : total w f < ∑ _j : ι, 1 :=
    Finset.sum_lt_sum (fun j _ => hw (f j)) ⟨i, Finset.mem_univ i, by have := hw (f i); omega⟩
  rw [Finset.sum_const, Finset.card_univ, Nat.nsmul_eq_mul, mul_one] at hlt
  omega

/-- Where one member weighs nothing and the total is the number of the others, each of these
weighs one. -/
theorem eq_one_of_card_pred_le {w : σ → ℕ} {f : ι → σ} {c : ι} (hw : ∀ x, w x ≤ 1)
    (hc : w (f c) = 0) (h : Fintype.card ι - 1 ≤ total w f) {i : ι} (hi : i ≠ c) :
    w (f i) = 1 := by
  by_contra hne
  have hlt : ∑ j ∈ Finset.univ.erase c, w (f j) < ∑ _j ∈ Finset.univ.erase c, 1 :=
    Finset.sum_lt_sum (fun j _ => hw (f j))
      ⟨i, Finset.mem_erase.mpr ⟨hi, Finset.mem_univ i⟩, by have := hw (f i); omega⟩
  rw [Finset.sum_const, Finset.card_erase_of_mem (Finset.mem_univ c), Finset.card_univ,
    Nat.nsmul_eq_mul, mul_one] at hlt
  rw [total, ← Finset.add_sum_erase _ _ (Finset.mem_univ c), hc] at h
  omega

omit [DecidableEq ι] in
/-- Where the total is less than the number of members, one of them weighs nothing. -/
theorem exists_eq_zero_of_lt_card {w : σ → ℕ} {f : ι → σ} (h : total w f < Fintype.card ι) :
    ∃ i, w (f i) = 0 := by
  by_contra hall
  have hle : ∑ _i : ι, 1 ≤ total w f :=
    Finset.sum_le_sum fun i _ => Nat.one_le_iff_ne_zero.mpr fun hi => hall ⟨i, hi⟩
  rw [Finset.sum_const, Finset.card_univ, Nat.nsmul_eq_mul, mul_one] at hle
  omega

/-- Where the total is less than the number of members other than `c`, one of these weighs
nothing. -/
theorem exists_eq_zero_of_lt {w : σ → ℕ} {f : ι → σ} (c : ι)
    (h : total w f < Fintype.card ι - 1) : ∃ i, i ≠ c ∧ w (f i) = 0 := by
  by_contra hall
  have hle : ∑ _j ∈ Finset.univ.erase c, 1 ≤ ∑ j ∈ Finset.univ.erase c, w (f j) := by
    refine Finset.sum_le_sum fun j hj => ?_
    have hne := (Finset.mem_erase.mp hj).1
    by_contra hlt
    exact hall ⟨j, hne, by omega⟩
  rw [Finset.sum_const, Finset.card_erase_of_mem (Finset.mem_univ c), Finset.card_univ,
    Nat.nsmul_eq_mul, mul_one] at hle
  rw [total, ← Finset.add_sum_erase _ _ (Finset.mem_univ c)] at h
  omega

/-! ### Members that are created in order -/

section Created

variable {n k : ℕ} {f : Fin n → σ} {i : Fin n} {x : σ} (p : σ → Prop)

/-- A member that moves and has been created before does not change how many there are. -/
theorem created_update (h : ∀ j, p (f j) ↔ (j : ℕ) < k) (hold : p (f i)) (hnew : p x)
    (j : Fin n) : p (Function.update f i x j) ↔ (j : ℕ) < k :=
  (Function.forall_update_iff f fun (j : Fin n) y => p y ↔ (j : ℕ) < k).mpr
    ⟨iff_of_true hnew ((h i).mp hold), fun j _ => h j⟩ j

/-- Creating the next member. -/
theorem created_update_succ (h : ∀ j, p (f j) ↔ (j : ℕ) < i) (hnew : p x) (j : Fin n) :
    p (Function.update f i x j) ↔ (j : ℕ) < i + 1 := by
  refine (Function.forall_update_iff f fun (j : Fin n) y => p y ↔ (j : ℕ) < i + 1).mpr
    ⟨iff_of_true hnew (Nat.lt_succ_self i), fun j hj => ?_⟩ j
  have hval : (j : ℕ) ≠ i := fun heq => hj (Fin.ext heq)
  rw [h j]
  omega

/-- If each of the first `m` members weighs something, they weigh `m` at least. -/
theorem le_total_of_lt {w : σ → ℕ} {m : ℕ} (hm : m ≤ n)
    (h : ∀ j : Fin n, (j : ℕ) < m → 1 ≤ w (f j)) : m ≤ total w f := by
  calc m = (Finset.univ.filter fun j : Fin n => (j : ℕ) < m).card := by
        rw [Fin.card_filter_val_lt, min_eq_right hm]
    _ = ∑ j ∈ Finset.univ.filter fun j : Fin n => (j : ℕ) < m, 1 := Finset.card_eq_sum_ones _
    _ ≤ ∑ j ∈ Finset.univ.filter fun j : Fin n => (j : ℕ) < m, w (f j) :=
        Finset.sum_le_sum fun j hj => h j (Finset.mem_filter.mp hj).2
    _ ≤ total w f := Finset.sum_le_sum_of_subset (Finset.filter_subset _ _)

end Created

end Family
