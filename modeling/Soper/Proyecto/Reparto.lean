import Soper.Proyecto.Hilos

/-!
# How the threads share the nonces

What the bounds of `manage_threads` mean for the threads of the final project. A thread computes
the hashes of its own range only, from its first nonce on (`calcula_rango`), and one that ends
without a solution has left none of them out. The ranges are adjacent, so for any number of
threads up to `POW_LIMIT` no nonce is scanned twice, only the last one may be missed, and none
from `POW_LIMIT` on is scanned at all (`reparto_of_le`).
-/

namespace Soper.Proyecto.Hilos

open Scan (Outcomes)

variable {n : ℕ} {o : Outcomes} {objetivo : ℤ} {s t : Hilos n}

/-! ### What a thread scans -/

/-- The nonce a thread of `target_search` is at. -/
def nonceActual (h : Hilo) : Option ℤ :=
  match h.pc with
  | .prueba i | .calcula i | .guarda i => some i
  | .ausente | .salido => none

/-- The thread has not gone below its range. -/
def Desde (n j : ℕ) (h : Hilo) : Prop := ∀ i, nonceActual h = some i → rangoMin n j ≤ i

theorem desde_creado (j : ℕ) (objetivo : ℤ) : Desde n j (creado n j objetivo) := by
  intro i hi
  obtain rfl : rangoMin n j = i := by simpa [nonceActual, creado] using hi
  exact le_rfl

/-- A thread only goes up. -/
theorem desde_targetSearch {j : ℕ} {h h' : Hilo} (hd : Desde n j h)
    (hn : targetSearch h = some h') : Desde n j h' := by
  intro i hi
  match hpc : h.pc with
  | .ausente | .salido => simp [targetSearch, hpc] at hn
  | .prueba k =>
    have hk : rangoMin n j ≤ k := hd k (by simp [nonceActual, hpc])
    simp only [targetSearch, hpc] at hn
    split at hn <;> cases hn
    · obtain rfl : k = i := by simpa [nonceActual] using hi
      exact hk
    · simp [nonceActual] at hi
  | .calcula k =>
    have hk : rangoMin n j ≤ k := hd k (by simp [nonceActual, hpc])
    simp only [targetSearch, hpc] at hn
    split at hn <;> cases hn
    · obtain rfl : k = i := by simpa [nonceActual] using hi
      exact hk
    · obtain rfl : k + 1 = i := by simpa [nonceActual] using hi
      omega
  | .guarda k =>
    simp only [targetSearch, hpc] at hn
    cases hn
    simp [nonceActual] at hi

/-- Step lemma: creation puts a thread at the beginning of its range. -/
theorem desde_next {a : PasoHilos n} (h : ∀ j : Fin n, Desde n j (s.hilo j))
    (hn : next o objetivo s a = some t) (j : Fin n) : Desde n j (t.hilo j) := by
  cases a with
  | hilo k =>
    obtain ⟨h', hh', rfl⟩ := Option.map_eq_some_iff.mp hn
    exact (Function.forall_update_iff s.hilo fun j : Fin n => Desde n j).mpr
      ⟨desde_targetSearch (h k) hh', fun j _ => h j⟩ j
  | manage =>
    rcases manageThreads_cases hn with ⟨-, -, rfl⟩ | ⟨i, -, -, rfl⟩ | ⟨-, -, -, rfl⟩ |
      ⟨-, -, -, -, rfl⟩ | ⟨-, -, -, rfl⟩ | ⟨-, -, rfl⟩
    · exact h j
    · exact (Function.forall_update_iff s.hilo fun j : Fin n => Desde n j).mpr
        ⟨desde_creado i objetivo, fun j _ => h j⟩ j
    · exact h j
    · exact h j
    · exact h j
    · exact h j

/-- Run lemma. -/
theorem desde_reachable (h : (sistema n o objetivo).Reachable s) (j : Fin n) :
    Desde n j (s.hilo j) := by
  refine h.induct (I := fun s => ∀ j : Fin n, Desde n j (s.hilo j)) ?_ ?_ j
  · rintro _ ⟨basura, rfl⟩ j i hi
    simp [nonceActual, entra] at hi
  · exact fun s a t hs hn => desde_next hs hn

/-- **A thread scans its own range only.** -/
theorem calcula_rango (h : (sistema n o objetivo).Reachable s) {j : Fin n} {x : ℤ}
    (hx : (s.hilo j).pc = .calcula x) : rangoMin n j ≤ x ∧ x ≤ rangoMax n j := by
  refine ⟨desde_reachable h j x (by simp [nonceActual, hx]), ?_⟩
  have hinv := (inv_reachable h).hilos j
  simp only [InvHilo, hx] at hinv
  exact hinv.2.2.2

/-- A thread that has ended without a solution has left out no nonce of its range. -/
theorem powHash_ne_of_salido (h : (sistema n o objetivo).Reachable s) {j : Fin n}
    (hpc : (s.hilo j).pc = .salido) (hsol : (s.hilo j).busqueda.solucion = -1) {x : ℤ}
    (hn : 1 ≤ n) (hn' : (n : ℤ) ≤ POW_LIMIT) (hx : rangoMin n j ≤ x) (hx' : x ≤ rangoMax n j) :
    powHash x ≠ objetivo := by
  have hinv := (inv_reachable h).hilos j
  simp only [InvHilo, hpc] at hinv
  rcases Scan.scan_cases (p := fun x => powHash x = objetivo) (largo n j) (rangoMin n j) with
    ⟨hlow, -, -⟩ | ⟨-, hnone⟩
  · -- the first hit of a range is not negative
    have hnonneg := rangoMin_nonneg hn hn' j
    have hrep : informe n objetivo j = -1 := by rw [← hinv, hsol]
    rw [informe] at hrep
    omega
  · refine hnone x hx ?_
    have hlargo : ((largo n j : ℕ) : ℤ) = rangoMax n j + 1 - rangoMin n j :=
      Int.toNat_of_nonneg (by omega)
    omega

/-! ### The division -/

/-- How `n` threads divide the nonces: the bounds of their ranges, and what that means for a
search. -/
structure Reparto (n : ℕ) : Prop where
  primero : rangoMin n 0 = 0
  contiguo : ∀ i, i + 1 < n → rangoMin n (i + 1) = rangoMax n i + 1
  cabe : ∀ i < n, toInt (rangoMin n i) = rangoMin n i ∧ toInt (rangoMax n i) = rangoMax n i
  ultimo : POW_LIMIT - 2 ≤ rangoMax n (n - 1) ∧ rangoMax n (n - 1) ≤ POW_LIMIT - 1
  /-- No nonce below `POW_LIMIT - 1` is left out of the ranges. -/
  cubierto : ∀ x, 0 ≤ x → x < POW_LIMIT - 1 → ∃ j : Fin n, rangoMin n j ≤ x ∧ x ≤ rangoMax n j
  /-- A thread that ends without a solution has been through its range. -/
  agotado : ∀ (o : Outcomes) (objetivo : ℤ) (s : Hilos n), (sistema n o objetivo).Reachable s →
    ∀ j, (s.hilo j).pc = .salido → (s.hilo j).busqueda.solucion = -1 →
      ∀ x, rangoMin n j ≤ x → x ≤ rangoMax n j → powHash x ≠ objetivo
  /-- No nonce is scanned by two threads, in whatever states of whatever searches. -/
  unico : ∀ (o o' : Outcomes) (objetivo objetivo' : ℤ) (s s' : Hilos n),
    (sistema n o objetivo).Reachable s → (sistema n o' objetivo').Reachable s' →
      ∀ j j' x, (s.hilo j).pc = .calcula x → (s'.hilo j').pc = .calcula x → j = j'
  /-- No thread scans a nonce outside `[0, POW_LIMIT)`. -/
  dentro : ∀ (o : Outcomes) (objetivo : ℤ) (s : Hilos n), (sistema n o objetivo).Reachable s →
    ∀ j x, (s.hilo j).pc = .calcula x → 0 ≤ x ∧ x < POW_LIMIT

/-- A range stays in `[0, POW_LIMIT)`. -/
theorem rango_bounds {j : ℕ} (hj : j < n) (hn' : (n : ℤ) ≤ POW_LIMIT) :
    0 ≤ rangoMin n j ∧ -1 ≤ rangoMax n j ∧ rangoMax n j < POW_LIMIT := by
  have hn : 1 ≤ n := Nat.one_le_of_lt hj
  have hmin := rangoMin_nonneg hn hn'
  have hmax := rangoMax_eq hj hn'
  have hend := (rangoMin_self_bounds hn hn').2
  have hmono : rangoMin n (j + 1) ≤ rangoMin n n := rangoMin_mono hn hn' hj
  have hnext := hmin (j + 1)
  exact ⟨hmin j, by omega, by omega⟩

/-- No nonce is in two ranges. -/
theorem rango_unique {i j : ℕ} (hi : i < n) (hj : j < n) (hn' : (n : ℤ) ≤ POW_LIMIT) {x : ℤ}
    (hxi : rangoMin n i ≤ x ∧ x ≤ rangoMax n i) (hxj : rangoMin n j ≤ x ∧ x ≤ rangoMax n j) :
    i = j := by
  have hn : 1 ≤ n := Nat.one_le_of_lt hi
  have hmaxi := rangoMax_eq hi hn'
  have hmaxj := rangoMax_eq hj hn'
  exact Scan.part_unique (fun _ _ hle => rangoMin_mono hn hn' hle) hxi.1 (by omega) hxj.1
    (by omega)

/-- **The ranges are adjacent**, for any number of threads up to the limit. -/
theorem reparto_of_le {n : ℕ} (hn : 1 ≤ n) (hn' : (n : ℤ) ≤ POW_LIMIT) : Reparto n where
  primero := rangoMin_zero n
  contiguo i hi := by
    rw [rangoMax_eq (Nat.lt_of_succ_lt hi) hn', sub_add_cancel]
  cabe i hi := by
    obtain ⟨hmin, hmax, hmax'⟩ := rango_bounds hi hn'
    have hmono := rangoMin_mono hn hn' hi.le
    have hend := (rangoMin_self_bounds hn hn').2
    have hlim : POW_LIMIT < 2 ^ 31 := by decide
    exact ⟨toInt_eq_self (by omega) (by omega), toInt_eq_self (by omega) (by omega)⟩
  ultimo := by
    have hend := rangoMin_self_bounds hn hn'
    rw [rangoMax_eq (by omega) hn', Nat.sub_add_cancel hn]
    omega
  cubierto x hx hx' := by
    have hend := (rangoMin_self_bounds hn hn').1
    obtain ⟨j, hj, hrango⟩ := exists_rango hn' hx (by omega)
    exact ⟨⟨j, hj⟩, hrango⟩
  agotado o objetivo s hs j hpc hsol x hx hx' :=
    powHash_ne_of_salido hs hpc hsol hn hn' hx hx'
  unico o o' objetivo objetivo' s s' hs hs' j j' x hx hx' :=
    Fin.ext (rango_unique j.isLt j'.isLt hn' (calcula_rango hs hx) (calcula_rango hs' hx'))
  dentro o objetivo s hs j x hx := by
    obtain ⟨hmin, -, hmax⟩ := rango_bounds j.isLt hn'
    obtain ⟨hlow, hhigh⟩ := calcula_rango hs hx
    exact ⟨by omega, by omega⟩

/-- An instance: a thousand threads, more than the program admits. -/
theorem reparto_thousand : Reparto 1000 := reparto_of_le (by decide) (by decide)

end Soper.Proyecto.Hilos
