import Soper.MRush.Errors
import Soper.Proyecto.Reparto

/-!
# One answer for each search

The programs compute `pow_hash` for nonces between `-1` and `POW_LIMIT`. There the arithmetic is
exact, and the hash is a permutation of `[0, POW_LIMIT)` (`powHash_bijOn`). For the searches this
means that each target has exactly one right answer: the loop of the third practice returns it,
and of the threads of the first pipe program and of the final project, whose ranges do not
overlap, at most one can find it (`hash_permutation`).
-/

namespace Soper

open Scan (Outcomes)

/-- The right answer of a search. -/
def Answers (target x : ℤ) : Prop := 0 ≤ x ∧ x < POW_LIMIT ∧ powHash x = target

/-- There is no more than one right answer. -/
theorem Answers.unique {target x y : ℤ} (hx : Answers target x) (hy : Answers target y) : x = y :=
  powHash_injOn hx.1 hx.2.1 hy.1 hy.2.1 (hx.2.2.trans hy.2.2.symm)

/-! ### The pipe program -/

namespace MRush

variable {n : ℕ} {o : Outcomes} {target x : ℤ} {s : ManageThreads n}

/-- The thread has found the nonce `x`, and reports it or has reported it. -/
def Thread.Finds (th : Thread) (x : ℤ) : Prop :=
  th.pc = .mark x ∨ th.pc = .store x ∨
    (th.pc = .exited ∧ th.objective.solution = x ∧ x ≠ -1)

/-- A nonce that was found is a hit of the thread's own range. -/
theorem isHit_of_finds (h : (ManageThreads.system n o target).Reachable s) {j : Fin n}
    (hf : (s.search.thread j).Finds x) : Search.IsHit n j target x := by
  have hthread := (ManageThreads.inv_reachable h).search.threads j
  rcases hf with hpc | hpc | ⟨hpc, rfl, hne⟩
  · simp only [Search.ThreadInv, hpc] at hthread
    exact hthread.2.2
  · simp only [Search.ThreadInv, hpc] at hthread
    exact hthread.2.2
  · simp only [Search.ThreadInv, hpc] at hthread
    exact hthread.resolve_right fun hmiss => hne hmiss.1

theorem answers_of_finds (h : (ManageThreads.system n o target).Reachable s) {j : Fin n}
    (hf : (s.search.thread j).Finds x) : Answers target x := by
  obtain ⟨hnonneg, hlt, hhash⟩ := (isHit_of_finds h hf).bounds j.isLt
  exact ⟨hnonneg, hlt.trans_le (Search.reach_le n), hhash⟩

/-- No nonce is in the ranges of two threads. -/
theorem range_unique {i j : ℕ} (hi : Search.IsHit n i target x)
    (hj : Search.IsHit n j target x) : i = j := by
  have hmono : ∀ ⦃a b : ℕ⦄, a ≤ b → share n * (a : ℤ) ≤ share n * (b : ℤ) := fun a b hab =>
    mul_le_mul_of_nonneg_left (by exact_mod_cast hab) (Search.share_nonneg n)
  refine Scan.part_unique hmono hi.1 ?_ hj.1 ?_
  · push_cast
    exact hi.2.1
  · push_cast
    exact hj.2.1

end MRush

/-! ### The final project -/

namespace Proyecto

variable {n : ℕ} {o : Outcomes} {objetivo x : ℤ} {s : Hilos n}

/-- The thread has found the nonce `x`, and stores it or has stored it. -/
def Hilo.Encuentra (h : Hilo) (x : ℤ) : Prop :=
  h.pc = .guarda x ∨ (h.pc = .salido ∧ h.busqueda.solucion = x ∧ x ≠ -1)

/-- A nonce that was found has the right hash and is in the thread's own range. -/
theorem rango_of_encuentra (hn : 1 ≤ n) (hn' : (n : ℤ) ≤ POW_LIMIT)
    (h : (Hilos.sistema n o objetivo).Reachable s) {j : Fin n} (hf : (s.hilo j).Encuentra x) :
    powHash x = objetivo ∧ rangoMin n j ≤ x ∧ x ≤ rangoMax n j := by
  have hinv := (Hilos.inv_reachable h).hilos j
  have hnonneg := rangoMin_nonneg hn hn' j
  -- what was found is what the thread reports, and it is not the `-1` of a search without a hit
  have hrep : x = Hilos.informe n objetivo j ∧ x ≠ -1 := by
    rcases hf with hpc | ⟨hpc, rfl, hne⟩
    · have hdesde := Hilos.desde_reachable h j x (by simp [Hilos.nonceActual, hpc])
      simp only [Hilos.InvHilo, hpc] at hinv
      exact ⟨hinv, by omega⟩
    · simp only [Hilos.InvHilo, hpc] at hinv
      exact ⟨hinv, hne⟩
  obtain ⟨rfl, hne⟩ := hrep
  rcases Scan.scan_cases (p := fun x => powHash x = objetivo) (Hilos.largo n j) (rangoMin n j)
    with ⟨hlow, hhigh, hhash⟩ | ⟨hmiss, -⟩
  · have hnext : rangoMin n j + Hilos.largo n j = rangoMin n (j + 1) :=
      Hilos.rangoMin_add_largo j.isLt hn'
    have hmax := rangoMax_eq j.isLt hn'
    refine ⟨hhash, hlow, ?_⟩
    rw [Hilos.informe]
    omega
  · exact absurd hmiss hne

theorem answers_of_encuentra (hn : 1 ≤ n) (hn' : (n : ℤ) ≤ POW_LIMIT)
    (h : (Hilos.sistema n o objetivo).Reachable s) {j : Fin n} (hf : (s.hilo j).Encuentra x) :
    Answers objetivo x := by
  obtain ⟨hhash, hlow, hhigh⟩ := rango_of_encuentra hn hn' h hf
  obtain ⟨hmin, -, hmax⟩ := Hilos.rango_bounds j.isLt hn'
  exact ⟨by omega, by omega, hhash⟩

end Proyecto

/-! ### One answer -/

/-- A target has exactly one right answer, and the searches of the three programs can find no
other: the loop of the third practice returns it, and of the threads of the other two, in any
states of any searches for the target, all that have found something are one and the same. -/
structure OneAnswer (target : ℤ) : Prop where
  exists_unique : ∃! x, Answers target x
  sequential : Answers target (P3.targetSearch target)
  pipes : ∀ (n : ℕ) (o o' : Outcomes) (s s' : MRush.ManageThreads n),
    (MRush.ManageThreads.system n o target).Reachable s →
      (MRush.ManageThreads.system n o' target).Reachable s' → ∀ j j' x x',
        (s.search.thread j).Finds x → (s'.search.thread j').Finds x' →
          Answers target x ∧ x = x' ∧ j = j'
  proyecto : ∀ n : ℕ, 1 ≤ n → (n : ℤ) ≤ POW_LIMIT →
    ∀ (o o' : Outcomes) (s s' : Proyecto.Hilos n),
      (Proyecto.Hilos.sistema n o target).Reachable s →
        (Proyecto.Hilos.sistema n o' target).Reachable s' → ∀ j j' x x',
          (s.hilo j).Encuentra x → (s'.hilo j').Encuentra x' →
            Answers target x ∧ x = x' ∧ j = j'

/-- Every target below `POW_LIMIT` has one answer. -/
theorem oneAnswer {target : ℤ} (h : 0 ≤ target) (h' : target < POW_LIMIT) :
    OneAnswer target where
  exists_unique :=
    ⟨nonce target, ⟨nonce_nonneg target, nonce_lt target, powHash_nonce h h'⟩,
      fun _ hy => eq_nonce hy.1 hy.2.1 hy.2.2⟩
  sequential := by
    rw [P3.targetSearch_eq (nonce_nonneg target) (nonce_lt target) (powHash_nonce h h')]
    exact ⟨nonce_nonneg target, nonce_lt target, powHash_nonce h h'⟩
  pipes n o o' s s' hs hs' j j' x x' hf hf' := by
    have hx := MRush.answers_of_finds hs hf
    obtain rfl : x = x' := hx.unique (MRush.answers_of_finds hs' hf')
    refine ⟨hx, rfl, Fin.ext ?_⟩
    exact MRush.range_unique (MRush.isHit_of_finds hs hf) (MRush.isHit_of_finds hs' hf')
  proyecto n hn hn' o o' s s' hs hs' j j' x x' hf hf' := by
    have hx := Proyecto.answers_of_encuentra hn hn' hs hf
    obtain rfl : x = x' := hx.unique (Proyecto.answers_of_encuentra hn hn' hs' hf')
    refine ⟨hx, rfl, Fin.ext ?_⟩
    exact Proyecto.Hilos.rango_unique j.isLt j'.isLt hn'
      (Proyecto.rango_of_encuentra hn hn' hs hf).2 (Proyecto.rango_of_encuentra hn hn' hs' hf').2

/-- What the programs rely on: on the arguments they use, `pow_hash` computes the remainder of
the exact sum and an `int` holds it, and it is a permutation with one answer for each target. -/
structure HashPermutation : Prop where
  exact : ∀ x, -1 ≤ x → x ≤ POW_LIMIT →
    NoOverflow x ∧ powHash x = (x * BIG_X + BIG_Y).tmod POW_LIMIT
  narrow : ∀ x, -1 ≤ x → x ≤ POW_LIMIT →
    -POW_LIMIT < powHash x ∧ powHash x < POW_LIMIT ∧ toInt (powHash x) = powHash x
  bijOn : Set.BijOn powHash nonces nonces
  oneAnswer : ∀ target, 0 ≤ target → target < POW_LIMIT → OneAnswer target

/-- **The hash is a permutation and never overflows.** -/
theorem hash_permutation : HashPermutation where
  exact x hx hx' := by
    have hlim : POW_LIMIT < 2 ^ 31 := by decide
    have hexact : NoOverflow x := noOverflow_of_int (by omega) (by omega)
    exact ⟨hexact, hexact.powHash_eq⟩
  narrow x _ _ := ⟨(powHash_bounds x).1, (powHash_bounds x).2, toInt_powHash x⟩
  bijOn := powHash_bijOn
  oneAnswer _ h h' := oneAnswer h h'

end Soper
