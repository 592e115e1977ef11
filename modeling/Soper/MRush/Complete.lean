import Soper.MRush.Lockstep
import Soper.MRush.Search

/-!
# Targets the threaded search can find

One call of `manage_threads` as a transition system of its own, over every interleaving of its
threads and whatever an earlier call has left in `target_found` and in the array `objective`.
Every call ends (`returns_or_misses`); it finds the nonce of its target exactly if that nonce
lies below `reach n_threads` (`ensures_found_iff`). The truncating division drops the last
`POW_LIMIT % n_threads` nonces, and their targets, which `main` accepts like all others, make
`miner` stop with `Error on miner process`.
-/

namespace Soper.MRush.Search

variable {n : ℕ} {target : ℤ} {s : Search n}

/-- A call of `manage_threads` with `n` threads. -/
def system (n : ℕ) (target : ℤ) : System (Search n) (SearchMove n) where
  Init s := ∃ garbage found, s = enter garbage found
  next := next target

theorem inv_reachable (h : (system n target).Reachable s) : Inv target s := by
  refine h.induct ?_ fun _ _ _ hs hn => inv_next hs hn
  rintro _ ⟨garbage, found, rfl⟩
  exact inv_enter garbage found

/-- A call waits for nothing but its own threads. -/
theorem done_of_stuck (h : Inv target s) (hstuck : (system n target).Stuck s) :
    s.pc = .done := by
  by_contra hpc
  obtain ⟨a, ha⟩ := exists_step h hpc
  exact ha (hstuck a)

/-- The returned value is the nonce of the target, or `-1` where no thread has met it. -/
def FoundOrMissed (n : ℕ) (target : ℤ) (s : Search n) : Prop :=
  s.pc = .done ∧
    ((0 ≤ s.solution ∧ s.solution < reach n ∧ powHash s.solution = target) ∨
      (s.solution = -1 ∧ NoHit target 0 (reach n)))

/-- **Every call ends** and returns the nonce of its target, or `-1` where no thread has met
it. -/
theorem returns_or_misses (n : ℕ) (target : ℤ) :
    (system n target).Ensures (FoundOrMissed n target) := by
  refine System.ensures_of_measure measure (fun s a t hs hn => ?_) fun s hs hstuck => ?_
  · exact measure_next (inv_reachable hs) hn
  · have hinv := inv_reachable hs
    have hdone := done_of_stuck hinv hstuck
    exact ⟨hdone, hinv.result hdone⟩

/-! ### Completeness -/

/-- The call has returned a nonce of its target, and `miner` goes on to send it. -/
structure Found (target : ℤ) (s : Search n) : Prop where
  done : s.pc = .done
  nonneg : 0 ≤ s.solution
  lt_limit : s.solution < POW_LIMIT
  hash : powHash s.solution = target
  /-- `miner` does not stop with `Error on miner process`. -/
  sent : ∀ core c : Lockstep, core.searched s.solution = some c → c.miner.pc = .write

/-- `miner` sends whatever it takes for a solution. -/
theorem pc_searched {core c : Lockstep} {v : ℤ} (hv : v ≠ -1) (h : core.searched v = some c) :
    c.miner.pc = .write := by
  simp only [Lockstep.searched] at h
  split at h <;> cases h
  exact if_neg hv

/-- **Completeness.** For a target below `POW_LIMIT`, every run of `manage_threads` ends with
its nonce exactly if that nonce lies in the part of the nonces that the threads divide up. -/
theorem ensures_found_iff {n : ℕ} {target : ℤ} (ht : 0 ≤ target) (ht' : target < POW_LIMIT) :
    (system n target).Ensures (Found target) ↔ nonce target < POW_LIMIT / n * n := by
  change _ ↔ nonce target < reach n
  constructor
  · intro h
    have hinit : (system n target).Reachable (enter (fun _ => ⟨0, 0, 0, 0⟩) false) :=
      .init ⟨_, _, rfl⟩
    obtain ⟨s, hs, -, hfound⟩ := h.exists_stuck hinit
    rcases (inv_reachable hs).result hfound.done with ⟨-, hlt, -⟩ | ⟨hsol, -⟩
    · rwa [← eq_nonce hfound.nonneg hfound.lt_limit hfound.hash]
    · have := hfound.nonneg
      omega
  · intro hlt
    refine (returns_or_misses n target).mono fun s _ _ hs => ?_
    obtain ⟨hdone, ⟨hnonneg, hreach, hhash⟩ | ⟨-, hnone⟩⟩ := hs
    · exact ⟨hdone, hnonneg, hreach.trans_le (reach_le n), hhash,
        fun _ _ hc => pc_searched (by omega) hc⟩
    · exact absurd (powHash_nonce ht ht') (hnone _ (nonce_nonneg target) hlt)

/-- An instance: with three threads, the nonce `1` of its target lies in the first range. -/
theorem ensures_found_three : (system 3 35693286).Ensures (Found (35693286 : ℤ)) :=
  (ensures_found_iff (by decide) (by decide)).mpr (by decide)

/-- Two threads search up to the nonce `POW_LIMIT - 2`: the target of the last nonce is not
found. -/
theorem not_ensures_found_two :
    (0 : ℤ) ≤ 64312683 ∧ 64312683 < POW_LIMIT ∧
      ¬ (system 2 64312683).Ensures (Found (64312683 : ℤ)) := by
  refine ⟨by decide, by decide, fun h => ?_⟩
  -- the last nonce is the only one, and no thread is given it
  have hinit : (system 2 64312683).Reachable (enter (fun _ => ⟨0, 0, 0, 0⟩) false) :=
    .init ⟨_, _, rfl⟩
  obtain ⟨s, hs, -, hfound⟩ := h.exists_stuck hinit
  have hlast : s.solution = 99997668 :=
    powHash_injOn hfound.nonneg hfound.lt_limit (by decide) (by decide)
      (hfound.hash.trans (by decide))
  rcases (inv_reachable hs).result hfound.done with ⟨-, hlt, -⟩ | ⟨hsol, -⟩
  · rw [hlast] at hlt
    exact absurd hlt (by decide)
  · rw [hlast] at hsol
    exact absurd hsol (by decide)

end Soper.MRush.Search
