import Soper.MRush.Main

/-!
# When the first pipe program ends

No call fails, as in `Main`. Every step of the program makes a measure smaller (`measure_next`),
so every run ends in a state where nobody can move. If the hash chain from the initial target is
covered, somebody can move until all three processes have exited (`exists_next`); if it is not,
the monitor never exits, so the state where the run ends is a deadlock. Hence
`noDeadlock_iff_covers`.

The condition fails for targets whose nonce lies among the last `POW_LIMIT mod n_threads` ones:
with two threads, the nonce `POW_LIMIT - 1` of the target `64312683` is never tried.
-/

namespace Soper.MRush

namespace Processes

variable {n nCycles : ℕ} {targetIni : ℤ} {s t : Processes n}

/-! ### Every run ends -/

/-- Steps the parent still has to take. -/
def mainRank : MainPc → ℕ
  | .fork => 2
  | .wait => 1
  | .exited => 0

/-- Steps the miner process still has to take outside `miner`. -/
def minerProcRank : MinerProcPc → ℕ
  | .absent | .fork => 6
  | .closeRead => 5
  | .closeWrite => 4
  | .running => 3
  | .wait => 2
  | .exited => 0

/-- Steps the monitor process still has to take outside `monitor`. -/
def monitorProcRank : MonitorProcPc → ℕ
  | .absent | .closeRead => 3
  | .closeWrite => 2
  | .running => 1
  | .exited => 0

/-- The weight of a round: the search, the messages and the verdict. -/
def roundCost (n : ℕ) : ℕ := Search.cost n + 13

/-- What is left of the current round, where `searchLeft` steps of the search are left. -/
def minerRank (n searchLeft : ℕ) : MinerPc → ℕ
  | .head => roundCost n
  | .search => searchLeft + 12
  | .write => 11
  | .read | .check => 6
  | .reject | .finish => 5
  | .returned _ => 0

def monitorRank : MonitorPc → ℕ
  | .read => 0
  | .check => 3
  | .reply => 2
  | .exited _ => 0

/-- What is left for the monitor and in the pipes. A message to the monitor weighs more than
what the monitor does with it. -/
def pendingRank (c : Lockstep) : ℕ :=
  monitorRank c.monitor.pc + 4 * c.minerToMonitor.length + c.monitorToMiner.length

/-- What is left of the rounds. -/
def roundsRank (n nCycles searchLeft : ℕ) (c : Lockstep) : ℕ :=
  (nCycles - c.miner.i) * roundCost n + minerRank n searchLeft c.miner.pc

/-- An upper bound on the steps the program still takes. -/
def measure (nCycles : ℕ) (s : Processes n) : ℕ :=
  mainRank s.main + minerProcRank s.miner + monitorProcRank s.monitor +
    roundsRank n nCycles s.search.measure s.core + pendingRank s.core

/-- A step of `monitor` makes what is pending smaller. -/
theorem pendingRank_stepMonitor {c d : Lockstep} (hn : c.stepMonitor = some d) :
    pendingRank d < pendingRank c := by
  match hpc : c.monitor.pc with
  | .exited _ => simp [Lockstep.stepMonitor, hpc] at hn
  | .read =>
    simp only [Lockstep.stepMonitor, hpc] at hn
    split at hn
    case h_1 => cases hn
    case h_2 v rest hmm =>
      cases hn
      simp only [pendingRank, monitorRank, hpc, hmm, List.length_cons]
      omega
  | .check =>
    simp only [Lockstep.stepMonitor, hpc] at hn
    cases hn
    simp only [pendingRank, hpc, Lockstep.judge]
    split
    · simp only [monitorRank]
      omega
    · split <;> simp only [monitorRank] <;> omega
  | .reply =>
    simp only [Lockstep.stepMonitor, hpc] at hn
    cases hn
    simp only [pendingRank, monitorRank, hpc, List.length_append, List.length_singleton]
    omega

/-- A step of `miner` makes what is left of the rounds smaller by more than the message it
sends. -/
theorem rank_stepMiner {c d : Lockstep} {left' : ℕ} (left : ℕ) (hj : c.Joint nCycles)
    (hn : c.stepMiner nCycles = some d) (hleft : d.miner.pc = .search → left' = Search.cost n) :
    roundsRank n nCycles left' d + pendingRank d < roundsRank n nCycles left c + pendingRank c := by
  match hpc : c.miner.pc with
  | .search | .returned _ => simp [Lockstep.stepMiner, hpc] at hn
  | .head =>
    simp only [Lockstep.stepMiner, hpc] at hn
    by_cases hi : c.miner.i < nCycles
    · simp only [if_pos hi] at hn
      cases hn
      simp only [roundsRank, pendingRank, hpc, minerRank, roundCost, hleft rfl]
      omega
    · simp only [if_neg hi] at hn
      cases hn
      simp only [roundsRank, pendingRank, hpc, minerRank, roundCost]
      omega
  | .write | .reject | .finish =>
    simp only [Lockstep.stepMiner, hpc] at hn
    cases hn
    simp only [roundsRank, pendingRank, hpc, minerRank, List.length_append, List.length_singleton]
    omega
  | .read =>
    simp only [Lockstep.stepMiner, hpc] at hn
    split at hn
    case h_1 => cases hn
    case h_2 v rest hmo =>
      cases hn
      simp only [roundsRank, pendingRank, hpc, minerRank, hmo, List.length_cons]
      omega
  | .check =>
    have hi : c.miner.i < nCycles := by
      have hmon := hj.monitor_read (by simp [hpc]) (by simp [hpc])
      simp only [Lockstep.Joint, hpc, hmon] at hj
      exact hj.2.1
    -- an accepted round pays for the next one
    obtain ⟨k, hk⟩ : ∃ k, nCycles - c.miner.i = k + 1 := ⟨nCycles - c.miner.i - 1, by omega⟩
    have hk' : nCycles - (c.miner.i + 1) = k := by omega
    simp only [Lockstep.stepMiner, hpc] at hn
    split at hn <;> cases hn
    · simp only [roundsRank, pendingRank, hpc, minerRank]
      omega
    · simp only [roundsRank, pendingRank, hpc, minerRank, hk, hk', Nat.add_mul]
      omega

/-- The result of the search makes what is left of the round smaller. -/
theorem rank_searched (n nCycles left : ℕ) {c d : Lockstep} {v : ℤ} (hn : c.searched v = some d) :
    roundsRank n nCycles left d + pendingRank d < roundsRank n nCycles left c + pendingRank c := by
  simp only [Lockstep.searched] at hn
  split at hn
  case h_2 => cases hn
  case h_1 hpc =>
    cases hn
    simp only [roundsRank, pendingRank, hpc]
    split <;> simp only [minerRank] <;> omega

/-- A step of the search makes what is left of the round smaller. -/
theorem rank_search (n nCycles : ℕ) {c : Lockstep} {left left' : ℕ}
    (hpc : c.miner.pc = .search) (hlt : left' < left) :
    roundsRank n nCycles left' c < roundsRank n nCycles left c := by
  simp only [roundsRank, hpc, minerRank]
  omega

/-- `main` has one step less to take. -/
theorem measure_stepMain (h : Inv s) (hn : s.stepMain = some t) :
    t.measure nCycles < s.measure nCycles := by
  match hpc : s.main with
  | .exited => simp [stepMain, hpc] at hn
  | .fork =>
    have habsent := h.minerForked.mp hpc
    simp only [stepMain, hpc] at hn
    cases hn
    simp only [measure, hpc, habsent, mainRank, minerProcRank]
    omega
  | .wait =>
    simp only [stepMain, hpc] at hn
    split at hn <;> cases hn
    simp only [measure, hpc, mainRank]
    omega

/-- A step of a thread of the search. -/
theorem measure_stepThread {j : Fin n} (h : Inv s) (hn : s.stepThread j = some t) :
    t.measure nCycles < s.measure nCycles := by
  simp only [stepThread] at hn
  split at hn
  · rename_i hrun
    obtain ⟨q, hq, rfl⟩ := Option.map_eq_some_iff.mp hn
    have hlt := Search.measure_next (h.searching hrun.2) hq
    have := rank_search n nCycles hrun.2 hlt
    simp only [measure]
    omega
  · cases hn

/-- A step of the process of `miner`: before its rounds, in one of them, or after them. -/
theorem measure_stepMinerProc (h : Inv s) (hj : s.core.Joint nCycles)
    (hn : s.stepMinerProc nCycles = some t) : t.measure nCycles < s.measure nCycles := by
  match hpc : s.miner with
  | .absent | .exited => simp [stepMinerProc, hpc] at hn
  | .fork =>
    have habsent := h.monitorForked.mpr (Or.inr hpc)
    simp only [stepMinerProc, hpc] at hn
    cases hn
    simp only [measure, hpc, habsent, minerProcRank, monitorProcRank]
    omega
  | .closeRead | .closeWrite =>
    simp only [stepMinerProc, hpc] at hn
    cases hn
    simp only [measure, hpc, minerProcRank]
    omega
  | .wait =>
    simp only [stepMinerProc, hpc] at hn
    split at hn <;> cases hn
    simp only [measure, hpc, minerProcRank]
    omega
  | .running =>
    simp only [stepMinerProc, hpc] at hn
    rcases runMiner_cases (h.held' (by rw [hpc]; decide)) hn with
      ⟨c, hc, rfl⟩ | ⟨q, hsearch, hq, rfl⟩ | ⟨c, hsearch, hdone, hc, rfl⟩ | ⟨c, q, hc, rfl, hq⟩
    · simp only [measure, hpc, minerProcRank]
      omega
    · have hlt := Search.measure_next (h.searching hsearch) hq
      have := rank_search n nCycles hsearch hlt
      simp only [measure]
      omega
    · have := rank_searched n nCycles s.search.measure hc
      simp only [measure]
      omega
    · -- a new search begins with its whole cost, which the round has counted
      have hleft : c.miner.pc = .search → q.measure = Search.cost n := by
        intro hsearch
        obtain ⟨garbage, found, rfl⟩ := hq hsearch
        exact Search.measure_enter garbage found
      have := rank_stepMiner s.search.measure hj hc hleft
      simp only [measure]
      omega

/-- A step of the process of `monitor`. -/
theorem measure_stepMonitorProc (h : Inv s) (hn : s.stepMonitorProc = some t) :
    t.measure nCycles < s.measure nCycles := by
  match hpc : s.monitor with
  | .absent | .exited => simp [stepMonitorProc, hpc] at hn
  | .closeRead | .closeWrite =>
    simp only [stepMonitorProc, hpc] at hn
    cases hn
    simp only [measure, hpc, monitorProcRank]
    omega
  | .running =>
    simp only [stepMonitorProc, hpc] at hn
    rcases runMonitor_cases (h.held (by rw [hpc]; decide)) hn with ⟨c, hc, rfl⟩ | ⟨c, hc, rfl⟩
    · simp only [measure, hpc, monitorProcRank]
      omega
    · -- the monitor does not touch the rounds of the miner
      have hpend := pendingRank_stepMonitor hc
      have hminer := Lockstep.miner_stepMonitor hc
      simp only [measure, roundsRank, hminer]
      omega

/-- **Termination.** Every step out of a reachable state makes the measure smaller. -/
theorem measure_next {a : ProcessMove n} (hs : (system n nCycles targetIni).Reachable s)
    (hn : next nCycles s a = some t) : t.measure nCycles < s.measure nCycles := by
  have h : Inv s := inv_reachable hs
  cases a with
  | main => exact measure_stepMain h hn
  | thread j => exact measure_stepThread h hn
  | miner =>
    exact measure_stepMinerProc h (Lockstep.joint_reachable (core_reachableBy hs).reachable) hn
  | monitor => exact measure_stepMonitorProc h hn

/-! ### Who can move -/

/-- All three processes have exited. -/
def AllExited (s : Processes n) : Prop :=
  s.main = .exited ∧ s.miner = .exited ∧ s.monitor = .exited

/-- In every reachable state all three processes have exited or one of them can move. -/
def NoDeadlock (nThreads nCycles : ℕ) (targetIni : ℤ) : Prop :=
  ∀ s, (system nThreads nCycles targetIni).Reachable s →
    AllExited s ∨ ∃ a, next nCycles s a ≠ none

/-- The monitor's function can go on wherever it is not waiting for a message. -/
theorem exists_runMonitor (hheld : ∀ e, s.held e = true)
    (hready : s.core.monitor.pc = .read → s.core.minerToMonitor ≠ []) : s.runMonitor ≠ none := by
  cases hpc : s.core.monitor.pc with
  | exited c => simp [runMonitor, hpc]
  | check => simp [runMonitor, hpc, Lockstep.stepMonitor]
  | reply => simp [runMonitor, hpc, hheld, Lockstep.stepMonitor]
  | read =>
    cases hmm : s.core.minerToMonitor with
    | nil => exact absurd hmm (hready hpc)
    | cons v rest => simp [runMonitor, hpc, hmm, Lockstep.stepMonitor]

/-- The miner's function, or its search, can go on wherever it is not waiting for a verdict. -/
theorem exists_runMiner (h : Inv s) (hrun : s.miner = .running)
    (hready : s.core.miner.pc = .read → s.core.monitorToMiner ≠ []) :
    ∃ a, next nCycles s a ≠ none := by
  have hheld := h.held' (by rw [hrun]; decide)
  cases hpc : s.core.miner.pc with
  | search =>
    -- while the search runs, `manage_threads` or one of its threads can move
    by_cases hdone : s.search.pc = .done
    · exact ⟨.miner, by simp [next, stepMinerProc, hrun, runMiner, hpc, hdone, Lockstep.searched]⟩
    · obtain ⟨a, ha⟩ := Search.exists_step (h.searching hpc) hdone
      cases a with
      | manage =>
        refine ⟨.miner, ?_⟩
        simp only [next, stepMinerProc, hrun, runMiner, hpc]
        simpa [Search.next] using ha
      | thread j =>
        refine ⟨.thread j, ?_⟩
        simp only [next, stepThread, hrun, hpc, and_self, if_true]
        simpa using ha
  | returned c => exact ⟨.miner, by simp [next, stepMinerProc, hrun, runMiner, hpc]⟩
  | write | reject | finish | head =>
    exact ⟨.miner, by simp [next, stepMinerProc, hrun, runMiner, hpc, hheld, Lockstep.stepMiner]⟩
  | check =>
    refine ⟨.miner, ?_⟩
    simp only [next, stepMinerProc, hrun, runMiner, hpc, Lockstep.stepMiner]
    split <;> simp
  | read =>
    cases hmo : s.core.monitorToMiner with
    | nil => exact absurd hmo (hready hpc)
    | cons c rest =>
      exact ⟨.miner, by simp [next, stepMinerProc, hrun, runMiner, hpc, hmo, Lockstep.stepMiner]⟩

/-- The monitor process can move unless it is absent, has exited, or waits for a message. -/
theorem exists_stepMonitorProc (h : Inv s) (hpresent : s.monitor ≠ .absent)
    (hexit : s.monitor ≠ .exited)
    (hready : s.monitor = .running → s.core.monitor.pc = .read → s.core.minerToMonitor ≠ []) :
    ∃ a, next nCycles s a ≠ none := by
  refine ⟨.monitor, ?_⟩
  match hpc : s.monitor with
  | .absent => exact absurd hpc hpresent
  | .exited => exact absurd hpc hexit
  | .closeRead | .closeWrite => simp [next, stepMonitorProc, hpc]
  | .running =>
    simp only [next, stepMonitorProc, hpc]
    exact exists_runMonitor (h.held hexit) (hready hpc)

/-- Unless the miner has failed, somebody can move until all have exited. -/
theorem exists_next_of_ne_failure (hfail : s.core.miner.pc ≠ .returned EXIT_FAILURE)
    (hs : (system n nCycles targetIni).Reachable s) :
    AllExited s ∨ ∃ a, next nCycles s a ≠ none := by
  have h : Inv s := inv_reachable hs
  have hj : s.core.Joint nCycles := Lockstep.joint_reachable (core_reachableBy hs).reachable
  cases hmain : s.main with
  | fork => exact Or.inr ⟨.main, by simp [next, stepMain, hmain]⟩
  | exited =>
    have hmin := h.mainLast hmain
    exact Or.inl ⟨hmain, hmin, h.minerLast hmin⟩
  | wait =>
    right
    have habsent : s.miner ≠ .absent := by rw [Ne, ← h.minerForked, hmain]; decide
    cases hmin : s.miner with
    | absent => exact absurd hmin habsent
    | exited => exact ⟨.main, by simp [next, stepMain, hmain, hmin]⟩
    | fork | closeRead | closeWrite => exact ⟨.miner, by simp [next, stepMinerProc, hmin]⟩
    | wait =>
      by_cases hmon : s.monitor = .exited
      · exact ⟨.miner, by simp [next, stepMinerProc, hmin, hmon]⟩
      · have hpresent : s.monitor ≠ .absent := by rw [Ne, h.monitorForked, hmin]; decide
        obtain ⟨c, hret⟩ := h.minerReturned hmin
        -- a miner that has not failed has sent the value that ends the monitor
        refine exists_stepMonitorProc h hpresent hmon fun _ hread => ?_
        simp only [Lockstep.Joint, hret, hread] at hj
        rcases hj.2 with hsent | ⟨-, rfl⟩
        · rw [hsent.1]
          exact List.cons_ne_nil _ _
        · exact absurd hret hfail
    | running =>
      by_cases hready : s.core.miner.pc = .read → s.core.monitorToMiner ≠ []
      · exact exists_runMiner h hmin hready
      · -- the miner waits for a verdict that has not been sent
        obtain ⟨hpc, hmo⟩ := Classical.not_imp.mp hready
        have hmo' : s.core.monitorToMiner = [] := not_not.mp hmo
        have hpresent : s.monitor ≠ .absent := by rw [Ne, h.monitorForked, hmin]; decide
        have hexit : s.monitor ≠ .exited := by
          intro hx
          obtain ⟨c, hc⟩ := h.monitorReturned hx
          simp [Lockstep.Joint, hpc, hc] at hj
        refine exists_stepMonitorProc h hpresent hexit fun _ hread => ?_
        simp only [Lockstep.Joint, hpc, hread] at hj
        rcases hj.2 with ⟨hsent, -⟩ | ⟨c, hreply, -⟩
        · rw [hsent.1]
          exact List.cons_ne_nil _ _
        · exact absurd (hmo'.symm.trans hreply.2) (List.cons_ne_nil _ _).symm

/-- **Progress.** With a covered chain somebody can move until all have exited. -/
theorem exists_next (hcov : Covers (reach n) nCycles targetIni)
    (hs : (system n nCycles targetIni).Reachable s) :
    AllExited s ∨ ∃ a, next nCycles s a ≠ none :=
  exists_next_of_ne_failure
    (Lockstep.covered_reachableBy (Search.reach_le n) hcov (core_reachableBy hs)).noFailure hs

/-- A program without deadlock has mined a covered chain when its run ends. -/
theorem covers_of_noDeadlock (h : NoDeadlock n nCycles targetIni) :
    Covers (reach n) nCycles targetIni := by
  have hinit : (system n nCycles targetIni).Reachable
      (initial (Lockstep.initial targetIni 0 0 0) fun _ => ⟨0, 0, 0, 0⟩) :=
    .init ⟨_, _, ⟨0, 0, 0, rfl⟩, rfl⟩
  obtain ⟨t, ht, hstuck⟩ :=
    System.exists_stuck (measure nCycles) (fun _ _ _ hs hn => measure_next hs hn) hinit
  rcases h t ht with ⟨-, -, hmon⟩ | ⟨a, ha⟩
  · obtain ⟨c, hc⟩ := (inv_reachable ht).monitorReturned hmon
    exact Lockstep.covers_of_exited (core_reachableBy ht) hc
  · exact absurd (hstuck a) ha

/-- **Deadlock, exactly.** The program is free of deadlock if and only if every nonce of the
hash chain from the initial target is one the threads search. -/
theorem noDeadlock_iff_covers (nThreads nCycles : ℕ) (targetIni : ℤ) :
    NoDeadlock nThreads nCycles targetIni ↔ Covers (reach nThreads) nCycles targetIni :=
  ⟨covers_of_noDeadlock, fun hcov _ hs => exists_next hcov hs⟩

/-- One round from the hash of `1`, with two threads. -/
example : NoDeadlock 2 1 35693286 :=
  fun _ hs => exists_next ⟨1, by decide, by decide, by decide, trivial⟩ hs

/-- With two threads the target `64312683` leads to a deadlock: its nonce is the last one,
which no thread searches. -/
theorem not_noDeadlock_last_nonce :
    ¬ ∀ (nThreads nCycles : ℕ) (targetIni : ℤ), 1 ≤ nThreads → nThreads ≤ 100 → 1 ≤ nCycles →
      0 ≤ targetIni → targetIni < POW_LIMIT → NoDeadlock nThreads nCycles targetIni := by
  intro hall
  have hfree := hall 2 1 64312683 (by decide) (by decide) (by decide) (by decide) (by decide)
  obtain ⟨x, hx, hx', hhash, -⟩ := covers_of_noDeadlock hfree
  have hreach : reach 2 = POW_LIMIT - 1 := by decide
  have hlast : powHash (POW_LIMIT - 1) = 64312683 := by decide
  have heq : x = POW_LIMIT - 1 :=
    powHash_injOn hx (by omega) (by decide) (by decide) (hhash.trans hlast.symm)
  omega

end Processes

end Soper.MRush
