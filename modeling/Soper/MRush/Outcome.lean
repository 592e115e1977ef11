import Soper.MRush.Deadlock

/-!
# What a run of the first pipe program comes to

As long as no call of `calloc`, `pipe`, `fork`, `read`, `write` or the thread library fails and no
signal comes, the schedule of the three processes and of the threads decides nothing. `mined` is
the chain that the arguments determine: the rounds from the initial target, as long as the one
nonce of the target is in the part that the threads search. Every run ends with the monitor having
accepted exactly these pairs, in this order, and having rejected none (`ensures_outcome`). If they
are all `n_cycles` rounds, the three processes have exited, with success. If not, the miner has
failed, the monitor waits for a message, the miner process for the monitor and `main` for the
miner process.
-/

namespace Soper.MRush

/-- The rounds that can be mined from the target `t` with nonces below `lim`, `k` at most. -/
def mined (lim : ℤ) : ℕ → ℤ → List (ℤ × ℤ)
  | 0, _ => []
  | k + 1, t =>
    if powHash (nonce t) = t ∧ nonce t < lim then (t, nonce t) :: mined lim k (nonce t) else []

example : mined POW_LIMIT 2 35693286 = [(35693286, 1), (1, nonce 1)] := by decide +kernel

namespace Lockstep

variable {nCycles : ℕ} {targetIni lim : ℤ} {s t : Lockstep}

/-- **There is only one such chain**: pairs that pass the test, with nonces below `lim`, which
stop after `k` rounds or where no nonce is left. -/
theorem IsMined.eq_mined {k : ℕ} {t u : ℤ} {l : List (ℤ × ℤ)} (hlim : lim ≤ POW_LIMIT)
    (h : IsMined t l u) (hrange : ∀ p ∈ l, 0 ≤ p.2 ∧ p.2 < lim) (hlen : l.length ≤ k)
    (hend : l.length < k → Search.NoHit u 0 lim) : l = mined lim k t := by
  induction l generalizing k t with
  | nil =>
    obtain rfl : t = u := h
    cases k with
    | zero => rfl
    | succ k =>
      rw [mined, if_neg]
      rintro ⟨hhash, hlt⟩
      exact hend (Nat.succ_pos k) (nonce t) (nonce_nonneg t) hlt hhash
  | cons p l ih =>
    obtain ⟨x, y⟩ := p
    obtain ⟨rfl, hhash, hrest⟩ := h
    obtain ⟨⟨hlow, hhigh⟩, hrange'⟩ := List.forall_mem_cons.mp hrange
    obtain ⟨k, rfl⟩ : ∃ m, k = m + 1 := Nat.exists_eq_add_one.mpr (Nat.zero_lt_of_lt hlen)
    -- the nonce sent is the nonce of the target
    obtain rfl : y = nonce x := eq_nonce hlow (hhigh.trans_le hlim) hhash
    rw [mined, if_pos ⟨hhash, hhigh⟩]
    exact congrArg _ (ih hrest hrange' (Nat.succ_le_succ_iff.mp hlen)
      fun hlt => hend (Nat.succ_lt_succ hlt))

/-- The miner gives up only where no nonce is left, in a round that the monitor has not
judged. -/
def GivesUp (lim : ℤ) (nCycles : ℕ) (s : Lockstep) : Prop :=
  s.miner.pc = .returned EXIT_FAILURE →
    Search.NoHit s.monitor.target 0 lim ∧ s.accepted.length < nCycles

theorem givesUp_searched {v : ℤ} (hj : s.Joint nCycles)
    (hok : SoundSearch lim s (.searched v)) (hn : s.searched v = some t) :
    GivesUp lim nCycles t := by
  simp only [searched] at hn
  split at hn
  case h_2 => cases hn
  case h_1 hpc =>
    have hmon := hj.monitor_read (by simp [hpc]) (by simp [hpc])
    simp only [Joint, hpc, hmon] at hj
    obtain ⟨-, ⟨htarget, hlen, -⟩, hi⟩ := hj
    cases hn
    intro hret
    rcases hok with ⟨hlow, -, -⟩ | ⟨rfl, hnone⟩
    · have hne : v ≠ -1 := by omega
      simp [hne] at hret
    · exact ⟨htarget ▸ hnone, hlen.symm ▸ hi⟩

/-- Outside the search an honest miner does not fail. -/
theorem ne_failure_stepMiner (hj : s.Joint nCycles) (hh : Honest lim s)
    (hn : s.stepMiner nCycles = some t) : t.miner.pc ≠ .returned EXIT_FAILURE := by
  match hpc : s.miner.pc with
  | .search | .returned _ => simp [stepMiner, hpc] at hn
  | .head | .check =>
    simp only [stepMiner, hpc] at hn
    intro hret
    split at hn <;> cases hn <;> cases hret
  | .write =>
    simp only [stepMiner, hpc] at hn
    cases hn
    rintro ⟨⟩
  | .read =>
    simp only [stepMiner, hpc] at hn
    split at hn <;> cases hn
    rintro ⟨⟩
  | .reject =>
    have hmon := hj.monitor_read (by simp [hpc]) (by simp [hpc])
    simp only [Joint, hpc, hmon] at hj
    exact absurd hh.noReject hj.2.2
  | .finish =>
    simp only [stepMiner, hpc] at hn
    cases hn
    exact fun hret => absurd (MinerPc.returned.inj hret) (by decide)

/-- With a sound search a miner that has failed has given up. -/
theorem givesUp_reachableBy (h : (system nCycles targetIni).ReachableBy (SoundSearch lim) s) :
    GivesUp lim nCycles s := by
  induction h with
  | init hs =>
    obtain ⟨a, b, c, rfl⟩ := hs
    rintro ⟨⟩
  | @step s t a hs hok hn ih =>
    have hj : s.Joint nCycles := joint_reachable hs.reachable
    have hh := honest_reachableBy hs
    cases a with
    | searched v => exact givesUp_searched hj hok hn
    | miner => exact fun hret => absurd hret (ne_failure_stepMiner hj hh hn)
    | monitor =>
      -- the monitor has nothing to read
      intro hret
      have hret' : s.miner.pc = .returned EXIT_FAILURE := (miner_stepMonitor hn) ▸ hret
      obtain ⟨hread, hempty, -⟩ := hh.failure hret'
      change s.stepMonitor = some t at hn
      simp [stepMonitor, hread, hempty] at hn

/-- The monitor exits with success only. -/
theorem exited_success (h : (system nCycles targetIni).Reachable s) :
    ∀ c, s.monitor.pc = .exited c → c = EXIT_SUCCESS := by
  refine h.induct (I := fun s => ∀ c, s.monitor.pc = .exited c → c = EXIT_SUCCESS) ?_ ?_
  · rintro _ ⟨a, b, c, rfl⟩ _ ⟨⟩
  intro s a t ih hn
  cases a with
  | searched v =>
    change s.searched v = some t at hn
    simp only [searched] at hn
    split at hn <;> cases hn
    exact ih
  | miner =>
    change s.stepMiner nCycles = some t at hn
    simp only [stepMiner] at hn
    split at hn <;> (try split at hn) <;> cases hn <;> exact ih
  | monitor =>
    change s.stepMonitor = some t at hn
    intro c hc
    simp only [stepMonitor] at hn
    split at hn
    · split at hn <;> cases hn
      cases hc
    · cases hn
      unfold judge at hc
      split at hc
      · exact (MonitorPc.exited.inj hc).symm
      · split at hc <;> cases hc
    · cases hn
      cases hc
    · cases hn

/-- The pairs accepted are the beginning of the one chain, and all of it where the rounds are over
or the miner has given up. -/
theorem accepted_eq_mined (hlim : lim ≤ POW_LIMIT)
    (h : (system nCycles targetIni).ReachableBy (SoundSearch lim) s)
    (hend : s.accepted.length = nCycles ∨ s.miner.pc = .returned EXIT_FAILURE) :
    s.accepted = mined lim nCycles targetIni := by
  have hmined := (recorded_reachable h.reachable).1
  have hrange := (honest_reachableBy h).inRange
  rcases hend with hlen | hret
  · exact hmined.eq_mined hlim hrange hlen.le fun hlt => absurd hlen hlt.ne
  · obtain ⟨hnone, hlt⟩ := givesUp_reachableBy h hret
    exact hmined.eq_mined hlim hrange hlt.le fun _ => hnone

end Lockstep

namespace Processes

variable {n nCycles : ℕ} {targetIni : ℤ} {s t : Processes n}

/-- How a run ends. -/
structure Outcome (nCycles : ℕ) (targetIni : ℤ) (s : Processes n) : Prop where
  accepted : s.core.accepted = mined (reach n) nCycles targetIni
  rejected : s.core.rejected = []
  /-- All rounds can be mined. -/
  success : (mined (reach n) nCycles targetIni).length = nCycles →
    AllExited s ∧ s.core.miner.pc = .returned EXIT_SUCCESS ∧
      s.core.monitor.pc = .exited EXIT_SUCCESS
  /-- Some round cannot: everybody waits. -/
  failure : (mined (reach n) nCycles targetIni).length ≠ nCycles →
    s.main = .wait ∧ s.miner = .wait ∧ s.core.miner.pc = .returned EXIT_FAILURE ∧
      s.monitor = .running ∧ s.core.monitor.pc = .read ∧ s.core.Quiet

/-- Where the processes have exited without a failure of the miner, all rounds are accepted. -/
theorem success_of_exited (hs : (system n nCycles targetIni).Reachable s) (hall : AllExited s)
    (hfail : s.core.miner.pc ≠ .returned EXIT_FAILURE) :
    s.core.accepted.length = nCycles ∧ s.core.miner.pc = .returned EXIT_SUCCESS ∧
      s.core.monitor.pc = .exited EXIT_SUCCESS := by
  have hcore := core_reachableBy hs
  have hj : s.core.Joint nCycles := Lockstep.joint_reachable hcore.reachable
  obtain ⟨c, hc⟩ := (inv_reachable hs).monitorReturned hall.2.2
  obtain rfl := Lockstep.exited_success hcore.reachable c hc
  cases hpc : s.core.miner.pc with
  | head | search | write | read | check | reject | finish => simp [Lockstep.Joint, hpc, hc] at hj
  | returned status =>
    simp only [Lockstep.Joint, hpc, hc] at hj
    obtain ⟨⟨rfl, hlen, -⟩ | rfl, -⟩ := hj
    · exact ⟨hlen, rfl, hc⟩
    · exact absurd hpc hfail

/-- Where the miner has failed and nobody can move, everybody waits. -/
theorem waiting_of_failure (hs : (system n nCycles targetIni).Reachable s)
    (hstuck : (system n nCycles targetIni).Stuck s)
    (hfail : s.core.miner.pc = .returned EXIT_FAILURE) :
    s.main = .wait ∧ s.miner = .wait ∧ s.monitor = .running ∧ s.core.monitor.pc = .read ∧
      s.core.Quiet := by
  have h : Inv s := inv_reachable hs
  obtain ⟨hread, hquiet⟩ := (Lockstep.honest_reachableBy (core_reachableBy hs)).failure hfail
  have hmonitor : s.monitor ≠ .exited := by
    intro hx
    obtain ⟨c, hc⟩ := h.monitorReturned hx
    rw [hread] at hc
    cases hc
  have hminer : s.miner ≠ .exited := fun hx => hmonitor (h.minerLast hx)
  have hstepMain : s.stepMain = none := hstuck .main
  have hstepMiner : s.stepMinerProc nCycles = none := hstuck .miner
  have hstepMonitor : s.stepMonitorProc = none := hstuck .monitor
  have hmain : s.main = .wait := by
    cases hpc : s.main with
    | fork => simp [stepMain, hpc] at hstepMain
    | wait => rfl
    | exited => exact absurd (h.mainLast hpc) hminer
  have hwait : s.miner = .wait := by
    cases hpc : s.miner with
    | absent =>
      have hfork := h.minerForked.mpr hpc
      rw [hmain] at hfork
      cases hfork
    | fork | closeRead | closeWrite => simp [stepMinerProc, hpc] at hstepMiner
    | running => simp [stepMinerProc, hpc, runMiner, hfail] at hstepMiner
    | wait => rfl
    | exited => exact absurd hpc hminer
  refine ⟨hmain, hwait, ?_, hread, hquiet⟩
  cases hpc : s.monitor with
  | absent => rcases h.monitorForked.mp hpc with hx | hx <;> rw [hwait] at hx <;> cases hx
  | closeRead | closeWrite => simp [stepMonitorProc, hpc] at hstepMonitor
  | running => rfl
  | exited => exact absurd hpc hmonitor

/-- **What a run comes to** is decided by the arguments, where no call fails: every run of the
program ends, with the same pairs accepted, none rejected, and success exactly if these are all
rounds. -/
theorem ensures_outcome (nThreads nCycles : ℕ) (targetIni : ℤ) :
    (system nThreads nCycles targetIni).Ensures (Outcome nCycles targetIni) := by
  refine System.ensures_of_measure (measure nCycles) (fun _ _ _ hs hn => measure_next hs hn) ?_
  intro s hs hstuck
  have hcore := core_reachableBy hs
  have hlim := Search.reach_le nThreads
  have hreject := (Lockstep.honest_reachableBy hcore).noReject
  by_cases hfail : s.core.miner.pc = .returned EXIT_FAILURE
  · -- the miner has given up in a round that is not the last
    have haccepted := Lockstep.accepted_eq_mined hlim hcore (Or.inr hfail)
    obtain ⟨-, hlt⟩ := Lockstep.givesUp_reachableBy hcore hfail
    obtain ⟨hmain, hminer, hmonitor, hread, hquiet⟩ := waiting_of_failure hs hstuck hfail
    refine ⟨haccepted, hreject, fun hlen => ?_, fun _ => ?_⟩
    · rw [← haccepted] at hlen
      exact absurd hlen hlt.ne
    · exact ⟨hmain, hminer, hfail, hmonitor, hread, hquiet⟩
  · have hall : AllExited s := by
      rcases exists_next_of_ne_failure hfail hs with hall | ⟨a, ha⟩
      · exact hall
      · exact absurd (hstuck a) ha
    obtain ⟨hlen, hminer, hmonitor⟩ := success_of_exited hs hall hfail
    have haccepted := Lockstep.accepted_eq_mined hlim hcore (Or.inl hlen)
    refine ⟨haccepted, hreject, fun _ => ⟨hall, hminer, hmonitor⟩, fun hne => ?_⟩
    rw [← haccepted] at hne
    exact absurd hlen hne

end Processes

end Soper.MRush
