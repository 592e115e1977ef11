import Soper.MRush.Lockstep
import Soper.MRush.Search

/-!
# Rounds the search can mine

With the threaded search in place of the oracle, a round fails exactly if the one nonce of its
target lies at or above `reach n_threads`. `Covers lim k t` says that the next `k` nonces of the
hash chain from `t` all lie below `lim`.

The two invariants here are about miner and monitor with a sound search (`SoundSearch`). The
first (`Honest`) holds in every such run: nothing is rejected, and a miner that fails has sent
nothing, so the monitor is left at its `read`. The second (`Covered`) holds if the chain is
covered from the start: the miner does not fail. Together: the monitor exits only if the chain
is covered (`covers_of_exited`), and if it is covered the miner never gives up
(`covered_reachableBy`).
-/

namespace Soper.MRush

/-- The next `k` nonces of the chain from the target `t` exist below `lim`. -/
def Covers (lim : ℤ) : ℕ → ℤ → Prop
  | 0, _ => True
  | k + 1, t => ∃ x, 0 ≤ x ∧ x < lim ∧ powHash x = t ∧ Covers lim k x

namespace Lockstep

/-- `manage_threads` returns a nonce below `lim` with the right hash, or `-1` if there is
none. -/
def SoundSearch (lim : ℤ) (s : Lockstep) : Move → Prop
  | .searched v => (0 ≤ v ∧ v < lim ∧ powHash v = s.miner.target) ∨
      (v = -1 ∧ Search.NoHit s.miner.target 0 lim)
  | _ => True

/-- The miner's variable `solution` holds the nonce of the current round. -/
def MinerPc.HasNonce (pc : MinerPc) : Prop := pc = .write ∨ pc = .read ∨ pc = .check

variable {nCycles : ℕ} {targetIni lim : ℤ} {s t : Lockstep}

/-! ### Nothing is rejected -/

/-- What a sound search guarantees. -/
structure Honest (lim : ℤ) (s : Lockstep) : Prop where
  noReject : s.rejected = []
  inRange : ∀ p ∈ s.accepted, 0 ≤ p.2 ∧ p.2 < lim
  nonce : MinerPc.HasNonce s.miner.pc →
    0 ≤ s.miner.solution ∧ s.miner.solution < lim ∧ powHash s.miner.solution = s.miner.target
  /-- A miner that has failed has sent no message. -/
  failure : s.miner.pc = .returned EXIT_FAILURE → s.monitor.pc = .read ∧ s.Quiet

/-- The result of a sound search keeps the miner honest. -/
theorem honest_searched {v : ℤ} (hj : s.Joint nCycles) (h : Honest lim s)
    (hok : SoundSearch lim s (.searched v)) (hn : s.searched v = some t) : Honest lim t := by
  simp only [searched] at hn
  split at hn
  case h_2 => cases hn
  case h_1 hpc =>
    cases hn
    have hmon := hj.monitor_read (by simp [hpc]) (by simp [hpc])
    simp only [Joint, hpc, hmon] at hj
    refine ⟨h.noReject, h.inRange, fun hnonce => ?_, fun _ => ⟨hmon, hj.1⟩⟩
    rcases hok with hv | ⟨rfl, -⟩
    · exact hv
    · simp [MinerPc.HasNonce] at hnonce

/-- The miner's steps keep it honest. -/
theorem honest_stepMiner (hj : s.Joint nCycles) (h : Honest lim s)
    (hn : s.stepMiner nCycles = some t) : Honest lim t := by
  match hpc : s.miner.pc with
  | .search | .returned _ => simp [stepMiner, hpc] at hn
  | .head =>
    simp only [stepMiner, hpc] at hn
    cases hn
    refine ⟨h.noReject, h.inRange, fun hnonce => ?_, fun hret => ?_⟩
    · simp only [MinerPc.HasNonce] at hnonce
      split at hnonce <;> simp at hnonce
    · simp only at hret
      split at hret <;> cases hret
  | .write =>
    simp only [stepMiner, hpc] at hn
    cases hn
    exact ⟨h.noReject, h.inRange, fun _ => h.nonce (Or.inl hpc), by rintro ⟨⟩⟩
  | .read =>
    simp only [stepMiner, hpc] at hn
    split at hn <;> cases hn
    exact ⟨h.noReject, h.inRange, fun _ => h.nonce (Or.inr (Or.inl hpc)),
      by rintro ⟨⟩⟩
  | .check =>
    simp only [stepMiner, hpc] at hn
    split at hn <;> cases hn
    all_goals
      exact ⟨h.noReject, h.inRange, fun hnonce => by simp [MinerPc.HasNonce] at hnonce,
        by rintro ⟨⟩⟩
  | .reject =>
    -- the miner gets here only after a rejection
    have hmon := hj.monitor_read (by simp [hpc]) (by simp [hpc])
    simp only [Joint, hpc, hmon] at hj
    exact absurd h.noReject hj.2.2
  | .finish =>
    simp only [stepMiner, hpc] at hn
    cases hn
    refine ⟨h.noReject, h.inRange, fun hnonce => by simp [MinerPc.HasNonce] at hnonce,
      fun hret => ?_⟩
    exact absurd (MinerPc.returned.inj hret) (by decide)

/-- The monitor's steps keep the miner honest: the pair it judges passes the test. -/
theorem honest_stepMonitor (hj : s.Joint nCycles) (h : Honest lim s)
    (hn : s.stepMonitor = some t) : Honest lim t := by
  cases hmon : s.monitor.pc with
  | exited _ => simp [stepMonitor, hmon] at hn
  | read =>
    simp only [stepMonitor, hmon] at hn
    split at hn
    case h_1 => cases hn
    case h_2 v rest hmm =>
      cases hn
      refine ⟨h.noReject, h.inRange, h.nonce, fun hret => ?_⟩
      have hquiet := (h.failure hret).2.1
      rw [hmm] at hquiet
      cases hquiet
  | check =>
    simp only [stepMonitor, hmon] at hn
    cases hn
    -- the monitor would be back in `read`
    have hfail : s.miner.pc ≠ .returned EXIT_FAILURE := by
      intro hret
      have hread := (h.failure hret).1
      rw [hmon] at hread
      cases hread
    cases hpc : s.miner.pc with
    | head | search | write | check | reject | finish => simp [Joint, hpc, hmon] at hj
    | read =>
      simp only [Joint, hpc, hmon] at hj
      obtain ⟨-, ⟨htarget, -, -⟩, -, hne, heq⟩ := hj
      obtain ⟨hlow, hhigh, hhash⟩ := h.nonce (Or.inr (Or.inl hpc))
      have hterm : ¬ s.monitor.solution = -1 := heq ▸ hne
      -- the miner only sends nonces of its target, so the test succeeds
      have htest : s.monitor.target = powHash s.monitor.solution := by
        rw [heq, hhash, htarget]
      simp only [judge, if_neg hterm, if_pos htest]
      refine ⟨h.noReject, ?_, h.nonce, fun hret => absurd hret hfail⟩
      exact List.forall_mem_append.mpr
        ⟨h.inRange, List.forall_mem_singleton.mpr ⟨heq ▸ hlow, heq ▸ hhigh⟩⟩
    | returned c =>
      simp only [Joint, hpc, hmon] at hj
      simp only [judge, if_pos hj.2.2]
      exact ⟨h.noReject, h.inRange, h.nonce, fun hret => absurd hret hfail⟩
  | reply =>
    simp only [stepMonitor, hmon] at hn
    cases hn
    refine ⟨h.noReject, h.inRange, h.nonce, fun hret => ?_⟩
    have hread := (h.failure hret).1
    rw [hmon] at hread
    cases hread

/-- With a sound search every state reached is honest. -/
theorem honest_reachableBy (h : (system nCycles targetIni).ReachableBy (SoundSearch lim) s) :
    Honest lim s := by
  induction h with
  | init hs =>
    obtain ⟨a, b, c, rfl⟩ := hs
    refine ⟨rfl, fun _ hp => absurd hp List.not_mem_nil, fun hnonce => ?_, fun hret => nomatch hret⟩
    simp [MinerPc.HasNonce, initial] at hnonce
  | @step s t a hs hok hn ih =>
    have hj : s.Joint nCycles := joint_reachable hs.reachable
    cases a with
    | searched v => exact honest_searched hj ih hok hn
    | miner => exact honest_stepMiner hj ih hn
    | monitor => exact honest_stepMonitor hj ih hn

/-- A mined chain with nonces below `lim` is covered. -/
theorem IsMined.covers {t u : ℤ} {l : List (ℤ × ℤ)} (h : IsMined t l u)
    (hlim : ∀ p ∈ l, 0 ≤ p.2 ∧ p.2 < lim) : Covers lim l.length t := by
  induction l generalizing t with
  | nil => trivial
  | cons p l ih =>
    obtain ⟨hfirst, hhash, hrest⟩ := h
    obtain ⟨⟨hlow, hhigh⟩, hlim'⟩ := List.forall_mem_cons.mp hlim
    exact ⟨p.2, hlow, hhigh, hhash.trans hfirst, ih hrest hlim'⟩

/-- **The monitor exits only after a covered chain.** -/
theorem covers_of_exited {c : ℤ}
    (h : (system nCycles targetIni).ReachableBy (SoundSearch lim) s)
    (hmon : s.monitor.pc = .exited c) : Covers lim nCycles targetIni := by
  have hj : s.Joint nCycles := joint_reachable h.reachable
  have hs := honest_reachableBy h
  match hpc : s.miner.pc with
  | .head | .search | .write | .read | .check | .reject | .finish => simp [Joint, hpc, hmon] at hj
  | .returned status =>
    simp only [Joint, hpc, hmon] at hj
    rcases hj.1 with ⟨-, hlen, -⟩ | rfl
    · rw [← hlen]
      exact (recorded_reachable h.reachable).1.covers hs.inRange
    · have hread := (hs.failure hpc).1
      rw [hmon] at hread
      cases hread

/-! ### A covered chain is mined to its end -/

/-- What is left of the chain is covered, and the miner has not failed. -/
structure Covered (lim : ℤ) (nCycles : ℕ) (s : Lockstep) : Prop where
  ahead : s.miner.pc = .head ∨ s.miner.pc = .search →
    Covers lim (nCycles - s.miner.i) s.miner.target
  behind : MinerPc.HasNonce s.miner.pc → Covers lim (nCycles - (s.miner.i + 1)) s.miner.solution
  noFailure : s.miner.pc ≠ .returned EXIT_FAILURE

/-- The nonce found is the one the chain goes on with: there is only one. -/
theorem covered_searched {v : ℤ} (hlim : lim ≤ POW_LIMIT) (hj : s.Joint nCycles)
    (h : Covered lim nCycles s) (hok : SoundSearch lim s (.searched v))
    (hn : s.searched v = some t) : Covered lim nCycles t := by
  simp only [searched] at hn
  split at hn
  case h_2 => cases hn
  case h_1 hpc =>
    cases hn
    have hi : s.miner.i < nCycles := by
      have hmon := hj.monitor_read (by simp [hpc]) (by simp [hpc])
      simp only [Joint, hpc, hmon] at hj
      exact hj.2.2
    have hcov := h.ahead (Or.inr hpc)
    rw [show nCycles - s.miner.i = nCycles - (s.miner.i + 1) + 1 by omega] at hcov
    obtain ⟨x, hx, hx', hhash, hrest⟩ := hcov
    rcases hok with ⟨hv, hv', hvhash⟩ | ⟨-, hnone⟩
    -- two nonces with one hash below `POW_LIMIT` are the same
    · have hne : v ≠ -1 := by omega
      have hvx : v = x :=
        powHash_injOn hv (by omega) hx (by omega) (hvhash.trans hhash.symm)
      refine ⟨fun hhead => ?_, fun _ => hvx ▸ hrest, ?_⟩
      · simp [hne] at hhead
      · simp [hne]
    -- the chain goes on with a nonce the search would have found
    · exact absurd hhash (hnone x hx hx')

/-- The miner's steps keep the rest of the chain covered. -/
theorem covered_stepMiner (hj : s.Joint nCycles) (hs : Honest lim s)
    (h : Covered lim nCycles s) (hn : s.stepMiner nCycles = some t) :
    Covered lim nCycles t := by
  match hpc : s.miner.pc with
  | .search | .returned _ => simp [stepMiner, hpc] at hn
  | .head =>
    simp only [stepMiner, hpc] at hn
    cases hn
    refine ⟨fun _ => h.ahead (Or.inl hpc), fun hnonce => ?_, fun hret => ?_⟩
    · simp only [MinerPc.HasNonce] at hnonce
      split at hnonce <;> simp at hnonce
    · simp only at hret
      split at hret <;> cases hret
  | .write =>
    simp only [stepMiner, hpc] at hn
    cases hn
    exact ⟨fun hhead => by simp at hhead, fun _ => h.behind (Or.inl hpc),
      by rintro ⟨⟩⟩
  | .read =>
    simp only [stepMiner, hpc] at hn
    split at hn <;> cases hn
    exact ⟨fun hhead => by simp at hhead, fun _ => h.behind (Or.inr (Or.inl hpc)),
      by rintro ⟨⟩⟩
  | .check =>
    simp only [stepMiner, hpc] at hn
    split at hn <;> cases hn
    · exact ⟨fun hhead => by simp at hhead, fun hnonce => by simp [MinerPc.HasNonce] at hnonce,
        by rintro ⟨⟩⟩
    · exact ⟨fun _ => h.behind (Or.inr (Or.inr hpc)),
        fun hnonce => by simp [MinerPc.HasNonce] at hnonce, by rintro ⟨⟩⟩
  | .reject =>
    have hmon := hj.monitor_read (by simp [hpc]) (by simp [hpc])
    -- an honest miner is never rejected
    simp only [Joint, hpc, hmon] at hj
    exact absurd hs.noReject hj.2.2
  | .finish =>
    simp only [stepMiner, hpc] at hn
    cases hn
    refine ⟨fun hhead => by simp at hhead, fun hnonce => by simp [MinerPc.HasNonce] at hnonce,
      fun hret => ?_⟩
    exact absurd (MinerPc.returned.inj hret) (by decide)

/-- The monitor does not touch the miner's variables. -/
theorem miner_stepMonitor (hn : s.stepMonitor = some t) : t.miner = s.miner := by
  simp only [stepMonitor] at hn
  split at hn
  · split at hn <;> cases hn
    rfl
  · cases hn
    unfold judge
    split
    · rfl
    · split <;> rfl
  · cases hn
    rfl
  · cases hn

/-- **A covered chain never fails.** -/
theorem covered_reachableBy (hlim : lim ≤ POW_LIMIT) (hcov : Covers lim nCycles targetIni)
    (h : (system nCycles targetIni).ReachableBy (SoundSearch lim) s) :
    Covered lim nCycles s := by
  induction h with
  | init hs =>
    obtain ⟨a, b, c, rfl⟩ := hs
    exact ⟨fun _ => hcov, fun hnonce => by simp [MinerPc.HasNonce, initial] at hnonce,
      fun hret => nomatch hret⟩
  | @step s t a hs hok hn ih =>
    have hj : s.Joint nCycles := joint_reachable hs.reachable
    cases a with
    | searched v => exact covered_searched hlim hj ih hok hn
    | miner => exact covered_stepMiner hj (honest_reachableBy hs) ih hn
    | monitor =>
      have hsame : t.miner = s.miner := miner_stepMonitor hn
      exact ⟨hsame ▸ ih.ahead, hsame ▸ ih.behind, hsame ▸ ih.noFailure⟩

end Lockstep

end Soper.MRush
