import Soper.Library.Transition
import Soper.Pow

/-!
# Miner and monitor in lock step

The functions `miner` and `monitor` of the first pipe program, over the pipes
`miner_to_monitor` and `monitor_to_miner`. In each round the miner searches a nonce for its
target, sends it, and waits for the verdict; the monitor checks the nonce against its own copy
of the target and answers `0` or `1`. Both sides take an accepted nonce as their next target,
at different times. The value `-1` on the first pipe ends the protocol.

The search is an oracle here: `Move.searched v` lets `manage_threads` return any value. The
ghost lists `accepted` and `rejected` record the pairs `(target, solution)` the monitor prints.

`Joint` says, for each pair of program points that can occur together, what is in the pipes and
how the two targets relate; every step keeps it (`joint_next`). Its consequence
`inLockstep_of_reachable` is what a user of the protocol relies on: one message at a time, equal
targets at the head of each round, an accepted chain that starts at the initial target and
passes the hash test, and success only after `nCycles` accepted pairs.
-/

namespace Soper.MRush

def EXIT_SUCCESS : ℤ := 0

def EXIT_FAILURE : ℤ := 1

/-- Where `miner` stands. -/
inductive MinerPc
  /-- The loop test `i < n_cycles`. -/
  | head
  /-- `manage_threads`. -/
  | search
  /-- `write(miner_to_monitor, &solution, ..)`. -/
  | write
  /-- `read(monitor_to_miner, &solution_check, ..)`. -/
  | read
  /-- `if (solution_check == 1)`. -/
  | check
  /-- The `write` of `-1` after a rejection. -/
  | reject
  /-- The `write` of `-1` after the last round. -/
  | finish
  | returned (status : ℤ)
  deriving DecidableEq

/-- Where `monitor` stands. -/
inductive MonitorPc
  /-- `read(miner_to_monitor, &solution, ..)`. -/
  | read
  /-- `if (solution != -1)` and the hash test. -/
  | check
  /-- `write(monitor_to_miner, &solution_check, ..)`. -/
  | reply
  | exited (status : ℤ)
  deriving DecidableEq

/-- The local variables of `miner`. -/
structure Miner where
  pc : MinerPc
  i : ℕ
  target : ℤ
  solution : ℤ
  solutionCheck : ℤ

/-- The local variables of `monitor`. -/
structure Monitor where
  pc : MonitorPc
  target : ℤ
  solution : ℤ
  solutionCheck : ℤ

/-- Both processes, the contents of the pipes in sending order, and the pairs printed as
accepted and as rejected. -/
structure Lockstep where
  miner : Miner
  monitor : Monitor
  minerToMonitor : List ℤ
  monitorToMiner : List ℤ
  accepted : List (ℤ × ℤ)
  rejected : List (ℤ × ℤ)

/-- Who moves. -/
inductive Move
  /-- `manage_threads` returns. -/
  | searched (v : ℤ)
  | miner
  | monitor

namespace Lockstep

/-- `manage_threads` has returned `v` to the miner; `-1` ends `miner` without a message. -/
def searched (s : Lockstep) (v : ℤ) : Option Lockstep :=
  match s.miner.pc with
  | .search =>
    some { s with miner := { s.miner with
      solution := v, pc := if v = -1 then .returned EXIT_FAILURE else .write } }
  | _ => none

/-- One step of `miner` outside `manage_threads`; `nCycles` is its parameter `n_cycles`. -/
def stepMiner (nCycles : ℕ) (s : Lockstep) : Option Lockstep :=
  match s.miner.pc with
  | .head =>
    some { s with miner := { s.miner with
      pc := if s.miner.i < nCycles then .search else .finish } }
  | .search => none
  | .write =>
    some { s with
      minerToMonitor := s.minerToMonitor ++ [s.miner.solution]
      miner := { s.miner with pc := .read } }
  | .read =>
    match s.monitorToMiner with
    | [] => none
    | c :: rest =>
      some { s with
        monitorToMiner := rest, miner := { s.miner with solutionCheck := c, pc := .check } }
  | .check =>
    if s.miner.solutionCheck = 1 then
      some { s with miner := { s.miner with solution := -1, pc := .reject } }
    else
      some { s with miner := { s.miner with
        target := s.miner.solution, i := s.miner.i + 1, pc := .head } }
  | .reject =>
    some { s with
      minerToMonitor := s.minerToMonitor ++ [s.miner.solution]
      miner := { s.miner with pc := .returned EXIT_FAILURE } }
  | .finish =>
    some { s with
      minerToMonitor := s.minerToMonitor ++ [-1]
      miner := { s.miner with solution := -1, pc := .returned EXIT_SUCCESS } }
  | .returned _ => none

/-- The test of the monitor on the solution it has read. -/
def judge (s : Lockstep) : Lockstep :=
  if s.monitor.solution = -1 then
    { s with monitor := { s.monitor with pc := .exited EXIT_SUCCESS } }
  else if s.monitor.target = powHash s.monitor.solution then
    { s with
      accepted := s.accepted ++ [(s.monitor.target, s.monitor.solution)]
      monitor := { s.monitor with
        solutionCheck := 0, target := s.monitor.solution, pc := .reply } }
  else
    { s with
      rejected := s.rejected ++ [(s.monitor.target, s.monitor.solution)]
      monitor := { s.monitor with solutionCheck := 1, pc := .reply } }

/-- One step of `monitor`. -/
def stepMonitor (s : Lockstep) : Option Lockstep :=
  match s.monitor.pc with
  | .read =>
    match s.minerToMonitor with
    | [] => none
    | v :: rest =>
      some { s with
        minerToMonitor := rest, monitor := { s.monitor with solution := v, pc := .check } }
  | .check => some s.judge
  | .reply =>
    some { s with
      monitorToMiner := s.monitorToMiner ++ [s.monitor.solutionCheck]
      monitor := { s.monitor with pc := .read } }
  | .exited _ => none

/-- One step of the two processes. -/
def next (nCycles : ℕ) (s : Lockstep) : Move → Option Lockstep
  | .searched v => s.searched v
  | .miner => s.stepMiner nCycles
  | .monitor => s.stepMonitor

/-- The calls `miner(n_cycles, .., target_ini, ..)` and `monitor(.., target_ini)` on empty
pipes; `a`, `b` and `c` stand in the variables the code leaves uninitialised. -/
def initial (targetIni a b c : ℤ) : Lockstep where
  miner := { pc := .head, i := 0, target := targetIni, solution := a, solutionCheck := 1 }
  monitor := { pc := .read, target := targetIni, solution := b, solutionCheck := c }
  minerToMonitor := []
  monitorToMiner := []
  accepted := []
  rejected := []

/-- Miner and monitor as a transition system. -/
def system (nCycles : ℕ) (targetIni : ℤ) : System Lockstep Move where
  Init s := ∃ a b c, s = initial targetIni a b c
  next := next nCycles

/-! ### Mined chains -/

/-- The pairs lead from the target `t` to the target `u`: each starts at the current target,
its solution passes the hash test, and becomes the next target. -/
def IsMined : ℤ → List (ℤ × ℤ) → ℤ → Prop
  | t, [], u => t = u
  | t, p :: l, u => p.1 = t ∧ powHash p.2 = p.1 ∧ IsMined p.2 l u

theorem IsMined.snoc {t u v : ℤ} {l : List (ℤ × ℤ)} (h : IsMined t l u) (hv : powHash v = u) :
    IsMined t (l ++ [(u, v)]) v := by
  induction l generalizing t with
  | nil =>
    obtain rfl : t = u := h
    exact ⟨rfl, hv, rfl⟩
  | cons p l ih => exact ⟨h.1, h.2.1, ih h.2.2⟩

/-- Every pair of a mined chain passes the hash test. -/
theorem IsMined.powHash_eq {t u : ℤ} {l : List (ℤ × ℤ)} (h : IsMined t l u) :
    ∀ p ∈ l, powHash p.2 = p.1 := by
  induction l generalizing t with
  | nil => exact fun _ hp => nomatch hp
  | cons q l ih => exact List.forall_mem_cons.mpr ⟨h.2.1, ih h.2.2⟩

/-! ### The joint invariant -/

/-- Both pipes are empty. -/
def Quiet (s : Lockstep) : Prop := s.minerToMonitor = [] ∧ s.monitorToMiner = []

/-- The only message in flight is `v`, to the monitor. -/
def Sent (s : Lockstep) (v : ℤ) : Prop := s.minerToMonitor = [v] ∧ s.monitorToMiner = []

/-- The only message in flight is `c`, to the miner. -/
def Replied (s : Lockstep) (c : ℤ) : Prop := s.minerToMonitor = [] ∧ s.monitorToMiner = [c]

/-- The miner and the monitor work on one target, and all earlier rounds were accepted. -/
def Agree (s : Lockstep) : Prop :=
  s.miner.target = s.monitor.target ∧ s.accepted.length = s.miner.i ∧ s.rejected = []

/-- The monitor has answered `c` to the miner's solution: on acceptance it is one target ahead,
on rejection the pair is on record. -/
def Verdict (s : Lockstep) (c : ℤ) : Prop :=
  (c = 0 ∧ s.monitor.target = s.miner.solution ∧ s.accepted.length = s.miner.i + 1 ∧
    s.rejected = []) ∨
  (c = 1 ∧ s.rejected ≠ [])

/-- The miner has returned, with success only after `nCycles` accepted rounds. -/
def Ended (nCycles : ℕ) (s : Lockstep) (status : ℤ) : Prop :=
  (status = EXIT_SUCCESS ∧ s.accepted.length = nCycles ∧ s.rejected = []) ∨
  status = EXIT_FAILURE

/-- What holds at each pair of program points; pairs not listed do not occur. -/
def Joint (nCycles : ℕ) (s : Lockstep) : Prop :=
  match s.miner.pc, s.monitor.pc with
  | .head, .read => s.Quiet ∧ s.Agree ∧ s.miner.i ≤ nCycles
  | .search, .read => s.Quiet ∧ s.Agree ∧ s.miner.i < nCycles
  | .write, .read => s.Quiet ∧ s.Agree ∧ s.miner.i < nCycles ∧ s.miner.solution ≠ -1
  | .read, .read =>
    s.miner.i < nCycles ∧
      ((s.Sent s.miner.solution ∧ s.Agree ∧ s.miner.solution ≠ -1) ∨
        ∃ c, s.Replied c ∧ s.Verdict c)
  | .read, .check =>
    s.Quiet ∧ s.Agree ∧ s.miner.i < nCycles ∧ s.miner.solution ≠ -1 ∧
      s.monitor.solution = s.miner.solution
  | .read, .reply => s.Quiet ∧ s.miner.i < nCycles ∧ s.Verdict s.monitor.solutionCheck
  | .check, .read => s.Quiet ∧ s.miner.i < nCycles ∧ s.Verdict s.miner.solutionCheck
  | .reject, .read => s.Quiet ∧ s.miner.solution = -1 ∧ s.rejected ≠ []
  | .finish, .read => s.Quiet ∧ s.Agree ∧ s.miner.i = nCycles
  | .returned c, .read => s.Ended nCycles c ∧ (s.Sent (-1) ∨ (s.Quiet ∧ c = EXIT_FAILURE))
  | .returned c, .check => s.Ended nCycles c ∧ s.Quiet ∧ s.monitor.solution = -1
  | .returned c, .exited _ => s.Ended nCycles c ∧ s.Quiet
  | _, _ => False

variable {nCycles : ℕ} {targetIni : ℤ} {s t : Lockstep}

/-- Unless the miner waits for a verdict, or has returned, the monitor waits for a message. -/
theorem Joint.monitor_read (h : s.Joint nCycles) (hread : s.miner.pc ≠ .read)
    (hret : ∀ c, s.miner.pc ≠ .returned c) : s.monitor.pc = .read := by
  match hpc : s.miner.pc with
  | .read => exact absurd hpc hread
  | .returned c => exact absurd hpc (hret c)
  | .head | .search | .write | .check | .reject | .finish =>
    match hmon : s.monitor.pc with
    | .read => rfl
    | .check | .reply | .exited _ => simp [Joint, hpc, hmon] at h

/-- A value other than `-1` brings the miner to its `write`, and `-1` to its end. -/
theorem joint_searched {v : ℤ} (h : s.Joint nCycles) (hn : s.searched v = some t) :
    t.Joint nCycles := by
  simp only [searched] at hn
  split at hn
  case h_2 => cases hn
  case h_1 hpc =>
    cases hn
    have hmon := h.monitor_read (by rw [hpc]; nofun) (by rw [hpc]; nofun)
    simp only [Joint, hpc, hmon] at h
    obtain ⟨hquiet, hagree, hi⟩ := h
    by_cases hv : v = -1
    · simp only [Joint, hv, hmon, if_true]
      exact ⟨Or.inr rfl, Or.inr ⟨hquiet, trivial⟩⟩
    · simp only [Joint, hv, hmon, if_false]
      exact ⟨hquiet, hagree, hi, hv⟩

/-- The miner's steps keep the joint invariant. -/
theorem joint_stepMiner (h : s.Joint nCycles) (hn : s.stepMiner nCycles = some t) :
    t.Joint nCycles := by
  match hpc : s.miner.pc with
  | .search | .returned _ => simp [stepMiner, hpc] at hn
  | .head =>
    simp only [stepMiner, hpc] at hn
    cases hn
    have hmon := h.monitor_read (by rw [hpc]; nofun) (by rw [hpc]; nofun)
    simp only [Joint, hpc, hmon] at h
    obtain ⟨hquiet, hagree, hi⟩ := h
    by_cases hlt : s.miner.i < nCycles
    · simp only [Joint, hmon, if_pos hlt]
      exact ⟨hquiet, hagree, hlt⟩
    · simp only [Joint, hmon, if_neg hlt]
      exact ⟨hquiet, hagree, by omega⟩
  | .write =>
    simp only [stepMiner, hpc] at hn
    cases hn
    have hmon := h.monitor_read (by rw [hpc]; nofun) (by rw [hpc]; nofun)
    simp only [Joint, hpc, hmon] at h
    obtain ⟨⟨hmm, hmo⟩, hagree, hi, hsol⟩ := h
    simp only [Joint, hmon]
    exact ⟨hi, Or.inl ⟨⟨by simp [hmm], hmo⟩, hagree, hsol⟩⟩
  | .read =>
    match hmo : s.monitorToMiner with
    | [] => simp [stepMiner, hpc, hmo] at hn
    | c :: rest =>
      simp only [stepMiner, hpc, hmo] at hn
      cases hn
      match hmon : s.monitor.pc with
      | .check | .reply => simp [Joint, hpc, hmon, Quiet, hmo] at h
      | .exited _ => simp [Joint, hpc, hmon] at h
      | .read =>
        simp only [Joint, hpc, hmon, Sent, Replied, hmo] at h
        obtain ⟨hi, ⟨⟨-, hnil⟩, -⟩ | ⟨c', ⟨hmm, hcons⟩, hverdict⟩⟩ := h
        · cases hnil
        · cases hcons
          simp only [Joint, hmon]
          exact ⟨⟨hmm, rfl⟩, hi, hverdict⟩
  | .check =>
    simp only [stepMiner, hpc] at hn
    have hmon := h.monitor_read (by rw [hpc]; nofun) (by rw [hpc]; nofun)
    simp only [Joint, hpc, hmon] at h
    obtain ⟨hquiet, hi, hverdict⟩ := h
    rcases hverdict with ⟨hc, htarget, hlen, hrej⟩ | ⟨hc, hrej⟩
    -- accepted: both go on with the solution as their target
    · rw [if_neg (by rw [hc]; decide)] at hn
      cases hn
      simp only [Joint, hmon]
      exact ⟨hquiet, ⟨htarget.symm, hlen, hrej⟩, hi⟩
    -- rejected: the miner will tell the monitor and stop
    · rw [if_pos hc] at hn
      cases hn
      simp only [Joint, hmon]
      exact ⟨hquiet, trivial, hrej⟩
  | .reject =>
    simp only [stepMiner, hpc] at hn
    cases hn
    have hmon := h.monitor_read (by rw [hpc]; nofun) (by rw [hpc]; nofun)
    simp only [Joint, hpc, hmon] at h
    obtain ⟨⟨hmm, hmo⟩, hsol, -⟩ := h
    simp only [Joint, hmon]
    exact ⟨Or.inr rfl, Or.inl ⟨by simp [hmm, hsol], hmo⟩⟩
  | .finish =>
    simp only [stepMiner, hpc] at hn
    cases hn
    have hmon := h.monitor_read (by rw [hpc]; nofun) (by rw [hpc]; nofun)
    simp only [Joint, hpc, hmon] at h
    obtain ⟨⟨hmm, hmo⟩, ⟨-, hlen, hrej⟩, hi⟩ := h
    simp only [Joint, hmon]
    exact ⟨Or.inl ⟨rfl, hlen.trans hi, hrej⟩, Or.inl ⟨by simp [hmm], hmo⟩⟩

/-- The monitor's steps keep the joint invariant. -/
theorem joint_stepMonitor (h : s.Joint nCycles) (hn : s.stepMonitor = some t) :
    t.Joint nCycles := by
  match hmon : s.monitor.pc with
  | .exited _ => simp [stepMonitor, hmon] at hn
  | .read =>
    match hmm : s.minerToMonitor with
    | [] => simp [stepMonitor, hmon, hmm] at hn
    | v :: rest =>
      simp only [stepMonitor, hmon, hmm] at hn
      cases hn
      match hpc : s.miner.pc with
      | .head | .search | .write | .check | .reject | .finish =>
        simp [Joint, hpc, hmon, Quiet, hmm] at h
      | .read =>
        simp only [Joint, hpc, hmon, Sent, Replied, hmm] at h
        obtain ⟨hi, ⟨⟨hcons, hmo⟩, hagree, hsol⟩ | ⟨c, ⟨hnil, -⟩, -⟩⟩ := h
        -- the solution of this round
        · cases hcons
          simp only [Joint, hpc]
          exact ⟨⟨rfl, hmo⟩, hagree, hi, hsol, trivial⟩
        · cases hnil
      | .returned c =>
        simp only [Joint, hpc, hmon, Sent, Quiet, hmm] at h
        obtain ⟨hended, ⟨hcons, hmo⟩ | ⟨⟨hnil, -⟩, -⟩⟩ := h
        -- the `-1` of a miner that has returned
        · cases hcons
          simp only [Joint, hpc]
          exact ⟨hended, ⟨rfl, hmo⟩, trivial⟩
        · cases hnil
  | .check =>
    simp only [stepMonitor, hmon] at hn
    cases hn
    match hpc : s.miner.pc with
    | .head | .search | .write | .check | .reject | .finish => simp [Joint, hpc, hmon] at h
    | .read =>
      simp only [Joint, hpc, hmon] at h
      obtain ⟨hquiet, ⟨-, hlen, hrej⟩, hi, hsol, heq⟩ := h
      have hterm : ¬ s.monitor.solution = -1 := heq ▸ hsol
      simp only [judge, if_neg hterm]
      split
      · simp only [Joint, hpc]
        exact ⟨hquiet, hi, Or.inl ⟨rfl, heq, by simp [hlen], hrej⟩⟩
      · simp only [Joint, hpc]
        exact ⟨hquiet, hi, Or.inr ⟨rfl, by simp⟩⟩
    | .returned c =>
      simp only [Joint, hpc, hmon] at h
      obtain ⟨hended, hquiet, hsol⟩ := h
      simp only [judge, if_pos hsol, Joint, hpc]
      exact ⟨hended, hquiet⟩
  | .reply =>
    simp only [stepMonitor, hmon] at hn
    cases hn
    match hpc : s.miner.pc with
    | .head | .search | .write | .check | .reject | .finish | .returned _ =>
      simp [Joint, hpc, hmon] at h
    | .read =>
      simp only [Joint, hpc, hmon] at h
      obtain ⟨⟨hmm, hmo⟩, hi, hverdict⟩ := h
      simp only [Joint, hpc]
      exact ⟨hi, Or.inr ⟨_, ⟨hmm, by simp [hmo]⟩, hverdict⟩⟩

/-- **Step lemma.** Every step keeps the joint invariant. -/
theorem joint_next {a : Move} (h : s.Joint nCycles) (hn : next nCycles s a = some t) :
    t.Joint nCycles := by
  cases a with
  | searched v => exact joint_searched h hn
  | miner => exact joint_stepMiner h hn
  | monitor => exact joint_stepMonitor h hn

/-- **Run lemma.** The joint invariant holds in every reachable state. -/
theorem joint_reachable (h : (system nCycles targetIni).Reachable s) : s.Joint nCycles := by
  refine h.induct ?_ fun _ _ _ hs hn => joint_next hs hn
  rintro _ ⟨a, b, c, rfl⟩
  exact ⟨⟨rfl, rfl⟩, ⟨rfl, rfl, rfl⟩, Nat.zero_le _⟩

/-! ### The pairs on record -/

/-- The accepted pairs lead from the initial target to the monitor's, and every rejected
solution fails the hash test. -/
def Recorded (targetIni : ℤ) (s : Lockstep) : Prop :=
  IsMined targetIni s.accepted s.monitor.target ∧ ∀ p ∈ s.rejected, powHash p.2 ≠ p.1

/-- The test of the monitor extends the chain or the list of failures. -/
theorem recorded_judge (h : s.Recorded targetIni) : s.judge.Recorded targetIni := by
  obtain ⟨hmined, hfail⟩ := h
  unfold judge
  split
  · exact ⟨hmined, hfail⟩
  · split
    · rename_i heq
      exact ⟨hmined.snoc heq.symm, hfail⟩
    · rename_i hne
      refine ⟨hmined, List.forall_mem_append.mpr ⟨hfail, List.forall_mem_singleton.mpr ?_⟩⟩
      exact fun heq => hne heq.symm

/-- Every step keeps the record. -/
theorem recorded_next {a : Move} (h : s.Recorded targetIni) (hn : next nCycles s a = some t) :
    t.Recorded targetIni := by
  cases a with
  | searched v =>
    simp only [next, searched] at hn
    split at hn <;> cases hn
    exact h
  | miner =>
    simp only [next, stepMiner] at hn
    split at hn <;> try split at hn
    all_goals cases hn
    all_goals exact h
  | monitor =>
    simp only [next] at hn
    match hmon : s.monitor.pc with
    | .exited _ => simp [stepMonitor, hmon] at hn
    | .read =>
      simp only [stepMonitor, hmon] at hn
      split at hn <;> cases hn
      exact h
    | .check =>
      simp only [stepMonitor, hmon] at hn
      cases hn
      exact recorded_judge h
    | .reply =>
      simp only [stepMonitor, hmon] at hn
      cases hn
      exact h

theorem recorded_reachable (h : (system nCycles targetIni).Reachable s) :
    s.Recorded targetIni := by
  refine h.induct ?_ fun _ _ _ hs hn => recorded_next hs hn
  rintro _ ⟨a, b, c, rfl⟩
  exact ⟨rfl, fun _ hp => nomatch hp⟩

/-! ### Agreement -/

/-- Miner and monitor work in lock step. -/
structure InLockstep (nCycles : ℕ) (targetIni : ℤ) (s : Lockstep) : Prop where
  /-- At most one message is in flight. -/
  oneMessage : s.minerToMonitor.length + s.monitorToMiner.length ≤ 1
  /-- At the head of round `i` both have one target and `i` pairs are accepted. -/
  atHead : s.miner.pc = .head →
    s.miner.target = s.monitor.target ∧ s.accepted.length = s.miner.i
  /-- The accepted pairs form a chain from `targetIni` whose solutions pass the hash test. -/
  mined : IsMined targetIni s.accepted s.monitor.target
  /-- A solution that fails the test is not accepted. -/
  failing : ∀ p ∈ s.accepted ++ s.rejected, powHash p.2 ≠ p.1 → p ∉ s.accepted
  /-- No round follows a rejection: the miner can only learn of it and stop. -/
  noRound : s.rejected ≠ [] →
    s.miner.pc = .read ∨ s.miner.pc = .check ∨ s.miner.pc = .reject ∨
      s.miner.pc = .returned EXIT_FAILURE
  /-- Success means `nCycles` accepted pairs. -/
  success : s.miner.pc = .returned EXIT_SUCCESS → s.accepted.length = nCycles

theorem Joint.oneMessage (h : s.Joint nCycles) :
    s.minerToMonitor.length + s.monitorToMiner.length ≤ 1 := by
  have hquiet : s.Quiet → s.minerToMonitor.length + s.monitorToMiner.length ≤ 1 := by
    rintro ⟨hmm, hmo⟩
    simp [hmm, hmo]
  have hsent : ∀ v, s.Sent v → s.minerToMonitor.length + s.monitorToMiner.length ≤ 1 := by
    rintro v ⟨hmm, hmo⟩
    simp [hmm, hmo]
  have hreplied : ∀ c, s.Replied c → s.minerToMonitor.length + s.monitorToMiner.length ≤ 1 := by
    rintro c ⟨hmm, hmo⟩
    simp [hmm, hmo]
  unfold Joint at h
  split at h
  case h_4 =>
    rcases h.2 with ⟨hs, -⟩ | ⟨c, hr, -⟩
    · exact hsent _ hs
    · exact hreplied c hr
  case h_10 =>
    rcases h.2 with hs | ⟨hq, -⟩
    · exact hsent _ hs
    · exact hquiet hq
  case h_11 => exact hquiet h.2.1
  case h_12 => exact hquiet h.2
  case h_13 => exact h.elim
  all_goals exact hquiet h.1

/-- After a rejection the miner is past its message. -/
theorem Joint.noRound (h : s.Joint nCycles) (hrej : s.rejected ≠ []) :
    s.miner.pc = .read ∨ s.miner.pc = .check ∨ s.miner.pc = .reject ∨
      s.miner.pc = .returned EXIT_FAILURE := by
  -- both sides agree only as long as nothing is rejected
  have hagree : ¬ s.Agree := fun ha => hrej ha.2.2
  have hended : ∀ c, s.Ended nCycles c → c = EXIT_FAILURE := by
    rintro c (⟨-, -, hnil⟩ | hc)
    · exact absurd hnil hrej
    · exact hc
  match hpc : s.miner.pc with
  | .read => exact Or.inl rfl
  | .check => exact Or.inr (Or.inl rfl)
  | .reject => exact Or.inr (Or.inr (Or.inl rfl))
  | .head | .search | .write | .finish =>
    have hmon := h.monitor_read (by rw [hpc]; nofun) (by rw [hpc]; nofun)
    simp only [Joint, hpc, hmon] at h
    exact absurd h.2.1 hagree
  | .returned c =>
    match hmon : s.monitor.pc with
    | .reply => simp [Joint, hpc, hmon] at h
    | .read | .check | .exited _ =>
      simp only [Joint, hpc, hmon] at h
      rw [hended c h.1]
      exact Or.inr (Or.inr (Or.inr rfl))

/-- At the head of a round both sides agree. -/
theorem Joint.atHead (h : s.Joint nCycles) (hpc : s.miner.pc = .head) : s.Agree := by
  have hmon := h.monitor_read (by rw [hpc]; nofun) (by rw [hpc]; nofun)
  simp only [Joint, hpc, hmon] at h
  exact h.2.1

theorem Joint.success (h : s.Joint nCycles) (hpc : s.miner.pc = .returned EXIT_SUCCESS) :
    s.accepted.length = nCycles := by
  have hended : s.Ended nCycles EXIT_SUCCESS := by
    match hmon : s.monitor.pc with
    | .reply => simp [Joint, hpc, hmon] at h
    | .read | .check | .exited _ =>
      simp only [Joint, hpc, hmon] at h
      exact h.1
  rcases hended with ⟨-, hlen, -⟩ | hc
  · exact hlen
  · exact absurd hc (by decide)

/-- **Lock-step agreement.** For every oracle in place of the search and every interleaving,
each reachable state of miner and monitor is in lock step. -/
theorem inLockstep_of_reachable (h : (system nCycles targetIni).Reachable s) :
    InLockstep nCycles targetIni s where
  oneMessage := (joint_reachable h).oneMessage
  atHead hpc := ⟨((joint_reachable h).atHead hpc).1, ((joint_reachable h).atHead hpc).2.1⟩
  mined := (recorded_reachable h).1
  failing p _ hne hmem := hne ((recorded_reachable h).1.powHash_eq p hmem)
  noRound := (joint_reachable h).noRound
  success := (joint_reachable h).success

/-- An instance: the oracle finds the nonce of `powHash 1` in the first of two rounds and
returns a wrong one in the second; the pair is rejected and the miner fails. -/
theorem inLockstep_one_rejected :
    ∃ s : Lockstep, s.miner.pc = .returned EXIT_FAILURE ∧ s.accepted = [(35693286, 1)] ∧
      s.rejected = [(1, 10)] ∧ InLockstep 2 35693286 s := by
  have hinit : (system 2 35693286).Reachable (initial 35693286 0 0 0) := .init ⟨0, 0, 0, rfl⟩
  let verdict : List Move := [.miner, .monitor, .monitor, .monitor, .miner, .miner]
  let moves : List Move :=
    [.miner, .searched 1] ++ verdict ++ [.miner, .searched 10] ++ verdict ++ [.miner]
  obtain ⟨s, hs, hend⟩ : ∃ s, (system 2 35693286).run (initial 35693286 0 0 0) moves = some s ∧
      (s.miner.pc, s.accepted, s.rejected) =
        (.returned EXIT_FAILURE, [(35693286, 1)], [(1, 10)]) :=
    Option.map_eq_some_iff.mp (by decide +kernel)
  simp only [Prod.mk.injEq] at hend
  exact ⟨s, hend.1, hend.2.1, hend.2.2, inLockstep_of_reachable (hinit.run hs)⟩

end Lockstep

end Soper.MRush
