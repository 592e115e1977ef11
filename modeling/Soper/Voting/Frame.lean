import Soper.Voting.Model

/-!
# What the steps leave alone

A signal changes only what is pending, disturbed or missed at its receiver (`receive_frame`,
`deliver_frame`), and `main` touches no voter but to create it (`stepMain_frame`). Two facts
follow that hold in any mode: the mask of `sigsuspend` blocks SIGUSR2 until the first election and
SIGUSR1 from then on (`Masked`), and `main` has written all process ids to `pids.bin` before it
waits for the voters (`PidsWritten`).
-/

namespace Soper.Voting

variable {n : ℕ} {mode : Mode} {C : Census n} {s t : State n}

/-! ### What a signal leaves alone -/

section receive

variable (sig : Signal) (origin : Option (Fin n)) (i : Fin n) (v : Voter n)

/-- A signal changes only what is pending, disturbed or missed. -/
theorem receive_frame :
    (receive mode sig origin i v).pc = v.pc ∧
      (receive mode sig origin i v).candidate = v.candidate ∧
      (receive mode sig origin i v).result = v.result ∧
      (receive mode sig origin i v).blocked1 = v.blocked1 ∧
      (receive mode sig origin i v).blocked2 = v.blocked2 ∧
      (receive mode sig origin i v).elected = v.elected ∧
      (receive mode sig origin i v).round = v.round ∧
      (receive mode sig origin i v).waited2 = v.waited2 ∧
      (receive mode sig origin i v).start = v.start ∧
      (receive mode sig origin i v).ballot = v.ballot := by
  unfold receive
  split
  · simp
  · split <;> cases sig <;> simp

@[simp]
theorem receive_pc : (receive mode sig origin i v).pc = v.pc := (receive_frame ..).1

@[simp]
theorem receive_candidate : (receive mode sig origin i v).candidate = v.candidate :=
  (receive_frame ..).2.1

@[simp]
theorem receive_result : (receive mode sig origin i v).result = v.result :=
  (receive_frame ..).2.2.1

@[simp]
theorem receive_blocked1 : (receive mode sig origin i v).blocked1 = v.blocked1 :=
  (receive_frame ..).2.2.2.1

@[simp]
theorem receive_blocked2 : (receive mode sig origin i v).blocked2 = v.blocked2 :=
  (receive_frame ..).2.2.2.2.1

@[simp]
theorem receive_elected : (receive mode sig origin i v).elected = v.elected :=
  (receive_frame ..).2.2.2.2.2.1

@[simp]
theorem receive_round : (receive mode sig origin i v).round = v.round :=
  (receive_frame ..).2.2.2.2.2.2.1

@[simp]
theorem receive_waited2 : (receive mode sig origin i v).waited2 = v.waited2 :=
  (receive_frame ..).2.2.2.2.2.2.2.1

@[simp]
theorem receive_start : (receive mode sig origin i v).start = v.start :=
  (receive_frame ..).2.2.2.2.2.2.2.2.1

@[simp]
theorem receive_ballot : (receive mode sig origin i v).ballot = v.ballot :=
  (receive_frame ..).2.2.2.2.2.2.2.2.2

end receive

/-- Where the receiver is not at a `sem_wait`, no `sem_wait` is disturbed. -/
theorem receive_interrupted {sig : Signal} {origin : Option (Fin n)} {i : Fin n} {v : Voter n}
    (hv : v.pc.inSemWait = false) :
    (receive mode sig origin i v).interrupted = v.interrupted := by
  unfold receive
  split
  · rfl
  · split <;> cases sig <;> simp [hv]

/-- SIGUSR1 does not make SIGUSR2 pending, and the other way round. -/
theorem receive_usr1_pending2 {origin : Option (Fin n)} {i : Fin n} {v : Voter n} :
    (receive mode .usr1 origin i v).pending2 = v.pending2 := by
  unfold receive
  split
  · rfl
  · split <;> rfl

theorem receive_usr2_pending1 {origin : Option (Fin n)} {i : Fin n} {v : Voter n} :
    (receive mode .usr2 origin i v).pending1 = v.pending1 := by
  unfold receive
  split
  · rfl
  · split <;> rfl

/-- A voter does not disturb itself. -/
@[simp]
theorem receive_self {sig : Signal} {i : Fin n} {v : Voter n} :
    receive mode sig (some i) i v = v := if_pos (Or.inr rfl)

/-- A voter that keeps a signal finds it pending, and nothing else changes. -/
theorem receive_usr1_keeps {origin : Option (Fin n)} {i : Fin n} {v : Voter n}
    (ho : origin ≠ some i) (habs : v.pc ≠ .absent) (hv : mode.keeps v.pc = true) :
    receive mode .usr1 origin i v = { v with pending1 := true } := by
  rw [receive, if_neg (not_or.mpr ⟨habs, ho⟩), if_pos hv]

theorem receive_usr2_keeps {origin : Option (Fin n)} {i : Fin n} {v : Voter n}
    (ho : origin ≠ some i) (habs : v.pc ≠ .absent) (hv : mode.keeps v.pc = true) :
    receive mode .usr2 origin i v = { v with pending2 := true } := by
  rw [receive, if_neg (not_or.mpr ⟨habs, ho⟩), if_pos hv]

/-- Delivering signals leaves the files, the semaphores and `main` where they are. -/
theorem deliver_frame (mode : Mode) (C : Census n) (origin : Option (Fin n)) (s : State n)
    (em : Emission) :
    (deliver mode C origin s em).shared = s.shared ∧
      (deliver mode C origin s em).main = s.main ∧
      ∀ j, ∃ w : Voter n, (deliver mode C origin s em).voter j = w ∧
        (w = s.voter j ∨ ∃ sig, w = receive mode sig origin j (s.voter j)) := by
  cases em with
  | none => exact ⟨rfl, rfl, fun j => ⟨_, rfl, Or.inl rfl⟩⟩
  | group sig => exact ⟨rfl, rfl, fun j => ⟨_, rfl, Or.inr ⟨sig, rfl⟩⟩⟩
  | single pid sig =>
    refine ⟨rfl, rfl, fun j => ⟨_, rfl, ?_⟩⟩
    by_cases hj : C.pid j = pid
    · exact Or.inr ⟨sig, if_pos hj⟩
    · exact Or.inl (if_neg hj)

/-- Until `main` sends SIGUSR1 it touches no voter, except that it creates them, and neither
`sem_c` nor the votes. -/
theorem stepMain_frame (hne : s.main ≠ .launch) (ht : stepMain mode C s = some t) :
    t.shared.semC = s.shared.semC ∧ t.shared.votes = s.shared.votes ∧
      ((t.voter = s.voter ∧ ∀ k, t.main ≠ .fork k) ∨
        ∃ j : Fin n, s.main = .fork j ∧ t.main = .fork (j + 1) ∧
          t.voter = Function.update s.voter j (Voter.forked n)) := by
  match hpc : s.main with
  | .launch => exact absurd hpc hne
  | .sleep => simp [stepMain, hpc] at ht
  | .fork k =>
    simp only [stepMain, hpc] at ht
    split at ht <;> cases ht
    · rename_i hk
      exact ⟨rfl, rfl, Or.inr ⟨⟨k, hk⟩, rfl, rfl, rfl⟩⟩
    · exact ⟨rfl, rfl, Or.inl ⟨rfl, nofun⟩⟩
  | .lockFile | .wait _ =>
    simp only [stepMain, hpc] at ht
    split at ht <;> (try split at ht) <;> cases ht <;> exact ⟨rfl, rfl, Or.inl ⟨rfl, nofun⟩⟩
  | .openPids | .writePids | .unlockFile =>
    simp only [stepMain, hpc] at ht
    cases ht
    exact ⟨rfl, rfl, Or.inl ⟨rfl, nofun⟩⟩

/-- A disturbed `sem_wait` of `main` touches no voter and no semaphore. -/
theorem interruptMain_frame (ht : interruptMain mode s = some t) :
    t.shared = s.shared ∧ t.voter = s.voter ∧ ∀ k, t.main ≠ .fork k := by
  simp only [interruptMain] at ht
  split at ht
  · split at ht <;> (try split at ht) <;> cases ht <;> exact ⟨rfl, rfl, nofun⟩
  · cases ht

/-! ### Two facts that hold in any mode -/

/-- In the first pass, before the mask is edited. -/
def VoterPc.beforeElection : VoterPc → Bool
  | .absent | .head | .beforeWait1 | .wait1 | .elect => true
  | _ => false

/-- The mask of `sigsuspend`: SIGUSR2 is blocked until the first election, SIGUSR1 from then
on. The last edit of the loop blocks SIGUSR1 again instead of unblocking it. -/
def Masked (v : Voter n) : Prop :=
  if v.round = 0 ∧ v.pc.beforeElection = true then v.blocked1 = false ∧ v.blocked2 = true
  else v.blocked1 = true ∧ v.blocked2 = false

/-- The steps of a voter keep what its mask blocks. -/
theorem masked_stepVoter {i : Fin n} {sh : Shared n} {v : Voter n} {e : Effect n}
    (h : Masked v) (he : stepVoter C i sh v = some e) : Masked e.voter := by
  match hpc : v.pc with
  | .absent | .wait1 | .wait2 | .exited => simp [stepVoter, hpc] at he
  | .elect =>
    simp only [stepVoter, hpc] at he
    split at he <;> cases he <;> simp [Masked, VoterPc.beforeElection]
  | .head | .unlock =>
    simp only [stepVoter, hpc] at he
    simp only [Masked, hpc, VoterPc.beforeElection] at h
    split at he <;> cases he <;> simpa [Masked, VoterPc.beforeElection] using h
  | .beforeWait1 | .call | .announce | .measure | .beforeWait2 | .append | .notify [] | .release =>
    simp only [stepVoter, hpc] at he
    simp only [Masked, hpc, VoterPc.beforeElection] at h
    cases he
    simpa [Masked, VoterPc.beforeElection] using h
  | .truncate | .gathered k =>
    simp only [stepVoter, hpc, gatherFrom] at he
    simp only [Masked, hpc, VoterPc.beforeElection] at h
    cases he
    simp only [Masked]
    split <;> simpa [VoterPc.beforeElection] using h
  | .verdict | .closed k =>
    simp only [stepVoter, hpc, closeFrom] at he
    simp only [Masked, hpc, VoterPc.beforeElection] at h
    cases he
    simp only [Masked]
    split <;> simpa [VoterPc.beforeElection] using h
  | .gather k | .lock | .close k =>
    simp only [stepVoter, hpc] at he
    simp only [Masked, hpc, VoterPc.beforeElection] at h
    split at he <;> cases he
    simpa [Masked, VoterPc.beforeElection] using h
  | .read k | .openPids =>
    simp only [stepVoter, hpc] at he
    simp only [Masked, hpc, VoterPc.beforeElection] at h
    split at he <;> cases he <;> simpa [Masked, VoterPc.beforeElection] using h
  | .notify (p :: pids) =>
    simp only [stepVoter, hpc] at he
    simp only [Masked, hpc, VoterPc.beforeElection] at h
    cases he
    simpa [Masked, VoterPc.beforeElection] using h
  | .loop =>
    simp only [stepVoter, hpc] at he
    simp [Masked, hpc, VoterPc.beforeElection] at h
    cases he
    simpa [Masked] using h.2

/-- A signal leaves the mask alone. -/
theorem masked_receive {sig : Signal} {origin : Option (Fin n)} {i : Fin n} {v : Voter n}
    (h : Masked v) : Masked (receive mode sig origin i v) := by
  simpa [Masked] using h

/-- A voter that wakes is past its wait. -/
theorem masked_wakeVoter {v w : Voter n} (h : Masked v) (hw : wakeVoter mode v = some w) :
    Masked w := by
  simp only [wakeVoter] at hw
  split at hw
  · match hpc : v.pc with
    | .wait1 | .wait2 =>
      simp only [hpc] at hw
      simp only [Masked, hpc, VoterPc.beforeElection] at h
      cases hw
      simpa [Masked, VoterPc.beforeElection] using h
    | .absent | .head | .beforeWait1 | .elect | .truncate | .gather _ | .gathered _ | .call
    | .announce | .measure | .beforeWait2 | .lock | .append | .unlock | .read _ | .verdict
    | .close _ | .closed _ | .openPids | .notify _ | .release | .loop | .exited =>
      simp [hpc] at hw
  · cases hw

/-- A disturbed `sem_wait` does not touch the mask. -/
theorem masked_interruptVoter {sh : Shared n} {v w : Voter n} (h : Masked v)
    (hw : interruptVoter mode sh v = some w) : Masked w := by
  simp only [interruptVoter] at hw
  split at hw
  · match hpc : v.pc with
    | .gather _ | .lock | .close _ =>
      simp only [hpc] at hw
      simp only [Masked, hpc, VoterPc.beforeElection] at h
      split at hw <;> cases hw
      simpa [Masked, VoterPc.beforeElection] using h
    | .absent | .head | .beforeWait1 | .wait1 | .elect | .truncate | .gathered _ | .call
    | .announce | .measure | .beforeWait2 | .wait2 | .append | .unlock | .read _ | .verdict
    | .closed _ | .openPids | .notify _ | .release | .loop | .exited =>
      simp [hpc] at hw
  · cases hw

/-- `main` has written all process ids to `pids.bin` before it waits. -/
def PidsWritten (C : Census n) (s : State n) : Prop :=
  match s.main with
  | .fork _ | .lockFile | .openPids | .writePids => True
  | .unlockFile | .wait _ | .launch | .sleep => s.shared.pidsBin = some (List.ofFn C.pid)

/-- The voters only read `pids.bin`. -/
theorem pidsBin_stepVoter {i : Fin n} {sh : Shared n} {v : Voter n} {e : Effect n}
    (he : stepVoter C i sh v = some e) : e.shared.pidsBin = sh.pidsBin := by
  simp only [stepVoter] at he
  split at he <;> (try split at he) <;> cases he <;> rfl

theorem masked_update {i : Fin n} {w : Voter n} (h : ∀ j, Masked (s.voter j)) (hw : Masked w)
    (j : Fin n) : Masked (Function.update s.voter i w j) :=
  (Function.forall_update_iff s.voter fun _ v => Masked v).mpr ⟨hw, fun j _ => h j⟩ j

/-- A voter's step, with the signals it sends, keeps masks and process ids. -/
theorem masked_applyEffect {i : Fin n} {e : Effect n} (hmask : ∀ j, Masked (s.voter j))
    (hpids : PidsWritten C s) (he : stepVoter C i s.shared (s.voter i) = some e) :
    (∀ j, Masked ((applyEffect mode C i s e).voter j)) ∧
      PidsWritten C (applyEffect mode C i s e) := by
  have hall := masked_update (i := i) hmask (masked_stepVoter (hmask i) he)
  obtain ⟨hsh, hmain, hvot⟩ := deliver_frame mode C (some i)
    { s with shared := e.shared, voter := Function.update s.voter i e.voter } e.emission
  refine ⟨fun j => ?_, ?_⟩
  · -- a delivered signal changes neither the mask nor where the voter stands
    obtain ⟨w, hw, rfl | ⟨sig, rfl⟩⟩ := hvot j
    · rw [applyEffect, hw]
      exact hall j
    · rw [applyEffect, hw]
      exact masked_receive (hall j)
  · simp only [PidsWritten, applyEffect, hmain, hsh, pidsBin_stepVoter he]
    exact hpids

/-- The steps of `main` keep masks and process ids. -/
theorem masked_stepMain (hmask : ∀ j, Masked (s.voter j)) (hpids : PidsWritten C s)
    (hn : stepMain mode C s = some t) : (∀ j, Masked (t.voter j)) ∧ PidsWritten C t := by
  match hpc : s.main with
  | .sleep => simp [stepMain, hpc] at hn
  | .fork i =>
    simp only [stepMain, hpc] at hn
    split at hn <;> cases hn
    · exact ⟨masked_update hmask ⟨rfl, rfl⟩, trivial⟩
    · exact ⟨hmask, trivial⟩
  | .lockFile =>
    simp only [stepMain, hpc] at hn
    split at hn <;> cases hn
    exact ⟨hmask, trivial⟩
  | .openPids =>
    simp only [stepMain, hpc] at hn
    cases hn
    exact ⟨hmask, trivial⟩
  | .writePids =>
    simp only [stepMain, hpc] at hn
    cases hn
    exact ⟨hmask, rfl⟩
  | .unlockFile =>
    simp only [stepMain, hpc] at hn
    simp only [PidsWritten, hpc] at hpids
    cases hn
    exact ⟨hmask, hpids⟩
  | .wait i =>
    simp only [stepMain, hpc] at hn
    simp only [PidsWritten, hpc] at hpids
    split at hn
    · split at hn <;> cases hn
      exact ⟨hmask, hpids⟩
    · cases hn
      exact ⟨hmask, hpids⟩
  | .launch =>
    simp only [stepMain, hpc] at hn
    simp only [PidsWritten, hpc] at hpids
    cases hn
    exact ⟨fun j => masked_receive (hmask j), hpids⟩

/-- A disturbed `sem_wait` of `main` keeps masks and process ids. -/
theorem masked_interruptMain (hmask : ∀ j, Masked (s.voter j)) (hpids : PidsWritten C s)
    (hn : interruptMain mode s = some t) : (∀ j, Masked (t.voter j)) ∧ PidsWritten C t := by
  simp only [interruptMain] at hn
  split at hn
  · match hpc : s.main with
    | .lockFile | .wait _ =>
      simp only [hpc] at hn
      simp only [PidsWritten, hpc] at hpids
      split at hn <;> cases hn
      exact ⟨hmask, hpids⟩
    | .fork _ | .openPids | .writePids | .unlockFile | .launch | .sleep => simp [hpc] at hn
  · cases hn

/-- Mask and process ids are as they should be in every reachable state, in any mode. -/
theorem masked_reachable (h : (system mode C).Reachable s) :
    (∀ j, Masked (s.voter j)) ∧ PidsWritten C s := by
  refine h.induct (I := fun s => (∀ j, Masked (s.voter j)) ∧ PidsWritten C s) ?_ ?_
  · rintro _ ⟨votes, pidsBin, rfl⟩
    exact ⟨fun _ => ⟨rfl, rfl⟩, trivial⟩
  · rintro s a t ⟨hmask, hpids⟩ hn
    cases a with
    | voter i =>
      obtain ⟨e, he, rfl⟩ := Option.map_eq_some_iff.mp hn
      exact masked_applyEffect hmask hpids he
    | wake i =>
      obtain ⟨w, hw, rfl⟩ := Option.map_eq_some_iff.mp hn
      exact ⟨masked_update hmask (masked_wakeVoter (hmask i) hw), hpids⟩
    | interrupt i =>
      obtain ⟨w, hw, rfl⟩ := Option.map_eq_some_iff.mp hn
      exact ⟨masked_update hmask (masked_interruptVoter (hmask i) hw), hpids⟩
    | interruptMain => exact masked_interruptMain hmask hpids hn
    | main => exact masked_stepMain hmask hpids hn

end Soper.Voting
