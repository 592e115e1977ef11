import Soper.Voting.VotesFile

/-!
# Somebody can move

In every phase but the last some voter or `main` can take a step (`not_stuck_of_inPhase`), if
signals wait for the voters that have announced themselves (`Mode.ideal`). A wait on `sem_s` that
finds no announcement means that some voter has not come to its announcement, and that voter can
move; a wait on `sem_f` means that somebody holds it, and the holder can move (`FileLock`); and a
voter inside `sigsuspend` has been sent the signal it waits for, which its mask leaves unblocked
in the first pass (`Masked`).
-/

namespace Soper.Voting

variable {n : ℕ} {mode : Mode} {C : Census n} {s t : State n} {i c : Fin n}

/-! ### The lock of the file -/

/-- The voter holds `sem_f`. -/
def VoterPc.holdsFile : VoterPc → Bool
  | .append | .unlock => true
  | _ => false

/-- `main` holds `sem_f`. -/
def MainPc.holdsFile : MainPc → Bool
  | .openPids | .writePids | .unlockFile => true
  | _ => false

/-- The tokens of `sem_f` a voter holds. -/
def fileTokens (v : Voter n) : ℕ := v.pc.holdsFile.toNat

/-- The one token of `sem_f` is in the semaphore, with a voter or with `main`. -/
def FileLock (s : State n) : Prop :=
  s.shared.semF + Family.total fileTokens s.voter + s.main.holdsFile.toNat = 1

theorem holdsFile_gatherFrom (k : ℕ) : (gatherFrom n k).holdsFile = false := by
  unfold gatherFrom
  split <;> rfl

theorem holdsFile_closeFrom (k : ℕ) : (closeFrom n k).holdsFile = false := by
  unfold closeFrom
  split <;> rfl

/-- A step of a voter moves the token of `sem_f` between the semaphore and the voter. -/
theorem fileTokens_stepVoter {sh : Shared n} {v : Voter n} {e : Effect n}
    (he : stepVoter C i sh v = some e) :
    e.shared.semF + fileTokens e.voter = sh.semF + fileTokens v := by
  match hpc : v.pc with
  | .lock =>
    simp only [stepVoter, hpc] at he
    split at he <;> cases he
    rename_i hfree
    simp only [fileTokens, hpc, VoterPc.holdsFile, Bool.toNat_true, Bool.toNat_false]
    omega
  | .unlock =>
    simp only [stepVoter, hpc] at he
    split at he <;> cases he <;> simp [fileTokens, hpc, VoterPc.holdsFile]
  | .truncate | .gathered _ =>
    simp only [stepVoter, hpc] at he
    cases he
    simp only [fileTokens, hpc, holdsFile_gatherFrom]
    rfl
  | .verdict | .closed _ =>
    simp only [stepVoter, hpc] at he
    cases he
    simp only [fileTokens, hpc, holdsFile_closeFrom]
    rfl
  | .absent | .wait1 | .wait2 | .exited => simp [stepVoter, hpc] at he
  | .head | .elect | .gather _ | .read _ | .close _ | .openPids =>
    simp only [stepVoter, hpc] at he
    split at he <;> cases he <;> simp [fileTokens, hpc, VoterPc.holdsFile]
  | .beforeWait1 | .call | .announce | .measure | .beforeWait2 | .append | .notify []
  | .notify (_ :: _) | .release | .loop =>
    simp only [stepVoter, hpc] at he
    cases he
    simp [fileTokens, hpc, VoterPc.holdsFile]

/-- The signals of a step do not touch `sem_f`. -/
theorem fileLock_deliver {em : Emission} {origin : Option (Fin n)} (h : FileLock s) :
    FileLock (deliver mode C origin s em) := by
  obtain ⟨hsh, hmain, hvoter⟩ := deliver_frame mode C origin s em
  have hsame : ∀ j, fileTokens ((deliver mode C origin s em).voter j) =
      fileTokens (s.voter j) := by
    intro j
    obtain ⟨w, hw, rfl | ⟨sig, rfl⟩⟩ := hvoter j <;> rw [hw]
    simp only [fileTokens, receive_pc]
  rw [FileLock, hsh, hmain, Family.total_congr hsame]
  exact h

/-- `main` takes the token for the time it writes `pids.bin`. -/
theorem fileLock_stepMain (hp : InPhase mode .startUp s) (h : FileLock s)
    (ht : stepMain mode C s = some t) : FileLock t := by
  have hlock := h
  unfold FileLock at h
  match hpc : s.main with
  | .sleep => simp [stepMain, hpc] at ht
  | .fork k =>
    simp only [stepMain, hpc] at ht
    split at ht <;> cases ht
    · rename_i hk
      -- an absent voter does not hold the file
      have hnone : fileTokens (s.voter ⟨k, hk⟩) = 0 := by
        obtain ⟨-, -, hstart, -⟩ := (hp.place ⟨k, hk⟩).spot
        cases hx : (s.voter ⟨k, hk⟩).pc <;>
          simp [hx, VoterPc.starts, fileTokens, VoterPc.holdsFile] at hstart ⊢
      rw [FileLock, Family.total_update_eq (hnone.symm ▸ rfl)]
      simpa [hpc, MainPc.holdsFile] using h
    · simpa [FileLock, hpc, MainPc.holdsFile] using h
  | .lockFile =>
    simp only [stepMain, hpc] at ht
    split at ht <;> cases ht
    simp only [FileLock, MainPc.holdsFile, hpc, Bool.toNat_true, Bool.toNat_false] at h ⊢
    omega
  | .openPids | .writePids =>
    simp only [stepMain, hpc] at ht
    cases ht
    simpa [FileLock, hpc, MainPc.holdsFile] using h
  | .unlockFile =>
    simp only [stepMain, hpc] at ht
    cases ht
    simp only [FileLock, MainPc.holdsFile, hpc, Bool.toNat_true, Bool.toNat_false] at h ⊢
    omega
  | .wait k =>
    simp only [stepMain, hpc] at ht
    split at ht <;> (try split at ht) <;> cases ht <;>
      simpa [FileLock, hpc, MainPc.holdsFile] using h
  | .launch =>
    simp only [stepMain, hpc] at ht
    cases ht
    refine fileLock_deliver ?_
    simpa [FileLock, hpc, MainPc.holdsFile] using h

/-- Every step keeps the token of `sem_f` somewhere. -/
theorem fileLock_next {p : Phase n} {a : Action n} (hm : mode ≠ .outside) (hp : InPhase mode p s)
    (h : FileLock s) (ht : next mode C s a = some t) : FileLock t := by
  have hmove : ∀ {i : Fin n} {sh : Shared n} {w : Voter n},
      sh.semF + fileTokens w = s.shared.semF + fileTokens (s.voter i) →
      FileLock { s with shared := sh, voter := Function.update s.voter i w } := by
    intro i sh w hw
    have hupdate := Family.total_update fileTokens s.voter i w
    unfold FileLock at h ⊢
    change sh.semF + Family.total fileTokens (Function.update s.voter i w) +
      s.main.holdsFile.toNat = 1
    omega
  obtain ⟨rfl, rfl, ht⟩ | ⟨i, e, rfl, he, rfl⟩ | ⟨i, w, rfl, hw, rfl⟩ := hp.next_cases hm ht
  · exact fileLock_stepMain hp h ht
  · exact fileLock_deliver (hmove (fileTokens_stepVoter he))
  · obtain ⟨-, ⟨hpc, rfl⟩ | ⟨hpc, rfl⟩⟩ := wakeVoter_eq_some hm hw
    · exact hmove (by simp [fileTokens, hpc, VoterPc.holdsFile])
    · exact hmove (by simp [fileTokens, hpc, VoterPc.holdsFile])

theorem fileLock_initial (votes : List (Vote n)) (pidsBin : Option (List ℤ)) :
    FileLock (initial votes pidsBin) := by
  have hzero : Family.total fileTokens (initial votes pidsBin).voter = 0 :=
    Family.total_eq_zero fun _ => rfl
  rw [FileLock, hzero]
  rfl

/-! ### Who can move -/

/-- A voter at this point runs on without waiting for anybody. -/
def VoterPc.runs : VoterPc → Bool
  | .absent | .wait1 | .wait2 | .exited | .gather _ | .lock | .close _ => false
  | _ => true

theorem not_stuck_of_step {e : Effect n} (he : stepVoter C i s.shared (s.voter i) = some e) :
    ¬ (system mode C).Stuck s :=
  System.not_stuck (a := .voter i) (Option.map_eq_some_iff.mpr ⟨e, he, rfl⟩)

theorem not_stuck_of_wake {w : Voter n} (hw : wakeVoter mode (s.voter i) = some w) :
    ¬ (system mode C).Stuck s :=
  System.not_stuck (a := .wake i) (Option.map_eq_some_iff.mpr ⟨w, hw, rfl⟩)

/-- A voter that does not wait can move. -/
theorem not_stuck_of_runs (h : (s.voter i).pc.runs = true) : ¬ (system mode C).Stuck s := by
  have hstep : ∃ e, stepVoter C i s.shared (s.voter i) = some e := by
    match hpc : (s.voter i).pc with
    | .absent | .wait1 | .wait2 | .exited | .gather _ | .lock | .close _ =>
      simp [hpc, VoterPc.runs] at h
    | .head | .elect | .unlock | .read _ | .openPids =>
      simp only [stepVoter, hpc]
      split <;> exact ⟨_, rfl⟩
    | .beforeWait1 | .truncate | .gathered _ | .call | .announce | .measure | .beforeWait2
    | .append | .verdict | .closed _ | .notify [] | .notify (_ :: _) | .release | .loop =>
      simp only [stepVoter, hpc]
      exact ⟨_, rfl⟩
  obtain ⟨e, he⟩ := hstep
  exact not_stuck_of_step he

/-- A voter in its first pass that has been sent SIGUSR1 wakes. -/
theorem not_stuck_of_wait1 (hmask : Masked (s.voter i)) (hpc : (s.voter i).pc = .wait1)
    (hround : (s.voter i).round = 0) (hpend : (s.voter i).pending1 = true) :
    ¬ (system mode C).Stuck s := by
  have hopen : (s.voter i).blocked1 = false := by
    simp only [Masked, hround, hpc, VoterPc.beforeElection, and_self, if_true] at hmask
    exact hmask.1
  obtain ⟨w, hw⟩ : ∃ w, wakeVoter mode (s.voter i) = some w := by
    simp only [wakeVoter, hpend, hopen, or_true, true_and, true_or, if_true, hpc]
    exact ⟨_, rfl⟩
  exact not_stuck_of_wake hw

/-- A voter that has been sent SIGUSR2 wakes. -/
theorem not_stuck_of_wait2 (hmask : Masked (s.voter i)) (hpc : (s.voter i).pc = .wait2)
    (hpend : (s.voter i).pending2 = true) : ¬ (system mode C).Stuck s := by
  have hopen : (s.voter i).blocked2 = false := by
    simp only [Masked, hpc, VoterPc.beforeElection, Bool.false_eq_true, and_false, if_false]
      at hmask
    exact hmask.2
  obtain ⟨w, hw⟩ : ∃ w, wakeVoter mode (s.voter i) = some w := by
    simp only [wakeVoter, hpend, hopen, or_true, true_and, if_true, hpc]
    exact ⟨_, rfl⟩
  exact not_stuck_of_wake hw

/-- A voter that waits for `sem_f` takes it, or its holder can move. -/
theorem not_stuck_of_lock (hlock : FileLock s) (hmain : s.main.holdsFile = false)
    (hpc : (s.voter i).pc = .lock) : ¬ (system mode C).Stuck s := by
  by_cases hfree : 0 < s.shared.semF
  · obtain ⟨e, he⟩ : ∃ e, stepVoter C i s.shared (s.voter i) = some e := by
      simp only [stepVoter, hpc, hfree, if_true]
      exact ⟨_, rfl⟩
    exact not_stuck_of_step he
  · -- the token is with another voter, and a holder never waits
    have hpos : 0 < Family.total fileTokens s.voter := by
      simp only [FileLock, hmain, Bool.toNat_false] at hlock
      omega
    obtain ⟨j, hj⟩ := Family.exists_pos_of_total_pos hpos
    refine not_stuck_of_runs (i := j) ?_
    cases hx : (s.voter j).pc <;>
      simp [fileTokens, hx, VoterPc.holdsFile, VoterPc.runs] at hj ⊢

/-! ### Somebody can move in each phase -/

/-- During the start-up `main` can move, or a voter that has not announced itself. -/
theorem not_stuck_startUp (hp : InPhase mode .startUp s) (hlock : FileLock s) :
    ¬ (system mode C).Stuck s := by
  obtain ⟨hmain, -, hS, hforked, -, -⟩ := hp.global
  have hmove : (∃ t, stepMain mode C s = some t) → ¬ (system mode C).Stuck s := by
    rintro ⟨t, ht⟩
    exact System.not_stuck (a := .main) ht
  match hpc : s.main with
  | .sleep => exact absurd hpc hmain
  | .fork k =>
    refine hmove ?_
    simp only [stepMain, hpc]
    split <;> exact ⟨_, rfl⟩
  | .openPids | .writePids | .unlockFile | .launch =>
    refine hmove ?_
    simp only [stepMain, hpc]
    exact ⟨_, rfl⟩
  | .lockFile =>
    -- no voter has come to `sem_f` yet
    have hzero : Family.total fileTokens s.voter = 0 := by
      refine Family.total_eq_zero fun j => ?_
      obtain ⟨-, -, hstart, -⟩ := (hp.place j).spot
      cases hx : (s.voter j).pc <;>
        simp [hx, VoterPc.starts, fileTokens, VoterPc.holdsFile] at hstart ⊢
    have hfree : 0 < s.shared.semF := by
      simp only [FileLock, hzero, hpc, MainPc.holdsFile, Bool.toNat_false] at hlock
      omega
    refine hmove ?_
    simp only [stepMain, hpc, hfree, if_true]
    exact ⟨_, rfl⟩
  | .wait k =>
    by_cases hk : k < n
    · by_cases hfree : 0 < s.shared.semS
      · refine hmove ?_
        simp only [stepMain, hpc, hk, hfree, if_true]
        exact ⟨_, rfl⟩
      · -- fewer than `n` voters have announced themselves
        have hlt : Family.total announced1 s.voter < Fintype.card (Fin n) := by
          rw [hpc] at hS
          simp only [MainPc.waitCount] at hS
          rw [Fintype.card_fin]
          omega
        obtain ⟨j, hnot⟩ := Family.exists_eq_zero_of_lt_card hlt
        obtain ⟨-, -, hstart, -⟩ := (hp.place j).spot
        have hborn : (s.voter j).pc ≠ .absent := by
          rw [hforked j, hpc]
          exact j.isLt
        refine not_stuck_of_runs (i := j) ?_
        cases hx : (s.voter j).pc <;>
          simp [hx, VoterPc.starts, VoterPc.waits1, announced1, VoterPc.runs] at hstart hborn hnot ⊢
    · refine hmove ?_
      simp only [stepMain, hpc, hk, if_false]
      exact ⟨_, rfl⟩

/-- A voter in its first pass that waits for SIGUSR1, or is on its way there, can move. -/
theorem not_stuck_of_waits1 (hmask : Masked (s.voter i)) (hw : (s.voter i).pc.waits1 = true)
    (hround : (s.voter i).round = 0) (hpend : (s.voter i).pending1 = true) :
    ¬ (system mode C).Stuck s := by
  match hpc : (s.voter i).pc with
  | .wait1 => exact not_stuck_of_wait1 hmask hpc hround hpend
  | .beforeWait1 => exact not_stuck_of_runs (by rw [hpc]; rfl)
  | .absent | .head | .elect | .truncate | .gather _ | .gathered _ | .call | .announce | .measure
  | .beforeWait2 | .wait2 | .lock | .append | .unlock | .read _ | .verdict | .close _ | .closed _
  | .openPids | .notify _ | .release | .loop | .exited => simp [hpc, VoterPc.waits1] at hw

/-- In the election every voter can move. -/
theorem not_stuck_election (hn : 1 ≤ n) (hp : InPhase .ideal .election s)
    (hmask : ∀ j, Masked (s.voter j)) : ¬ (system .ideal C).Stuck s := by
  let i : Fin n := ⟨0, hn⟩
  obtain ⟨hround, -, hw | hpc, hpend⟩ := (hp.place i).spot
  · exact not_stuck_of_waits1 (hmask i) hw hround (hpend rfl hw)
  · exact not_stuck_of_runs (i := i) (by rw [hpc]; rfl)

/-- While the candidate waits for announcements, a voter that has not announced itself can
move. -/
theorem not_stuck_gathering (hp : InPhase .ideal (.gathering c) s)
    (hmask : ∀ j, Masked (s.voter j)) : ¬ (system .ideal C).Stuck s := by
  obtain ⟨-, -, hspot⟩ := (hp.place c).candidate_gathering
  obtain ⟨-, -, hS⟩ := hp.global
  match hpc : (s.voter c).pc with
  | .truncate | .gathered _ | .call => exact not_stuck_of_runs (by rw [hpc]; rfl)
  | .gather k =>
    by_cases hfree : 0 < s.shared.semS
    · obtain ⟨e, he⟩ : ∃ e, stepVoter C c s.shared (s.voter c) = some e := by
        simp only [stepVoter, hpc, hfree, if_true]
        exact ⟨_, rfl⟩
      exact not_stuck_of_step he
    · -- some voter has not announced itself
      have hk : k < n - 1 := by simpa [hpc, VoterPc.gathers] using hspot
      have hlt : Family.total announced2 s.voter < Fintype.card (Fin n) - 1 := by
        rw [hpc] at hS
        simp only [VoterPc.gatherCount] at hS
        rw [Fintype.card_fin]
        omega
      obtain ⟨j, hj, hnot⟩ := Family.exists_eq_zero_of_lt c hlt
      obtain ⟨hround, -, hfollows, -, hideal⟩ := (hp.place j).other_gathering hj
      by_cases hw : (s.voter j).pc.waits1 = true
      · exact not_stuck_of_waits1 (hmask j) hw hround (hideal rfl hw)
      · refine not_stuck_of_runs (i := j) ?_
        cases hx : (s.voter j).pc <;>
          simp [hx, VoterPc.follows, VoterPc.waits1, VoterPc.waits2, announced2, VoterPc.runs]
            at hfollows hw hnot ⊢
  | .absent | .head | .beforeWait1 | .wait1 | .elect | .announce | .measure | .beforeWait2
  | .wait2 | .lock | .append | .unlock | .read _ | .verdict | .close _ | .closed _ | .openPids
  | .notify _ | .release | .loop | .exited => simp [hpc, VoterPc.gathers] at hspot

/-- A voter that has been called and has not come back to its announcement can move. -/
theorem not_stuck_of_votes (hp : InPhase .ideal (.voting c) s) (hlock : FileLock s)
    (hmask : Masked (s.voter i)) (hi : i ≠ c) (hw : (s.voter i).pc.waits1 = false) :
    ¬ (system .ideal C).Stuck s := by
  obtain ⟨-, hspot, hideal⟩ := (hp.place i).other_voting hi
  have hmain : s.main.holdsFile = false := by rw [hp.global.1]; rfl
  by_cases hwait : (s.voter i).pc = .wait2
  · exact not_stuck_of_wait2 hmask hwait (hideal rfl (by rw [hwait]; rfl))
  · by_cases hl : (s.voter i).pc = .lock
    · exact not_stuck_of_lock hlock hmain hl
    · refine not_stuck_of_runs (i := i) ?_
      cases hx : (s.voter i).pc <;>
        simp [hx, VoterPc.votes, VoterPc.returns, VoterPc.waits1, VoterPc.runs]
          at hspot hw hwait hl ⊢

/-- During the vote the candidate can move, or a voter it waits for. -/
theorem not_stuck_voting (hp : InPhase .ideal (.voting c) s) (hlock : FileLock s)
    (hmask : ∀ j, Masked (s.voter j)) : ¬ (system .ideal C).Stuck s := by
  obtain ⟨-, -, hspot⟩ := (hp.place c).candidate_voting
  obtain ⟨hmain, -, hS⟩ := hp.global
  match hpc : (s.voter c).pc with
  | .append | .unlock | .read _ | .verdict | .closed _ | .openPids =>
    exact not_stuck_of_runs (by rw [hpc]; rfl)
  | .lock => exact not_stuck_of_lock hlock (by rw [hmain]; rfl) hpc
  | .close k =>
    by_cases hfree : 0 < s.shared.semS
    · obtain ⟨e, he⟩ : ∃ e, stepVoter C c s.shared (s.voter c) = some e := by
        simp only [stepVoter, hpc, hfree, if_true]
        exact ⟨_, rfl⟩
      exact not_stuck_of_step he
    · -- some voter has not come back to its announcement
      have hk : k < n - 1 := by simpa [hpc, VoterPc.counts] using hspot
      have hlt : Family.total announced1 s.voter < Fintype.card (Fin n) - 1 := by
        rw [hpc] at hS
        simp only [VoterPc.closeCount] at hS
        rw [Fintype.card_fin]
        omega
      obtain ⟨j, hj, hnot⟩ := Family.exists_eq_zero_of_lt c hlt
      exact not_stuck_of_votes hp hlock (hmask j) hj (by simpa [announced1] using hnot)
  | .absent | .head | .beforeWait1 | .wait1 | .elect | .truncate | .gather _ | .gathered _
  | .call | .announce | .measure | .beforeWait2 | .wait2 | .notify _ | .release | .loop
  | .exited => simp [hpc, VoterPc.counts] at hspot

/-- At the end of a round the candidate waits for nobody. -/
theorem not_stuck_closing (hp : InPhase mode (.closing c) s) : ¬ (system mode C).Stuck s := by
  obtain ⟨-, hspot⟩ := (hp.place c).candidate_closing
  refine not_stuck_of_runs (i := c) ?_
  cases hx : (s.voter c).pc <;>
    simp [hx, VoterPc.closes, VoterPc.reenters, VoterPc.runs] at hspot ⊢

/-- **Somebody can move** in every phase but the last. -/
theorem not_stuck_of_inPhase {p : Phase n} (hn : 1 ≤ n) (hp : InPhase .ideal p s)
    (hlock : FileLock s) (hmask : ∀ j, Masked (s.voter j)) (hblocked : ∀ c, p ≠ .blocked c) :
    ¬ (system .ideal C).Stuck s := by
  match p with
  | .startUp => exact not_stuck_startUp hp hlock
  | .election => exact not_stuck_election hn hp hmask
  | .gathering c => exact not_stuck_gathering hp hmask
  | .voting c => exact not_stuck_voting hp hlock hmask
  | .closing c => exact not_stuck_closing hp
  | .blocked c => exact absurd rfl (hblocked c)

end Soper.Voting
