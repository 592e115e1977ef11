import Soper.Voting.Phases

/-!
# From phase to phase

One lemma for each phase and role says where a step of a voter leads: it stays in the phase, or
goes on to the next one at one program point of the candidate (its election, its call, the
opening of `pids.bin` and its next election). The announcements and the waits on `sem_s` are
kept in balance (`balance_other`, `balance_candidate`), and at the call and at the opening of
`pids.bin` the balance says where all other voters are (`InPhase.all_waits2`,
`InPhase.all_waits1`).
-/

namespace Soper.Voting

variable {n : ℕ} {mode : Mode} {C : Census n} {s t : State n} {i c : Fin n}

/-! ### The loops of waits -/

theorem gathers_gatherFrom (k : ℕ) : (gatherFrom n k).gathers n = true := by
  unfold gatherFrom
  split
  · simpa [VoterPc.gathers]
  · rfl

theorem gatherCount_gatherFrom {k : ℕ} (hk : k ≤ n - 1) : (gatherFrom n k).gatherCount n = k := by
  unfold gatherFrom
  split
  · rfl
  · simp only [VoterPc.gatherCount]
    omega

theorem waits_gatherFrom (k : ℕ) :
    (gatherFrom n k).waits1 = false ∧ (gatherFrom n k).waits2 = false := by
  unfold gatherFrom
  split <;> exact ⟨rfl, rfl⟩

theorem counts_closeFrom (k : ℕ) : (closeFrom n k).counts n = true := by
  unfold closeFrom
  split
  · simpa [VoterPc.counts]
  · rfl

theorem closeCount_closeFrom {k : ℕ} (hk : k ≤ n - 1) : (closeFrom n k).closeCount n = k := by
  unfold closeFrom
  split
  · rfl
  · simp only [VoterPc.closeCount]
    omega

theorem waits_closeFrom (k : ℕ) :
    (closeFrom n k).waits1 = false ∧ (closeFrom n k).waits2 = false := by
  unfold closeFrom
  split <;> exact ⟨rfl, rfl⟩

/-! ### Start-up -/

/-- Which voters are forked does not change when a forked voter moves. -/
theorem forked_update {f : Fin n → Voter n} {w : Voter n} {k : ℕ}
    (h : ∀ j : Fin n, (f j).pc ≠ .absent ↔ (j : ℕ) < k) (hold : (f i).pc ≠ .absent)
    (hnew : w.pc ≠ .absent) (j : Fin n) :
    (Function.update f i w j).pc ≠ .absent ↔ (j : ℕ) < k :=
  Family.created_update (fun v : Voter n => v.pc ≠ .absent) h hold hnew j

/-- Before the first signal a voter announces itself and waits. -/
theorem inPhase_startUp {e : Effect n} (h : InPhase mode .startUp s)
    (he : stepVoter C i s.shared (s.voter i) = some e) :
    InPhase mode .startUp (applyEffect mode C i s e) := by
  obtain ⟨hround, hcand, hstart, hpend⟩ := (h.place i).spot
  obtain ⟨hmain, hC, hS, hforked, hcount⟩ := h.global
  match hpc : (s.voter i).pc with
  | .absent | .wait1 => simp [stepVoter, hpc] at he
  | .head =>
    simp only [stepVoter, hpc, if_pos hcand] at he
    cases he
    refine h.move ((h.place i).step rfl rfl rfl (fun _ => rfl) (by simp [hpc, VoterPc.waits2])
      ⟨hround, hcand, rfl, hpend⟩) ⟨hmain, hC, balance_step hS ?_, ?_, hcount⟩
    · simp [announced1, hpc, VoterPc.waits1]
    · exact forked_update hforked (by rw [hpc]; rintro ⟨⟩) (by rintro ⟨⟩)
  | .beforeWait1 =>
    simp only [stepVoter, hpc] at he
    cases he
    refine h.move ((h.place i).step rfl rfl rfl (fun _ => rfl) (by simp [hpc, VoterPc.waits2])
      ⟨hround, hcand, rfl, hpend⟩) ⟨hmain, hC, balance_step hS ?_, ?_, hcount⟩
    · simp [announced1, hpc, VoterPc.waits1]
    · exact forked_update hforked (by rw [hpc]; rintro ⟨⟩) (by rintro ⟨⟩)
  | .elect | .truncate | .gather _ | .gathered _ | .call | .announce | .measure | .beforeWait2
  | .wait2 | .lock | .append | .unlock | .read _ | .verdict | .close _ | .closed _ | .openPids
  | .notify _ | .release | .loop | .exited => simp [hpc, VoterPc.starts] at hstart

/-! ### Election -/

/-- In the election a voter goes on to wait. -/
theorem inPhase_election_wait {e : Effect n} (h : InPhase mode .election s)
    (hne : (s.voter i).pc ≠ .elect) (he : stepVoter C i s.shared (s.voter i) = some e) :
    InPhase mode .election (applyEffect mode C i s e) := by
  obtain ⟨hround, hcand, hspot, hpend⟩ := (h.place i).spot
  match hpc : (s.voter i).pc with
  | .elect => exact absurd hpc hne
  | .wait1 => simp [stepVoter, hpc] at he
  | .beforeWait1 =>
    simp only [stepVoter, hpc] at he
    cases he
    exact h.move ((h.place i).step rfl rfl rfl (fun _ => rfl) (by simp [hpc, VoterPc.waits2])
      ⟨hround, hcand, Or.inl rfl, fun hm _ => hpend hm (by rw [hpc]; rfl)⟩) h.global
  | .absent | .head | .truncate | .gather _ | .gathered _ | .call | .announce | .measure
  | .beforeWait2 | .wait2 | .lock | .append | .unlock | .read _ | .verdict | .close _ | .closed _
  | .openPids | .notify _ | .release | .loop | .exited => simp [hpc, VoterPc.waits1] at hspot

/-- The first voter to try is the candidate: `sem_c` is free. -/
theorem inPhase_election_elect {e : Effect n} (h : InPhase mode .election s)
    (hpc : (s.voter i).pc = .elect) (he : stepVoter C i s.shared (s.voter i) = some e) :
    InPhase mode (.gathering i) (applyEffect mode C i s e) := by
  obtain ⟨hround, -, -, -⟩ := (h.place i).spot
  obtain ⟨hmain, hC, hS⟩ := h.global
  simp only [stepVoter, hpc, hC, Nat.lt_one_iff, if_true] at he
  cases he
  refine ⟨h.mainUndisturbed, ⟨hmain, rfl, ?_⟩, fun j => ?_⟩
  · -- nobody has announced itself for SIGUSR2 yet
    simp only [applyEffect, deliver, Function.update_self, VoterPc.gatherCount, hS]
    refine (Family.total_eq_zero fun j => ?_).symm
    by_cases hj : j = i
    · subst hj
      simp [announced2, VoterPc.waits2]
    · rw [Function.update_of_ne hj]
      obtain ⟨-, -, hw | hw, -⟩ := (h.place j).spot
      · simp [announced2, (VoterPc.announced_of_waits1 hw).2.2.1]
      · simp [announced2, hw, VoterPc.waits2]
  · by_cases hj : j = i
    · subst hj
      simp only [applyEffect, deliver, Function.update_self]
      refine (h.place j).step rfl rfl rfl (by simp [hpc, VoterPc.waits1])
        (by simp [hpc, VoterPc.waits2]) ?_
      simp [Spot, hround, VoterPc.gathers]
    · simp only [applyEffect, deliver, Function.update_of_ne hj]
      obtain ⟨hr, hc, hw, hp⟩ := (h.place j).spot
      refine (h.place j).step rfl rfl rfl id id ?_
      simp only [Spot, if_neg hj]
      rcases hw with hw | hw
      · refine ⟨hr, hc, ?_, (h.place j).pending2_eq (VoterPc.announced_of_waits1 hw).2.2.1, hp⟩
        cases hx : (s.voter j).pc <;> simp [hx, VoterPc.waits1, VoterPc.follows] at hw ⊢
      · exact ⟨hr, hc, by rw [hw]; rfl, (h.place j).pending2_eq (by rw [hw]; rfl), hp⟩

/-! ### Gathering -/

/-- What the candidate's own place says. -/
theorem Place.candidate_gathering {v : Voter n} (h : Place mode (.gathering c) c v) :
    v.candidate = true ∧ (v.round = 0 ∨ n = 1) ∧ v.pc.gathers n = true := by
  simpa [Spot] using h.spot

/-- What the place of another voter says. -/
theorem Place.other_gathering {v : Voter n} (h : Place mode (.gathering c) i v) (hi : i ≠ c) :
    v.round = 0 ∧ v.candidate = false ∧ v.pc.follows = true ∧ v.pending2 = false ∧
      (mode = .ideal → v.pc.waits1 = true → v.pending1 = true) := by
  simpa [Spot, hi] using h.spot

theorem VoterPc.waits_of_gathers {pc : VoterPc} (h : pc.gathers n = true) :
    pc.waits1 = false ∧ pc.waits2 = false := by
  cases pc <;> first | exact ⟨rfl, rfl⟩ | cases h

/-- At its call the candidate has heard of every other voter: they all wait for SIGUSR2. -/
theorem InPhase.all_waits2 (h : InPhase mode (.gathering c) s) (hpc : (s.voter c).pc = .call) :
    s.shared.semS = 0 ∧ ∀ j, j ≠ c → (s.voter j).pc.waits2 = true := by
  obtain ⟨-, -, hS⟩ := h.global
  rw [hpc] at hS
  obtain ⟨hzero, hall⟩ := balance_complete (c := c) announced2_le hS
    (by simp [announced2, hpc, VoterPc.waits2])
  exact ⟨hzero, fun j hj => announced2_eq_one.mp (hall j hj)⟩

/-- Before its call the candidate goes on with its waits. -/
theorem inPhase_gathering_candidate {e : Effect n} (h : InPhase mode (.gathering c) s)
    (hne : (s.voter c).pc ≠ .call) (he : stepVoter C c s.shared (s.voter c) = some e) :
    InPhase mode (.gathering c) (applyEffect mode C c s e) := by
  obtain ⟨hcand, hround, hspot⟩ := (h.place c).candidate_gathering
  obtain ⟨hmain, hC, hS⟩ := h.global
  obtain ⟨hw1, hw2⟩ := VoterPc.waits_of_gathers hspot
  have hold : announced2 (s.voter c) = 0 := by simp [announced2, hw2]
  -- the candidate stays in its place as long as it gathers
  have stay : ∀ {w : Voter n}, w.interrupted = (s.voter c).interrupted →
      w.pending1 = (s.voter c).pending1 → w.pending2 = (s.voter c).pending2 →
      w.candidate = (s.voter c).candidate → w.round = (s.voter c).round →
      w.pc.gathers n = true → Place mode (.gathering c) c w := by
    intro w hi hp1 hp2 hc hr hg
    refine (h.place c).step hi hp1 hp2 (by simp [hw1]) (by simp [hw2]) ?_
    simpa [Spot, hc, hr, hg, hcand] using hround
  cases hpc : (s.voter c).pc with
  | call => exact absurd hpc hne
  | truncate =>
    simp only [stepVoter, hpc] at he
    cases he
    refine h.move (stay rfl rfl rfl rfl rfl (gathers_gatherFrom 0))
      ⟨hmain, hC, balance_candidate hS hold ?_ ?_⟩
    · simp [announced2, (waits_gatherFrom 0).2]
    · simp only [hpc, gatherCount_gatherFrom (Nat.zero_le _)]
      rfl
  | gather k =>
    simp only [stepVoter, hpc] at he
    split at he <;> cases he
    rw [hpc] at hspot
    refine h.move (stay rfl rfl rfl rfl rfl hspot)
      ⟨hmain, hC, balance_candidate hS hold rfl ?_⟩
    simp only [hpc, VoterPc.gatherCount]
    omega
  | gathered k =>
    simp only [stepVoter, hpc] at he
    cases he
    have hk : k < n - 1 := by simpa [hpc, VoterPc.gathers] using hspot
    refine h.move (stay rfl rfl rfl rfl rfl (gathers_gatherFrom (k + 1)))
      ⟨hmain, hC, balance_candidate hS hold ?_ ?_⟩
    · simp [announced2, (waits_gatherFrom (k + 1)).2]
    · simp only [hpc, gatherCount_gatherFrom (Nat.succ_le_of_lt hk)]
      rfl
  | absent | head | beforeWait1 | wait1 | elect | announce | measure | beforeWait2
  | wait2 | lock | append | unlock | read _ | verdict | close _ | closed _ | openPids
  | notify _ | release | loop | exited => simp [hpc, VoterPc.gathers] at hspot

/-- At its call the candidate turns to the vote, and with it all voters. -/
theorem inPhase_gathering_call {e : Effect n} (h : InPhase mode (.gathering c) s)
    (hpc : (s.voter c).pc = .call) (he : stepVoter C c s.shared (s.voter c) = some e) :
    InPhase mode (.voting c) (applyEffect mode C c s e) := by
  obtain ⟨hcand, hround, -⟩ := (h.place c).candidate_gathering
  obtain ⟨hmain, hC, -⟩ := h.global
  obtain ⟨hzero, hall⟩ := h.all_waits2 hpc
  simp only [stepVoter, hpc] at he
  cases he
  refine ⟨?_, ⟨hmain, hC, ?_⟩, fun j => ?_⟩
  · simp [applyEffect, deliver, h.mainUndisturbed, hmain, MainPc.inSemWait]
  · simp only [applyEffect, deliver, receive_self, Function.update_self, VoterPc.closeCount, hzero]
    refine (Family.total_eq_zero fun j => ?_).symm
    by_cases hj : j = c
    · subst hj
      simp [announced1, VoterPc.waits1]
    · simp [announced1, Function.update_of_ne hj,
        (VoterPc.announced_of_waits2 (hall j hj)).2.2.1]
  · by_cases hj : j = c
    · subst hj
      simp only [applyEffect, deliver, Function.update_self, receive_self]
      refine (h.place j).step rfl rfl rfl (by simp [hpc, VoterPc.waits1])
        (by simp [hpc, VoterPc.waits2]) ?_
      simpa [Spot, VoterPc.counts, hcand] using hround
    · simp only [applyEffect, deliver, Function.update_of_ne hj]
      -- the others wait already, so the signal reaches them in their wait
      obtain ⟨hr, hc, -, -, -⟩ := (h.place j).other_gathering hj
      obtain ⟨hann, hsem, hw1, habs⟩ := VoterPc.announced_of_waits2 (hall j hj)
      have hself : some c ≠ some j := by simpa using Ne.symm hj
      refine ⟨(receive_interrupted hsem).trans (h.place j).undisturbed, ?_, ?_, ?_⟩
      · rw [receive_usr2_pending1, (h.place j).pending1_eq hw1]
        rintro ⟨⟩
      · rw [receive_pc]
        exact fun _ => hall j hj
      · simp only [Spot, if_neg hj, receive_candidate, receive_round, receive_pc]
        refine ⟨hc, Or.inl ⟨hr, ?_⟩, ?_⟩
        · have := hall j hj
          cases hx : (s.voter j).pc <;> simp_all [VoterPc.waits2, VoterPc.votes]
        · rintro rfl -
          rw [receive_usr2_keeps hself habs (show Mode.ideal.keeps _ = true from hann)]

/-- While the candidate gathers them, the other voters come to wait for SIGUSR2: `sem_c` is
taken. -/
theorem inPhase_gathering_other {e : Effect n} (h : InPhase mode (.gathering c) s) (hi : i ≠ c)
    (he : stepVoter C i s.shared (s.voter i) = some e) :
    InPhase mode (.gathering c) (applyEffect mode C i s e) := by
  obtain ⟨hround, hcand, hspot, hp2, hideal⟩ := (h.place i).other_gathering hi
  obtain ⟨hmain, hC, hS⟩ := h.global
  match hpc : (s.voter i).pc with
  | .wait1 | .wait2 => simp [stepVoter, hpc] at he
  | .beforeWait1 =>
    simp only [stepVoter, hpc] at he
    cases he
    refine h.move ((h.place i).step rfl rfl rfl (fun _ => rfl) (by simp [hpc, VoterPc.waits2]) ?_)
      ⟨hmain, hC, balance_other hS hi ?_⟩
    · simpa [Spot, hi, hround, hcand, hp2, VoterPc.follows, VoterPc.waits1, hpc] using hideal
    · simp [announced2, hpc, VoterPc.waits2]
  | .elect =>
    -- the candidate holds the token
    simp only [stepVoter, hpc, hC, Nat.lt_irrefl, if_false] at he
    cases he
    refine h.move ((h.place i).step rfl rfl rfl (by simp [hpc, VoterPc.waits1])
      (by simp [hpc, VoterPc.waits2]) ?_) ⟨hmain, hC, balance_other hS hi ?_⟩
    · simp [Spot, hi, hround, hcand, hp2, VoterPc.follows, VoterPc.waits1]
    · simp [announced2, hpc, VoterPc.waits2]
  | .announce =>
    simp only [stepVoter, hpc] at he
    cases he
    refine h.move ((h.place i).step rfl rfl rfl (by simp [hpc, VoterPc.waits1])
      (fun _ => rfl) ?_) ⟨hmain, hC, balance_other hS hi ?_⟩
    · simp [Spot, hi, hround, hcand, hp2, VoterPc.follows, VoterPc.waits1]
    · simp [announced2, hpc, VoterPc.waits2]
  | .measure | .beforeWait2 =>
    simp only [stepVoter, hpc] at he
    cases he
    refine h.move ((h.place i).step rfl rfl rfl (by simp [hpc, VoterPc.waits1])
      (fun _ => rfl) ?_) ⟨hmain, hC, balance_other hS hi ?_⟩
    · simp [Spot, hi, hround, hcand, hp2, VoterPc.follows, VoterPc.waits1]
    · simp [announced2, hpc, VoterPc.waits2]
  | .absent | .head | .truncate | .gather _ | .gathered _ | .call | .lock | .append | .unlock
  | .read _ | .verdict | .close _ | .closed _ | .openPids | .notify _ | .release | .loop
  | .exited => simp [hpc, VoterPc.follows] at hspot

/-! ### Voting -/

/-- What the candidate's own place says. -/
theorem Place.candidate_voting {v : Voter n} (h : Place mode (.voting c) c v) :
    v.candidate = true ∧ (v.round = 0 ∨ n = 1) ∧ v.pc.counts n = true := by
  simpa [Spot] using h.spot

/-- What the place of another voter says. -/
theorem Place.other_voting {v : Voter n} (h : Place mode (.voting c) i v) (hi : i ≠ c) :
    v.candidate = false ∧
      (v.round = 0 ∧ v.pc.votes = true ∨ v.round = 1 ∧ v.pc.returns = true) ∧
      (mode = .ideal → v.pc.waits2 = true → v.pending2 = true) := by
  simpa [Spot, hi] using h.spot

theorem VoterPc.waits_of_counts {pc : VoterPc} (h : pc.counts n = true) :
    pc.waits1 = false ∧ pc.waits2 = false := by
  cases pc <;> first | exact ⟨rfl, rfl⟩ | cases h

/-- When the candidate opens `pids.bin` it has heard of every other voter once more: they all
wait for SIGUSR1. -/
theorem InPhase.all_waits1 (h : InPhase mode (.voting c) s)
    (hpc : (s.voter c).pc = .openPids) :
    s.shared.semS = 0 ∧ ∀ j, j ≠ c → (s.voter j).pc.waits1 = true := by
  obtain ⟨-, -, hS⟩ := h.global
  rw [hpc] at hS
  obtain ⟨hzero, hall⟩ := balance_complete (c := c) announced1_le hS
    (by simp [announced1, hpc, VoterPc.waits1])
  exact ⟨hzero, fun j hj => announced1_eq_one.mp (hall j hj)⟩

/-- Until it opens `pids.bin` the candidate goes on with the count and its waits. -/
theorem inPhase_voting_candidate {e : Effect n} (h : InPhase mode (.voting c) s)
    (hne : (s.voter c).pc ≠ .openPids) (he : stepVoter C c s.shared (s.voter c) = some e) :
    InPhase mode (.voting c) (applyEffect mode C c s e) := by
  obtain ⟨hcand, hround, hspot⟩ := (h.place c).candidate_voting
  obtain ⟨hmain, hC, hS⟩ := h.global
  obtain ⟨hw1, hw2⟩ := VoterPc.waits_of_counts hspot
  have hold : announced1 (s.voter c) = 0 := by simp [announced1, hw1]
  -- the candidate stays in its place as long as it counts
  have stay : ∀ {w : Voter n}, w.interrupted = (s.voter c).interrupted →
      w.pending1 = (s.voter c).pending1 → w.pending2 = (s.voter c).pending2 →
      w.candidate = (s.voter c).candidate → w.round = (s.voter c).round →
      w.pc.counts n = true → Place mode (.voting c) c w := by
    intro w hi hp1 hp2 hc hr hg
    refine (h.place c).step hi hp1 hp2 (by simp [hw1]) (by simp [hw2]) ?_
    simpa [Spot, hc, hr, hg, hcand] using hround
  cases hpc : (s.voter c).pc with
  | openPids => exact absurd hpc hne
  | lock =>
    simp only [stepVoter, hpc] at he
    split at he <;> cases he
    refine h.move (stay rfl rfl rfl rfl rfl rfl) ⟨hmain, hC, balance_candidate hS hold rfl ?_⟩
    simp only [hpc, VoterPc.closeCount]
  | append =>
    simp only [stepVoter, hpc] at he
    cases he
    refine h.move (stay rfl rfl rfl rfl rfl rfl) ⟨hmain, hC, balance_candidate hS hold rfl ?_⟩
    simp only [hpc, VoterPc.closeCount]
  | unlock =>
    simp only [stepVoter, hpc, if_pos hcand] at he
    cases he
    refine h.move (stay rfl rfl rfl rfl rfl rfl) ⟨hmain, hC, balance_candidate hS hold rfl ?_⟩
    simp only [hpc, VoterPc.closeCount]
  | read p =>
    simp only [stepVoter, hpc] at he
    split at he <;> cases he
    all_goals
      refine h.move (stay rfl rfl rfl rfl rfl rfl)
        ⟨hmain, hC, balance_candidate hS hold rfl ?_⟩
      simp only [hpc, VoterPc.closeCount]
  | verdict =>
    simp only [stepVoter, hpc] at he
    cases he
    refine h.move (stay rfl rfl rfl rfl rfl (counts_closeFrom 0))
      ⟨hmain, hC, balance_candidate hS hold ?_ ?_⟩
    · simp [announced1, (waits_closeFrom 0).1]
    · simp only [hpc, closeCount_closeFrom (Nat.zero_le _)]
      rfl
  | close k =>
    simp only [stepVoter, hpc] at he
    split at he <;> cases he
    rw [hpc] at hspot
    refine h.move (stay rfl rfl rfl rfl rfl hspot)
      ⟨hmain, hC, balance_candidate hS hold rfl ?_⟩
    simp only [hpc, VoterPc.closeCount]
    omega
  | closed k =>
    simp only [stepVoter, hpc] at he
    cases he
    have hk : k < n - 1 := by simpa [hpc, VoterPc.counts] using hspot
    refine h.move (stay rfl rfl rfl rfl rfl (counts_closeFrom (k + 1)))
      ⟨hmain, hC, balance_candidate hS hold ?_ ?_⟩
    · simp [announced1, (waits_closeFrom (k + 1)).1]
    · simp only [hpc, closeCount_closeFrom (Nat.succ_le_of_lt hk)]
      rfl
  | absent | head | beforeWait1 | wait1 | elect | truncate | gather _ | gathered _
  | call | announce | measure | beforeWait2 | wait2 | notify _ | release | loop
  | exited => simp [hpc, VoterPc.counts] at hspot

/-- Where the process ids have been written, the candidate goes on to end the round. -/
theorem inPhase_voting_openPids {e : Effect n} (h : InPhase mode (.voting c) s)
    (hpids : PidsWritten C s) (hpc : (s.voter c).pc = .openPids)
    (he : stepVoter C c s.shared (s.voter c) = some e) :
    InPhase mode (.closing c) (applyEffect mode C c s e) := by
  obtain ⟨hcand, hround, -⟩ := (h.place c).candidate_voting
  obtain ⟨hmain, hC, -⟩ := h.global
  obtain ⟨hzero, hall⟩ := h.all_waits1 hpc
  simp only [PidsWritten, hmain] at hpids
  simp only [stepVoter, hpc, hpids] at he
  cases he
  refine ⟨h.mainUndisturbed, ⟨hmain, hzero, ?_⟩, fun j => ?_⟩
  · simp [applyEffect, deliver, hC, VoterPc.closesHolding]
  · by_cases hj : j = c
    · subst hj
      simp only [applyEffect, deliver, Function.update_self]
      refine (h.place j).step rfl rfl rfl (by simp [hpc, VoterPc.waits1])
        (by simp [hpc, VoterPc.waits2]) ?_
      simpa [Spot, VoterPc.closes, VoterPc.reenters, hcand] using hround
    · simp only [applyEffect, deliver, Function.update_of_ne hj]
      -- a voter that has announced itself once more has ended its first pass
      obtain ⟨hc, hr, -⟩ := (h.place j).other_voting hj
      refine (h.place j).step rfl rfl rfl id id ?_
      simp only [Spot, if_neg hj]
      refine ⟨hc, ?_, hall j hj⟩
      rcases hr with ⟨-, hv⟩ | ⟨hr, -⟩
      · have := hall j hj
        cases hx : (s.voter j).pc <;> simp [hx, VoterPc.waits1, VoterPc.votes] at this hv
      · exact hr

/-- Another voter moves on in the vote. It goes on waiting for SIGUSR2 if it did, and `sem_s`
gains what it announces. -/
theorem InPhase.move_voting {sh : Shared n} {w : Voter n} (h : InPhase mode (.voting c) s)
    (hi : i ≠ c) (hC : sh.semC = s.shared.semC)
    (hS : sh.semS + announced1 (s.voter i) = s.shared.semS + announced1 w)
    (hint : w.interrupted = (s.voter i).interrupted) (hp1 : w.pending1 = (s.voter i).pending1)
    (hp2 : w.pending2 = (s.voter i).pending2) (hcand : w.candidate = (s.voter i).candidate)
    (hw1 : (s.voter i).pc.waits1 = true → w.pc.waits1 = true)
    (hw2 : w.pc.waits2 = (s.voter i).pc.waits2)
    (hspot : w.round = 0 ∧ w.pc.votes = true ∨ w.round = 1 ∧ w.pc.returns = true) :
    InPhase mode (.voting c) { s with shared := sh, voter := Function.update s.voter i w } := by
  obtain ⟨hflag, -, hideal⟩ := (h.place i).other_voting hi
  obtain ⟨hmain, hzero, hbalance⟩ := h.global
  refine h.move ((h.place i).step hint hp1 hp2 hw1 ?_ ?_)
    ⟨hmain, hC.trans hzero, balance_other hbalance hi hS⟩
  · rw [hw2]
    exact id
  · simp only [Spot, if_neg hi]
    refine ⟨hcand.trans hflag, hspot, ?_⟩
    rw [hp2, hw2]
    exact hideal

/-- The other voters vote, come back to the head of the loop and announce themselves again. -/
theorem inPhase_voting_other {e : Effect n} (h : InPhase mode (.voting c) s) (hi : i ≠ c)
    (he : stepVoter C i s.shared (s.voter i) = some e) :
    InPhase mode (.voting c) (applyEffect mode C i s e) := by
  obtain ⟨hcand, hspot, -⟩ := (h.place i).other_voting hi
  -- where a voter stands tells whether it is in its first pass
  have hfirst : (s.voter i).pc.returns = false → (s.voter i).round = 0 := by
    intro hreturns
    rcases hspot with ⟨hround, -⟩ | ⟨-, hpc⟩
    · exact hround
    · rw [hreturns] at hpc
      cases hpc
  have hsecond : (s.voter i).pc.votes = false → (s.voter i).round = 1 := by
    intro hvotes
    rcases hspot with ⟨-, hpc⟩ | ⟨hround, -⟩
    · rw [hvotes] at hpc
      cases hpc
    · exact hround
  match hpc : (s.voter i).pc with
  | .wait1 | .wait2 => simp [stepVoter, hpc] at he
  | .measure | .beforeWait2 | .append =>
    simp only [stepVoter, hpc] at he
    cases he
    have hround := hfirst (by rw [hpc]; rfl)
    exact h.move_voting hi rfl (by simp [announced1, hpc, VoterPc.waits1]) rfl rfl rfl rfl
      (by rw [hpc]; rintro ⟨⟩) (by rw [hpc]; rfl) (Or.inl ⟨hround, rfl⟩)
  | .lock =>
    simp only [stepVoter, hpc] at he
    split at he <;> cases he
    have hround := hfirst (by rw [hpc]; rfl)
    exact h.move_voting hi rfl (by simp [announced1, hpc, VoterPc.waits1]) rfl rfl rfl rfl
      (by rw [hpc]; rintro ⟨⟩) (by rw [hpc]; rfl) (Or.inl ⟨hround, rfl⟩)
  | .unlock =>
    simp only [stepVoter, hpc] at he
    rw [if_neg (by rw [hcand]; rintro ⟨⟩)] at he
    cases he
    have hround := hfirst (by rw [hpc]; rfl)
    exact h.move_voting hi rfl (by simp [announced1, hpc, VoterPc.waits1]) rfl rfl rfl rfl
      (by rw [hpc]; rintro ⟨⟩) (by rw [hpc]; rfl) (Or.inl ⟨hround, rfl⟩)
  | .loop =>
    simp only [stepVoter, hpc] at he
    cases he
    have hround : (s.voter i).round + 1 = 1 := congrArg (· + 1) (hfirst (by rw [hpc]; rfl))
    exact h.move_voting hi rfl (by simp [announced1, hpc, VoterPc.waits1]) rfl rfl rfl rfl
      (by rw [hpc]; rintro ⟨⟩) (by rw [hpc]; rfl) (Or.inr ⟨hround, rfl⟩)
  | .head =>
    simp only [stepVoter, hpc] at he
    rw [if_pos hcand] at he
    cases he
    have hround := hsecond (by rw [hpc]; rfl)
    exact h.move_voting hi rfl (by simp [announced1, hpc, VoterPc.waits1]) rfl rfl rfl rfl
      (by rw [hpc]; rintro ⟨⟩) (by rw [hpc]; rfl) (Or.inr ⟨hround, rfl⟩)
  | .beforeWait1 =>
    simp only [stepVoter, hpc] at he
    cases he
    have hround := hsecond (by rw [hpc]; rfl)
    exact h.move_voting hi rfl (by simp [announced1, hpc, VoterPc.waits1]) rfl rfl rfl rfl
      (fun _ => rfl) (by rw [hpc]; rfl) (Or.inr ⟨hround, rfl⟩)
  | .absent | .elect | .truncate | .gather _ | .gathered _ | .call | .announce | .read _
  | .verdict | .close _ | .closed _ | .openPids | .notify _ | .release | .exited =>
    simp [hpc, VoterPc.votes, VoterPc.returns] at hspot

/-! ### The end of a round -/

/-- What the candidate's own place says. -/
theorem Place.candidate_closing {v : Voter n} (h : Place mode (.closing c) c v) :
    v.candidate = true ∧
      ((v.round = 0 ∨ n = 1) ∧ v.pc.closes = true ∨
        (v.round = 1 ∨ n = 1) ∧ v.pc.reenters = true) := by
  simpa [Spot] using h.spot

/-- What the place of another voter says. -/
theorem Place.other_closing {v : Voter n} (h : Place mode (.closing c) i v) (hi : i ≠ c) :
    v.candidate = false ∧ v.round = 1 ∧ v.pc.waits1 = true := by
  simpa [Spot, hi] using h.spot

/-- SIGUSR1 for the next round leaves a waiting voter where it is. -/
theorem Place.receive_closing {v : Voter n} {origin : Option (Fin n)}
    (h : Place mode (.closing c) i v) (hi : i ≠ c) :
    Place mode (.closing c) i (receive mode .usr1 origin i v) := by
  obtain ⟨hcand, hround, hw⟩ := h.other_closing hi
  obtain ⟨-, hsem, hw2, -⟩ := VoterPc.announced_of_waits1 hw
  refine ⟨(receive_interrupted hsem).trans h.undisturbed, ?_, ?_, ?_⟩
  · rw [receive_pc]
    exact fun _ => hw
  · rw [receive_usr1_pending2, h.pending2_eq hw2]
    nofun
  · simp [Spot, hi, hcand, hround, hw]

/-- The candidate sends the signals, returns `sem_c` and comes back to the election. -/
theorem inPhase_closing_candidate {e : Effect n} (h : InPhase mode (.closing c) s)
    (hne : (s.voter c).pc ≠ .elect) (he : stepVoter C c s.shared (s.voter c) = some e) :
    InPhase mode (.closing c) (applyEffect mode C c s e) := by
  obtain ⟨hcand, hspot⟩ := (h.place c).candidate_closing
  obtain ⟨hmain, hS, hC⟩ := h.global
  have stay : ∀ {w : Voter n}, w.interrupted = (s.voter c).interrupted →
      w.pending1 = (s.voter c).pending1 → w.pending2 = (s.voter c).pending2 →
      w.candidate = (s.voter c).candidate →
      ((w.round = 0 ∨ n = 1) ∧ w.pc.closes = true ∨
        (w.round = 1 ∨ n = 1) ∧ w.pc.reenters = true) → Place mode (.closing c) c w := by
    intro w hi hp1 hp2 hc hr
    refine (h.place c).step hi hp1 hp2 ?_ ?_ ?_
    · cases hx : (s.voter c).pc <;>
        simp [hx, VoterPc.closes, VoterPc.reenters, VoterPc.waits1] at hspot ⊢
    · cases hx : (s.voter c).pc <;>
        simp [hx, VoterPc.closes, VoterPc.reenters, VoterPc.waits2] at hspot ⊢
    · simpa [Spot, hc, hcand] using hr
  match hpc : (s.voter c).pc with
  | .elect => exact absurd hpc hne
  | .notify [] =>
    simp only [stepVoter, hpc] at he
    cases he
    have hround : (s.voter c).round = 0 ∨ n = 1 := by
      simpa [hpc, VoterPc.closes, VoterPc.reenters] using hspot
    refine h.move (stay rfl rfl rfl rfl (Or.inl ⟨hround, rfl⟩)) ⟨hmain, hS, ?_⟩
    simpa [hpc, VoterPc.closesHolding] using hC
  | .notify (p :: pids) =>
    simp only [stepVoter, hpc] at he
    cases he
    have hround : (s.voter c).round = 0 ∨ n = 1 := by
      simpa [hpc, VoterPc.closes, VoterPc.reenters] using hspot
    have hmoved : InPhase mode (.closing c) { s with
        voter := Function.update s.voter c { s.voter c with pc := .notify pids } } := by
      refine h.move (stay rfl rfl rfl rfl (Or.inl ⟨hround, rfl⟩)) ⟨hmain, hS, ?_⟩
      simpa [hpc, VoterPc.closesHolding] using hC
    -- the signal goes to one voter at most, and not to the candidate
    by_cases hp : p = C.pid c
    · simpa [applyEffect, hp, deliver] using hmoved
    · simp only [applyEffect, deliver, ne_eq, hp, not_false_eq_true, if_true]
      refine ⟨hmoved.mainUndisturbed, ⟨hmain, hS, ?_⟩, fun j => ?_⟩
      · simpa [hpc, Ne.symm hp, VoterPc.closesHolding] using hC
      · have hplace := hmoved.place j
        dsimp only at hplace ⊢
        by_cases hj : C.pid j = p
        · rw [if_pos hj]
          refine hplace.receive_closing ?_
          rintro rfl
          exact hp hj.symm
        · rw [if_neg hj]
          exact hplace
  | .release =>
    simp only [stepVoter, hpc] at he
    cases he
    have hround : (s.voter c).round = 0 ∨ n = 1 := by
      simpa [hpc, VoterPc.closes, VoterPc.reenters] using hspot
    refine h.move (stay rfl rfl rfl rfl (Or.inl ⟨hround, rfl⟩)) ⟨hmain, hS, ?_⟩
    simpa [hpc, VoterPc.closesHolding] using hC
  | .loop =>
    simp only [stepVoter, hpc] at he
    cases he
    have hround : (s.voter c).round = 0 ∨ n = 1 := by
      simpa [hpc, VoterPc.closes, VoterPc.reenters] using hspot
    refine h.move (stay rfl rfl rfl rfl (Or.inr ⟨?_, rfl⟩)) ⟨hmain, hS, ?_⟩
    · simpa using hround
    · simpa [hpc, VoterPc.closesHolding] using hC
  | .head =>
    simp only [stepVoter, hpc, hcand, Bool.true_eq_false, if_false] at he
    cases he
    have hround : (s.voter c).round = 1 ∨ n = 1 := by
      simpa [hpc, VoterPc.closes, VoterPc.reenters] using hspot
    refine h.move (stay rfl rfl rfl hcand.symm (Or.inr ⟨hround, rfl⟩)) ⟨hmain, hS, ?_⟩
    simpa [hpc, VoterPc.closesHolding] using hC
  | .absent | .beforeWait1 | .wait1 | .truncate | .gather _ | .gathered _ | .call | .announce
  | .measure | .beforeWait2 | .wait2 | .lock | .append | .unlock | .read _ | .verdict | .close _
  | .closed _ | .openPids | .exited => simp [hpc, VoterPc.closes, VoterPc.reenters] at hspot

/-- The candidate of the last round is elected again, before anybody else has woken: a single
voter starts its next round, and with more voters the program is blocked. -/
theorem inPhase_closing_elect {e : Effect n} (h : InPhase mode (.closing c) s)
    (hpc : (s.voter c).pc = .elect) (he : stepVoter C c s.shared (s.voter c) = some e) :
    InPhase mode (if n = 1 then .gathering c else .blocked c) (applyEffect mode C c s e) := by
  obtain ⟨hcand, hspot⟩ := (h.place c).candidate_closing
  obtain ⟨hmain, hS, hC⟩ := h.global
  have hround : (s.voter c).round = 1 ∨ n = 1 := by
    simpa [hpc, VoterPc.closes, VoterPc.reenters] using hspot
  have hfree : s.shared.semC = 1 := by simpa [hpc, VoterPc.closesHolding] using hC
  simp only [stepVoter, hpc, hfree, Nat.lt_one_iff, if_true] at he
  cases he
  by_cases hn : n = 1
  -- a single voter has nobody to gather
  · rw [if_pos hn]
    have hone : ∀ j, j = c := by
      subst hn
      exact fun j => Subsingleton.elim j c
    refine ⟨h.mainUndisturbed, ⟨hmain, rfl, ?_⟩, fun j => ?_⟩
    · simp only [applyEffect, deliver, Function.update_self, VoterPc.gatherCount, hS]
      refine (Family.total_eq_zero fun j => ?_).symm
      rw [hone j]
      simp [announced2, VoterPc.waits2]
    · rw [hone j]
      simp only [applyEffect, deliver, Function.update_self]
      refine (h.place c).step rfl rfl rfl (by simp [hpc, VoterPc.waits1])
        (by simp [hpc, VoterPc.waits2]) ?_
      simp [Spot, hn, VoterPc.gathers]
  -- the others still wait for SIGUSR1, so nobody answers the new candidate
  · rw [if_neg hn]
    refine ⟨h.mainUndisturbed, ⟨hmain, hS, rfl, hn⟩, fun j => ?_⟩
    by_cases hj : j = c
    · subst hj
      simp only [applyEffect, deliver, Function.update_self]
      refine (h.place j).step rfl rfl rfl (by simp [hpc, VoterPc.waits1])
        (by simp [hpc, VoterPc.waits2]) ?_
      simpa [Spot, hn] using hround
    · simp only [applyEffect, deliver, Function.update_of_ne hj]
      refine (h.place j).step rfl rfl rfl id id ?_
      simpa [Spot, hj] using (h.place j).other_closing hj

/-- The other voters only go to wait for the SIGUSR1 of the next round. -/
theorem inPhase_closing_other {e : Effect n} (h : InPhase mode (.closing c) s) (hi : i ≠ c)
    (he : stepVoter C i s.shared (s.voter i) = some e) :
    InPhase mode (.closing c) (applyEffect mode C i s e) := by
  obtain ⟨hcand, hround, hw⟩ := (h.place i).other_closing hi
  match hpc : (s.voter i).pc with
  | .wait1 => simp [stepVoter, hpc] at he
  | .beforeWait1 =>
    simp only [stepVoter, hpc] at he
    cases he
    obtain ⟨hmain, hS, hC⟩ := h.global
    refine h.move ((h.place i).step rfl rfl rfl (fun _ => rfl) (by simp [hpc, VoterPc.waits2]) ?_)
      ⟨hmain, hS, ?_⟩
    · simp [Spot, hi, hcand, hround, VoterPc.waits1]
    · simpa [Function.update_of_ne (Ne.symm hi)] using hC
  | .absent | .head | .elect | .truncate | .gather _ | .gathered _ | .call | .announce | .measure
  | .beforeWait2 | .wait2 | .lock | .append | .unlock | .read _ | .verdict | .close _ | .closed _
  | .openPids | .notify _ | .release | .loop | .exited => simp [hpc, VoterPc.waits1] at hw

/-- Blocked: the candidate goes to its first wait and the others to theirs. -/
theorem inPhase_blocked {e : Effect n} (h : InPhase mode (.blocked c) s)
    (he : stepVoter C i s.shared (s.voter i) = some e) :
    InPhase mode (.blocked c) (applyEffect mode C i s e) := by
  obtain ⟨hmain, hS, hC, hn⟩ := h.global
  have hspot := (h.place i).spot
  by_cases hi : i = c
  · subst hi
    simp only [Spot, if_true] at hspot
    obtain ⟨hcand, hround, hpc | hpc⟩ := hspot
    · simp only [stepVoter, hpc] at he
      cases he
      -- there are other voters, so it waits for one
      have hpos : 0 < n - 1 := by have := i.pos; omega
      refine h.move ((h.place i).step rfl rfl rfl (by simp [hpc, VoterPc.waits1])
        (by simp [hpc, VoterPc.waits2]) ?_) ⟨hmain, hS, hC, hn⟩
      simp [Spot, hcand, hround, gatherFrom, hpos]
    · simp [stepVoter, hpc, hS] at he
  · simp only [Spot, if_neg hi] at hspot
    obtain ⟨hcand, hround, hw⟩ := hspot
    cases hpc : (s.voter i).pc with
    | wait1 => simp [stepVoter, hpc] at he
    | beforeWait1 =>
      simp only [stepVoter, hpc] at he
      cases he
      refine h.move ((h.place i).step rfl rfl rfl (fun _ => rfl)
        (by simp [hpc, VoterPc.waits2]) ?_) ⟨hmain, hS, hC, hn⟩
      simp [Spot, hi, hcand, hround, VoterPc.waits1]
    | absent | head | elect | truncate | gather _ | gathered _ | call | announce
    | measure | beforeWait2 | wait2 | lock | append | unlock | read _ | verdict
    | close _ | closed _ | openPids | notify _ | release | loop | exited =>
      simp [hpc, VoterPc.waits1] at hw

end Soper.Voting
