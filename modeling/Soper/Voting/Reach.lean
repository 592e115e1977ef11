import Soper.Voting.Rounds

/-!
# Every reachable state is in a phase

`inPhase_next` puts the steps of the voters, of `main` and of `sigsuspend` together: each leads
to the phase that `Phase.after` says. So without signals from outside every reachable state is in
some phase (`inPhase_reachable`), and what is to be shown of all reachable states can be shown
phase by phase (`phase_induct`).

What wakes where is decided by the mask: in the first pass a voter waits for SIGUSR1 and then for
SIGUSR2, and from its second pass on nothing that is sent to it is unblocked.
-/

namespace Soper.Voting

variable {n : ℕ} {mode : Mode} {C : Census n} {s t : State n} {i c : Fin n}

/-! ### `sigsuspend` and disturbed waits -/

/-- Where nobody outside sends signals, only a voter inside `sigsuspend` with a pending signal
that its mask leaves unblocked wakes. -/
theorem wakeVoter_eq_some {v w : Voter n} (hm : mode ≠ .outside)
    (h : wakeVoter mode v = some w) :
    (v.pending1 = true ∧ v.blocked1 = false ∨ v.pending2 = true ∧ v.blocked2 = false) ∧
      (v.pc = .wait1 ∧ w = { v with pending1 := false, pending2 := false, pc := .elect } ∨
        v.pc = .wait2 ∧ w = { v with
          pending1 := false, pending2 := false, waited2 := true, pc := .lock }) := by
  simp only [wakeVoter, hm, false_or] at h
  split at h
  · rename_i hwake
    refine ⟨hwake, ?_⟩
    split at h
    · exact Or.inl ⟨by assumption, (Option.some.inj h).symm⟩
    · exact Or.inr ⟨by assumption, (Option.some.inj h).symm⟩
    · cases h
  · cases h

/-- A voter that has not been disturbed waits for its token. -/
theorem interruptVoter_eq_none {v : Voter n} {sh : Shared n} (hm : mode ≠ .outside)
    (h : v.interrupted = false) : interruptVoter mode sh v = none := by
  simp [interruptVoter, hm, h]

/-- So does `main`. -/
theorem interruptMain_eq_none (hm : mode ≠ .outside) (h : s.mainInterrupted = false) :
    interruptMain mode s = none := by
  simp [interruptMain, hm, h]

/-- A voter that wakes from its wait for SIGUSR1 is in its first pass: from then on the mask
blocks SIGUSR1. -/
theorem round_of_wait1 {p : Phase n} {j : Fin n} {v : Voter n} (h : Place mode p j v)
    (hmask : Masked v) (hpc : v.pc = .wait1)
    (hsig : v.pending1 = true ∧ v.blocked1 = false ∨ v.pending2 = true ∧ v.blocked2 = false) :
    v.round = 0 ∧ v.pending1 = true := by
  rcases hsig with ⟨hp, hb⟩ | ⟨hp, -⟩
  · refine ⟨?_, hp⟩
    by_contra hr
    simp [Masked, hr, hb] at hmask
  · have := h.pending2 hp
    rw [hpc] at this
    cases this

/-- A voter that wakes from its wait for SIGUSR2 has been called. -/
theorem pending2_of_wait2 {p : Phase n} {j : Fin n} {v : Voter n} (h : Place mode p j v)
    (hpc : v.pc = .wait2)
    (hsig : v.pending1 = true ∧ v.blocked1 = false ∨ v.pending2 = true ∧ v.blocked2 = false) :
    v.pending2 = true := by
  rcases hsig with ⟨hp, -⟩ | ⟨hp, -⟩
  · have := h.pending1 hp
    rw [hpc] at this
    cases this
  · exact hp

/-- SIGUSR1 wakes a voter in the election, or while the candidate gathers the others. -/
theorem inPhase_wake1 {p : Phase n} {w : Voter n} (h : InPhase mode p s)
    (hpc : (s.voter i).pc = .wait1) (hround : (s.voter i).round = 0)
    (hpend : (s.voter i).pending1 = true)
    (hw : w = { s.voter i with pending1 := false, pending2 := false, pc := .elect }) :
    InPhase mode p { s with voter := Function.update s.voter i w } := by
  have stay : Spot mode p i w → Place mode p i w := by
    rw [hw]
    exact fun hspot => ⟨(h.place i).undisturbed, nofun, nofun, hspot⟩
  have hspot := (h.place i).spot
  match p with
  | .startUp => simp [Spot, hpend] at hspot
  | .election =>
    refine h.move (stay ?_) h.global
    obtain ⟨-, hcand, -, -⟩ := hspot
    simp [Spot, hw, hround, hcand, VoterPc.waits1]
  | .gathering c =>
    have hi : i ≠ c := by
      rintro rfl
      simp [Spot, hpc, VoterPc.gathers] at hspot
    obtain ⟨-, hcand, -, -, -⟩ := (h.place i).other_gathering hi
    obtain ⟨hmain, hC, hS⟩ := h.global
    refine h.move (stay ?_) ⟨hmain, hC, balance_other hS hi ?_⟩
    · simp [Spot, hi, hw, hround, hcand, VoterPc.follows, VoterPc.waits1]
    · simp [announced2, hw, hpc, VoterPc.waits2]
  -- from the vote on, a voter that waits for SIGUSR1 is in its second pass
  | .voting c =>
    by_cases hi : i = c
    · simp [Spot, hi, hi ▸ hpc, VoterPc.counts] at hspot
    · simp [Spot, hi, hpc, hround, VoterPc.votes] at hspot
  | .closing c | .blocked c =>
    by_cases hi : i = c
    · simp [Spot, hi, hi ▸ hpc, VoterPc.closes, VoterPc.reenters] at hspot
    · simp [Spot, hi, hround] at hspot

/-- SIGUSR2 wakes a voter in the vote. -/
theorem inPhase_wake2 {p : Phase n} {w : Voter n} (h : InPhase mode p s)
    (hpc : (s.voter i).pc = .wait2) (hpend : (s.voter i).pending2 = true)
    (hw : w = { s.voter i with
      pending1 := false, pending2 := false, waited2 := true, pc := .lock }) :
    InPhase mode p { s with voter := Function.update s.voter i w } := by
  have stay : Spot mode p i w → Place mode p i w := by
    rw [hw]
    exact fun hspot => ⟨(h.place i).undisturbed, nofun, nofun, hspot⟩
  have hspot := (h.place i).spot
  match p with
  | .startUp | .election => simp [Spot, hpc, VoterPc.starts, VoterPc.waits1] at hspot
  | .voting c =>
    -- the candidate does not wait
    have hi : i ≠ c := by
      rintro rfl
      simp [Spot, hpc, VoterPc.counts] at hspot
    obtain ⟨hcand, hvotes, -⟩ := (h.place i).other_voting hi
    have hround : (s.voter i).round = 0 := by
      simpa [hpc, VoterPc.votes, VoterPc.returns] using hvotes
    obtain ⟨hmain, hC, hS⟩ := h.global
    refine h.move (stay ?_) ⟨hmain, hC, balance_other hS hi ?_⟩
    · simp [Spot, hi, hw, hround, hcand, VoterPc.votes, VoterPc.waits2]
    · simp [announced1, hw, hpc, VoterPc.waits1]
  | .gathering c =>
    by_cases hi : i = c
    · simp [Spot, hi, hi ▸ hpc, VoterPc.gathers] at hspot
    -- SIGUSR2 is sent at the end of the gathering
    · simp [Spot, hi, hpend] at hspot
  | .closing c | .blocked c =>
    by_cases hi : i = c
    · simp [Spot, hi, hi ▸ hpc, VoterPc.closes, VoterPc.reenters] at hspot
    · simp [Spot, hi, hpc, VoterPc.waits1] at hspot

/-- **What wakes where.** A voter wakes from its wait for SIGUSR1 in its first pass only, and from
its wait for SIGUSR2 in the vote; both keep the phase. -/
theorem inPhase_wake {p : Phase n} {w : Voter n} (hm : mode ≠ .outside)
    (hmask : Masked (s.voter i)) (h : InPhase mode p s)
    (hw : wakeVoter mode (s.voter i) = some w) :
    InPhase mode p { s with voter := Function.update s.voter i w } := by
  obtain ⟨hsig, ⟨hpc, hw⟩ | ⟨hpc, hw⟩⟩ := wakeVoter_eq_some hm hw
  · obtain ⟨hround, hpend⟩ := round_of_wait1 (h.place i) hmask hpc hsig
    exact inPhase_wake1 h hpc hround hpend hw
  · exact inPhase_wake2 h hpc (pending2_of_wait2 (h.place i) hpc hsig) hw

/-! ### `main` -/

/-- `main` has waited for all voters: each waits for its first SIGUSR1, and no announcement is
left over. -/
theorem InPhase.all_start (h : InPhase mode .startUp s) (hpc : s.main = .launch) :
    s.shared.semS = 0 ∧ ∀ j, (s.voter j).pc.waits1 = true := by
  obtain ⟨-, -, hS, -, -⟩ := h.global
  rw [hpc] at hS
  -- `main` has counted `n` announcements, and there are no more
  have hle := Family.total_le_card (f := s.voter) announced1_le
  rw [Fintype.card_fin] at hle
  refine ⟨?_, fun j => announced1_eq_one.mp (Family.eq_one_of_card_le announced1_le ?_ j)⟩
  · simp only [MainPc.waitCount] at hS
    omega
  · rw [Fintype.card_fin]
    simp only [MainPc.waitCount] at hS
    omega

/-- Until `main` sends SIGUSR1 the start-up goes on. -/
theorem inPhase_stepMain (h : InPhase mode .startUp s) (hne : s.main ≠ .launch)
    (ht : stepMain mode C s = some t) : InPhase mode .startUp t := by
  obtain ⟨hmain, hC, hS, hforked, hcount, hwait⟩ := h.global
  match hpc : s.main with
  | .launch => exact absurd hpc hne
  | .sleep => exact absurd hpc hmain
  | .fork k =>
    simp only [stepMain, hpc] at ht
    rw [hpc] at hS hforked
    split at ht <;> cases ht
    · rename_i hk
      -- the voter with the index of the loop is the next to be created
      have habsent : (s.voter ⟨k, hk⟩).pc = .absent :=
        not_not.mp fun hx => Nat.lt_irrefl k ((hforked ⟨k, hk⟩).mp hx)
      refine ⟨h.mainUndisturbed,
        ⟨by rintro ⟨⟩, hC, balance_step hS ?_, ?_, hk, Nat.zero_le n⟩, ?_⟩
      · simp [announced1, habsent, Voter.forked, VoterPc.waits1]
      · exact Family.created_update_succ (fun v : Voter n => v.pc ≠ .absent) (i := ⟨k, hk⟩)
          hforked (by simp [Voter.forked])
      · refine (Function.forall_update_iff s.voter (Place mode .startUp)).mpr
          ⟨?_, fun j _ => h.place j⟩
        exact ⟨rfl, by rintro ⟨⟩, by rintro ⟨⟩, rfl, rfl, rfl, rfl⟩
    · rename_i hk
      have hkn : k = n := by
        rw [hpc] at hcount
        exact Nat.le_antisymm hcount (Nat.le_of_not_lt hk)
      exact { h with global := ⟨by rintro ⟨⟩, hC, hS, hkn ▸ hforked, Nat.le_refl n, Nat.zero_le n⟩ }
  | .lockFile =>
    simp only [stepMain, hpc] at ht
    rw [hpc] at hS hforked
    split at ht <;> cases ht
    exact { h with global := ⟨by rintro ⟨⟩, hC, hS, hforked, Nat.le_refl n, Nat.zero_le n⟩ }
  | .openPids | .writePids | .unlockFile =>
    simp only [stepMain, hpc] at ht
    rw [hpc] at hS hforked
    cases ht
    exact { h with global := ⟨by rintro ⟨⟩, hC, hS, hforked, Nat.le_refl n, Nat.zero_le n⟩ }
  | .wait k =>
    simp only [stepMain, hpc] at ht
    rw [hpc] at hS hforked
    split at ht
    · rename_i hk
      split at ht <;> cases ht
      refine { h with global := ⟨by rintro ⟨⟩, hC, ?_, hforked, Nat.le_refl n, hk⟩ }
      rw [← hS]
      simp only [MainPc.waitCount]
      omega
    · rename_i hk
      cases ht
      refine { h with global := ⟨by rintro ⟨⟩, hC, ?_, hforked, Nat.le_refl n, Nat.le_refl n⟩ }
      rw [← hS]
      rw [hpc] at hwait
      simp only [MainPc.waitCount] at hwait ⊢
      omega

/-- With the first SIGUSR1 the election is open. -/
theorem inPhase_launch (h : InPhase mode .startUp s) (hpc : s.main = .launch)
    (ht : stepMain mode C s = some t) : InPhase mode .election t := by
  obtain ⟨-, hC, -⟩ := h.global
  obtain ⟨hzero, hall⟩ := h.all_start hpc
  simp only [stepMain, hpc] at ht
  cases ht
  refine ⟨?_, ⟨rfl, hC, hzero⟩, fun j => ?_⟩
  · simp [deliver, h.mainUndisturbed, MainPc.inSemWait]
  · obtain ⟨hround, hcand, -, -⟩ := (h.place j).spot
    obtain ⟨hann, hsem, hw2, habs⟩ := VoterPc.announced_of_waits1 (hall j)
    refine ⟨(receive_interrupted hsem).trans (h.place j).undisturbed, ?_, ?_, ?_⟩
    · rw [deliver, receive_pc]
      exact fun _ => hall j
    · rw [deliver, receive_usr1_pending2, (h.place j).pending2_eq hw2]
      rintro ⟨⟩
    · simp only [deliver, Spot, receive_round, receive_candidate, receive_pc]
      refine ⟨hround, hcand, Or.inl (hall j), ?_⟩
      rintro rfl -
      rw [receive_usr1_keeps (Option.some_ne_none j).symm habs
        (show Mode.ideal.keeps _ = true from hann)]

/-! ### The run -/

/-- The phase after a step: the candidate's election, its call, its opening of `pids.bin` and its
next election lead from one to the next, and so does the first SIGUSR1. -/
def Phase.after (p : Phase n) (s : State n) : Action n → Phase n
  | .main => if s.main = .launch then .election else p
  | .voter i => match p with
    | .election => if (s.voter i).pc = .elect then .gathering i else .election
    | .gathering c => if i = c ∧ (s.voter c).pc = .call then .voting c else .gathering c
    | .voting c => if i = c ∧ (s.voter c).pc = .openPids then .closing c else .voting c
    | .closing c =>
      if i = c ∧ (s.voter c).pc = .elect then if n = 1 then .gathering c else .blocked c
      else .closing c
    | .startUp | .blocked _ => p
  | .wake _ | .interrupt _ | .interruptMain => p

/-- A step of a voter keeps the state in its phase or leads to the next one. -/
theorem inPhase_stepVoter {p : Phase n} {e : Effect n} (h : InPhase mode p s)
    (hpids : PidsWritten C s) (he : stepVoter C i s.shared (s.voter i) = some e) :
    InPhase mode (p.after s (.voter i)) (applyEffect mode C i s e) := by
  match p with
  | .startUp => exact inPhase_startUp h he
  | .election =>
    by_cases hpc : (s.voter i).pc = .elect
    · simpa only [Phase.after, if_pos hpc] using inPhase_election_elect h hpc he
    · simpa only [Phase.after, if_neg hpc] using inPhase_election_wait h hpc he
  | .gathering c =>
    simp only [Phase.after]
    by_cases hi : i = c
    · subst hi
      by_cases hpc : (s.voter i).pc = .call
      · simpa only [hpc, and_self, if_true] using inPhase_gathering_call h hpc he
      · simpa only [hpc, and_false, if_false] using inPhase_gathering_candidate h hpc he
    · simpa only [hi, false_and, if_false] using inPhase_gathering_other h hi he
  | .voting c =>
    simp only [Phase.after]
    by_cases hi : i = c
    · subst hi
      by_cases hpc : (s.voter i).pc = .openPids
      · simpa only [hpc, and_self, if_true] using inPhase_voting_openPids h hpids hpc he
      · simpa only [hpc, and_false, if_false] using inPhase_voting_candidate h hpc he
    · simpa only [hi, false_and, if_false] using inPhase_voting_other h hi he
  | .closing c =>
    simp only [Phase.after]
    by_cases hi : i = c
    · subst hi
      by_cases hpc : (s.voter i).pc = .elect
      · simpa only [hpc, and_self, if_true] using inPhase_closing_elect h hpc he
      · simpa only [hpc, and_false, if_false] using inPhase_closing_candidate h hpc he
    · simpa only [hi, false_and, if_false] using inPhase_closing_other h hi he
  | .blocked c => exact inPhase_blocked h he

/-- After the start-up `main` sleeps. -/
theorem InPhase.eq_startUp {p : Phase n} (h : InPhase mode p s) (hmain : s.main ≠ .sleep) :
    p = .startUp := by
  match p with
  | .startUp => rfl
  | .election | .gathering _ | .voting _ | .closing _ | .blocked _ =>
    exact absurd h.global.1 hmain

/-- **What a step can be.** Nothing disturbs a `sem_wait`, so `main` goes on with the start-up, a
voter runs on to its next call, or a voter wakes. -/
theorem InPhase.next_cases {p : Phase n} {a : Action n} (hm : mode ≠ .outside)
    (hp : InPhase mode p s) (ht : next mode C s a = some t) :
    (a = .main ∧ p = .startUp ∧ stepMain mode C s = some t) ∨
      (∃ i e, a = .voter i ∧ stepVoter C i s.shared (s.voter i) = some e ∧
        t = applyEffect mode C i s e) ∨
      ∃ i w, a = .wake i ∧ wakeVoter mode (s.voter i) = some w ∧
        t = { s with voter := Function.update s.voter i w } := by
  cases a with
  | main =>
    refine Or.inl ⟨rfl, hp.eq_startUp fun hsleep => ?_, ht⟩
    simp [next, stepMain, hsleep] at ht
  | voter i =>
    obtain ⟨e, he, heq⟩ := Option.map_eq_some_iff.mp ht
    exact Or.inr (Or.inl ⟨i, e, rfl, he, heq.symm⟩)
  | wake i =>
    obtain ⟨w, hw, heq⟩ := Option.map_eq_some_iff.mp ht
    exact Or.inr (Or.inr ⟨i, w, rfl, hw, heq.symm⟩)
  | interrupt i =>
    rw [next, interruptVoter_eq_none hm (hp.place i).undisturbed] at ht
    cases ht
  | interruptMain =>
    rw [next, interruptMain_eq_none hm hp.mainUndisturbed] at ht
    cases ht

/-- **Every step leads to the phase `Phase.after` says.** -/
theorem inPhase_next {p : Phase n} {a : Action n} (hm : mode ≠ .outside)
    (hmask : ∀ j, Masked (s.voter j)) (hpids : PidsWritten C s) (h : InPhase mode p s)
    (ht : next mode C s a = some t) : InPhase mode (p.after s a) t := by
  obtain ⟨rfl, rfl, ht⟩ | ⟨i, e, rfl, he, rfl⟩ | ⟨i, w, rfl, hw, rfl⟩ := h.next_cases hm ht
  · by_cases hpc : s.main = .launch
    · simpa only [Phase.after, if_pos hpc] using inPhase_launch h hpc ht
    · simpa only [Phase.after, if_neg hpc] using inPhase_stepMain h hpc ht
  · exact inPhase_stepVoter h hpids he
  · exact inPhase_wake hm (hmask i) h hw

/-- Before the first `fork` the program starts up. -/
theorem inPhase_initial (votes : List (Vote n)) (pidsBin : Option (List ℤ)) :
    InPhase mode .startUp (initial votes pidsBin) where
  mainUndisturbed := rfl
  global := ⟨nofun, rfl, (Family.total_eq_zero fun _ => rfl).symm,
    by simp [initial, MainPc.forkCount], Nat.zero_le _, Nat.zero_le _⟩
  place _ := ⟨rfl, nofun, nofun, rfl, rfl, rfl, rfl⟩

/-- **Phase rule.** What holds initially of the start-up, and is kept by every step along the
phases, holds of every reachable state and the phase it is in. -/
theorem phase_induct {ok : State n → Action n → Prop} {I : Phase n → State n → Prop}
    (hm : mode ≠ .outside) (h : (system mode C).ReachableBy ok s)
    (hinit : ∀ votes pidsBin, I .startUp (initial votes pidsBin))
    (hstep : ∀ p s a t, (system mode C).Reachable s → InPhase mode p s → I p s → ok s a →
      next mode C s a = some t → I (p.after s a) t) :
    ∃ p, InPhase mode p s ∧ I p s := by
  induction h with
  | init hs =>
    obtain ⟨votes, pidsBin, rfl⟩ := hs
    exact ⟨_, inPhase_initial votes pidsBin, hinit votes pidsBin⟩
  | step hs hok ht ih =>
    obtain ⟨p, hp, hI⟩ := ih
    obtain ⟨hmask, hpids⟩ := masked_reachable hs.reachable
    exact ⟨_, inPhase_next hm hmask hpids hp ht, hstep _ _ _ _ hs.reachable hp hI hok ht⟩

/-- **Every reachable state is in a phase**, unless signals come from outside. -/
theorem inPhase_reachable (hm : mode ≠ .outside) (h : (system mode C).Reachable s) :
    ∃ p, InPhase mode p s := by
  obtain ⟨p, hp, -⟩ := phase_induct (I := fun _ _ => True) hm h (fun _ _ => trivial)
    fun _ _ _ _ _ _ _ _ _ => trivial
  exact ⟨p, hp⟩

end Soper.Voting
