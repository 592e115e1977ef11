import Soper.Voting.Reach

/-!
# Lost wake-ups

The sender of a signal waits on `sem_s` for every receiver, "para asegurarnos que todos esten en
el sigsuspend": `main` before the first SIGUSR1, the candidate before SIGUSR2. But a receiver
posts `sem_s` before it calls `sigsuspend`, and the process mask blocks nothing, so a signal sent
between the two runs the empty handler and is gone. The receiver then waits for a signal that has
already been delivered to it (`LostWakeUp`), and two voters are enough
(`not_noLostWakeUp_two_voters`).

What the waits do ensure is that every receiver has announced itself (`InPhase.all_start`,
`InPhase.all_waits2`). So no wake-up is lost in a run in which the sender finds nobody between
the announcement and the wait (`SentWhenSuspended`, `noLostWakeUp_reachableBy`).
-/

namespace Soper.Voting

variable {n : ℕ} {mode : Mode} {C : Census n} {s t : State n} {i c : Fin n}

/-- The voter is inside the `sigsuspend` of its first wait for SIGUSR1, or of its first wait for
SIGUSR2, the signal has already been delivered to it, and none is pending. -/
def LostWakeUp (v : Voter n) : Prop :=
  (v.pc = .wait1 ∧ v.round = 0 ∧ v.missed1 = true ∧ v.pending1 = false) ∨
    (v.pc = .wait2 ∧ v.waited2 = false ∧ v.missed2 = true ∧ v.pending2 = false)

/-- No voter has lost a wake-up. -/
def NoLostWakeUp (s : State n) : Prop := ∀ i, ¬ LostWakeUp (s.voter i)

/-- Signals are sent when no receiver is between `sem_post(sem_s)` and `sigsuspend`: `main` sends
SIGUSR1 when no voter is on its way to the first wait, and the candidate SIGUSR2 when no other
voter is on its way to the second. -/
def SentWhenSuspended (s : State n) : Action n → Prop
  | .main => s.main = .launch → ∀ j, (s.voter j).pc ≠ .beforeWait1
  | .voter i => (s.voter i).pc = .call →
      ∀ j, j ≠ i → (s.voter j).pc ≠ .measure ∧ (s.voter j).pc ≠ .beforeWait2
  | .wake _ | .interrupt _ | .interruptMain => True

instance decidableSentWhenSuspended (s : State n) (a : Action n) :
    Decidable (SentWhenSuspended s a) :=
  match a with
  | .main => inferInstanceAs (Decidable (_ = _ → ∀ _, _))
  | .voter _ => inferInstanceAs (Decidable (_ = _ → ∀ _, _))
  | .wake _ | .interrupt _ | .interruptMain => inferInstanceAs (Decidable True)

/-! ### What a voter has missed -/

/-- The voter has missed neither the SIGUSR1 of `main` nor the SIGUSR2 of a candidate. -/
def MissedNothing (v : Voter n) : Prop := v.missed1 = false ∧ v.missed2 = false

/-- A voter that has missed nothing has lost no wake-up. -/
theorem MissedNothing.not_lostWakeUp {v : Voter n} (h : MissedNothing v) : ¬ LostWakeUp v := by
  rintro (⟨-, -, hm, -⟩ | ⟨-, -, hm, -⟩)
  · rw [h.1] at hm
    cases hm
  · rw [h.2] at hm
    cases hm

/-- The only SIGUSR2 is the candidate's call, and a single signal is a SIGUSR1. -/
theorem emission_stepVoter {sh : Shared n} {v : Voter n} {e : Effect n}
    (he : stepVoter C i sh v = some e) :
    e.emission = .none ∨ (v.pc = .call ∧ e.emission = .group .usr2) ∨
      ∃ pid, e.emission = .single pid .usr1 := by
  simp only [stepVoter] at he
  split at he <;> (try split at he) <;> cases he <;>
    first
    | exact Or.inl rfl
    | exact Or.inr (Or.inl ⟨by assumption, rfl⟩)
    | exact Or.inr (Or.inr ⟨_, rfl⟩)

/-- The steps of a voter do not make it miss a signal. -/
theorem missedNothing_stepVoter {sh : Shared n} {v : Voter n} {e : Effect n}
    (h : MissedNothing v) (he : stepVoter C i sh v = some e) : MissedNothing e.voter := by
  simp only [stepVoter] at he
  split at he <;> (try split at he) <;> cases he <;> exact h

/-- A signal that is kept is not missed. -/
theorem missedNothing_keeps {sig : Signal} {origin : Option (Fin n)} {v : Voter n}
    (h : MissedNothing v) (hk : mode.keeps v.pc = true) :
    MissedNothing (receive mode sig origin i v) := by
  unfold receive
  split
  · exact h
  · cases sig <;> exact h

/-- The SIGUSR1 of another voter is not counted as missed: it is for the next round. -/
theorem missedNothing_usr1 {v : Voter n} (h : MissedNothing v) :
    MissedNothing (receive mode .usr1 (some c) i v) := by
  unfold receive
  split
  · exact h
  · split
    · exact h
    · exact ⟨by simp [h.1], h.2⟩

/-- Only a candidate that gathers the others comes to the call. -/
theorem InPhase.gathering_of_call {p : Phase n} (h : InPhase mode p s)
    (hpc : (s.voter i).pc = .call) : p = .gathering i := by
  have hspot := (h.place i).spot
  match p with
  | .startUp | .election => simp [Spot, hpc, VoterPc.starts, VoterPc.waits1] at hspot
  | .gathering c =>
    by_cases hi : i = c
    · rw [hi]
    · simp [Spot, hi, hpc, VoterPc.follows] at hspot
  | .voting c =>
    by_cases hi : i = c
    · simp [Spot, hi, hi ▸ hpc, VoterPc.counts] at hspot
    · simp [Spot, hi, hpc, VoterPc.votes, VoterPc.returns] at hspot
  | .closing c | .blocked c =>
    by_cases hi : i = c
    · simp [Spot, hi, hi ▸ hpc, VoterPc.closes, VoterPc.reenters] at hspot
    · simp [Spot, hi, hpc, VoterPc.waits1] at hspot

/-! ### Runs whose signals find everybody suspended -/

/-- With the first SIGUSR1 nobody misses anything, if nobody is on its way to the wait. -/
theorem missedNothing_launch (h : InPhase .posix .startUp s) (hpc : s.main = .launch)
    (hsent : ∀ j, (s.voter j).pc ≠ .beforeWait1) (hmiss : ∀ j, MissedNothing (s.voter j))
    (j : Fin n) : MissedNothing (receive .posix .usr1 none j (s.voter j)) := by
  -- everybody waits for SIGUSR1, and nobody is on its way there
  have hwaits := (h.all_start hpc).2 j
  have hwait : (s.voter j).pc = .wait1 := by
    cases hx : (s.voter j).pc <;> simp [hx, VoterPc.waits1] at hwaits
    · exact absurd hx (hsent j)
    · rfl
  exact missedNothing_keeps (hmiss j) (by rw [hwait]; rfl)

/-- With its call the candidate makes nobody miss anything, if nobody is on its way to the
wait. -/
theorem missedNothing_call {p : Phase n} (h : InPhase .posix p s) (hpc : (s.voter i).pc = .call)
    (hsent : ∀ j, j ≠ i → (s.voter j).pc ≠ .measure ∧ (s.voter j).pc ≠ .beforeWait2)
    (hmiss : ∀ j, MissedNothing (s.voter j)) {j : Fin n} (hj : j ≠ i) :
    MissedNothing (receive .posix .usr2 (some i) j (s.voter j)) := by
  obtain rfl := h.gathering_of_call hpc
  have hwaits := (h.all_waits2 hpc).2 j hj
  have hwait : (s.voter j).pc = .wait2 := by
    cases hx : (s.voter j).pc <;> simp [hx, VoterPc.waits2] at hwaits
    · exact absurd hx (hsent j hj).1
    · exact absurd hx (hsent j hj).2
    · rfl
  exact missedNothing_keeps (hmiss j) (by rw [hwait]; rfl)

/-- A step whose signals find everybody suspended makes nobody miss a signal. -/
theorem missedNothing_next {p : Phase n} {a : Action n} (h : InPhase .posix p s)
    (hmiss : ∀ j, MissedNothing (s.voter j)) (hsent : SentWhenSuspended s a)
    (ht : next .posix C s a = some t) (j : Fin n) : MissedNothing (t.voter j) := by
  have hupdate : ∀ (i : Fin n) {w : Voter n}, MissedNothing w →
      ∀ j, MissedNothing (Function.update s.voter i w j) := by
    intro i w hw
    exact (Function.forall_update_iff s.voter fun _ v => MissedNothing v).mpr
      ⟨hw, fun j _ => hmiss j⟩
  have hm : Mode.posix ≠ .outside := by decide
  obtain ⟨rfl, rfl, ht⟩ | ⟨i, e, rfl, he, rfl⟩ | ⟨i, w, rfl, hw, rfl⟩ := h.next_cases hm ht
  · by_cases hpc : s.main = .launch
    · simp only [stepMain, hpc] at ht
      cases ht
      exact missedNothing_launch h hpc (hsent hpc) hmiss j
    · rcases (stepMain_frame hpc ht).2.2 with ⟨hvoter, -⟩ | ⟨k, -, -, hvoter⟩ <;> rw [hvoter]
      · exact hmiss j
      · exact hupdate k ⟨rfl, rfl⟩ j
  · have hmoved := hupdate i (missedNothing_stepVoter (hmiss i) he)
    rcases emission_stepVoter he with hem | ⟨hpc, hem⟩ | ⟨pid, hem⟩
    · rw [applyEffect, hem]
      exact hmoved j
    · -- the call: the candidate does not disturb itself, and the others are inside their wait
      rw [applyEffect, hem]
      by_cases hj : j = i
      · subst hj
        simpa only [deliver, receive_self] using hmoved j
      · simpa only [deliver, Function.update_of_ne hj] using
          missedNothing_call h hpc (hsent hpc) hmiss hj
    · rw [applyEffect, hem]
      simp only [deliver]
      split
      · exact missedNothing_usr1 (hmoved j)
      · exact hmoved j
  · obtain ⟨-, ⟨-, rfl⟩ | ⟨-, rfl⟩⟩ := wakeVoter_eq_some hm hw
    · refine hupdate i ?_ j
      exact hmiss i
    · refine hupdate i ?_ j
      exact hmiss i

/-- **No wake-up is lost** in a run in which every sender finds nobody between the announcement
and the wait. -/
theorem noLostWakeUp_reachableBy (h : (system .posix C).ReachableBy SentWhenSuspended s) :
    NoLostWakeUp s := by
  obtain ⟨-, -, hmiss⟩ := phase_induct (I := fun _ s => ∀ j, MissedNothing (s.voter j))
    (show Mode.posix ≠ .outside by decide) h (fun _ _ _ => ⟨rfl, rfl⟩)
    fun _ _ _ _ _ hp hmiss hsent ht => missedNothing_next hp hmiss hsent ht
  exact fun i => (hmiss i).not_lostWakeUp

/-- An instance: two voters go to the vote, each signal finding the other inside its wait. -/
theorem noLostWakeUp_two_voters :
    ∃ s : State 2, s.shared.votes.length = 2 ∧ NoLostWakeUp s := by
  let C := Census.consecutive 2 3 (by decide)
  have hinit : (system .posix C).ReachableBy SentWhenSuspended (initial [] none) :=
    .init ⟨_, _, rfl⟩
  let vote : List (Action 2) := List.replicate 3 (.voter 0) ++ [.wake 1] ++
    List.replicate 2 (.voter 1)
  obtain ⟨s, hs, hend⟩ : ∃ s, (system .posix C).runBy SentWhenSuspended (initial [] none)
      (runToCall ++ vote) = some s ∧ s.shared.votes.length = 2 :=
    Option.map_eq_some_iff.mp (by decide +kernel)
  exact ⟨s, hend, noLostWakeUp_reachableBy (hinit.runBy hs)⟩

/-- Two voters: `main` sends SIGUSR1 while the second has announced itself and is not yet inside
`sigsuspend`. It then waits for a signal that it has already been sent. -/
theorem not_noLostWakeUp_two_voters :
    ¬ ∀ n, 2 ≤ n → ∀ (C : Census n) (s : State n), (system .posix C).Reachable s →
      NoLostWakeUp s := by
  intro hall
  let C := Census.consecutive 2 3 (by decide)
  have hinit : (system .posix C).Reachable (initial [] none) := .init ⟨_, _, rfl⟩
  let turns : List (Action 2) := List.replicate 7 .main ++ [.voter 0, .voter 0, .voter 1] ++
    List.replicate 4 .main ++ [.voter 1]
  obtain ⟨s, hs, hend⟩ : ∃ s, (system .posix C).run (initial [] none) turns = some s ∧
      ((s.voter 1).pc, (s.voter 1).round, (s.voter 1).missed1, (s.voter 1).pending1) =
        (.wait1, 0, true, false) :=
    Option.map_eq_some_iff.mp (by decide +kernel)
  simp only [Prod.mk.injEq] at hend
  exact hall 2 le_rfl C s (hinit.run hs) 1 (Or.inl hend)

end Soper.Voting
