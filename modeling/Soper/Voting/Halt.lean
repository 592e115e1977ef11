import Soper.Voting.Deadlock
import Soper.Voting.Signals

/-!
# How the rounds halt

What becomes of the rounds as long as neither SIGINT nor SIGALRM reaches `main`. In the program
this lasts until the alarm that `main` arms for itself; what happens then is the subject of
`Shutdown`. No signal comes from outside and no call fails.

With two voters or more the processes take only finitely many steps until then
(`ensures_halted`), and there are two ways only in which they can halt. Either the first round has
been completed and the program stops in the second: the new candidate waits at its first
`sem_wait(sem_s)`, and all others wait for SIGUSR1 with SIGUSR1 blocked (`SecondRound`). Or, where
signals are kept only for voters inside `sigsuspend`, some voter waits for a signal that has been
delivered to it before (`LostWakeUp`).

The second part rests on what a waiting voter has been told (`Told`): the signal it waits for is
pending, or it has missed it. In a state in which nobody can move and no wake-up is lost, the
signals are therefore all pending, as they are where signals wait for their receivers
(`inPhase_ideal`), and in such a state somebody can move unless the second round has begun
(`not_stuck_of_inPhase`).
-/

namespace Soper.Voting

variable {n : ℕ} {mode : Mode} {C : Census n} {s t : State n} {i c : Fin n}

/-! ### What a waiting voter has been told -/

/-- A voter that waits for the SIGUSR1 of `main` finds it pending or has missed it, and so does a
voter that waits for the call of the candidate. -/
def Told (p : Phase n) (j : Fin n) (v : Voter n) : Prop :=
  match p with
  | .startUp => v.waited2 = false
  | .election =>
    v.waited2 = false ∧ (v.pc.waits1 = true → v.pending1 = true ∨ v.missed1 = true)
  | .gathering c => j ≠ c →
    v.waited2 = false ∧ (v.pc.waits1 = true → v.pending1 = true ∨ v.missed1 = true)
  | .voting c => j ≠ c → v.pc.waits2 = true →
    v.waited2 = false ∧ (v.pending2 = true ∨ v.missed2 = true)
  | .closing _ | .blocked _ => True

/-- The steps of a voter leave alone what it has been told. -/
theorem stepVoter_told {sh : Shared n} {v : Voter n} {e : Effect n}
    (he : stepVoter C i sh v = some e) :
    e.voter.waited2 = v.waited2 ∧ e.voter.pending1 = v.pending1 ∧
      e.voter.pending2 = v.pending2 ∧ e.voter.missed1 = v.missed1 ∧
      e.voter.missed2 = v.missed2 := by
  simp only [stepVoter] at he
  split at he <;> (try split at he) <;> cases he <;> exact ⟨rfl, rfl, rfl, rfl, rfl⟩

/-- A voter begins to wait at its announcements only. -/
theorem waits_stepVoter {sh : Shared n} {v : Voter n} {e : Effect n}
    (he : stepVoter C i sh v = some e) :
    (e.voter.pc.waits1 = true → v.pc.waits1 = true ∨ v.pc = .head) ∧
      (e.voter.pc.waits2 = true → v.pc.waits2 = true ∨ v.pc = .announce) := by
  match hpc : v.pc with
  | .truncate | .gathered _ =>
    simp only [stepVoter, hpc] at he
    cases he
    simp [waits_gatherFrom]
  | .verdict | .closed _ =>
    simp only [stepVoter, hpc] at he
    cases he
    simp [waits_closeFrom]
  | .absent | .wait1 | .wait2 | .exited => simp [stepVoter, hpc] at he
  | .head | .elect | .gather _ | .lock | .unlock | .read _ | .close _ | .openPids =>
    simp only [stepVoter, hpc] at he
    split at he <;> cases he <;> simp [VoterPc.waits1, VoterPc.waits2]
  | .beforeWait1 | .call | .announce | .measure | .beforeWait2 | .append | .notify []
  | .notify (_ :: _) | .release | .loop =>
    simp only [stepVoter, hpc] at he
    cases he
    simp [VoterPc.waits1, VoterPc.waits2]

/-- A voter that does not begin to wait has been told what it had been told. -/
theorem Told.step {p : Phase n} {sh : Shared n} {v : Voter n} {e : Effect n} (h : Told p i v)
    (hp : Place mode p i v) (he : stepVoter C i sh v = some e) : Told p i e.voter := by
  obtain ⟨hwaited, hp1, hp2, hm1, hm2⟩ := stepVoter_told he
  obtain ⟨hw1, hw2⟩ := waits_stepVoter he
  match p with
  | .startUp => exact hwaited.trans h
  | .election =>
    obtain ⟨-, -, hspot, -⟩ := hp.spot
    refine ⟨hwaited.trans h.1, fun hw => ?_⟩
    rw [hp1, hm1]
    refine h.2 ((hw1 hw).resolve_right fun hx => ?_)
    simp [hx, VoterPc.waits1] at hspot
  | .gathering c =>
    intro hi
    obtain ⟨-, -, hfollows, -, -⟩ := hp.other_gathering hi
    refine ⟨hwaited.trans (h hi).1, fun hw => ?_⟩
    rw [hp1, hm1]
    refine (h hi).2 ((hw1 hw).resolve_right fun hx => ?_)
    simp [hx, VoterPc.follows] at hfollows
  | .voting c =>
    intro hi hw
    obtain ⟨-, hspot, -⟩ := hp.other_voting hi
    rw [hwaited, hp2, hm2]
    refine h hi ((hw2 hw).resolve_right fun hx => ?_)
    simp [hx, VoterPc.votes, VoterPc.returns] at hspot
  | .closing _ | .blocked _ => trivial

/-- A voter that wakes waits no longer. -/
theorem Told.wake {p : Phase n} {v w : Voter n} (hm : mode ≠ .outside) (h : Told p i v)
    (hp : Place mode p i v) (hw : wakeVoter mode v = some w) : Told p i w := by
  obtain ⟨hsig, ⟨hpc, rfl⟩ | ⟨hpc, rfl⟩⟩ := wakeVoter_eq_some hm hw
  · match p with
    | .startUp => exact h
    | .election => exact ⟨h.1, by rintro ⟨⟩⟩
    | .gathering c => exact fun hi => ⟨(h hi).1, by rintro ⟨⟩⟩
    | .voting c => exact fun hi => by rintro ⟨⟩
    | .closing _ | .blocked _ => trivial
  · have hspot := hp.spot
    match p with
    | .startUp | .election => simp [Spot, hpc, VoterPc.starts, VoterPc.waits1] at hspot
    | .gathering c =>
      -- before the call no SIGUSR2 is pending
      intro hi
      obtain ⟨-, -, -, hpend, -⟩ := hp.other_gathering hi
      rw [pending2_of_wait2 hp hpc hsig] at hpend
      cases hpend
    | .voting c => exact fun hi => by rintro ⟨⟩
    | .closing _ | .blocked _ => trivial

/-- The SIGUSR1 of `main` is pending, or it is missed. -/
theorem told_launch (h : InPhase mode .startUp s) (hpc : s.main = .launch)
    (htold : Told .startUp i (s.voter i)) :
    Told .election i (receive mode .usr1 none i (s.voter i)) := by
  have hborn := (VoterPc.announced_of_waits1 ((h.all_start hpc).2 i)).2.2.2
  refine ⟨by rw [receive_waited2]; exact htold, fun _ => ?_⟩
  rw [receive, if_neg (by simp [hborn])]
  split
  · exact Or.inl rfl
  · exact Or.inr (by simp)

/-- So is the call of the candidate. -/
theorem told_call (h : InPhase mode (.gathering c) s) (hpc : (s.voter c).pc = .call)
    (htold : ∀ j, Told (.gathering c) j (s.voter j)) (hi : i ≠ c) :
    Told (.voting c) i (receive mode .usr2 (some c) i (s.voter i)) := by
  have hborn := (VoterPc.announced_of_waits2 ((h.all_waits2 hpc).2 i hi)).2.2.2
  intro _ _
  refine ⟨by rw [receive_waited2]; exact (htold i hi).1, ?_⟩
  rw [receive, if_neg (by simp [hborn, hi.symm])]
  split
  · exact Or.inl rfl
  · exact Or.inr rfl

/-- A SIGUSR1 takes nothing away from what a voter has been told. -/
theorem Told.receive_usr1 {p : Phase n} {origin : Option (Fin n)} {v : Voter n} (h : Told p i v) :
    Told p i (receive mode .usr1 origin i v) := by
  have hmono : v.pending1 = true ∨ v.missed1 = true →
      (receive mode .usr1 origin i v).pending1 = true ∨
        (receive mode .usr1 origin i v).missed1 = true := by
    intro hor
    unfold receive
    split
    · exact hor
    · split
      · exact Or.inl rfl
      · exact hor.imp id fun hmiss => by simp [hmiss]
  have hkeep : (receive mode .usr1 origin i v).missed2 = v.missed2 := by
    unfold receive
    split
    · rfl
    · split <;> rfl
  match p with
  | .startUp => rwa [Told, receive_waited2]
  | .election =>
    rw [Told, receive_waited2, receive_pc]
    exact ⟨h.1, fun hw => hmono (h.2 hw)⟩
  | .gathering c =>
    rw [Told, receive_waited2, receive_pc]
    exact fun hi => ⟨(h hi).1, fun hw => hmono ((h hi).2 hw)⟩
  | .voting c =>
    rw [Told, receive_waited2, receive_pc, receive_usr1_pending2, hkeep]
    exact h
  | .closing _ | .blocked _ => trivial

/-- Only the call of the candidate asks for more to be told. -/
theorem Told.after {p : Phase n} (h : ∀ j, Told p j (t.voter j))
    (hcall : (s.voter i).pc ≠ .call) (j : Fin n) :
    Told (p.after s (.voter i)) j (t.voter j) := by
  match p with
  | .startUp | .blocked _ => exact h j
  | .election =>
    simp only [Phase.after]
    split
    · exact fun _ => h j
    · exact h j
  | .gathering c =>
    simp only [Phase.after]
    split
    · rename_i hi
      exact absurd hi.2 (hi.1 ▸ hcall)
    · exact h j
  | .voting c =>
    simp only [Phase.after]
    split
    · trivial
    · exact h j
  | .closing c =>
    simp only [Phase.after]
    split
    · split
      · -- the candidate is alone
        rename_i hn
        subst hn
        exact fun hj => absurd (Subsingleton.elim j c) hj
      · trivial
    · trivial

/-- A step of a voter, whatever signals it sends. -/
theorem told_stepVoter {p : Phase n} {e : Effect n} (h : InPhase mode p s)
    (htold : ∀ j, Told p j (s.voter j)) (he : stepVoter C i s.shared (s.voter i) = some e)
    (j : Fin n) : Told (p.after s (.voter i)) j ((applyEffect mode C i s e).voter j) := by
  have hmoved : ∀ j, Told p j (Function.update s.voter i e.voter j) := by
    rw [Function.forall_update_iff s.voter (Told p)]
    exact ⟨(htold i).step (h.place i) he, fun j _ => htold j⟩
  by_cases hcall : (s.voter i).pc = .call
  · obtain rfl := h.gathering_of_call hcall
    simp only [Phase.after, hcall, and_self, if_true]
    simp only [stepVoter, hcall] at he
    cases he
    intro hj
    simpa only [applyEffect, deliver, Function.update_of_ne hj] using
      told_call h hcall htold hj hj
  · refine Told.after (fun j => ?_) hcall j
    rcases emission_stepVoter he with hem | ⟨hpc, -⟩ | ⟨pid, hem⟩
    · rw [applyEffect, hem]
      exact hmoved j
    · exact absurd hpc hcall
    · rw [applyEffect, hem]
      simp only [deliver]
      split
      · exact (hmoved j).receive_usr1
      · exact hmoved j

/-- **Step lemma.** -/
theorem told_next {p : Phase n} {a : Action n} (hm : mode ≠ .outside) (hp : InPhase mode p s)
    (h : ∀ j, Told p j (s.voter j)) (ht : next mode C s a = some t) (j : Fin n) :
    Told (p.after s a) j (t.voter j) := by
  obtain ⟨rfl, rfl, ht⟩ | ⟨i, e, rfl, he, rfl⟩ | ⟨i, w, rfl, hw, rfl⟩ := hp.next_cases hm ht
  · by_cases hpc : s.main = .launch
    · simp only [stepMain, hpc] at ht
      cases ht
      simp only [Phase.after, if_pos hpc]
      exact told_launch (s := s) hp hpc (h j)
    · simp only [Phase.after, if_neg hpc]
      rcases (stepMain_frame hpc ht).2.2 with ⟨hvoter, -⟩ | ⟨k, -, -, hvoter⟩ <;> rw [hvoter]
      · exact h j
      · have hforked : (Voter.forked n).waited2 = false := rfl
        exact (Function.forall_update_iff s.voter (Told .startUp)).mpr
          ⟨hforked, fun j _ => h j⟩ j
  · exact told_stepVoter hp h he j
  · exact (Function.forall_update_iff s.voter (Told p)).mpr
      ⟨(h i).wake hm (hp.place i) hw, fun j _ => h j⟩ j

/-! ### Where nobody can move -/

/-- Whether a voter or `main` can move does not depend on how signals reach it. -/
theorem stuck_ideal (hm : mode ≠ .outside) (h : (system mode C).Stuck s) :
    (system .ideal C).Stuck s := by
  have hideal : Mode.ideal ≠ .outside := by decide
  intro a
  have ha := h a
  cases a with
  | main =>
    change stepMain .ideal C s = none
    change stepMain mode C s = none at ha
    cases hpc : s.main with
    | launch => simp [stepMain, hpc] at ha
    | sleep => simp only [stepMain, hpc]
    | fork _ | lockFile | openPids | writePids | unlockFile | wait _ =>
      simpa only [stepMain, hpc] using ha
  | voter i =>
    rw [show (system mode C).next s (.voter i) = _ from rfl] at ha
    exact Option.map_eq_none_iff.mpr (Option.map_eq_none_iff.mp ha)
  | wake i =>
    refine Option.map_eq_none_iff.mpr ?_
    have hnone := Option.map_eq_none_iff.mp ha
    simpa only [wakeVoter, hm, hideal, false_or] using hnone
  | interrupt i =>
    refine Option.map_eq_none_iff.mpr ?_
    have hnone := Option.map_eq_none_iff.mp ha
    simpa only [interruptVoter, hm, hideal, false_or] using hnone
  | interruptMain =>
    change interruptMain .ideal s = none
    change interruptMain mode s = none at ha
    simpa only [interruptMain, hm, hideal, false_or] using ha

/-- Where nobody can move, a voter that waits for a signal is inside `sigsuspend`. -/
theorem wait_of_stuck (h : (system mode C).Stuck s) (i : Fin n) :
    ((s.voter i).pc.waits1 = true → (s.voter i).pc = .wait1) ∧
      ((s.voter i).pc.waits2 = true → (s.voter i).pc = .wait2) := by
  have hruns : (s.voter i).pc.runs ≠ true := fun hr => not_stuck_of_runs hr h
  constructor
  · intro hw
    cases hpc : (s.voter i).pc <;> simp [hpc, VoterPc.waits1, VoterPc.runs] at hw hruns ⊢
  · intro hw
    cases hpc : (s.voter i).pc <;> simp [hpc, VoterPc.waits2, VoterPc.runs] at hw hruns ⊢

/-- **Where nobody can move and no wake-up is lost**, every signal that is waited for is pending,
as where signals wait for their receivers. -/
theorem inPhase_ideal {p : Phase n} (hp : InPhase mode p s) (htold : ∀ j, Told p j (s.voter j))
    (hstuck : (system mode C).Stuck s) (hno : NoLostWakeUp s) : InPhase .ideal p s := by
  refine ⟨hp.mainUndisturbed, hp.global, fun j => ?_⟩
  obtain ⟨hundisturbed, hpend1, hpend2, hspot⟩ := hp.place j
  refine ⟨hundisturbed, hpend1, hpend2, ?_⟩
  have htoldj := htold j
  obtain ⟨hwait1, hwait2⟩ := wait_of_stuck hstuck j
  -- what has not been missed is pending
  have hsent1 : (s.voter j).round = 0 → (s.voter j).pc.waits1 = true →
      (s.voter j).pending1 = true ∨ (s.voter j).missed1 = true →
      (s.voter j).pending1 = true := by
    intro hround hw hor
    by_contra hpend
    exact hno j (Or.inl ⟨hwait1 hw, hround, hor.resolve_left hpend, by simpa using hpend⟩)
  have hsent2 : (s.voter j).pc.waits2 = true → (s.voter j).waited2 = false →
      (s.voter j).pending2 = true ∨ (s.voter j).missed2 = true →
      (s.voter j).pending2 = true := by
    intro hw hwaited hor
    by_contra hpend
    exact hno j (Or.inr ⟨hwait2 hw, hwaited, hor.resolve_left hpend, by simpa using hpend⟩)
  match p with
  | .startUp | .closing _ | .blocked _ => exact hspot
  | .election =>
    obtain ⟨hround, hcand, hpc, -⟩ := hspot
    exact ⟨hround, hcand, hpc, fun _ hw => hsent1 hround hw (htoldj.2 hw)⟩
  | .gathering c =>
    by_cases hj : j = c
    · simpa only [Spot, if_pos hj] using hspot
    · simp only [Spot, if_neg hj] at hspot ⊢
      obtain ⟨hround, hcand, hfollows, hnone, -⟩ := hspot
      exact ⟨hround, hcand, hfollows, hnone, fun _ hw => hsent1 hround hw ((htoldj hj).2 hw)⟩
  | .voting c =>
    by_cases hj : j = c
    · simpa only [Spot, if_pos hj] using hspot
    · simp only [Spot, if_neg hj] at hspot ⊢
      obtain ⟨hcand, hpc, -⟩ := hspot
      exact ⟨hcand, hpc, fun _ hw => hsent2 hw (htoldj hj hw).1 (htoldj hj hw).2⟩

/-! ### The second round -/

/-- The program has stopped in its second round. -/
structure SecondRound (s : State n) : Prop where
  main : s.main = .sleep
  semaphores : s.shared.semC = 0 ∧ s.shared.semF = 1 ∧ s.shared.semS = 0
  /-- The votes of the first round are gone. -/
  votes : s.shared.votes = []
  /-- The candidate waits for an announcement, the others for SIGUSR1, which they block. -/
  voters : ∃ c, (s.voter c).pc = .gather 0 ∧ (s.voter c).round = 1 ∧
    ∀ j, j ≠ c → (s.voter j).pc = .wait1 ∧ (s.voter j).round = 1 ∧ (s.voter j).blocked1 = true

/-- The candidate of the second round empties the file, and nobody writes to it. -/
def Emptied (p : Phase n) (s : State n) : Prop :=
  ∀ c, p = .blocked c → (s.voter c).pc ≠ .truncate → s.shared.votes = []

theorem emptied_stepVoter {p : Phase n} {e : Effect n} (hp : InPhase mode p s)
    (h : Emptied p s) (he : stepVoter C i s.shared (s.voter i) = some e) :
    Emptied (p.after s (.voter i)) (s.move i e) := by
  intro d hd hne
  match p with
  | .startUp => cases hd
  | .election | .gathering _ | .voting _ =>
    simp only [Phase.after] at hd
    split at hd <;> cases hd
  | .closing c =>
    simp only [Phase.after] at hd
    split at hd
    · rename_i hi
      obtain ⟨rfl, hpc⟩ := hi
      obtain ⟨-, -, hC⟩ := hp.global
      have hfree : s.shared.semC = 1 := by simpa [hpc, VoterPc.closesHolding] using hC
      simp only [stepVoter, hpc, hfree, Nat.lt_one_iff, if_true] at he
      cases he
      split at hd <;> cases hd
      -- the new candidate is about to truncate the file
      rw [State.move_self] at hne
      exact absurd rfl hne
    · cases hd
  | .blocked c =>
    obtain rfl : c = d := by simpa [Phase.after] using hd
    have hspot := (hp.place i).spot
    rw [State.move_shared]
    by_cases hi : i = c
    · subst hi
      simp only [Spot, if_true] at hspot
      obtain ⟨-, -, hpc | hpc⟩ := hspot
      · simp only [stepVoter, hpc] at he
        cases he
        rfl
      · simp [stepVoter, hpc, hp.global.2.1] at he
    · simp only [Spot, if_neg hi] at hspot
      rw [State.move_of_ne (Ne.symm hi)] at hne
      rw [votes_stepVoter he (fun hx => ?_) fun hx => ?_]
      · exact h c rfl hne
      · simp [hx, VoterPc.waits1] at hspot
      · simp [hx, VoterPc.waits1] at hspot

/-- **Step lemma.** -/
theorem emptied_next {p : Phase n} {a : Action n} (hm : mode ≠ .outside) (hp : InPhase mode p s)
    (h : Emptied p s) (ht : next mode C s a = some t) : Emptied (p.after s a) t := by
  obtain ⟨rfl, rfl, -⟩ | ⟨i, e, rfl, he, rfl⟩ | ⟨i, w, rfl, hw, rfl⟩ := hp.next_cases hm ht
  · intro c hc
    simp only [Phase.after] at hc
    split at hc <;> cases hc
  · obtain ⟨hsh, -, hvoter⟩ := deliver_frame mode C (some i) (s.move i e) e.emission
    intro c hc hne
    have hpc : ((applyEffect mode C i s e).voter c).pc = ((s.move i e).voter c).pc := by
      obtain ⟨w, hw, rfl | ⟨sig, rfl⟩⟩ := hvoter c
      · exact congrArg Voter.pc hw
      · exact (congrArg Voter.pc hw).trans (receive_pc ..)
    rw [hpc] at hne
    exact (congrArg Shared.votes hsh).trans (emptied_stepVoter hp h he c hc hne)
  · -- the candidate does not sleep
    intro c hc hne
    obtain rfl : p = .blocked c := hc
    refine h c rfl fun hpc => hne ?_
    have hi : c ≠ i := by
      rintro rfl
      obtain ⟨-, ⟨hx, -⟩ | ⟨hx, -⟩⟩ := wakeVoter_eq_some hm hw <;> rw [hpc] at hx <;> cases hx
    simpa only [Function.update_of_ne hi] using hpc

/-- How the rounds halt. -/
def Halted (mode : Mode) (s : State n) : Prop :=
  SecondRound s ∨ mode = .posix ∧ s.main = .sleep ∧ ∃ i, LostWakeUp (s.voter i)

/-- What every reachable state keeps. -/
theorem told_reachable (hm : mode ≠ .outside) (h : (system mode C).Reachable s) :
    ∃ p, InPhase mode p s ∧ Filed C p s ∧ FileLock s ∧ (∀ j, Told p j (s.voter j)) ∧
      Emptied p s := by
  refine phase_induct
    (I := fun p s => Filed C p s ∧ FileLock s ∧ (∀ j, Told p j (s.voter j)) ∧ Emptied p s)
    hm h (fun votes pidsBin => ?_) fun p s a t _ hp hI _ ht => ?_
  · refine ⟨trivial, fileLock_initial votes pidsBin, fun _ => rfl, fun c hc => ?_⟩
    cases hc
  · obtain ⟨hfile, hlock, htold, hempty⟩ := hI
    exact ⟨filed_next hm hp hfile ht, fileLock_next hm hp hlock ht, told_next hm hp htold ht,
      emptied_next hm hp hempty ht⟩

/-- Where nobody can move after the second election, the program has stopped in its second
round. -/
theorem secondRound_of_stuck (hp : InPhase mode (.blocked c) s) (hlock : FileLock s)
    (hmask : ∀ j, Masked (s.voter j)) (hempty : Emptied (.blocked c) s)
    (hstuck : (system mode C).Stuck s) : SecondRound s := by
  obtain ⟨hmain, hS, hC, -⟩ := hp.global
  have hothers : ∀ j, j ≠ c → (s.voter j).pc = .wait1 ∧ (s.voter j).round = 1 := by
    intro j hj
    have hspot := (hp.place j).spot
    simp only [Spot, if_neg hj] at hspot
    exact ⟨(wait_of_stuck hstuck j).1 hspot.2.2, hspot.2.1⟩
  have hcandidate : (s.voter c).pc = .gather 0 ∧ (s.voter c).round = 1 := by
    have hspot := (hp.place c).spot
    simp only [Spot, if_true] at hspot
    obtain ⟨-, hround, hpc | hpc⟩ := hspot
    · refine absurd hstuck (not_stuck_of_runs (i := c) ?_)
      rw [hpc]
      rfl
    · exact ⟨hpc, hround⟩
  have hnone : Family.total fileTokens s.voter = 0 := by
    refine Family.total_eq_zero fun j => ?_
    by_cases hj : j = c
    · rw [hj, fileTokens, hcandidate.1]
      rfl
    · rw [fileTokens, (hothers j hj).1]
      rfl
  constructor
  · exact hmain
  · refine ⟨hC, ?_, hS⟩
    simpa [FileLock, hnone, hmain, MainPc.holdsFile] using hlock
  · refine hempty c rfl ?_
    rw [hcandidate.1]
    rintro ⟨⟩
  · refine ⟨c, hcandidate.1, hcandidate.2, fun j hj => ?_⟩
    obtain ⟨hpc, hround⟩ := hothers j hj
    have hblocked := hmask j
    rw [Masked, if_neg (by simp [hround])] at hblocked
    exact ⟨hpc, hround, hblocked.1⟩

/-- **How the rounds halt.** With two voters or more, and as long as neither SIGINT nor SIGALRM
reaches `main`, no run goes on for ever, and it comes to rest in the second round or, where
signals are not kept, with a lost wake-up. -/
theorem ensures_halted (hn : 2 ≤ n) (hm : mode ≠ .outside) (C : Census n) :
    (system mode C).Ensures (Halted mode) := by
  have hne : n ≠ 1 := by omega
  refine System.ensures_of_measure measure (fun s a t hs ht => ?_) fun s hs hstuck => ?_
  · obtain ⟨p, hp, hfile, -⟩ := told_reachable hm hs
    exact measure_next hne hm hp hfile (masked_reachable hs).2 ht
  · obtain ⟨p, hp, -, hlock, htold, hempty⟩ := told_reachable hm hs
    have hmask := (masked_reachable hs).1
    by_cases hblocked : ∃ c, p = .blocked c
    · obtain ⟨c, rfl⟩ := hblocked
      exact Or.inl (secondRound_of_stuck hp hlock hmask hempty hstuck)
    · -- before the second election somebody can move, if no wake-up is lost
      have hlost : ¬ NoLostWakeUp s := by
        intro hno
        have hideal := inPhase_ideal hp htold hstuck hno
        refine not_stuck_of_inPhase (by omega) hideal hlock hmask (fun c hc => ?_)
          (stuck_ideal hm hstuck)
        exact hblocked ⟨c, hc⟩
      have hposix : mode = .posix := by
        cases mode with
        | ideal =>
          refine absurd hstuck (not_stuck_of_inPhase (by omega) hp hlock hmask fun c hc => ?_)
          exact hblocked ⟨c, hc⟩
        | posix => rfl
        | outside => exact absurd rfl hm
      have hmain : s.main = .sleep := by
        by_contra hmain
        obtain rfl := hp.eq_startUp hmain
        exact not_stuck_startUp hp hlock hstuck
      exact Or.inr ⟨hposix, hmain, by simpa [NoLostWakeUp] using hlost⟩

/-- An instance: two voters, with the signals of POSIX. -/
theorem ensures_halted_two_voters :
    (system .posix (Census.consecutive 2 3 (by decide))).Ensures (Halted .posix) :=
  ensures_halted (by decide) (by decide) _

end Soper.Voting
