import Soper.Voting.Frame

/-!
# At most one candidate

The right to tally is in two places: the token of `sem_c`, and the flag `candidate` of a voter,
which it sets when it takes the token and never clears. `OneCandidate` says that the two agree:
`sem_c` is zero or one, and the voter in the tally is the only one that has taken the token and
not returned it.

With signals from outside this fails (`not_oneCandidate_two_voters`). A voter that has returned
the token and tries for it again may find that another has woken and taken it; it then waits like
the others, but its flag is still set and after its vote it tallies too, without the token. Where
no old candidate loses the token in this way (`KeepsCandidate`) the token is conserved: it is in
`sem_c` or with one voter (`Conserved`), for every number of voters and rounds and every pattern
of signals (`oneCandidate_reachableBy`).
-/

namespace Soper.Voting

variable {n : ℕ} {mode : Mode} {C : Census n} {s t : State n} {i : Fin n}

namespace VoterPc

/-- From the branch `candidate == 1` to its `sem_post(sem_c)`. -/
def inTally : VoterPc → Bool
  | .read _ | .verdict | .close _ | .closed _ | .openPids | .notify _ | .release => true
  | _ => false

/-- From `sem_trywait(sem_c)` to `sem_post(sem_c)`; a voter that exits does so with the token. -/
def afterTrywait : VoterPc → Bool
  | .truncate | .gather _ | .gathered _ | .call | .lock | .append | .unlock | .read _ | .verdict
  | .close _ | .closed _ | .openPids | .notify _ | .release | .exited => true
  | _ => false

/-- Only a candidate comes here. -/
def candidateOnly : VoterPc → Bool
  | .truncate | .gather _ | .gathered _ | .call | .read _ | .verdict | .close _ | .closed _
  | .openPids | .notify _ | .release | .exited => true
  | _ => false

/-- Only a voter that has lost `sem_c` in its pass comes here. -/
def otherOnly : VoterPc → Bool
  | .announce | .measure | .beforeWait2 | .wait2 => true
  | _ => false

end VoterPc

/-- The voter has taken the token of `sem_c` in its pass and not returned it. -/
def Voter.holds (v : Voter n) : Bool := v.elected && v.pc.afterTrywait

/-- `sem_c` is zero or one, and a voter in the tally is the one whose `sem_trywait(sem_c)`
succeeded: it holds the token, and nobody else does. -/
structure OneCandidate (s : State n) : Prop where
  semC_le : s.shared.semC ≤ 1
  unique : ∀ i j, (s.voter i).pc.inTally = true → (s.voter j).pc.inTally = true → i = j
  holder : ∀ i, (s.voter i).pc.inTally = true →
    (s.voter i).elected = true ∧ ∀ j, (s.voter j).holds = true → j = i

/-- A voter that comes to `sem_trywait(sem_c)` with its flag set finds the token there. -/
def KeepsCandidate (s : State n) : Action n → Prop
  | .voter i => (s.voter i).pc = .elect → (s.voter i).candidate = true → 0 < s.shared.semC
  | .main | .wake _ | .interrupt _ | .interruptMain => True

instance decidableKeepsCandidate (s : State n) (a : Action n) :
    Decidable (KeepsCandidate s a) := by
  cases a <;> unfold KeepsCandidate <;> infer_instance

/-! ### The flag and the token -/

/-- The flag says whether the last `sem_trywait` succeeded, and the voter is where a voter with
that flag may be. -/
structure Flagged (v : Voter n) : Prop where
  flag : v.candidate = v.elected
  candidate : v.pc.candidateOnly = true → v.candidate = true
  other : v.pc.otherOnly = true → v.candidate = false

/-- The tokens a voter holds. -/
def tokens (v : Voter n) : ℕ := v.holds.toNat

/-- Every flag is right, the one token is in `sem_c` or with a voter, and voters that are not
forked yet have none. -/
structure Conserved (s : State n) : Prop where
  flagged : ∀ j, Flagged (s.voter j)
  token : s.shared.semC + Family.total tokens s.voter = 1
  absent : ∀ k, s.main = .fork k → ∀ j : Fin n, k ≤ j → (s.voter j).pc = .absent

/-- A move that leaves the flag alone, and goes where the flag lets it, keeps the token. -/
theorem Flagged.move {v w : Voter n} (h : Flagged v) (hcand : w.candidate = v.candidate)
    (helect : w.elected = v.elected)
    (honly : w.pc.candidateOnly = true → v.candidate = true)
    (hother : w.pc.otherOnly = true → v.candidate = false)
    (hafter : v.candidate = true → w.pc.afterTrywait = v.pc.afterTrywait) :
    Flagged w ∧ tokens w = tokens v := by
  refine ⟨⟨?_, ?_, ?_⟩, ?_⟩
  · rw [hcand, helect, h.flag]
  · rw [hcand]
    exact honly
  · rw [hcand]
    exact hother
  · cases hv : v.candidate with
    | false =>
      have helected : v.elected = false := h.flag.symm.trans hv
      simp [tokens, Voter.holds, helect, helected]
    | true => simp only [tokens, Voter.holds, helect, hafter hv]

theorem gatherFrom_kind (k : ℕ) :
    (gatherFrom n k).otherOnly = false ∧ (gatherFrom n k).afterTrywait = true := by
  unfold gatherFrom
  split <;> exact ⟨rfl, rfl⟩

theorem closeFrom_kind (k : ℕ) :
    (closeFrom n k).otherOnly = false ∧ (closeFrom n k).afterTrywait = true := by
  unfold closeFrom
  split <;> exact ⟨rfl, rfl⟩

/-- A voter in the election takes the token, or loses its turn with its flag clear. -/
theorem flagged_elect {sh : Shared n} {v : Voter n} {e : Effect n} (hpc : v.pc = .elect)
    (hok : v.candidate = true → 0 < sh.semC)
    (he : stepVoter C i sh v = some e) :
    Flagged e.voter ∧ e.shared.semC + tokens e.voter = sh.semC + tokens v := by
  have hnone : tokens v = 0 := by simp [tokens, Voter.holds, hpc, VoterPc.afterTrywait]
  simp only [stepVoter, hpc] at he
  split at he <;> cases he
  · rename_i hfree
    refine ⟨⟨rfl, fun _ => rfl, by rintro ⟨⟩⟩, ?_⟩
    rw [hnone]
    exact Nat.sub_add_cancel hfree
  · rename_i htaken
    -- with its flag set it would have found the token
    have hcand : v.candidate = false := by
      by_contra hne
      exact htaken (hok (Bool.eq_true_of_not_eq_false hne))
    refine ⟨⟨hcand, by rintro ⟨⟩, fun _ => hcand⟩, ?_⟩
    rw [hnone]
    rfl

/-- A candidate that ends its tally returns the token. -/
theorem flagged_release {sh : Shared n} {v : Voter n} {e : Effect n} (h : Flagged v)
    (hpc : v.pc = .release) (he : stepVoter C i sh v = some e) :
    Flagged e.voter ∧ e.shared.semC + tokens e.voter = sh.semC + tokens v := by
  have hcand : v.candidate = true := h.candidate (by rw [hpc]; rfl)
  have hone : tokens v = 1 := by
    simp [tokens, Voter.holds, ← h.flag, hcand, hpc, VoterPc.afterTrywait]
  simp only [stepVoter, hpc] at he
  cases he
  refine ⟨⟨h.flag, by rintro ⟨⟩, by rintro ⟨⟩⟩, ?_⟩
  rw [hone]
  simp [tokens, Voter.holds, VoterPc.afterTrywait]

/-- Any other step leaves the token where it is. -/
theorem flagged_other {sh : Shared n} {v : Voter n} {e : Effect n} (h : Flagged v)
    (helect : v.pc ≠ .elect) (hrelease : v.pc ≠ .release) (he : stepVoter C i sh v = some e) :
    e.shared.semC = sh.semC ∧ Flagged e.voter ∧ tokens e.voter = tokens v := by
  match hpc : v.pc with
  | .elect => exact absurd hpc helect
  | .release => exact absurd hpc hrelease
  | .absent | .wait1 | .wait2 | .exited => simp [stepVoter, hpc] at he
  | .head =>
    simp only [stepVoter, hpc] at he
    split at he <;> cases he
    · exact ⟨rfl, h.move rfl rfl (by rintro ⟨⟩) (by rintro ⟨⟩) fun _ => by rw [hpc]; rfl⟩
    · exact ⟨rfl, h.move rfl rfl (by rintro ⟨⟩) (by rintro ⟨⟩) fun _ => by rw [hpc]; rfl⟩
  | .beforeWait1 | .append | .loop =>
    simp only [stepVoter, hpc] at he
    cases he
    exact ⟨rfl, h.move rfl rfl (by rintro ⟨⟩) (by rintro ⟨⟩) fun _ => by rw [hpc]; rfl⟩
  | .truncate | .gathered k =>
    have hcand : v.candidate = true := h.candidate (by rw [hpc]; rfl)
    simp only [stepVoter, hpc] at he
    cases he
    refine ⟨rfl, h.move rfl rfl (fun _ => hcand) ?_ fun _ => ?_⟩
    · rw [(gatherFrom_kind _).1]
      rintro ⟨⟩
    · rw [hpc, (gatherFrom_kind _).2]
      rfl
  | .verdict | .closed k =>
    have hcand : v.candidate = true := h.candidate (by rw [hpc]; rfl)
    simp only [stepVoter, hpc] at he
    cases he
    refine ⟨rfl, h.move rfl rfl (fun _ => hcand) ?_ fun _ => ?_⟩
    · rw [(closeFrom_kind _).1]
      rintro ⟨⟩
    · rw [hpc, (closeFrom_kind _).2]
      rfl
  | .gather k | .close k | .lock =>
    simp only [stepVoter, hpc] at he
    split at he <;> cases he
    refine ⟨rfl, h.move rfl rfl ?_ (by rintro ⟨⟩) fun _ => by rw [hpc]; rfl⟩
    first
    | exact fun _ => h.candidate (by rw [hpc]; rfl)
    | rintro ⟨⟩
  | .call | .notify [] | .notify (_ :: _) =>
    have hcand : v.candidate = true := h.candidate (by rw [hpc]; rfl)
    simp only [stepVoter, hpc] at he
    cases he
    exact ⟨rfl, h.move rfl rfl (fun _ => hcand) (by rintro ⟨⟩) fun _ => by rw [hpc]; rfl⟩
  | .announce | .measure | .beforeWait2 =>
    have hcand : v.candidate = false := h.other (by rw [hpc]; rfl)
    simp only [stepVoter, hpc] at he
    cases he
    exact ⟨rfl, h.move rfl rfl (by rintro ⟨⟩) (fun _ => hcand) fun _ => by rw [hpc]; rfl⟩
  -- the voter is the candidate, or not, and goes on accordingly
  | .unlock =>
    simp only [stepVoter, hpc] at he
    split at he <;> cases he
    · rename_i hcand
      exact ⟨rfl, h.move rfl rfl (fun _ => hcand) (by rintro ⟨⟩) fun _ => by rw [hpc]; rfl⟩
    · rename_i hcand
      exact ⟨rfl, h.move rfl rfl (by rintro ⟨⟩) (by rintro ⟨⟩) fun hx => absurd hx hcand⟩
  | .read p | .openPids =>
    have hcand : v.candidate = true := h.candidate (by rw [hpc]; rfl)
    simp only [stepVoter, hpc] at he
    split at he <;> cases he <;>
      exact ⟨rfl, h.move rfl rfl (fun _ => hcand) (by rintro ⟨⟩) fun _ => by rw [hpc]; rfl⟩

/-- The flag and the token along a step of a voter that does not lose `sem_c` with its flag
set. -/
theorem flagged_stepVoter {sh : Shared n} {v : Voter n} {e : Effect n} (h : Flagged v)
    (hok : v.pc = .elect → v.candidate = true → 0 < sh.semC)
    (he : stepVoter C i sh v = some e) :
    Flagged e.voter ∧ e.shared.semC + tokens e.voter = sh.semC + tokens v := by
  by_cases helect : v.pc = .elect
  · exact flagged_elect helect (hok helect) he
  · by_cases hrelease : v.pc = .release
    · exact flagged_release h hrelease he
    · obtain ⟨hC, hflag, htok⟩ := flagged_other h helect hrelease he
      exact ⟨hflag, by rw [hC, htok]⟩

/-- A voter that a signal wakes keeps its flag. -/
theorem flagged_wakeVoter {v w : Voter n} (h : Flagged v) (hw : wakeVoter mode v = some w) :
    Flagged w ∧ tokens w = tokens v := by
  simp only [wakeVoter] at hw
  split at hw
  · split at hw
    · rename_i hpc
      cases hw
      exact h.move rfl rfl (by rintro ⟨⟩) (by rintro ⟨⟩) fun _ => by rw [hpc]; rfl
    · rename_i hpc
      cases hw
      have hcand : v.candidate = false := h.other (by rw [hpc]; rfl)
      exact h.move rfl rfl (by rintro ⟨⟩) (by rintro ⟨⟩) fun hx => by rw [hcand] at hx; cases hx
    · cases hw
  · cases hw

/-- A `sem_wait` that a handler disturbs stays in its section. -/
theorem flagged_interruptVoter {sh : Shared n} {v w : Voter n} (h : Flagged v)
    (hw : interruptVoter mode sh v = some w) : Flagged w ∧ tokens w = tokens v := by
  simp only [interruptVoter] at hw
  split at hw
  · split at hw <;> (try split at hw) <;> cases hw <;> rename_i hpc _
    · have hcand : v.candidate = true := h.candidate (by rw [hpc]; rfl)
      exact h.move rfl rfl (fun _ => hcand) (by rintro ⟨⟩) fun _ => by rw [hpc]; rfl
    · exact h.move rfl rfl (by rintro ⟨⟩) (by rintro ⟨⟩) fun _ => by rw [hpc]; rfl
    · have hcand : v.candidate = true := h.candidate (by rw [hpc]; rfl)
      exact h.move rfl rfl (fun _ => hcand) (by rintro ⟨⟩) fun _ => by rw [hpc]; rfl
  · cases hw

/-! ### Runs that keep the candidate -/

/-- The flags after one voter moves. -/
theorem Conserved.move {sh : Shared n} {w : Voter n} (h : Conserved s)
    (hne : (s.voter i).pc ≠ .absent) (hw : Flagged w)
    (htok : sh.semC + tokens w = s.shared.semC + tokens (s.voter i)) :
    Conserved { s with shared := sh, voter := Function.update s.voter i w } where
  flagged := (Function.forall_update_iff s.voter fun _ v => Flagged v).mpr
    ⟨hw, fun j _ => h.flagged j⟩
  token := by
    have hupdate := Family.total_update tokens s.voter i w
    have htoken := h.token
    change sh.semC + Family.total tokens (Function.update s.voter i w) = 1
    omega
  absent k hk j hj := by
    have hji : j ≠ i := by
      rintro rfl
      exact hne (h.absent k hk j hj)
    simpa only [Function.update_of_ne hji] using h.absent k hk j hj

/-- Signals move neither the token nor a flag. -/
theorem conserved_deliver {origin : Option (Fin n)} {em : Emission} (h : Conserved s) :
    Conserved (deliver mode C origin s em) := by
  obtain ⟨hsh, hmain, hvoter⟩ := deliver_frame mode C origin s em
  have hsame : ∀ j, Flagged ((deliver mode C origin s em).voter j) ∧
      tokens ((deliver mode C origin s em).voter j) = tokens (s.voter j) ∧
      ((deliver mode C origin s em).voter j).pc = (s.voter j).pc := by
    intro j
    obtain ⟨w, hw, rfl | ⟨sig, rfl⟩⟩ := hvoter j
    · rw [hw]
      exact ⟨h.flagged j, rfl, rfl⟩
    · rw [hw]
      refine ⟨⟨?_, ?_, ?_⟩, ?_, receive_pc ..⟩
      · simpa using (h.flagged j).flag
      · simpa using (h.flagged j).candidate
      · simpa using (h.flagged j).other
      · simp [tokens, Voter.holds]
  refine ⟨fun j => (hsame j).1, ?_, fun k hk j hj => ?_⟩
  · rw [hsh, Family.total_congr fun j => (hsame j).2.1]
    exact h.token
  · rw [(hsame j).2.2]
    exact h.absent k (hmain ▸ hk) j hj

/-- `main` creates voters without the token, and does not touch `sem_c`. -/
theorem conserved_stepMain (h : Conserved s) (ht : stepMain mode C s = some t) :
    Conserved t := by
  by_cases hpc : s.main = .launch
  · simp only [stepMain, hpc] at ht
    cases ht
    exact conserved_deliver ⟨h.flagged, h.token, by rintro _ ⟨⟩⟩
  · obtain ⟨hC, -, ⟨hvoter, hmain⟩ | ⟨k, hk, hmain, hvoter⟩⟩ := stepMain_frame hpc ht
    · refine ⟨?_, ?_, fun k hk => absurd hk (hmain k)⟩
      · rw [hvoter]
        exact h.flagged
      · rw [hC, hvoter]
        exact h.token
    · -- the voter that is created has had no token
      have habsent := h.absent k hk
      have hnone : tokens (s.voter k) = tokens (Voter.forked n) := by
        simp [tokens, Voter.holds, habsent k le_rfl, VoterPc.afterTrywait, Voter.forked]
      refine ⟨?_, ?_, fun m hm j hj => ?_⟩
      · rw [hvoter]
        exact (Function.forall_update_iff s.voter fun _ v => Flagged v).mpr
          ⟨⟨rfl, by rintro ⟨⟩, by rintro ⟨⟩⟩, fun j _ => h.flagged j⟩
      · rw [hC, hvoter, Family.total_update_eq hnone.symm]
        exact h.token
      · rw [hmain] at hm
        cases hm
        have hjk : j ≠ k := by
          rintro rfl
          omega
        rw [hvoter, Function.update_of_ne hjk]
        exact habsent j (by omega)

/-- A step that keeps the candidate conserves the token. -/
theorem conserved_next {a : Action n} (h : Conserved s) (hok : KeepsCandidate s a)
    (ht : next mode C s a = some t) : Conserved t := by
  cases a with
  | main => exact conserved_stepMain h ht
  | voter i =>
    obtain ⟨e, he, rfl⟩ := Option.map_eq_some_iff.mp ht
    -- only an election and a release move the token
    obtain ⟨hflag, htok⟩ := flagged_stepVoter (h.flagged i) hok he
    refine conserved_deliver (h.move (fun habs => ?_) hflag htok)
    simp [stepVoter, habs] at he
  | wake i =>
    obtain ⟨w, hw, rfl⟩ := Option.map_eq_some_iff.mp ht
    obtain ⟨hflag, htok⟩ := flagged_wakeVoter (h.flagged i) hw
    refine h.move (fun habs => ?_) hflag (by rw [htok])
    simp [wakeVoter, habs] at hw
  | interrupt i =>
    obtain ⟨w, hw, rfl⟩ := Option.map_eq_some_iff.mp ht
    obtain ⟨hflag, htok⟩ := flagged_interruptVoter (h.flagged i) hw
    refine h.move (fun habs => ?_) hflag (by rw [htok])
    simp [interruptVoter, habs] at hw
  | interruptMain =>
    obtain ⟨hsh, hvoter, hmain⟩ := interruptMain_frame ht
    refine ⟨?_, ?_, fun k hk => absurd hk (hmain k)⟩
    · rw [hvoter]
      exact h.flagged
    · rw [hsh, hvoter]
      exact h.token

theorem conserved_reachableBy (h : (system mode C).ReachableBy KeepsCandidate s) :
    Conserved s := by
  refine h.induct ?_ fun _ _ _ hs hok ht => conserved_next hs hok ht
  rintro _ ⟨votes, pidsBin, rfl⟩
  refine ⟨fun _ => ⟨rfl, nofun, nofun⟩, ?_, fun _ _ _ _ => rfl⟩
  have hzero : Family.total tokens (initial votes pidsBin).voter = 0 :=
    Family.total_eq_zero fun _ => rfl
  rw [hzero]
  rfl

/-- Where the token is conserved, a voter in the tally holds it. -/
theorem Conserved.holds (h : Conserved s) (hi : (s.voter i).pc.inTally = true) :
    (s.voter i).elected = true ∧ (s.voter i).holds = true := by
  have honly : (s.voter i).pc.candidateOnly = true := by
    cases hx : (s.voter i).pc <;> simp [hx, VoterPc.inTally, VoterPc.candidateOnly] at hi ⊢
  have hafter : (s.voter i).pc.afterTrywait = true := by
    cases hx : (s.voter i).pc <;> simp [hx, VoterPc.inTally, VoterPc.afterTrywait] at hi ⊢
  have helected : (s.voter i).elected = true :=
    (h.flagged i).flag.symm.trans ((h.flagged i).candidate honly)
  exact ⟨helected, by simp [Voter.holds, helected, hafter]⟩

/-- **At most one candidate**, for every number of voters and of rounds and every pattern of
signals, in a run in which no voter with its flag set loses `sem_c`. -/
theorem oneCandidate_reachableBy (h : (system mode C).ReachableBy KeepsCandidate s) :
    OneCandidate s := by
  have hcons := conserved_reachableBy h
  -- one token, so one holder
  have hle : Family.total tokens s.voter ≤ 1 := by
    have := hcons.token
    omega
  have hpos : ∀ {j}, (s.voter j).holds = true → 0 < tokens (s.voter j) := by
    intro j hj
    simp [tokens, hj]
  refine ⟨?_, fun i j hi hj => ?_, fun i hi => ⟨(hcons.holds hi).1, fun j hj => ?_⟩⟩
  · have := hcons.token
    omega
  · exact Family.eq_of_total_le_one hle (hpos (hcons.holds hi).2) (hpos (hcons.holds hj).2)
  · exact Family.eq_of_total_le_one hle (hpos hj) (hpos (hcons.holds hi).2)

/-- An instance: voter 0 returns the token, and SIGUSR2 from outside wakes voter 1, which takes it
while voter 0 is still on its way to the election. -/
theorem oneCandidate_two_voters :
    ∃ s : State 2, (s.voter 1).holds = true ∧ OneCandidate s := by
  let C := Census.consecutive 2 3 (by decide)
  have hinit : (system .outside C).ReachableBy KeepsCandidate (initial [] none) :=
    .init ⟨_, _, rfl⟩
  obtain ⟨s, hs, hend⟩ : ∃ s, (system .outside C).runBy KeepsCandidate (initial [] none)
      (runToRelease ++ [.wake 1, .voter 1, .voter 0]) = some s ∧ (s.voter 1).holds = true :=
    Option.map_eq_some_iff.mp (by decide +kernel)
  exact ⟨s, hend, oneCandidate_reachableBy (hinit.runBy hs)⟩

/-- Two voters: voter 0 has returned the token when SIGUSR2 from outside wakes voter 1, which
takes it. Voter 0 loses the election with its flag set, and after its vote both are in the
tally. -/
theorem not_oneCandidate_two_voters :
    ¬ ∀ n, 1 ≤ n → ∀ (C : Census n) (s : State n), (system .outside C).Reachable s →
      OneCandidate s := by
  intro hall
  let C := Census.consecutive 2 3 (by decide)
  have hinit : (system .outside C).Reachable (initial [] none) := .init ⟨_, _, rfl⟩
  let race : List (Action 2) := [.wake 1, .voter 1] ++ List.replicate 6 (.voter 0) ++ [.wake 0] ++
    List.replicate 3 (.voter 0) ++ List.replicate 7 (.voter 1)
  obtain ⟨s, hs, hend⟩ : ∃ s, (system .outside C).run (initial [] none) (runToRelease ++ race) =
      some s ∧ ((s.voter 0).pc.inTally, (s.voter 1).pc.inTally) = (true, true) :=
    Option.map_eq_some_iff.mp (by decide +kernel)
  simp only [Prod.mk.injEq] at hend
  have heq := (hall 2 (by decide) C s (hinit.run hs)).unique 0 1 hend.1 hend.2
  cases heq

end Soper.Voting
