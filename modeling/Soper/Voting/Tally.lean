import Soper.Voting.VotesFile

/-!
# The tally

The candidate counts what it finds in `votes.bin` after `sleep(5)`, which does not wait for
anybody, and it counts in `result`, which also receives the values of `sem_s` and is never reset.
`TallyCorrect` says that the verdict is the vote: the count starts at zero, it has found exactly
one vote of each voter, and it accepts where more than half of the voters vote Yes.

Between the truncation of the file and the verdict each voter appends one vote, and with several
voters the last value of `sem_s` before the call is zero, so the count starts at
zero. What remains to the schedule is that the candidate may reach the end of the file before the
others have voted, and what remains to the rounds is that a single voter never resets its count.
Where neither happens (`CountsAll`) the verdict is the vote (`tallyCorrect_reachableBy`). Two
voters are enough for the first to go wrong (`not_tallyCorrect_two_voters`).
-/

namespace Soper.Voting

variable {n : ℕ} {mode : Mode} {C : Census n} {s t : State n} {i c : Fin n}

/-! ### The vote and its count -/

/-- How many voters vote Yes. -/
def Census.yes (C : Census n) : ℕ := (Finset.univ.filter fun i => C.vote i = 1).card

/-- The records of a file that say Yes. -/
def yesVotes (votes : List (Vote n)) : ℕ := votes.countP fun b => b.vote = 1

/-- The verdict is the vote: `result` started at zero, the records counted are one of each voter,
and `result > n_procs / 2` says whether more than half of the voters vote Yes. -/
@[mk_iff]
structure Tallied (C : Census n) (v : Voter n) : Prop where
  start : v.start = 0
  ballot : v.ballot.Perm (List.ofFn C.record)
  accepted : n / 2 < v.result ↔ n < 2 * C.yes

/-- Every candidate that prints its verdict prints the vote. -/
def TallyCorrect (C : Census n) (s : State n) : Prop :=
  ∀ i, (s.voter i).pc = .verdict → Tallied C (s.voter i)

/-- The next `fread` finds the end of the file. -/
def VoterPc.atEnd (votes : List (Vote n)) : VoterPc → Bool
  | .read p => votes.length ≤ p
  | _ => false

/-- When the candidate finds the end of the file, every voter has appended its vote of the round,
and a single voter is in its first round or votes No. -/
def CountsAll (C : Census n) (s : State n) : Action n → Prop
  | .voter i => (s.voter i).pc.atEnd s.shared.votes = true →
      (∀ j, (s.voter j).pc.toVote = false) ∧ (n = 1 → (s.voter i).round = 0 ∨ C.vote i ≠ 1)
  | .main | .wake _ | .interrupt _ | .interruptMain => True

instance decidableCountsAll (C : Census n) (s : State n) (a : Action n) :
    Decidable (CountsAll C s a) :=
  match a with
  | .voter _ => inferInstanceAs (Decidable (_ = _ → _ ∧ _))
  | .main | .wake _ | .interrupt _ | .interruptMain => inferInstanceAs (Decidable True)

/-- The Yes votes among one vote of each voter. -/
theorem yesVotes_ofFn (C : Census n) : yesVotes (List.ofFn C.record) = C.yes := by
  rw [yesVotes, Census.yes, List.ofFn_eq_map, List.countP_map, List.countP_eq_length_filter,
    Finset.card_def, Finset.filter_val, Fin.univ_def, Multiset.filter_coe, Multiset.coe_card]
  rfl

/-! ### The count along a round -/

/-- The count of the voter can start at zero: it is not a single voter that has counted itself
before. -/
def Fresh (C : Census n) (i : Fin n) (v : Voter n) : Prop := n ≠ 1 ∨ v.round = 0 ∨ C.vote i ≠ 1

/-- What the candidate has counted, from its call to the opening of `pids.bin`. -/
def Counting (C : Census n) (c : Fin n) (v : Voter n) (votes : List (Vote n)) : Prop :=
  match v.pc with
  | .lock | .append | .unlock => Fresh C c v → v.result = 0
  | .read p => p ≤ votes.length ∧ v.ballot = votes.take p ∧
      v.result = v.start + yesVotes v.ballot ∧ (Fresh C c v → v.start = 0)
  | .verdict => Tallied C v
  | _ => n = 1 → C.vote c ≠ 1 → v.result = 0

/-- The count in each phase. -/
def Counted (C : Census n) (p : Phase n) (s : State n) : Prop :=
  match p with
  | .startUp | .election => ∀ j, (s.voter j).result = 0
  | .gathering c =>
    n = 1 ∨ (s.voter c).pc = .call → Fresh C c (s.voter c) → (s.voter c).result = 0
  | .voting c => Counting C c (s.voter c) s.shared.votes
  | .closing c =>
    (n = 1 → C.vote c ≠ 1 → (s.voter c).result = 0) ∧
      ((s.voter c).pc.reenters = true → (s.voter c).round ≠ 0)
  | .blocked _ => True

/-- The signals of a step do not touch what the voters have counted. -/
theorem counted_deliver {p : Phase n} {em : Emission} {origin : Option (Fin n)}
    (h : Counted C p s) : Counted C p (deliver mode C origin s em) := by
  obtain ⟨hsh, -, hvoter⟩ := deliver_frame mode C origin s em
  -- a signal changes none of the fields the count reads
  have hcore : ∀ j, ((deliver mode C origin s em).voter j).pc = (s.voter j).pc ∧
      ((deliver mode C origin s em).voter j).result = (s.voter j).result ∧
      ((deliver mode C origin s em).voter j).round = (s.voter j).round ∧
      ((deliver mode C origin s em).voter j).start = (s.voter j).start ∧
      ((deliver mode C origin s em).voter j).ballot = (s.voter j).ballot := by
    intro j
    obtain ⟨w, hw, rfl | ⟨sig, rfl⟩⟩ := hvoter j
    · rw [hw]
      exact ⟨rfl, rfl, rfl, rfl, rfl⟩
    · rw [hw]
      simp
  match p with
  | .startUp | .election => exact fun j => (hcore j).2.1.trans (h j)
  | .gathering c =>
    obtain ⟨hpc, hres, hround, -⟩ := hcore c
    simpa only [Counted, Fresh, hsh, hpc, hres, hround] using h
  | .voting c =>
    obtain ⟨hpc, hres, hround, hstart, hballot⟩ := hcore c
    simpa only [Counted, Counting, Fresh, tallied_iff, hsh, hpc, hres, hround, hstart, hballot]
      using h
  | .closing c =>
    obtain ⟨hpc, hres, hround, -⟩ := hcore c
    simpa only [Counted, hpc, hres, hround] using h
  | .blocked _ => trivial

/-- Before its election a voter does not touch `result`. -/
theorem result_stepVoter {sh : Shared n} {v : Voter n} {e : Effect n}
    (he : stepVoter C i sh v = some e) (hpc : v.pc.beforeElection = true) :
    e.voter.result = v.result := by
  simp only [stepVoter] at he
  split at he <;> (try split at he) <;> cases he <;>
    first | rfl | simp_all [VoterPc.beforeElection]

/-! ### Steps of the voters -/

/-- Until the election nobody has counted anything. -/
theorem counted_beforeElection {e : Effect n} (h : ∀ j, (s.voter j).result = 0)
    (hpc : (s.voter i).pc.beforeElection = true)
    (he : stepVoter C i s.shared (s.voter i) = some e) (j : Fin n) :
    ((s.move i e).voter j).result = 0 := by
  by_cases hj : j = i
  · subst hj
    rw [State.move_self, result_stepVoter he hpc]
    exact h j
  · rw [State.move_of_ne hj]
    exact h j

/-- The voter that is elected has counted nothing. -/
theorem counted_elect {e : Effect n} (h : (s.voter i).result = 0)
    (hpc : (s.voter i).pc = .elect) (hC : 0 < s.shared.semC)
    (he : stepVoter C i s.shared (s.voter i) = some e) :
    Counted C (.gathering i) (s.move i e) := by
  simp only [stepVoter, hpc, hC, if_true] at he
  cases he
  simp only [Counted, State.move_self]
  exact fun _ _ => h

/-- After its last wait before the call the candidate has read a zero from `sem_s`. -/
theorem counted_gathering_candidate {e : Effect n} (hp : InPhase mode (.gathering c) s)
    (h : Counted C (.gathering c) s) (hne : (s.voter c).pc ≠ .call)
    (he : stepVoter C c s.shared (s.voter c) = some e) :
    Counted C (.gathering c) (s.move c e) := by
  obtain ⟨-, -, hspot⟩ := (hp.place c).candidate_gathering
  obtain ⟨-, -, hS⟩ := hp.global
  match hpc : (s.voter c).pc with
  | .call => exact absurd hpc hne
  | .truncate =>
    simp only [stepVoter, hpc] at he
    cases he
    simp only [Counted, State.move_self]
    refine fun hn hfresh => h (Or.inl ?_) hfresh
    rcases hn with hn | hn
    · exact hn
    · by_contra hne1
      have hpos := c.pos
      simp only [gatherFrom] at hn
      rw [if_pos (by omega)] at hn
      cases hn
  | .gather k =>
    simp only [stepVoter, hpc] at he
    split at he <;> cases he
    simp only [Counted, State.move_self]
    refine fun hn hfresh => h (Or.inl ?_) hfresh
    rcases hn with hn | hn
    · exact hn
    · cases hn
  | .gathered k =>
    simp only [stepVoter, hpc] at he
    cases he
    simp only [Counted, State.move_self]
    have hk : k < n - 1 := by simpa [hpc, VoterPc.gathers] using hspot
    rintro (hn | hn) -
    · omega
    · -- the last announcement has been taken: there are no more than `n - 1`
      have hlast : ¬ k + 1 < n - 1 := by
        intro hlt
        rw [gatherFrom, if_pos hlt] at hn
        cases hn
      have hle := Family.total_le_card_pred (f := s.voter) (c := c) announced2_le
        (by simp [announced2, hpc, VoterPc.waits2])
      rw [hpc] at hS
      simp only [VoterPc.gatherCount, Fintype.card_fin] at hS hle
      omega
  | .absent | .head | .beforeWait1 | .wait1 | .elect | .announce | .measure | .beforeWait2
  | .wait2 | .lock | .append | .unlock | .read _ | .verdict | .close _ | .closed _ | .openPids
  | .notify _ | .release | .loop | .exited => simp [hpc, VoterPc.gathers] at hspot

/-- The candidate comes to the vote with a count of zero. -/
theorem counted_gathering_call {e : Effect n} (h : Counted C (.gathering c) s)
    (hpc : (s.voter c).pc = .call) (he : stepVoter C c s.shared (s.voter c) = some e) :
    Counted C (.voting c) (s.move c e) := by
  simp only [stepVoter, hpc] at he
  cases he
  simp only [Counted, Counting, State.move_self]
  exact h (Or.inr hpc)

/-- More than half, as the code computes it. -/
theorem half_lt_iff (yes : ℕ) : n / 2 < yes ↔ n < 2 * yes := by
  omega

/-- A vote at the end of the file does not change what has been counted. -/
theorem Counting.append {v : Voter n} {votes : List (Vote n)} (h : Counting C c v votes)
    (b : Vote n) : Counting C c v (votes ++ [b]) := by
  unfold Counting at h ⊢
  split at h
  · exact h
  · exact h
  · exact h
  · obtain ⟨hle, hballot, hrest⟩ := h
    refine ⟨?_, ?_, hrest⟩
    · rw [List.length_append]
      exact Nat.le_add_right_of_le hle
    · rw [hballot, List.take_append_of_le_length hle]
  · exact h
  · exact h

/-- After the count nothing of it is needed, but that a single voter that votes No has counted
nothing. -/
theorem counting_closeFrom {v : Voter n} {votes : List (Vote n)} {k : ℕ}
    (hpc : v.pc = closeFrom n k) (h : n = 1 → C.vote c ≠ 1 → v.result = 0) :
    Counting C c v votes := by
  by_cases hk : k < n - 1
  · simp only [Counting, hpc, closeFrom, if_pos hk]
    exact h
  · simp only [Counting, hpc, closeFrom, if_neg hk]
    exact h

/-- A single voter that votes No. -/
theorem yes_eq_zero (hn : n = 1) (hno : C.vote c ≠ 1) : C.yes = 0 := by
  subst hn
  refine Finset.card_eq_zero.mpr (Finset.filter_eq_empty_iff.mpr fun j _ => ?_)
  rwa [Subsingleton.elim j c]

/-- The votes of the others do not change what the candidate has counted. -/
theorem counted_voting_other {e : Effect n} (hp : InPhase mode (.voting c) s)
    (h : Counted C (.voting c) s) (hi : i ≠ c)
    (he : stepVoter C i s.shared (s.voter i) = some e) :
    Counted C (.voting c) (s.move i e) := by
  obtain ⟨-, hspot, -⟩ := (hp.place i).other_voting hi
  change Counting C c ((s.move i e).voter c) (s.move i e).shared.votes
  rw [State.move_of_ne (Ne.symm hi), State.move_shared]
  by_cases hpc : (s.voter i).pc = .append
  · simp only [stepVoter, hpc] at he
    cases he
    exact Counting.append h _
  · rw [votes_stepVoter he (fun htrunc => ?_) hpc]
    · exact h
    · simp [htrunc, VoterPc.votes, VoterPc.returns] at hspot

/-- The candidate votes and counts. -/
theorem counted_voting_candidate {e : Effect n} (hp : InPhase mode (.voting c) s)
    (hfile : Filed C (.voting c) s) (h : Counted C (.voting c) s)
    (hne : (s.voter c).pc ≠ .openPids) (hok : CountsAll C s (.voter c))
    (he : stepVoter C c s.shared (s.voter c) = some e) : Counted C (.voting c) (s.move c e) := by
  have hcount : Counting C c (s.voter c) s.shared.votes := h
  obtain ⟨hcand, -, hspot⟩ := (hp.place c).candidate_voting
  match hpc : (s.voter c).pc with
  | .openPids => exact absurd hpc hne
  | .lock =>
    simp only [stepVoter, hpc] at he
    split at he <;> cases he
    simp only [Counting, hpc] at hcount
    simp only [Counted, Counting, State.move_self]
    exact hcount
  | .append =>
    simp only [stepVoter, hpc] at he
    cases he
    simp only [Counting, hpc] at hcount
    simp only [Counted, Counting, State.move_self]
    exact hcount
  | .unlock =>
    simp only [stepVoter, hpc, if_pos hcand] at he
    cases he
    simp only [Counting, hpc] at hcount
    simp only [Counted, Counting, State.move_self]
    exact ⟨Nat.zero_le _, rfl, rfl, hcount⟩
  | .read p =>
    simp only [stepVoter, hpc] at he
    simp only [Counting, hpc] at hcount
    obtain ⟨-, hballot, hresult, hstart⟩ := hcount
    split at he <;> cases he
    · rename_i b hb
      simp only [Counted, Counting, State.move_self, State.move_shared]
      obtain ⟨hlt, -⟩ := List.getElem?_eq_some_iff.mp hb
      refine ⟨hlt, ?_, ?_, hstart⟩
      · rw [hballot, List.take_add_one, hb]
        rfl
      · rw [yesVotes, List.countP_append, hresult, yesVotes]
        by_cases hyes : b.vote = 1 <;> simp [hyes, Nat.add_assoc]
    · rename_i hend
      simp only [Counted, Counting, State.move_self]
      have hlen : s.shared.votes.length ≤ p := List.getElem?_eq_none_iff.mp hend
      obtain ⟨hall, hlone⟩ := hok (by simpa [hpc, VoterPc.atEnd] using hlen)
      have hperm : (s.voter c).ballot.Perm (List.ofFn C.record) := by
        rw [hballot, List.take_of_length_le hlen]
        exact OnFile.perm hfile hall
      -- several voters read a zero before the call, a single one has its condition
      have hzero : (s.voter c).start = 0 := by
        refine hstart ?_
        by_cases hn : n = 1
        · exact Or.inr (hlone hn)
        · exact Or.inl hn
      refine ⟨hzero, hperm, ?_⟩
      have hyes : (s.voter c).result = C.yes := by
        rw [hresult, hzero, zero_add, yesVotes, hperm.countP_eq, ← yesVotes_ofFn, yesVotes]
      rw [hyes]
      exact half_lt_iff _
  | .verdict =>
    simp only [stepVoter, hpc] at he
    cases he
    simp only [Counting, hpc] at hcount
    simp only [Counted, State.move_self]
    refine counting_closeFrom rfl fun hn hno => ?_
    -- the only vote is No, so the verdict was Rejected
    have hno' := hcount.accepted
    rw [yes_eq_zero hn hno] at hno'
    change (s.voter c).result = 0
    omega
  | .close k =>
    simp only [stepVoter, hpc] at he
    have hk : k < n - 1 := by simpa [hpc, VoterPc.counts] using hspot
    split at he <;> cases he
    simp only [Counted, Counting, State.move_self]
    exact fun hn => by omega
  | .closed k =>
    simp only [stepVoter, hpc] at he
    have hk : k < n - 1 := by simpa [hpc, VoterPc.counts] using hspot
    cases he
    simp only [Counted, State.move_self]
    exact counting_closeFrom rfl fun hn => by omega
  | .absent | .head | .beforeWait1 | .wait1 | .elect | .truncate | .gather _ | .gathered _
  | .call | .announce | .measure | .beforeWait2 | .wait2 | .notify _ | .release | .loop
  | .exited => simp [hpc, VoterPc.counts] at hspot

/-- The round ends with what has been counted. -/
theorem counted_voting_openPids {e : Effect n} (hp : InPhase mode (.voting c) s)
    (h : Counted C (.voting c) s) (hpids : PidsWritten C s) (hpc : (s.voter c).pc = .openPids)
    (he : stepVoter C c s.shared (s.voter c) = some e) :
    Counted C (.closing c) (s.move c e) := by
  have hcount : Counting C c (s.voter c) s.shared.votes := h
  simp only [Counting, hpc] at hcount
  simp only [PidsWritten, hp.global.1] at hpids
  simp only [stepVoter, hpc, hpids] at he
  cases he
  simp only [Counted, State.move_self]
  exact ⟨hcount, by rintro ⟨⟩⟩

/-- The end of the round does not touch the count, and the candidate goes on to its next pass. -/
theorem counted_closing_candidate {e : Effect n} (hp : InPhase mode (.closing c) s)
    (h : Counted C (.closing c) s) (hne : (s.voter c).pc ≠ .elect)
    (he : stepVoter C c s.shared (s.voter c) = some e) :
    Counted C (.closing c) (s.move c e) := by
  obtain ⟨hresult, hround⟩ := h
  obtain ⟨hcand, hspot⟩ := (hp.place c).candidate_closing
  match hpc : (s.voter c).pc with
  | .elect => exact absurd hpc hne
  | .notify [] | .notify (_ :: _) | .release =>
    simp only [stepVoter, hpc] at he
    cases he
    simp only [Counted, State.move_self]
    exact ⟨hresult, by rintro ⟨⟩⟩
  | .loop =>
    simp only [stepVoter, hpc] at he
    cases he
    simp only [Counted, State.move_self]
    exact ⟨hresult, fun _ => Nat.succ_ne_zero _⟩
  | .head =>
    simp only [stepVoter, hpc, hcand, Bool.true_eq_false, if_false] at he
    cases he
    simp only [Counted, State.move_self]
    exact ⟨hresult, fun _ => hround (by rw [hpc]; rfl)⟩
  | .absent | .beforeWait1 | .wait1 | .truncate | .gather _ | .gathered _ | .call | .announce
  | .measure | .beforeWait2 | .wait2 | .lock | .append | .unlock | .read _ | .verdict | .close _
  | .closed _ | .openPids | .exited => simp [hpc, VoterPc.closes, VoterPc.reenters] at hspot

/-- A single voter that is elected again starts afresh only where it votes No. -/
theorem counted_closing_elect {e : Effect n} (hp : InPhase mode (.closing c) s)
    (h : Counted C (.closing c) s) (hpc : (s.voter c).pc = .elect)
    (he : stepVoter C c s.shared (s.voter c) = some e) :
    Counted C (if n = 1 then .gathering c else .blocked c) (s.move c e) := by
  obtain ⟨hresult, hround⟩ := h
  obtain ⟨-, -, hC⟩ := hp.global
  have hfree : s.shared.semC = 1 := by simpa [hpc, VoterPc.closesHolding] using hC
  simp only [stepVoter, hpc, hfree, Nat.lt_one_iff, if_true] at he
  cases he
  by_cases hn : n = 1
  · rw [if_pos hn]
    simp only [Counted, State.move_self]
    -- it has completed a pass, so only a No voter is fresh
    intro _ hfresh
    rcases hfresh with hne | hzero | hno
    · exact absurd hn hne
    · exact absurd hzero (hround (by rw [hpc]; rfl))
    · exact hresult hn hno
  · rw [if_neg hn]
    trivial

/-- A step of another voter at the end of the round. -/
theorem counted_closing_other {e : Effect n} (h : Counted C (.closing c) s) (hi : i ≠ c) :
    Counted C (.closing c) (s.move i e) := by
  simpa only [Counted, State.move_of_ne (Ne.symm hi)] using h

/-- A step of a voter that ends the count only when all votes are in keeps the count right. -/
theorem counted_stepVoter {p : Phase n} {e : Effect n} (hp : InPhase mode p s)
    (hpids : PidsWritten C s) (hfile : Filed C p s) (h : Counted C p s)
    (hok : CountsAll C s (.voter i))
    (he : stepVoter C i s.shared (s.voter i) = some e) :
    Counted C (p.after s (.voter i)) (s.move i e) := by
  match p with
  | .startUp =>
    obtain ⟨-, -, hstart, -⟩ := (hp.place i).spot
    refine counted_beforeElection h ?_ he
    cases hx : (s.voter i).pc <;> simp [hx, VoterPc.starts, VoterPc.beforeElection] at hstart ⊢
  | .election =>
    obtain ⟨-, -, hspot, -⟩ := (hp.place i).spot
    by_cases hpc : (s.voter i).pc = .elect
    · have hC : s.shared.semC = 1 := hp.global.2.1
      simpa only [Phase.after, if_pos hpc] using
        counted_elect (h i) hpc (by rw [hC]; exact Nat.one_pos) he
    · simp only [Phase.after, if_neg hpc]
      refine counted_beforeElection h ?_ he
      cases hx : (s.voter i).pc <;>
        simp [hx, VoterPc.waits1, VoterPc.beforeElection] at hspot ⊢
  | .gathering c =>
    simp only [Phase.after]
    by_cases hi : i = c
    · subst hi
      by_cases hpc : (s.voter i).pc = .call
      · simpa only [hpc, and_self, if_true] using counted_gathering_call h hpc he
      · simpa only [hpc, and_false, if_false] using counted_gathering_candidate hp h hpc he
    · simpa only [hi, false_and, if_false, Counted, State.move_of_ne (Ne.symm hi)] using h
  | .voting c =>
    simp only [Phase.after]
    by_cases hi : i = c
    · subst hi
      by_cases hpc : (s.voter i).pc = .openPids
      · simpa only [hpc, and_self, if_true] using counted_voting_openPids hp h hpids hpc he
      · simpa only [hpc, and_false, if_false] using
          counted_voting_candidate hp hfile h hpc hok he
    · simpa only [hi, false_and, if_false] using counted_voting_other hp h hi he
  | .closing c =>
    simp only [Phase.after]
    by_cases hi : i = c
    · subst hi
      by_cases hpc : (s.voter i).pc = .elect
      · simpa only [hpc, and_self, if_true] using counted_closing_elect hp h hpc he
      · simpa only [hpc, and_false, if_false] using counted_closing_candidate hp h hpc he
    · simpa only [hi, false_and, if_false] using counted_closing_other h hi
  | .blocked c => trivial

/-! ### The other steps -/

/-- A voter that wakes has counted nothing new, and it is not the candidate. -/
theorem counted_wake {p : Phase n} {w : Voter n} (hm : mode ≠ .outside) (hp : InPhase mode p s)
    (h : Counted C p s) (hw : wakeVoter mode (s.voter i) = some w) :
    Counted C p { s with voter := Function.update s.voter i w } := by
  obtain ⟨-, hwake⟩ := wakeVoter_eq_some hm hw
  have hresult : w.result = (s.voter i).result := by
    rcases hwake with ⟨-, rfl⟩ | ⟨-, rfl⟩ <;> rfl
  -- only a waiting voter wakes, and the candidate does not wait
  have hwait : (s.voter i).pc = .wait1 ∨ (s.voter i).pc = .wait2 :=
    hwake.imp And.left And.left
  have hspot := (hp.place i).spot
  match p with
  | .startUp | .election =>
    exact (Function.forall_update_iff s.voter fun _ v => v.result = 0).mpr
      ⟨hresult.trans (h i), fun j _ => h j⟩
  | .gathering c =>
    have hi : i ≠ c := by
      rintro rfl
      rcases hwait with hpc | hpc <;> simp [Spot, hpc, VoterPc.gathers] at hspot
    simpa only [Counted, Function.update_of_ne (Ne.symm hi)] using h
  | .voting c =>
    have hi : i ≠ c := by
      rintro rfl
      rcases hwait with hpc | hpc <;> simp [Spot, hpc, VoterPc.counts] at hspot
    simpa only [Counted, Function.update_of_ne (Ne.symm hi)] using h
  | .closing c =>
    have hi : i ≠ c := by
      rintro rfl
      rcases hwait with hpc | hpc <;>
        simp [Spot, hpc, VoterPc.closes, VoterPc.reenters] at hspot
    simpa only [Counted, Function.update_of_ne (Ne.symm hi)] using h
  | .blocked c => trivial

/-- `main` starts with voters that have counted nothing. -/
theorem counted_stepMain (h : Counted C .startUp s) (ht : stepMain mode C s = some t) :
    Counted C (Phase.startUp.after s .main) t := by
  by_cases hpc : s.main = .launch
  · simp only [stepMain, hpc] at ht
    cases ht
    simp only [Phase.after, hpc, if_true]
    exact counted_deliver (p := .election) h
  · simp only [Phase.after, if_neg hpc]
    intro j
    rcases (stepMain_frame hpc ht).2.2 with ⟨hvoter, -⟩ | ⟨k, -, -, hvoter⟩ <;> rw [hvoter]
    · exact h j
    · exact (Function.forall_update_iff s.voter fun _ v => v.result = 0).mpr
        ⟨rfl, fun j _ => h j⟩ j

/-- Every step that ends the count only when all votes are in keeps the count right. -/
theorem counted_next {p : Phase n} {a : Action n} (hm : mode ≠ .outside)
    (hs : (system mode C).Reachable s) (hp : InPhase mode p s) (hfile : Filed C p s)
    (h : Counted C p s) (hok : CountsAll C s a) (ht : next mode C s a = some t) :
    Counted C (p.after s a) t := by
  obtain ⟨rfl, rfl, ht⟩ | ⟨i, e, rfl, he, rfl⟩ | ⟨i, w, rfl, hw, rfl⟩ := hp.next_cases hm ht
  · exact counted_stepMain h ht
  · exact counted_deliver (counted_stepVoter hp (masked_reachable hs).2 hfile h hok he)
  · exact counted_wake hm hp h hw

/-- Only a candidate in the vote comes to the verdict. -/
theorem InPhase.voting_of_verdict {p : Phase n} (h : InPhase mode p s)
    (hpc : (s.voter i).pc = .verdict) : p = .voting i := by
  have hspot := (h.place i).spot
  match p with
  | .startUp | .election => simp [Spot, hpc, VoterPc.starts, VoterPc.waits1] at hspot
  | .gathering c =>
    by_cases hi : i = c
    · simp [Spot, hi, hi ▸ hpc, VoterPc.gathers] at hspot
    · simp [Spot, hi, hpc, VoterPc.follows] at hspot
  | .voting c =>
    by_cases hi : i = c
    · rw [hi]
    · simp [Spot, hi, hpc, VoterPc.votes, VoterPc.returns] at hspot
  | .closing c | .blocked c =>
    by_cases hi : i = c
    · simp [Spot, hi, hi ▸ hpc, VoterPc.closes, VoterPc.reenters] at hspot
    · simp [Spot, hi, hpc, VoterPc.waits1] at hspot

/-- **The verdict is the vote** in a run in which the candidate ends its count when all votes are
in. -/
theorem tallyCorrect_reachableBy (hm : mode ≠ .outside)
    (h : (system mode C).ReachableBy (CountsAll C) s) : TallyCorrect C s := by
  obtain ⟨p, hp, -, hcount⟩ := phase_induct (I := fun p s => Filed C p s ∧ Counted C p s) hm h
    (fun _ _ => ⟨trivial, fun _ => rfl⟩) fun _ _ _ _ hs hp h hok ht =>
      ⟨filed_next hm hp h.1 ht, counted_next hm hs hp h.1 h.2 hok ht⟩
  intro i hpc
  obtain rfl := hp.voting_of_verdict hpc
  simpa only [Counted, Counting, hpc] using hcount

/-- An instance: two voters that vote Yes, and a candidate that waits for both votes. -/
theorem tallyCorrect_two_voters :
    ∃ s : State 2, (s.voter 0).pc = .verdict ∧ (s.voter 0).result = 2 ∧
      TallyCorrect (Census.consecutive 2 3 (by decide)) s := by
  let C := Census.consecutive 2 3 (by decide)
  have hinit : (system .posix C).ReachableBy (CountsAll C) (initial [] none) :=
    .init ⟨_, _, rfl⟩
  let vote : List (Action 2) := List.replicate 3 (.voter 0) ++ [.wake 1] ++
    List.replicate 3 (.voter 1) ++ List.replicate 3 (.voter 0)
  obtain ⟨s, hs, hend⟩ : ∃ s, (system .posix C).runBy (CountsAll C) (initial [] none)
      (runToCall ++ vote) = some s ∧ ((s.voter 0).pc, (s.voter 0).result) = (.verdict, 2) :=
    Option.map_eq_some_iff.mp (by decide +kernel)
  simp only [Prod.mk.injEq] at hend
  exact ⟨s, hend.1, hend.2,
    tallyCorrect_reachableBy (show Mode.posix ≠ .outside by decide) (hinit.runBy hs)⟩

/-- Two voters that both vote Yes: the candidate reaches the end of the file before the other has
voted, and rejects. -/
theorem not_tallyCorrect_two_voters :
    ¬ ∀ n, 1 ≤ n → n ≤ 100 → ∀ (C : Census n) (s : State n), (system .posix C).Reachable s →
      TallyCorrect C s := by
  intro hall
  let C := Census.consecutive 2 3 (by decide)
  have hinit : (system .posix C).Reachable (initial [] none) := .init ⟨_, _, rfl⟩
  obtain ⟨s, hs, hend⟩ : ∃ s, (system .posix C).run (initial [] none)
      (runToCall ++ List.replicate 5 (.voter 0)) = some s ∧
        ((s.voter 0).pc, (s.voter 0).result) = (.verdict, 1) :=
    Option.map_eq_some_iff.mp (by decide +kernel)
  simp only [Prod.mk.injEq] at hend
  have hyes : C.yes = 2 := by decide
  have hacc := (hall 2 (by decide) (by decide) C s (hinit.run hs) 0 hend.1).accepted
  rw [hend.2, hyes] at hacc
  omega

end Soper.Voting
