import Soper.Voting.Tally

/-!
# What an acceptance is worth

The candidate may reach the end of `votes.bin` before the others have voted, so its verdict need
not be the vote (`TallyCorrect`). The error has one direction. In every run without signals from
outside, the letters that the candidate prints are votes of different voters, each the vote of its
voter. With several voters it prints `Accepted` exactly where the letters `Y` printed are more than
half of all voters, not of the letters: one vote of two, a `Y`, is a rejection. So `Accepted` is
only printed where more than half of the voters vote Yes (`acceptance_reachable`), and what may be
wrong is a rejection.
-/

namespace Soper.Voting

variable {n : ℕ} {mode : Mode} {C : Census n} {s t : State n} {i c : Fin n}

/-! ### What the candidate prints -/

/-- The letters printed are the front of the file, and the count is theirs, over what it started
from. -/
structure Printed (C : Census n) (i : Fin n) (v : Voter n) (votes : List (Vote n)) : Prop where
  ballot : v.ballot <+: votes
  result : v.result = v.start + yesVotes v.ballot
  start : Fresh C i v → v.start = 0

/-- A candidate at its verdict has printed the front of the file; where there is none, the count
is what the phase says. -/
def Vouched (C : Census n) (p : Phase n) (s : State n) : Prop :=
  (∀ i, (s.voter i).pc = .verdict → Printed C i (s.voter i) s.shared.votes) ∧
    ((∀ i, (s.voter i).pc ≠ .verdict) → Counted C p s)

/-- What is printed stays on the file when others vote. -/
theorem Printed.congr {v w : Voter n} {votes votes' : List (Vote n)} (h : Printed C i v votes)
    (hvotes : votes <+: votes') (hresult : w.result = v.result) (hround : w.round = v.round)
    (hstart : w.start = v.start) (hballot : w.ballot = v.ballot) : Printed C i w votes' where
  ballot := by
    rw [hballot]
    exact h.ballot.trans hvotes
  result := by
    rw [hresult, hstart, hballot]
    exact h.result
  start := by
    intro hfresh
    rw [Fresh, hround] at hfresh
    rw [hstart]
    exact h.start hfresh

/-- The letters printed are votes of different voters, each the vote of its voter. -/
theorem Printed.subperm {v : Voter n} {votes : List (Vote n)} {voter : Fin n → Voter n}
    (h : Printed C i v votes) (hfile : OnFile C votes voter) :
    v.ballot.Subperm (List.ofFn C.record) :=
  h.ballot.sublist.subperm.trans hfile.subperm

/-- A single voter that votes No has printed no `Y`, so it has counted nothing. -/
theorem Printed.result_eq_zero {v : Voter n} {votes : List (Vote n)} {voter : Fin n → Voter n}
    (h : Printed C i v votes) (hfile : OnFile C votes voter) (hn : n = 1) (hno : C.vote i ≠ 1) :
    v.result = 0 := by
  have hyes : yesVotes v.ballot ≤ yesVotes (List.ofFn C.record) :=
    (h.subperm hfile).countP_le _
  rw [yesVotes_ofFn, yes_eq_zero hn hno] at hyes
  rw [h.result, h.start (Or.inr (Or.inr hno)), Nat.le_zero.mp hyes]

/-! ### Steps to and from a verdict -/

/-- A voter comes to the verdict from the end of the file, and changes nothing on the way. -/
theorem verdict_stepVoter {sh : Shared n} {v : Voter n} {e : Effect n}
    (he : stepVoter C i sh v = some e) (hpc : e.voter.pc = .verdict) :
    v.pc.atEnd sh.votes = true ∧ e.shared = sh ∧ e.voter = { v with pc := .verdict } := by
  simp only [stepVoter] at he
  split at he <;> (try split at he) <;> cases he <;>
    first
    | (simp_all [VoterPc.atEnd]; done)
    | (unfold gatherFrom at hpc; split at hpc <;> cases hpc)
    | (unfold closeFrom at hpc; split at hpc <;> cases hpc)

/-- At the end of the file the next stop is the verdict. -/
theorem stepVoter_atEnd {sh : Shared n} {v : Voter n} {e : Effect n}
    (hend : v.pc.atEnd sh.votes = true) (he : stepVoter C i sh v = some e) :
    e.voter.pc = .verdict := by
  cases hpc : v.pc with
  | read p =>
    have hlen : sh.votes[p]? = none := by
      rw [List.getElem?_eq_none_iff]
      simpa [hpc, VoterPc.atEnd] using hend
    simp only [stepVoter, hpc, hlen] at he
    cases he
    rfl
  | _ => simp [hpc, VoterPc.atEnd] at hend

/-- Only a candidate in the vote comes to the end of the file. -/
theorem InPhase.voting_of_atEnd {p : Phase n} {votes : List (Vote n)} (h : InPhase mode p s)
    (hend : (s.voter i).pc.atEnd votes = true) : p = .voting i := by
  obtain ⟨q, hpc⟩ : ∃ q, (s.voter i).pc = .read q := by
    cases hpc : (s.voter i).pc with
    | read q => exact ⟨q, rfl⟩
    | _ => simp [hpc, VoterPc.atEnd] at hend
  have hspot := (h.place i).spot
  cases p with
  | startUp | election => simp [Spot, hpc, VoterPc.starts, VoterPc.waits1] at hspot
  | gathering c =>
    by_cases hi : i = c
    · simp [Spot, hi, hi ▸ hpc, VoterPc.gathers] at hspot
    · simp [Spot, hi, hpc, VoterPc.follows] at hspot
  | voting c =>
    by_cases hi : i = c
    · rw [hi]
    · simp [Spot, hi, hpc, VoterPc.votes, VoterPc.returns] at hspot
  | closing c | blocked c =>
    by_cases hi : i = c
    · simp [Spot, hi, hi ▸ hpc, VoterPc.closes, VoterPc.reenters] at hspot
    · simp [Spot, hi, hpc, VoterPc.waits1] at hspot

/-- In the vote the others only add to the file. -/
theorem votes_voting_other {e : Effect n} (hp : InPhase mode (.voting c) s) (hi : i ≠ c)
    (he : stepVoter C i s.shared (s.voter i) = some e) :
    s.shared.votes <+: e.shared.votes := by
  obtain ⟨-, hspot, -⟩ := (hp.place i).other_voting hi
  by_cases hpc : (s.voter i).pc = .append
  · simp only [stepVoter, hpc] at he
    cases he
    exact List.prefix_append _ _
  · rw [votes_stepVoter he (fun htrunc => ?_) hpc]
    simp [htrunc, VoterPc.votes, VoterPc.returns] at hspot

/-- A step of a voter, as the others see it: the file is the one it leaves, and a voter that does
not move stands where it stood, with the same count. -/
theorem count_applyEffect (mode : Mode) (C : Census n) (s : State n) (e : Effect n) (k j : Fin n) :
    (applyEffect mode C k s e).shared = e.shared ∧
      ((applyEffect mode C k s e).voter j).pc = ((s.move k e).voter j).pc ∧
      ((applyEffect mode C k s e).voter j).result = ((s.move k e).voter j).result ∧
      ((applyEffect mode C k s e).voter j).round = ((s.move k e).voter j).round ∧
      ((applyEffect mode C k s e).voter j).start = ((s.move k e).voter j).start ∧
      ((applyEffect mode C k s e).voter j).ballot = ((s.move k e).voter j).ballot := by
  obtain ⟨hsh, -, hvoter⟩ := deliver_frame mode C (some k) (s.move k e) e.emission
  obtain ⟨w, hw, rfl | ⟨sig, rfl⟩⟩ := hvoter j
  · exact ⟨hsh, congrArg _ hw, congrArg _ hw, congrArg _ hw, congrArg _ hw, congrArg _ hw⟩
  · refine ⟨hsh, ?_, ?_, ?_, ?_, ?_⟩
    · exact (congrArg Voter.pc hw).trans (receive_pc ..)
    · exact (congrArg Voter.result hw).trans (receive_result ..)
    · exact (congrArg Voter.round hw).trans (receive_round ..)
    · exact (congrArg Voter.start hw).trans (receive_start ..)
    · exact (congrArg Voter.ballot hw).trans (receive_ballot ..)

/-- **Where a verdict comes from.** A voter at its verdict was there before or has just found the
end of the file. Either way it prints what it had counted, and the file has only grown. -/
theorem verdict_next {p : Phase n} {a : Action n} (hm : mode ≠ .outside) (hp : InPhase mode p s)
    (hp' : InPhase mode (p.after s a) t) (ht : next mode C s a = some t)
    (hpc : (t.voter i).pc = .verdict) :
    ((s.voter i).pc = .verdict ∨ (s.voter i).pc.atEnd s.shared.votes = true) ∧
      s.shared.votes <+: t.shared.votes ∧ (t.voter i).result = (s.voter i).result ∧
      (t.voter i).round = (s.voter i).round ∧ (t.voter i).start = (s.voter i).start ∧
      (t.voter i).ballot = (s.voter i).ballot := by
  obtain ⟨rfl, rfl, -⟩ | ⟨k, e, rfl, he, rfl⟩ | ⟨k, w, rfl, hw, rfl⟩ := hp.next_cases hm ht
  · -- nobody votes during the start-up
    have hphase := hp'.voting_of_verdict hpc
    rw [Phase.after] at hphase
    split at hphase <;> cases hphase
  · obtain ⟨hsh, hpc', hresult, hround, hstart, hballot⟩ := count_applyEffect mode C s e k i
    rw [hpc'] at hpc
    rw [hsh, hresult, hround, hstart, hballot]
    by_cases hk : i = k
    · subst hk
      rw [State.move_self] at hpc ⊢
      obtain ⟨hend, hsame, hvoter⟩ := verdict_stepVoter he hpc
      rw [hsame, hvoter]
      exact ⟨Or.inr hend, List.prefix_rfl, rfl, rfl, rfl, rfl⟩
    · rw [State.move_of_ne hk] at hpc ⊢
      obtain rfl := hp.voting_of_verdict hpc
      exact ⟨Or.inl hpc, votes_voting_other hp (Ne.symm hk) he, rfl, rfl, rfl, rfl⟩
  · obtain ⟨-, hwake⟩ := wakeVoter_eq_some hm hw
    dsimp only at hpc ⊢
    by_cases hk : i = k
    · subst hk
      rw [Function.update_self] at hpc
      rcases hwake with ⟨-, rfl⟩ | ⟨-, rfl⟩ <;> cases hpc
    · rw [Function.update_of_ne hk] at hpc ⊢
      exact ⟨Or.inl hpc, List.prefix_rfl, rfl, rfl, rfl, rfl⟩

/-- A candidate leaves its verdict by a step of its own. -/
theorem eq_voter_of_verdict {p : Phase n} {a : Action n} (hm : mode ≠ .outside)
    (hp : InPhase mode p s) (ht : next mode C s a = some t) (hpc : (s.voter c).pc = .verdict)
    (hno : (t.voter c).pc ≠ .verdict) : a = .voter c := by
  obtain rfl := hp.voting_of_verdict hpc
  obtain ⟨-, hstart, -⟩ | ⟨k, e, rfl, -, rfl⟩ | ⟨k, w, rfl, hw, rfl⟩ := hp.next_cases hm ht
  · cases hstart
  · by_contra hk
    have hne : c ≠ k := by
      rintro rfl
      exact hk rfl
    obtain ⟨-, hpc', -⟩ := count_applyEffect mode C s e k c
    rw [State.move_of_ne hne, hpc] at hpc'
    exact hno hpc'
  · obtain ⟨-, hwake⟩ := wakeVoter_eq_some hm hw
    have hne : c ≠ k := by
      rintro rfl
      rw [hpc] at hwake
      rcases hwake with ⟨hwait, -⟩ | ⟨hwait, -⟩ <;> cases hwait
    dsimp only at hno
    rw [Function.update_of_ne hne] at hno
    exact absurd hpc hno

/-! ### The run -/

/-- What a candidate has counted when it leaves its verdict. -/
theorem counted_of_verdict {e : Effect n} (hfile : Filed C (.voting c) s)
    (h : Printed C c (s.voter c) s.shared.votes)
    (hpc : (s.voter c).pc = .verdict) (he : stepVoter C c s.shared (s.voter c) = some e) :
    Counted C (.voting c) (applyEffect mode C c s e) := by
  refine counted_deliver (s := s.move c e) (p := .voting c) ?_
  simp only [stepVoter, hpc] at he
  cases he
  simp only [Counted, State.move_self]
  refine counting_closeFrom rfl ?_
  intro hn hno
  exact h.result_eq_zero hfile hn hno

/-- Every step keeps what the verdicts say, whenever the candidate ends its count. -/
theorem vouched_next {p : Phase n} {a : Action n} (hm : mode ≠ .outside)
    (hs : (system mode C).Reachable s) (hp : InPhase mode p s) (hfile : Filed C p s)
    (h : Vouched C p s) (ht : next mode C s a = some t) : Vouched C (p.after s a) t := by
  obtain ⟨hmask, hpids⟩ := masked_reachable hs
  have hp' := inPhase_next hm hmask hpids hp ht
  constructor
  · intro i hpc
    obtain ⟨hfrom, hvotes, hresult, hround, hstart, hballot⟩ := verdict_next hm hp hp' ht hpc
    refine Printed.congr ?_ hvotes hresult hround hstart hballot
    rcases hfrom with hpc | hend
    · exact h.1 i hpc
    · -- the count of the phase ends here
      obtain rfl := hp.voting_of_atEnd hend
      have hcount : Counting C i (s.voter i) s.shared.votes := by
        refine h.2 fun j hj => ?_
        have hphase := hp.voting_of_verdict hj
        cases hphase
        rw [hj] at hend
        cases hend
      cases hread : (s.voter i).pc with
      | read q =>
        simp only [Counting, hread] at hcount
        obtain ⟨-, htake, hsum, hfresh⟩ := hcount
        exact ⟨htake ▸ List.take_prefix _ _, hsum, hfresh⟩
      | _ => simp [hread, VoterPc.atEnd] at hend
  · intro hno
    by_cases hverdict : ∃ c, (s.voter c).pc = .verdict
    · obtain ⟨c, hpc⟩ := hverdict
      obtain rfl := eq_voter_of_verdict hm hp ht hpc (hno c)
      obtain rfl := hp.voting_of_verdict hpc
      obtain ⟨e, he, rfl⟩ := Option.map_eq_some_iff.mp ht
      have hafter : Phase.after (.voting c) s (.voter c) = .voting c :=
        if_neg fun hopen => by cases hpc.symm.trans hopen.2
      rw [hafter]
      exact counted_of_verdict hfile (h.1 c hpc) hpc he
    · -- no count ends with this step
      refine counted_next hm hs hp hfile (h.2 (not_exists.mp hverdict)) ?_ ht
      cases a with
      | voter i =>
        intro hend
        obtain ⟨e, he, rfl⟩ := Option.map_eq_some_iff.mp ht
        obtain ⟨-, hpc, -⟩ := count_applyEffect mode C s e i i
        rw [State.move_self, stepVoter_atEnd hend he] at hpc
        exact absurd hpc (hno i)
      | _ => trivial

/-- **An acceptance is right**, in every run without signals from outside: the letters printed are
votes of different voters, with several voters the verdict is `Accepted` exactly where the letters
`Y` printed are more than half of all voters, and `Accepted` means that more than half of all
voters vote Yes. -/
theorem acceptance_reachable (hm : mode ≠ .outside) (h : (system mode C).Reachable s)
    (hpc : (s.voter i).pc = .verdict) :
    (s.voter i).ballot.Subperm (List.ofFn C.record) ∧
      (n ≠ 1 → (n / 2 < (s.voter i).result ↔ n < 2 * yesVotes (s.voter i).ballot)) ∧
      (n / 2 < (s.voter i).result → n < 2 * C.yes) := by
  obtain ⟨p, hp, hfile, hvouched⟩ :=
    phase_induct (I := fun p s => Filed C p s ∧ Vouched C p s) hm h
      (fun _ _ => ⟨trivial, fun _ hpc => (by cases hpc), fun _ _ => rfl⟩)
      fun _ _ _ _ hs hp h _ ht => ⟨filed_next hm hp h.1 ht, vouched_next hm hs hp h.1 h.2 ht⟩
  obtain rfl := hp.voting_of_verdict hpc
  have hprinted := hvouched.1 i hpc
  have hsub : (s.voter i).ballot.Subperm (List.ofFn C.record) := hprinted.subperm hfile
  have hle : yesVotes (s.voter i).ballot ≤ C.yes := by
    rw [← yesVotes_ofFn]
    exact hsub.countP_le _
  have hmajority : n ≠ 1 →
      (n / 2 < (s.voter i).result ↔ n < 2 * yesVotes (s.voter i).ballot) := by
    intro hn
    rw [hprinted.result, hprinted.start (Or.inl hn), zero_add]
    exact half_lt_iff _
  refine ⟨hsub, hmajority, fun hacc => ?_⟩
  by_cases hn : n = 1
  · by_cases hyes : C.vote i = 1
    · have hpos : 0 < C.yes :=
        Finset.card_pos.mpr ⟨i, Finset.mem_filter.mpr ⟨Finset.mem_univ i, hyes⟩⟩
      omega
    · rw [hprinted.result_eq_zero hfile hn hyes] at hacc
      omega
  · have hyes := (hmajority hn).mp hacc
    omega

/-- An instance: two voters that vote Yes, and the letters of both. -/
theorem acceptance_two_voters :
    ∃ s : State 2, (s.voter 0).pc = .verdict ∧ (s.voter 0).result = 2 ∧
      (s.voter 0).ballot.Subperm (List.ofFn (Census.consecutive 2 3 (by decide)).record) ∧
      2 < 2 * (Census.consecutive 2 3 (by decide)).yes := by
  let C := Census.consecutive 2 3 (by decide)
  have hinit : (system .posix C).Reachable (initial [] none) := .init ⟨_, _, rfl⟩
  let vote : List (Action 2) := List.replicate 3 (.voter 0) ++ [.wake 1] ++
    List.replicate 3 (.voter 1) ++ List.replicate 3 (.voter 0)
  obtain ⟨s, hs, hend⟩ : ∃ s, (system .posix C).run (initial [] none) (runToCall ++ vote) = some s ∧
      ((s.voter 0).pc, (s.voter 0).result) = (.verdict, 2) :=
    Option.map_eq_some_iff.mp (by decide +kernel)
  simp only [Prod.mk.injEq] at hend
  obtain ⟨hsub, -, hacc⟩ := acceptance_reachable (show Mode.posix ≠ .outside by decide)
    (hinit.run hs) hend.1
  exact ⟨s, hend.1, hend.2, hsub, hacc (by rw [hend.2]; decide)⟩

end Soper.Voting
