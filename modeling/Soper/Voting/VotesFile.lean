import Soper.Voting.Reach

/-!
# The votes file

The candidate empties `votes.bin` before it gathers the others, and from its call to the end of
the count each voter appends one record. So in every run without signals from outside the file
holds, during the vote, one record of each voter that has voted and no others (`OnFile`,
`filed_next`). Whether the candidate waits for all of them before it counts is another matter.
-/

namespace Soper.Voting

variable {n : ℕ} {mode : Mode} {C : Census n} {s t : State n} {i c : Fin n}

/-- What a voter writes into `votes.bin`. -/
def Census.record (C : Census n) (i : Fin n) : Vote n := ⟨i, C.vote i⟩

/-- The voter has not yet appended its vote of the round. -/
def VoterPc.toVote : VoterPc → Bool
  | .measure | .beforeWait2 | .wait2 | .lock | .append => true
  | _ => false

theorem record_injective (C : Census n) : Function.Injective C.record :=
  fun _ _ h => congrArg Vote.voter h

/-- A file with one record of each voter, and no others, is a permutation of all votes. -/
theorem perm_ofFn_of_count {votes : List (Vote n)} (hone : ∀ j, votes.count (C.record j) = 1)
    (hall : ∀ b ∈ votes, ∃ j, b = C.record j) : votes.Perm (List.ofFn C.record) := by
  -- both lists have each record as often
  refine List.perm_iff_count.mpr fun b => ?_
  have hnodup : (List.ofFn C.record).Nodup := List.nodup_ofFn_ofInjective (record_injective C)
  by_cases hb : ∃ j, b = C.record j
  · obtain ⟨j, rfl⟩ := hb
    rw [hone j, List.count_eq_one_of_mem hnodup (List.mem_ofFn.mpr ⟨j, rfl⟩)]
  · rw [List.count_eq_zero.mpr fun hm => hb (hall b hm), List.count_eq_zero.mpr fun hm => ?_]
    obtain ⟨j, hj⟩ := List.mem_ofFn.mp hm
    exact hb ⟨j, hj.symm⟩

/-- The file holds one record of each voter that has voted, and no others. -/
structure OnFile (C : Census n) (votes : List (Vote n)) (voter : Fin n → Voter n) : Prop where
  count : ∀ j, votes.count (C.record j) = (!(voter j).pc.toVote).toNat
  mem : ∀ b ∈ votes, ∃ j, b = C.record j

/-- The file in each phase. -/
def Filed (C : Census n) (p : Phase n) (s : State n) : Prop :=
  match p with
  | .gathering c => (s.voter c).pc ≠ .truncate → s.shared.votes = []
  | .voting _ => OnFile C s.shared.votes s.voter
  | .startUp | .election | .closing _ | .blocked _ => True

/-! ### The file along a step -/

/-- The state after a step of a voter, before its signals are delivered. -/
def State.move (s : State n) (i : Fin n) (e : Effect n) : State n :=
  { s with shared := e.shared, voter := Function.update s.voter i e.voter }

@[simp]
theorem State.move_shared {e : Effect n} : (s.move i e).shared = e.shared := rfl

@[simp]
theorem State.move_self {e : Effect n} : (s.move i e).voter i = e.voter := Function.update_self ..

theorem State.move_of_ne {e : Effect n} {j : Fin n} (hj : j ≠ i) :
    (s.move i e).voter j = s.voter j := Function.update_of_ne hj ..

/-- Only the truncation and the append change the file. -/
theorem votes_stepVoter {sh : Shared n} {v : Voter n} {e : Effect n}
    (he : stepVoter C i sh v = some e) (htrunc : v.pc ≠ .truncate) (happ : v.pc ≠ .append) :
    e.shared.votes = sh.votes := by
  simp only [stepVoter] at he
  split at he <;> (try split at he) <;> cases he <;> first | rfl | contradiction

theorem toVote_gatherFrom (k : ℕ) : (gatherFrom n k).toVote = false := by
  unfold gatherFrom
  split <;> rfl

theorem toVote_closeFrom (k : ℕ) : (closeFrom n k).toVote = false := by
  unfold closeFrom
  split <;> rfl

/-- A voter has its vote before it from its announcement or its call on, and behind it from the
append on. -/
theorem toVote_stepVoter {sh : Shared n} {v : Voter n} {e : Effect n}
    (he : stepVoter C i sh v = some e) (hann : v.pc ≠ .announce) (hcall : v.pc ≠ .call)
    (happ : v.pc ≠ .append) : e.voter.pc.toVote = v.pc.toVote := by
  simp only [stepVoter] at he
  split at he <;> (try split at he) <;> cases he <;>
    first
    | (simp_all [VoterPc.toVote]; done)
    | (simp only [toVote_gatherFrom, *]; rfl)
    | (simp only [toVote_closeFrom, *]; rfl)

/-- A voter that moves without voting leaves the file as it should be. -/
theorem OnFile.move {e : Effect n} (h : OnFile C s.shared.votes s.voter)
    (hfile : e.shared.votes = s.shared.votes)
    (hvote : e.voter.pc.toVote = (s.voter i).pc.toVote) :
    OnFile C (s.move i e).shared.votes (s.move i e).voter := by
  refine ⟨fun j => ?_, ?_⟩
  · rw [State.move_shared, hfile, h.count j]
    by_cases hj : j = i
    · subst hj
      rw [State.move_self, hvote]
    · rw [State.move_of_ne hj]
  · rw [State.move_shared, hfile]
    exact h.mem

/-- A voter that votes adds its record. -/
theorem OnFile.append {e : Effect n} (h : OnFile C s.shared.votes s.voter)
    (hpc : (s.voter i).pc = .append) (he : stepVoter C i s.shared (s.voter i) = some e) :
    OnFile C (s.move i e).shared.votes (s.move i e).voter := by
  simp only [stepVoter, hpc] at he
  cases he
  refine ⟨fun j => ?_, ?_⟩
  · rw [State.move_shared, List.count_append, h.count j]
    by_cases hj : j = i
    · subst hj
      simp [hpc, VoterPc.toVote, Census.record]
    · have hne : C.record i ≠ C.record j := fun hx => hj (record_injective C hx).symm
      rw [State.move_of_ne hj, List.count_singleton]
      simpa [Census.record] using hne
  · rw [State.move_shared]
    exact List.forall_mem_append.mpr ⟨h.mem, List.forall_mem_singleton.mpr ⟨i, rfl⟩⟩

/-- Where every voter has voted, the file is one vote of each. -/
theorem OnFile.perm {votes : List (Vote n)} {voter : Fin n → Voter n} (h : OnFile C votes voter)
    (hall : ∀ j, (voter j).pc.toVote = false) : votes.Perm (List.ofFn C.record) := by
  refine perm_ofFn_of_count (fun j => ?_) h.mem
  rw [h.count j, hall j]
  rfl

/-- The records of the file are votes of different voters. -/
theorem OnFile.subperm {votes : List (Vote n)} {voter : Fin n → Voter n}
    (h : OnFile C votes voter) : votes.Subperm (List.ofFn C.record) := by
  have hnodup : votes.Nodup := by
    refine List.nodup_iff_count_le_one.mpr fun b => ?_
    by_cases hb : b ∈ votes
    · obtain ⟨j, rfl⟩ := h.mem b hb
      rw [h.count j]
      exact Bool.toNat_le _
    · rw [List.count_eq_zero.mpr hb]
      exact Nat.zero_le 1
  have hsub : votes ⊆ List.ofFn C.record := fun b hb => by
    obtain ⟨j, rfl⟩ := h.mem b hb
    exact List.mem_ofFn.mpr ⟨j, rfl⟩
  exact List.subperm_of_subset hnodup hsub

/-- A file with one record of each voter is no longer than the number of voters. -/
theorem OnFile.length_le {votes : List (Vote n)} {voter : Fin n → Voter n}
    (h : OnFile C votes voter) : votes.length ≤ n := by
  simpa using h.subperm.length_le

/-- The signals of a step do not touch the file, nor what the voters have written. -/
theorem filed_deliver {p : Phase n} {em : Emission} {origin : Option (Fin n)}
    (h : Filed C p s) : Filed C p (deliver mode C origin s em) := by
  obtain ⟨hsh, -, hvoter⟩ := deliver_frame mode C origin s em
  have hpc : ∀ j, ((deliver mode C origin s em).voter j).pc = (s.voter j).pc := by
    intro j
    obtain ⟨w, hw, rfl | ⟨sig, rfl⟩⟩ := hvoter j <;> rw [hw]
    exact receive_pc ..
  match p with
  | .gathering c => simpa only [Filed, hsh, hpc] using h
  | .voting c =>
    refine ⟨fun j => ?_, ?_⟩
    · rw [hsh, hpc]
      exact h.count j
    · rw [hsh]
      exact h.mem
  | .startUp | .election | .closing _ | .blocked _ => trivial

/-- While the candidate gathers the others the file stays empty. -/
theorem filed_gathering {e : Effect n} (hp : InPhase mode (.gathering c) s)
    (h : Filed C (.gathering c) s) (he : stepVoter C i s.shared (s.voter i) = some e) :
    Filed C (.gathering c) (s.move i e) := by
  by_cases hi : i = c
  · subst hi
    by_cases htrunc : (s.voter i).pc = .truncate
    · simp only [stepVoter, htrunc] at he
      cases he
      exact fun _ => rfl
    · obtain ⟨-, -, hspot⟩ := (hp.place i).candidate_gathering
      intro _
      rw [State.move_shared, votes_stepVoter he htrunc fun happ => ?_]
      · exact h htrunc
      · simp [happ, VoterPc.gathers] at hspot
  · obtain ⟨-, -, hfollows, -, -⟩ := (hp.place i).other_gathering hi
    intro htrunc
    rw [State.move_of_ne (Ne.symm hi)] at htrunc
    rw [State.move_shared, votes_stepVoter he (fun hx => ?_) fun hx => ?_]
    · exact h htrunc
    · simp [hx, VoterPc.follows] at hfollows
    · simp [hx, VoterPc.follows] at hfollows

/-- The call opens the vote on an empty file: nobody has voted. -/
theorem filed_call {e : Effect n} (hp : InPhase mode (.gathering c) s)
    (h : Filed C (.gathering c) s) (hpc : (s.voter c).pc = .call)
    (he : stepVoter C c s.shared (s.voter c) = some e) : Filed C (.voting c) (s.move c e) := by
  obtain ⟨-, hall⟩ := hp.all_waits2 hpc
  have hempty : s.shared.votes = [] := h (by rw [hpc]; nofun)
  simp only [stepVoter, hpc] at he
  cases he
  refine ⟨fun j => ?_, ?_⟩
  · by_cases hj : j = c
    · subst hj
      simp [hempty, VoterPc.toVote]
    · have hw := hall j hj
      simp only [State.move_of_ne hj, State.move_shared, hempty]
      cases hx : (s.voter j).pc <;> simp [hx, VoterPc.waits2, VoterPc.toVote] at hw ⊢
  · simp [hempty]

/-- In the vote each voter appends its record, and nobody empties the file. -/
theorem filed_voting {e : Effect n} (hp : InPhase mode (.voting c) s)
    (h : Filed C (.voting c) s) (he : stepVoter C i s.shared (s.voter i) = some e) :
    Filed C (.voting c) (s.move i e) := by
  have hspot : (s.voter i).pc ≠ .truncate ∧ (s.voter i).pc ≠ .announce ∧
      (s.voter i).pc ≠ .call := by
    have hspot := (hp.place i).spot
    by_cases hi : i = c
    · refine ⟨fun hx => ?_, fun hx => ?_, fun hx => ?_⟩ <;>
        simp [Spot, hi, hi ▸ hx, VoterPc.counts] at hspot
    · refine ⟨fun hx => ?_, fun hx => ?_, fun hx => ?_⟩ <;>
        simp [Spot, hi, hx, VoterPc.votes, VoterPc.returns] at hspot
  obtain ⟨htrunc, hann, hcall⟩ := hspot
  -- only the append adds to the file, and it puts the vote of the voter behind it
  by_cases happ : (s.voter i).pc = .append
  · exact OnFile.append h happ he
  · exact OnFile.move h (votes_stepVoter he htrunc happ) (toVote_stepVoter he hann hcall happ)

/-- A step of a voter keeps the file as the phase says. -/
theorem filed_stepVoter {p : Phase n} {e : Effect n} (hp : InPhase mode p s) (h : Filed C p s)
    (he : stepVoter C i s.shared (s.voter i) = some e) :
    Filed C (p.after s (.voter i)) (s.move i e) := by
  match p with
  | .startUp | .blocked _ => trivial
  | .election =>
    simp only [Phase.after]
    split
    · rename_i hpc
      obtain ⟨-, hC, -⟩ := hp.global
      simp only [stepVoter, hpc, hC, Nat.lt_one_iff, if_true] at he
      cases he
      -- the new candidate is about to truncate the file
      intro hne
      rw [State.move_self] at hne
      exact absurd rfl hne
    · trivial
  | .gathering c =>
    simp only [Phase.after]
    split
    · rename_i hi
      obtain ⟨rfl, hpc⟩ := hi
      exact filed_call hp h hpc he
    · exact filed_gathering hp h he
  | .voting c =>
    simp only [Phase.after]
    split
    · trivial
    · exact filed_voting hp h he
  | .closing c =>
    simp only [Phase.after]
    split
    · rename_i hi
      obtain ⟨rfl, hpc⟩ := hi
      obtain ⟨-, -, hC⟩ := hp.global
      have hfree : s.shared.semC = 1 := by simpa [hpc, VoterPc.closesHolding] using hC
      simp only [stepVoter, hpc, hfree, Nat.lt_one_iff, if_true] at he
      cases he
      split
      · intro hne
        rw [State.move_self] at hne
        exact absurd rfl hne
      · trivial
    · trivial

/-- Every step keeps the file as the phase says. -/
theorem filed_next {p : Phase n} {a : Action n} (hm : mode ≠ .outside) (hp : InPhase mode p s)
    (h : Filed C p s) (ht : next mode C s a = some t) : Filed C (p.after s a) t := by
  obtain ⟨rfl, rfl, -⟩ | ⟨i, e, rfl, he, rfl⟩ | ⟨i, w, rfl, hw, rfl⟩ := hp.next_cases hm ht
  · simp only [Phase.after]
    split <;> trivial
  · exact filed_deliver (filed_stepVoter hp h he)
  · obtain ⟨-, hwake⟩ := wakeVoter_eq_some hm hw
    have hvote : w.pc.toVote = (s.voter i).pc.toVote := by
      rcases hwake with ⟨hpc, rfl⟩ | ⟨hpc, rfl⟩ <;> rw [hpc] <;> rfl
    cases p with
    | startUp | election | closing _ | blocked _ => trivial
    | gathering c =>
      have hi : i ≠ c := by
        have hspot := (hp.place i).spot
        rintro rfl
        rcases hwake with ⟨hpc, -⟩ | ⟨hpc, -⟩ <;> simp [Spot, hpc, VoterPc.gathers] at hspot
      simpa only [Phase.after, Filed, Function.update_of_ne (Ne.symm hi)] using h
    | voting c => exact OnFile.move (e := ⟨s.shared, w, .none⟩) h rfl hvote

end Soper.Voting
