import Soper.Voting.Progress

/-!
# The second round

Let signals wait for the voters that have announced themselves (`Mode.ideal`). A single voter
goes on from round to round, since it never waits for anybody. With more voters the program
stops in its second round, in every run: at the end of a pass the code blocks SIGUSR1 once more,
where its comment says that it unblocks it, so the SIGUSR1 of the next round wakes nobody, and
the candidate waits for announcements that nobody makes.

`keepsGoing_iff` says both, and that the election of the second round is to blame: a run without
it (`ElectsOnce`) never gets stuck. That every run with more voters gets stuck follows from a
rank that falls along each step (`measure_next`): with the second round blocked, each voter has
only so many steps to take.
-/

namespace Soper.Voting

variable {n : ℕ} {mode : Mode} {C : Census n} {s t : State n} {i c : Fin n}

/-- No reachable state is stuck: somebody can always move. -/
def KeepsGoing (C : Census n) : Prop :=
  ∀ s, (system .ideal C).Reachable s → ¬ (system .ideal C).Stuck s

/-- A voter takes `sem_c` in its first pass only, or it is the only voter. -/
def ElectsOnce (s : State n) : Action n → Prop
  | .voter i => (s.voter i).pc = .elect → 0 < s.shared.semC → n = 1 ∨ (s.voter i).round = 0
  | .main | .wake _ | .interrupt _ | .interruptMain => True

instance (s : State n) (a : Action n) : Decidable (ElectsOnce s a) :=
  match a with
  | .voter _ => inferInstanceAs (Decidable (_ → _))
  | .main | .wake _ | .interrupt _ | .interruptMain => inferInstanceAs (Decidable True)

/-- Whether a state is stuck can be computed. -/
instance decidableStuck (mode : Mode) (C : Census n) (s : State n) :
    Decidable ((system mode C).Stuck s) :=
  decidable_of_iff
    ((next mode C s .main).isNone ∧ (next mode C s .interruptMain).isNone ∧
      ∀ i, (next mode C s (.voter i)).isNone ∧ (next mode C s (.wake i)).isNone ∧
        (next mode C s (.interrupt i)).isNone)
    (by
      simp only [Option.isNone_iff_eq_none]
      constructor
      · rintro ⟨hmain, hint, hvoter⟩ (_ | i | i | i | _)
        · exact hmain
        · exact (hvoter i).1
        · exact (hvoter i).2.1
        · exact (hvoter i).2.2
        · exact hint
      · exact fun h => ⟨h .main, h .interruptMain,
          fun i => ⟨h (.voter i), h (.wake i), h (.interrupt i)⟩⟩)

/-! ### Runs without a second election -/

/-- Only a second election leads to the last phase. -/
theorem after_ne_blocked {p : Phase n} {a : Action n} (hp : InPhase mode p s)
    (hne : ∀ c, p ≠ .blocked c) (hok : ElectsOnce s a) (c : Fin n) :
    p.after s a ≠ .blocked c := by
  cases a with
  | main =>
    simp only [Phase.after]
    split
    · rintro ⟨⟩
    · exact hne c
  | wake _ | interrupt _ | interruptMain => exact hne c
  | voter i =>
    cases p with
    | startUp => rintro ⟨⟩
    | blocked c => exact absurd rfl (hne c)
    | election | gathering d | voting d =>
      simp only [Phase.after]
      split <;> rintro ⟨⟩
    | closing d =>
      simp only [Phase.after]
      split
      · rename_i hi
        obtain ⟨rfl, hpc⟩ := hi
        obtain ⟨-, hspot⟩ := (hp.place i).candidate_closing
        obtain ⟨-, -, hC⟩ := hp.global
        have hfree : 0 < s.shared.semC := by
          simp only [hpc, VoterPc.closesHolding, Bool.toNat_false] at hC
          omega
        -- the candidate of the last round is in its second pass, unless it is alone
        rcases hok hpc hfree with hn | hround
        · rw [if_pos hn]
          rintro ⟨⟩
        · have hn : n = 1 := by
            simpa [hpc, hround, VoterPc.closes, VoterPc.reenters] using hspot
          rw [if_pos hn]
          rintro ⟨⟩
      · rintro ⟨⟩

/-- **Until the second election somebody can move.** -/
theorem not_stuck_of_electsOnce (hn : 1 ≤ n) (h : (system .ideal C).ReachableBy ElectsOnce s) :
    ¬ (system .ideal C).Stuck s := by
  have hm : Mode.ideal ≠ .outside := by decide
  obtain ⟨p, hp, hlock, hne⟩ := phase_induct (I := fun p s => FileLock s ∧ ∀ c, p ≠ .blocked c)
    hm h (fun votes pidsBin => ⟨fileLock_initial votes pidsBin, nofun⟩)
    fun _ _ _ _ _ hp h hok ht => ⟨fileLock_next hm hp h.1 ht, after_ne_blocked hp h.2 hok⟩
  exact not_stuck_of_inPhase hn hp hlock (masked_reachable h.reachable).1 hne

/-- A single voter goes on from round to round. -/
theorem keepsGoing_of_one (hn : n = 1) : KeepsGoing C := by
  intro s hs
  refine not_stuck_of_electsOnce (by omega) (hs.mono fun s a _ => ?_)
  cases a with
  | voter i => exact fun _ _ => Or.inl hn
  | main | wake _ | interrupt _ | interruptMain => trivial

/-! ### The steps that are left -/

/-- Steps left in the pass. -/
def VoterPc.rank (n : ℕ) : VoterPc → ℕ
  | .exited => 0
  | .loop => 1
  | .release => 2
  | .notify pids => 3 + pids.length
  | .openPids => 4 + n
  | .closed k => 4 + n + 2 * (n - k)
  | .close k => 5 + n + 2 * (n - k)
  | .verdict => 6 + 3 * n
  | .read p => 7 + 3 * n + (n - p)
  | .unlock => 8 + 4 * n
  | .append => 9 + 4 * n
  | .lock => 10 + 4 * n
  | .wait2 | .call => 11 + 4 * n
  | .beforeWait2 => 12 + 4 * n
  | .measure => 13 + 4 * n
  | .announce => 14 + 4 * n
  | .gathered k => 11 + 4 * n + 2 * (n - k)
  | .gather k => 12 + 4 * n + 2 * (n - k)
  | .truncate => 13 + 6 * n
  | .elect => 15 + 6 * n
  | .wait1 => 16 + 6 * n
  | .beforeWait1 => 17 + 6 * n
  | .head => 18 + 6 * n
  | .absent => 19 + 6 * n

/-- Steps left of `main`. -/
def MainPc.rank (n : ℕ) : MainPc → ℕ
  | .fork i => n + 8 + (n - i)
  | .lockFile => n + 7
  | .openPids => n + 6
  | .writePids => n + 5
  | .unlockFile => n + 4
  | .wait i => 3 + (n - i)
  | .launch => 2
  | .sleep => 0

/-- Steps left to a voter, with a whole second pass before it in its first. -/
def Voter.rank (v : Voter n) : ℕ := v.pc.rank n + (1 - v.round) * (20 + 6 * n)

/-- Steps left to the program. -/
def measure (s : State n) : ℕ := s.main.rank n + Family.total Voter.rank s.voter

theorem rank_gatherFrom (k : ℕ) : (gatherFrom n k).rank n ≤ 12 + 4 * n + 2 * (n - k) := by
  unfold gatherFrom
  split <;> simp only [VoterPc.rank] <;> omega

theorem rank_closeFrom (k : ℕ) : (closeFrom n k).rank n ≤ 5 + n + 2 * (n - k) := by
  unfold closeFrom
  split <;> simp only [VoterPc.rank] <;> omega

/-- What the steps of a voter rely on: it is in its first pass when it comes to the end of a pass,
the files are no longer than the number of voters, and the loops of waits end. -/
structure Bounded (sh : Shared n) (v : Voter n) : Prop where
  round : v.pc = .loop → v.round = 0
  votes : ∀ p, v.pc = .read p → sh.votes.length ≤ n
  gathered : ∀ k, v.pc = .gathered k → k < n
  closed : ∀ k, v.pc = .closed k → k < n
  pids : ∀ pids, v.pc = .openPids → sh.pidsBin = some pids → pids.length = n

/-- A step of a voter takes one of the steps left to it. -/
theorem rank_stepVoter {sh : Shared n} {v : Voter n} {e : Effect n} (h : Bounded sh v)
    (he : stepVoter C i sh v = some e) : e.voter.rank < v.rank := by
  match hpc : v.pc with
  | .absent | .wait1 | .wait2 | .exited => simp [stepVoter, hpc] at he
  | .loop =>
    -- the second pass is paid for by the weight of the first
    have hround := h.round hpc
    simp only [stepVoter, hpc] at he
    cases he
    simp only [Voter.rank, hpc, hround, VoterPc.rank]
    omega
  | .read p =>
    have hvotes := h.votes p hpc
    simp only [stepVoter, hpc] at he
    split at he <;> cases he
    · rename_i hb
      have hlt := (List.getElem?_eq_some_iff.mp hb).1
      simp only [Voter.rank, hpc, VoterPc.rank]
      omega
    · simp only [Voter.rank, hpc, VoterPc.rank]
      omega
  | .gathered k =>
    have hk := h.gathered k hpc
    have hold : v.pc.rank n = 11 + 4 * n + 2 * (n - k) := by rw [hpc]; rfl
    have hnew := rank_gatherFrom (n := n) (k + 1)
    simp only [stepVoter, hpc] at he
    cases he
    simp only [Voter.rank, hold]
    omega
  | .closed k =>
    have hk := h.closed k hpc
    have hold : v.pc.rank n = 4 + n + 2 * (n - k) := by rw [hpc]; rfl
    have hnew := rank_closeFrom (n := n) (k + 1)
    simp only [stepVoter, hpc] at he
    cases he
    simp only [Voter.rank, hold]
    omega
  | .openPids =>
    simp only [stepVoter, hpc] at he
    split at he <;> cases he
    · rename_i pids hsome
      have hlen := h.pids pids hpc hsome
      simp only [Voter.rank, hpc, VoterPc.rank, hlen]
      omega
    · simp only [Voter.rank, hpc, VoterPc.rank]
      omega
  | .truncate =>
    have hold : v.pc.rank n = 13 + 6 * n := by rw [hpc]; rfl
    have hnew := rank_gatherFrom (n := n) 0
    simp only [stepVoter, hpc] at he
    cases he
    simp only [Voter.rank, hold]
    omega
  | .verdict =>
    have hold : v.pc.rank n = 6 + 3 * n := by rw [hpc]; rfl
    have hnew := rank_closeFrom (n := n) 0
    simp only [stepVoter, hpc] at he
    cases he
    simp only [Voter.rank, hold]
    omega
  | .head | .elect | .gather _ | .lock | .unlock | .close _ =>
    simp only [stepVoter, hpc] at he
    split at he <;> cases he <;> simp only [Voter.rank, hpc, VoterPc.rank] <;> omega
  | .beforeWait1 | .call | .announce | .measure | .beforeWait2 | .append | .notify []
  | .notify (_ :: _) | .release =>
    simp only [stepVoter, hpc] at he
    cases he
    simp only [Voter.rank, hpc, VoterPc.rank, List.length_cons, List.length_nil]
    omega

/-- Signals take no step from anybody. -/
theorem measure_deliver {em : Emission} {origin : Option (Fin n)} :
    measure (deliver mode C origin s em) = measure s := by
  obtain ⟨-, hmain, hvoter⟩ := deliver_frame mode C origin s em
  rw [measure, hmain, Family.total_congr fun j => ?_]
  · rfl
  · obtain ⟨w, hw, rfl | ⟨sig, rfl⟩⟩ := hvoter j <;> rw [hw]
    simp only [Voter.rank, receive_pc, receive_round]

/-- Points whose steps rely on nothing. -/
def VoterPc.quiet : VoterPc → Bool
  | .loop | .read _ | .gathered _ | .closed _ | .openPids => false
  | _ => true

theorem Bounded.of_quiet {sh : Shared n} {v : Voter n} (h : v.pc.quiet = true) :
    Bounded sh v := by
  refine ⟨fun hpc => ?_, fun p hpc => ?_, fun k hpc => ?_, fun k hpc => ?_, fun _ hpc => ?_⟩ <;>
    rw [hpc] at h <;> cases h

/-- What the steps of a candidate in the vote rely on. -/
theorem bounded_counts (hp : InPhase mode (.voting c) s) (hfile : Filed C (.voting c) s)
    (hpids : PidsWritten C s) : Bounded s.shared (s.voter c) := by
  obtain ⟨-, -, hspot⟩ := (hp.place c).candidate_voting
  refine ⟨fun hpc => ?_, fun _ _ => OnFile.length_le hfile, fun k hpc => ?_, fun k hpc => ?_,
    fun pids _ hsome => ?_⟩
  · simp [hpc, VoterPc.counts] at hspot
  · simp [hpc, VoterPc.counts] at hspot
  · have hk : k < n - 1 := by simpa [hpc, VoterPc.counts] using hspot
    omega
  · simp only [PidsWritten, hp.global.1, hsome, Option.some.injEq] at hpids
    rw [hpids, List.length_ofFn]

/-- What the steps of the candidate rely on as long as it gathers. -/
theorem bounded_gathers (hp : InPhase mode (.gathering c) s) : Bounded s.shared (s.voter c) := by
  obtain ⟨-, -, hspot⟩ := (hp.place c).candidate_gathering
  refine ⟨fun hpc => ?_, fun _ hpc => ?_, fun k hpc => ?_, fun k hpc => ?_, fun _ hpc => ?_⟩
  · simp [hpc, VoterPc.gathers] at hspot
  · simp [hpc, VoterPc.gathers] at hspot
  · have hk : k < n - 1 := by simpa [hpc, VoterPc.gathers] using hspot
    omega
  · simp [hpc, VoterPc.gathers] at hspot
  · simp [hpc, VoterPc.gathers] at hspot

/-- With more than one voter, what the steps rely on holds in every phase. -/
theorem InPhase.bounded {p : Phase n} (hn : n ≠ 1) (hp : InPhase mode p s) (hfile : Filed C p s)
    (hpids : PidsWritten C s) (i : Fin n) : Bounded s.shared (s.voter i) := by
  cases p with
  | startUp =>
    obtain ⟨-, -, hstart, -⟩ := (hp.place i).spot
    refine .of_quiet ?_
    cases hx : (s.voter i).pc <;> simp [hx, VoterPc.starts, VoterPc.quiet] at hstart ⊢
  | election =>
    obtain ⟨-, -, hspot, -⟩ := (hp.place i).spot
    refine .of_quiet ?_
    cases hx : (s.voter i).pc <;> simp [hx, VoterPc.waits1, VoterPc.quiet] at hspot ⊢
  | gathering c =>
    by_cases hi : i = c
    · subst hi
      exact bounded_gathers hp
    · obtain ⟨-, -, hspot, -, -⟩ := (hp.place i).other_gathering hi
      refine .of_quiet ?_
      cases hx : (s.voter i).pc <;> simp [hx, VoterPc.follows, VoterPc.quiet] at hspot ⊢
  | voting c =>
    by_cases hi : i = c
    · subst hi
      exact bounded_counts hp hfile hpids
    -- another voter only appends its vote
    · obtain ⟨-, hspot, -⟩ := (hp.place i).other_voting hi
      refine ⟨fun hpc => ?_, fun _ _ => OnFile.length_le hfile, fun k hpc => ?_, fun k hpc => ?_,
        fun _ hpc => ?_⟩
      · simpa [hpc, VoterPc.votes, VoterPc.returns] using hspot
      · simp [hpc, VoterPc.votes, VoterPc.returns] at hspot
      · simp [hpc, VoterPc.votes, VoterPc.returns] at hspot
      · simp [hpc, VoterPc.votes, VoterPc.returns] at hspot
  | closing c =>
    by_cases hi : i = c
    · subst hi
      obtain ⟨-, hspot⟩ := (hp.place i).candidate_closing
      refine ⟨fun hpc => ?_, fun _ hpc => ?_, fun k hpc => ?_, fun k hpc => ?_, fun _ hpc => ?_⟩
      · simpa [hpc, hn, VoterPc.closes, VoterPc.reenters] using hspot
      · simp [hpc, VoterPc.closes, VoterPc.reenters] at hspot
      · simp [hpc, VoterPc.closes, VoterPc.reenters] at hspot
      · simp [hpc, VoterPc.closes, VoterPc.reenters] at hspot
      · simp [hpc, VoterPc.closes, VoterPc.reenters] at hspot
    · obtain ⟨-, -, hw⟩ := (hp.place i).other_closing hi
      refine .of_quiet ?_
      cases hx : (s.voter i).pc <;> simp [hx, VoterPc.waits1, VoterPc.quiet] at hw ⊢
  | blocked c =>
    have hspot := (hp.place i).spot
    refine .of_quiet ?_
    by_cases hi : i = c
    · cases hx : (s.voter i).pc <;> simp [Spot, hi, hi ▸ hx, VoterPc.quiet] at hspot ⊢
    · cases hx : (s.voter i).pc <;> simp [Spot, hi, hx, VoterPc.waits1, VoterPc.quiet] at hspot ⊢

/-- A step of `main` takes one of the steps left to it, or to the voter it creates. -/
theorem measure_stepMain (hp : InPhase mode .startUp s) (ht : stepMain mode C s = some t) :
    measure t < measure s := by
  match hpc : s.main with
  | .sleep => simp [stepMain, hpc] at ht
  | .fork k =>
    simp only [stepMain, hpc] at ht
    split at ht <;> cases ht
    · rename_i hk
      obtain ⟨-, -, -, hforked, -, -⟩ := hp.global
      have habsent : (s.voter ⟨k, hk⟩).pc = .absent := by
        refine not_not.mp fun hx => Nat.lt_irrefl k ?_
        have hlt := (hforked ⟨k, hk⟩).mp hx
        rwa [hpc] at hlt
      obtain ⟨hround, -, -, -⟩ := (hp.place ⟨k, hk⟩).spot
      -- a voter that has just been created has less to do than an absent one
      have hrank : Voter.rank (Voter.forked n) < Voter.rank (s.voter ⟨k, hk⟩) := by
        simp only [Voter.rank, Voter.forked, habsent, hround, VoterPc.rank]
        omega
      have htotal := Family.total_update_lt (f := s.voter) hrank
      simp only [measure, hpc, MainPc.rank]
      omega
    · simp only [measure, hpc, MainPc.rank]
      omega
  | .lockFile =>
    simp only [stepMain, hpc] at ht
    split at ht <;> cases ht
    simp only [measure, hpc, MainPc.rank]
    omega
  | .openPids | .writePids | .unlockFile =>
    simp only [stepMain, hpc] at ht
    cases ht
    simp only [measure, hpc, MainPc.rank]
    omega
  | .wait k =>
    simp only [stepMain, hpc] at ht
    split at ht
    · split at ht <;> cases ht
      simp only [measure, hpc, MainPc.rank]
      omega
    · cases ht
      simp only [measure, hpc, MainPc.rank]
      omega
  | .launch =>
    simp only [stepMain, hpc] at ht
    cases ht
    rw [measure_deliver]
    simp only [measure, hpc, MainPc.rank]
    omega

/-- With more than one voter every step takes one of the steps that are left. -/
theorem measure_next {p : Phase n} {a : Action n} (hn : n ≠ 1) (hm : mode ≠ .outside)
    (hp : InPhase mode p s) (hfile : Filed C p s) (hpids : PidsWritten C s)
    (ht : next mode C s a = some t) : measure t < measure s := by
  have hmove : ∀ {i : Fin n} {sh : Shared n} {w : Voter n}, w.rank < (s.voter i).rank →
      measure { s with shared := sh, voter := Function.update s.voter i w } < measure s := by
    intro i sh w hw
    exact Nat.add_lt_add_left (Family.total_update_lt hw) _
  obtain ⟨rfl, rfl, ht⟩ | ⟨i, e, rfl, he, rfl⟩ | ⟨i, w, rfl, hw, rfl⟩ := hp.next_cases hm ht
  · exact measure_stepMain hp ht
  · rw [applyEffect, measure_deliver]
    exact hmove (rank_stepVoter (hp.bounded hn hfile hpids i) he)
  · refine hmove ?_
    obtain ⟨-, ⟨hpc, rfl⟩ | ⟨hpc, rfl⟩⟩ := wakeVoter_eq_some hm hw
    · simp only [Voter.rank, hpc, VoterPc.rank]
      omega
    · simp only [Voter.rank, hpc, VoterPc.rank]
      omega

/-- With more than one voter some run gets stuck. -/
theorem exists_stuck_of_ne_one (hn : n ≠ 1) (C : Census n) :
    ∃ s, (system .ideal C).Reachable s ∧ (system .ideal C).Stuck s := by
  have hm : Mode.ideal ≠ .outside := by decide
  have hinit : (system .ideal C).Reachable (initial [] none) := .init ⟨_, _, rfl⟩
  -- every run ends, and a run that cannot go on is stuck
  refine System.exists_stuck measure (fun s a t hs ht => ?_) hinit
  obtain ⟨p, hp, hfile⟩ := phase_induct (I := fun p s => Filed C p s) hm hs
    (fun _ _ => trivial) fun _ _ _ _ _ hp h _ ht => filed_next hm hp h ht
  exact measure_next hn hm hp hfile (masked_reachable hs).2 ht

/-- **The rounds keep going only with a single voter.** A run without a second election never gets
stuck, and all runs avoid it if and only if there is one voter. -/
theorem keepsGoing_iff (n : ℕ) (hn : 1 ≤ n) (C : Census n) :
    (∀ s, (system .ideal C).ReachableBy ElectsOnce s → ¬ (system .ideal C).Stuck s) ∧
      (KeepsGoing C ↔ n = 1) := by
  refine ⟨fun s hs => not_stuck_of_electsOnce hn hs, fun h => ?_, keepsGoing_of_one⟩
  by_contra hne
  obtain ⟨s, hs, hstuck⟩ := exists_stuck_of_ne_one hne C
  exact h s hs hstuck

/-- Instances: a single voter keeps going, and two voters that have completed their first round
are not stuck. -/
theorem keepsGoing_one_or_two_voters :
    KeepsGoing (Census.consecutive 1 3 (by decide)) ∧
      ∃ s, (s.voter 0).round = 1 ∧
        (system .ideal (Census.consecutive 2 3 (by decide))).ReachableBy ElectsOnce s ∧
        ¬ (system .ideal (Census.consecutive 2 3 (by decide))).Stuck s := by
  let C := Census.consecutive 2 3 (by decide)
  have hinit : (system .ideal C).ReachableBy ElectsOnce (initial [] none) := .init ⟨_, _, rfl⟩
  obtain ⟨s, hs, hend⟩ : ∃ s, (system .ideal C).runBy ElectsOnce (initial [] none)
      (runToRelease ++ List.replicate 2 (.voter 0)) = some s ∧ (s.voter 0).round = 1 :=
    Option.map_eq_some_iff.mp (by decide +kernel)
  have hreach := hinit.runBy hs
  exact ⟨(keepsGoing_iff 1 (by decide) _).2.mpr rfl, s, hend, hreach,
    (keepsGoing_iff 2 (by decide) C).1 s hreach⟩

/-- Two voters: in the second round voter 0 waits for an announcement, and voter 1 waits for
SIGUSR1 with SIGUSR1 blocked. -/
theorem not_keepsGoing_two_voters :
    ¬ ∀ n, 1 ≤ n → ∀ C : Census n, KeepsGoing C := by
  intro hall
  let C := Census.consecutive 2 3 (by decide)
  have hinit : (system .ideal C).Reachable (initial [] none) := .init ⟨_, _, rfl⟩
  obtain ⟨s, hs, hend⟩ : ∃ s, (system .ideal C).run (initial [] none)
      (runToRelease ++ List.replicate 4 (.voter 0)) = some s ∧
        decide ((system .ideal C).Stuck s) = true :=
    Option.map_eq_some_iff.mp (by decide +kernel)
  exact hall 2 (by decide) C s (hinit.run hs) (of_decide_eq_true hend)

end Soper.Voting
