import Soper.Voting.Reach

/-!
# The end of the voting program

`main` sleeps until SIGINT or SIGALRM has set a flag. Then it sends each voter SIGTERM, the voter
having no handler for it, and calls `wait(NULL)` once for each. No signal is blocked meanwhile,
and the handlers are installed without `SA_RESTART`, so that a `wait` that is blocked when a
handler runs comes back without a voter; and `wait(NULL)` takes any voter, not the one that has
just been sent SIGTERM. What the voters do among themselves meanwhile is no step here, only that
one of them may exit.

Whatever the order, every run ends with `main` gone and each voter sent SIGTERM and dead
(`ensures_closed`); as many of them are left behind unreaped as calls of `wait` were interrupted,
since no call of `wait` finds all voters reaped (`exists_unreaped`). A process id that has been
reaped before is sent SIGTERM only if its voter had exited by itself.
-/

namespace Soper.Voting

/-- What has become of the process of a voter. -/
inductive Life
  | running
  /-- It has ended, and nobody has waited for it. -/
  | zombie
  | reaped
  deriving DecidableEq

/-- A voter as its parent sees it. -/
structure Child where
  life : Life
  /-- SIGTERM has been sent to its process id. -/
  term : Bool
  /-- Ghost: it has exited by itself. -/
  quit : Bool
  /-- Ghost: its process id was sent SIGTERM after it had been reaped. -/
  stale : Bool

/-- Where `main` stands. -/
inductive ClosingPc
  /-- The loop of `sleep`. -/
  | loop
  /-- `kill(voters[i].voter_pid, SIGTERM)`. -/
  | kill (i : ℕ)
  /-- `wait(NULL)`. -/
  | wait (i : ℕ)
  /-- `if (sint == 1)`. -/
  | report
  /-- After "Finishing by signal" or "Finishing by alarm". -/
  | exited (bySignal : Bool)
  deriving DecidableEq

/-- The signals `main` has a handler for. -/
inductive MainSignal
  | usr1
  | usr2
  | int
  | alrm
  deriving DecidableEq

/-- `main` after the start of the first round, and the voters. -/
structure Shutdown (n : ℕ) where
  pc : ClosingPc
  sint : Bool
  salarm : Bool
  child : Fin n → Child
  /-- Ghost: calls of `wait` that came back without a voter. -/
  missed : ℕ

/-- What happens next. -/
inductive ClosingStep (n : ℕ)
  | main
  /-- `wait` returns the voter `j`. -/
  | reap (j : Fin n)
  /-- SIGTERM ends the voter `j`. -/
  | dies (j : Fin n)
  /-- The voter `j` exits by itself, where it cannot open a file. -/
  | quits (j : Fin n)
  /-- A handler of `main` runs. -/
  | signal (sig : MainSignal)
  /-- A handler of `main` runs while `main` is blocked in `wait`. -/
  | interrupt (sig : MainSignal)

namespace Shutdown

variable {n : ℕ}

/-- `catcher`; the case of SIGINT falls through to the one of SIGALRM. -/
def catcher (s : Shutdown n) : MainSignal → Shutdown n
  | .usr1 | .usr2 => s
  | .int => { s with sint := true, salarm := true }
  | .alrm => { s with salarm := true }

/-- The loop over the voters, at `i`. -/
def killFrom (n i : ℕ) : ClosingPc := if i < n then .kill i else .report

/-- SIGTERM is sent to the process id of a voter. -/
def sendTerm (c : Child) : Child :=
  { c with term := true, stale := c.stale || decide (c.life = .reaped) }

/-- One step of `main`. -/
def stepMain (s : Shutdown n) : Option (Shutdown n) :=
  match s.pc with
  | .loop => if s.sint = false ∧ s.salarm = false then none else some { s with pc := killFrom n 0 }
  | .kill i =>
    if h : i < n then
      some { s with
        pc := .wait i, child := Function.update s.child ⟨i, h⟩ (sendTerm (s.child ⟨i, h⟩)) }
    else none
  | .wait i =>
    -- without a child to wait for, `wait` fails
    if ∀ j, (s.child j).life = .reaped then
      some { s with pc := killFrom n (i + 1), missed := s.missed + 1 }
    else none
  | .report => some { s with pc := .exited s.sint }
  | .exited _ => none

/-- `wait` returns a voter that has ended. -/
def reap (s : Shutdown n) (j : Fin n) : Option (Shutdown n) :=
  match s.pc with
  | .wait i =>
    if (s.child j).life = .zombie then
      some { s with
        pc := killFrom n (i + 1)
        child := Function.update s.child j { s.child j with life := .reaped } }
    else none
  | .loop | .kill _ | .report | .exited _ => none

/-- A blocked `wait` returns when a handler runs; `wait` is blocked while no voter has ended. -/
def interrupt (s : Shutdown n) (sig : MainSignal) : Option (Shutdown n) :=
  match s.pc with
  | .wait i =>
    if ∀ j, (s.child j).life ≠ .zombie then
      some { s.catcher sig with pc := killFrom n (i + 1), missed := s.missed + 1 }
    else none
  | .loop | .kill _ | .report | .exited _ => none

/-- A voter ends. -/
def ends (s : Shutdown n) (j : Fin n) (quit : Bool) : Shutdown n :=
  { s with child := Function.update s.child j { s.child j with life := .zombie, quit := quit } }

/-- One step. Handlers that change nothing are left out. -/
def next (s : Shutdown n) : ClosingStep n → Option (Shutdown n)
  | .main => s.stepMain
  | .reap j => s.reap j
  | .dies j =>
    if (s.child j).life = .running ∧ (s.child j).term = true then
      some (s.ends j (s.child j).quit)
    else none
  | .quits j => if (s.child j).life = .running then some (s.ends j true) else none
  | .signal sig =>
    match s.pc with
    | .exited _ => none
    | .loop | .kill _ | .wait _ | .report =>
      if (s.catcher sig).sint = s.sint ∧ (s.catcher sig).salarm = s.salarm then none
      else some (s.catcher sig)
  | .interrupt sig => s.interrupt sig

/-- The voters as `main` leaves them when it has started the first round. -/
def ofState (s : State n) : Shutdown n where
  pc := .loop
  sint := false
  salarm := false
  child j := ⟨if (s.voter j).pc = .exited then .zombie else .running, false,
    decide ((s.voter j).pc = .exited), false⟩
  missed := 0

/-- The end of the program, from any state in which `main` sleeps. -/
def system (n : ℕ) : System (Shutdown n) (ClosingStep n) where
  Init u := ∃ (mode : Mode) (C : Census n) (s : State n),
    (Voting.system mode C).Reachable s ∧ s.main = .sleep ∧ u = ofState s
  next := next

end Shutdown

/-! ### What `main` has done -/

namespace ClosingPc

variable (n : ℕ)

/-- Calls of `kill` made. -/
def killed : ClosingPc → ℕ
  | .loop => 0
  | .kill i => i
  | .wait i => i + 1
  | .report | .exited _ => n

/-- Calls of `wait` made. -/
def waited : ClosingPc → ℕ
  | .loop => 0
  | .kill i | .wait i => i
  | .report | .exited _ => n

/-- The loop is at one of the voters. -/
def Within : ClosingPc → Prop
  | .kill i | .wait i => i < n
  | .loop | .report | .exited _ => True

end ClosingPc

/-- What ends a voter is SIGTERM or itself, and only its own exit makes its process id stale. -/
structure Child.Ok (c : Child) : Prop where
  ended : c.life ≠ .running → c.term = true ∨ c.quit = true
  stale : c.stale = true → c.quit = true

namespace Shutdown

variable {n : ℕ} {s t : Shutdown n} {i j : Fin n}

/-- One for a voter that has been reaped. -/
def reapedCount (c : Child) : ℕ := (decide (c.life = .reaped)).toNat

/-- What holds between any two steps. -/
structure Inv (s : Shutdown n) : Prop where
  term : ∀ j, (s.child j).term = true ↔ (j : ℕ) < s.pc.killed n
  /-- Each call of `wait` has reaped a voter, or come back without one. -/
  waits : Family.total reapedCount s.child + s.missed = s.pc.waited n
  within : s.pc.Within n
  child : ∀ j, (s.child j).Ok
  flags : s.sint = true → s.salarm = true
  signalled : s.pc ≠ .loop → s.salarm = true
  reported : ∀ b, s.pc = .exited b → b = s.sint

theorem killed_killFrom {k : ℕ} (hk : k ≤ n) : (killFrom n k).killed n = k := by
  unfold killFrom
  split
  · rfl
  · simp only [ClosingPc.killed]
    omega

theorem waited_killFrom {k : ℕ} (hk : k ≤ n) : (killFrom n k).waited n = k := by
  unfold killFrom
  split
  · rfl
  · simp only [ClosingPc.waited]
    omega

theorem within_killFrom {k : ℕ} : (killFrom n k).Within n := by
  unfold killFrom
  split
  · assumption
  · trivial

theorem killFrom_ne_exited {k : ℕ} {b : Bool} : killFrom n k ≠ .exited b := by
  unfold killFrom
  split <;> rintro ⟨⟩

/-- SIGTERM is sent to each voter once, so its process id is stale only if it exited before. -/
theorem ok_sendTerm {c : Child} (h : c.Ok) (hterm : c.term = false) : (sendTerm c).Ok := by
  constructor
  · exact fun _ => Or.inl rfl
  · intro hstale
    rcases Bool.or_eq_true_iff.mp hstale with hs | hs
    · exact h.stale hs
    · have hreaped : c.life = .reaped := of_decide_eq_true hs
      have hended := h.ended (by rw [hreaped]; rintro ⟨⟩)
      rw [hterm] at hended
      exact hended.resolve_left (by decide)

/-- The handlers set flags only. -/
theorem catcher_frame (s : Shutdown n) (sig : MainSignal) :
    (s.catcher sig).pc = s.pc ∧ (s.catcher sig).child = s.child ∧
      (s.catcher sig).missed = s.missed ∧ (s.salarm = true → (s.catcher sig).salarm = true) ∧
      ((s.sint = true → s.salarm = true) →
        (s.catcher sig).sint = true → (s.catcher sig).salarm = true) := by
  cases sig <;> simp [catcher]

/-- `main` goes on to the next voter, with a voter reaped or a call of `wait` more without one. -/
theorem Inv.leaveWait {k : ℕ} (h : Inv s) (hpc : s.pc = .wait k)
    (hnext : t.pc = killFrom n (k + 1)) (hterm : ∀ j, (t.child j).term = (s.child j).term)
    (hwaits : Family.total reapedCount t.child + t.missed =
      Family.total reapedCount s.child + s.missed + 1)
    (hok : ∀ j, (t.child j).Ok) (hflags : t.sint = true → t.salarm = true)
    (halarm : s.salarm = true → t.salarm = true) : Inv t := by
  have hk : k < n := by
    have hwithin := h.within
    rwa [hpc] at hwithin
  constructor
  · intro j
    rw [hterm j, h.term j, hpc, hnext, killed_killFrom hk]
    rfl
  · rw [hwaits, h.waits, hpc, hnext, waited_killFrom hk]
    rfl
  · rw [hnext]
    exact within_killFrom
  · exact hok
  · exact hflags
  · exact fun _ => halarm (h.signalled (by rw [hpc]; rintro ⟨⟩))
  · intro b hb
    rw [hnext] at hb
    exact absurd hb killFrom_ne_exited

/-- The steps of `main` keep the invariant. -/
theorem inv_stepMain (h : Inv s) (hn : s.stepMain = some t) : Inv t := by
  match hpc : s.pc with
  | .exited _ => simp [stepMain, hpc] at hn
  | .loop =>
    simp only [stepMain, hpc] at hn
    split at hn <;> cases hn
    rename_i hflag
    have halarm : s.salarm = true := by
      by_contra hno
      exact hflag ⟨Bool.eq_false_iff.mpr fun hs => hno (h.flags hs), by simpa using hno⟩
    have hterm := h.term
    have hwaits := h.waits
    rw [hpc] at hterm hwaits
    refine ⟨?_, ?_, within_killFrom, h.child, h.flags, fun _ => halarm, fun b hb => ?_⟩
    · rw [killed_killFrom (Nat.zero_le n)]
      exact hterm
    · rw [waited_killFrom (Nat.zero_le n)]
      exact hwaits
    · exact absurd hb killFrom_ne_exited
  | .kill k =>
    have hk : k < n := by
      have hwithin := h.within
      rwa [hpc] at hwithin
    have hterm := h.term
    have hwaits := h.waits
    have halarm := h.signalled (by rw [hpc]; rintro ⟨⟩)
    rw [hpc] at hterm hwaits
    simp only [stepMain, hpc, dif_pos hk] at hn
    cases hn
    have hunsent : (s.child ⟨k, hk⟩).term = false := by
      rw [Bool.eq_false_iff, Ne, hterm]
      exact Nat.lt_irrefl k
    refine ⟨?_, ?_, hk, ?_, h.flags, fun _ => halarm, by rintro _ ⟨⟩⟩
    · exact Family.created_update_succ (i := ⟨k, hk⟩) (p := fun (c : Child) => c.term = true) hterm
        rfl
    · refine Eq.trans (congrArg (· + s.missed) ?_) hwaits
      exact Family.total_update_eq rfl
    · rw [Function.forall_update_iff s.child fun _ c => c.Ok]
      exact ⟨ok_sendTerm (h.child _) hunsent, fun j _ => h.child j⟩
  | .wait k =>
    simp only [stepMain, hpc] at hn
    split at hn <;> cases hn
    exact h.leaveWait hpc rfl (fun _ => rfl) (by simp only; omega) h.child h.flags id
  | .report =>
    have halarm := h.signalled (by rw [hpc]; rintro ⟨⟩)
    have hterm := h.term
    have hwaits := h.waits
    rw [hpc] at hterm hwaits
    simp only [stepMain, hpc] at hn
    cases hn
    exact ⟨hterm, hwaits, trivial, h.child, h.flags, fun _ => halarm,
      fun b hb => (ClosingPc.exited.inj hb).symm⟩

theorem total_reaped {f : Fin n → Child} {c : Child} (hold : reapedCount (f j) = 0)
    (hnew : reapedCount c = 1) :
    Family.total reapedCount (Function.update f j c) = Family.total reapedCount f + 1 := by
  have := Family.total_update reapedCount f j c
  omega

/-- Reaping a voter keeps the invariant. -/
theorem inv_reap (h : Inv s) (hn : s.reap j = some t) : Inv t := by
  cases hpc : s.pc with
  | loop | kill _ | report | exited _ => simp [reap, hpc] at hn
  | wait k =>
    simp only [reap, hpc] at hn
    split at hn <;> cases hn
    rename_i hzombie
    have hended := (h.child j).ended (by rw [hzombie]; rintro ⟨⟩)
    refine h.leaveWait hpc rfl (fun m => ?_) ?_ ?_ h.flags id
    · by_cases hm : m = j
      · subst hm
        simp
      · simp [Function.update_of_ne hm]
    · have hold : reapedCount (s.child j) = 0 := by simp [reapedCount, hzombie]
      simp only [total_reaped hold
        (show reapedCount { s.child j with life := .reaped } = 1 from rfl)]
      omega
    · rw [Function.forall_update_iff s.child fun _ c => c.Ok]
      exact ⟨⟨fun _ => hended, (h.child j).stale⟩, fun m _ => h.child m⟩

/-- So does a handler that runs while `main` is blocked in `wait`. -/
theorem inv_interrupt {sig : MainSignal} (h : Inv s) (hn : s.interrupt sig = some t) : Inv t := by
  obtain ⟨-, hchild, hmissed, halarm, hflags⟩ := catcher_frame s sig
  cases hpc : s.pc with
  | loop | kill _ | report | exited _ => simp [interrupt, hpc] at hn
  | wait k =>
    simp only [interrupt, hpc] at hn
    split at hn <;> cases hn
    refine h.leaveWait hpc rfl (fun m => ?_) ?_ ?_ (hflags h.flags) halarm
    · simp only [hchild]
    · simp only [hchild]
      omega
    · simpa only [hchild] using h.child

/-- A voter that ends while nobody waits for it. -/
theorem inv_ends {quit : Bool} (h : Inv s) (hlife : (s.child j).life = .running)
    (hok : (s.child j).term = true ∨ quit = true)
    (hquit : (s.child j).quit = true → quit = true) : Inv (s.ends j quit) := by
  refine ⟨fun m => ?_, ?_, h.within, ?_, h.flags, h.signalled, h.reported⟩
  · refine Iff.trans ?_ (h.term m)
    by_cases hm : m = j
    · subst hm
      simp [ends]
    · simp [ends, Function.update_of_ne hm]
  · refine Eq.trans (congrArg (· + s.missed) ?_) h.waits
    exact Family.total_update_eq (by simp [reapedCount, hlife])
  · refine (Function.forall_update_iff s.child fun _ c => c.Ok).mpr ⟨?_, fun m _ => h.child m⟩
    exact ⟨fun _ => hok, fun hstale => hquit ((h.child j).stale hstale)⟩

/-- **Step lemma.** -/
theorem inv_next {a : ClosingStep n} (h : Inv s) (hn : next s a = some t) : Inv t := by
  cases a with
  | main => exact inv_stepMain h hn
  | reap j => exact inv_reap h hn
  | interrupt sig => exact inv_interrupt h hn
  | dies j =>
    simp only [next] at hn
    split at hn <;> cases hn
    rename_i hrun
    exact inv_ends h hrun.1 (Or.inl hrun.2) id
  | quits j =>
    simp only [next] at hn
    split at hn <;> cases hn
    rename_i hrun
    exact inv_ends h hrun (Or.inr rfl) fun _ => rfl
  | signal sig =>
    obtain ⟨hpc, hchild, hmissed, halarm, hflags⟩ := catcher_frame s sig
    have hsome : t = s.catcher sig ∧ ∀ b, s.pc ≠ .exited b := by
      simp only [next] at hn
      split at hn
      · cases hn
      all_goals
        split at hn <;> cases hn
        rename_i hx _
        exact ⟨rfl, fun b hb => by rw [hx] at hb; cases hb⟩
    obtain ⟨rfl, hne⟩ := hsome
    constructor
    · rw [hchild, hpc]
      exact h.term
    · rw [hchild, hmissed, hpc]
      exact h.waits
    · rw [hpc]
      exact h.within
    · rw [hchild]
      exact h.child
    · exact hflags h.flags
    · rw [hpc]
      exact fun hx => halarm (h.signalled hx)
    · rw [hpc]
      exact fun b hb => absurd hb (hne b)

/-- **Run lemma.** -/
theorem inv_reachable (h : (system n).Reachable s) : Inv s := by
  refine h.induct (fun u hu => ?_) fun _ _ _ hs hn => inv_next hs hn
  obtain ⟨mode, C, s, -, -, rfl⟩ := hu
  have hnone : Family.total reapedCount (ofState s).child = 0 := by
    refine Family.total_eq_zero fun j => ?_
    simp only [ofState, reapedCount]
    split <;> rfl
  constructor
  · intro j
    simp [ofState, ClosingPc.killed]
  · rw [hnone]
    rfl
  · trivial
  · intro j
    constructor
    · intro hlife
      right
      by_contra hq
      exact hlife (if_neg (by simpa [ofState] using hq))
    · rintro ⟨⟩
  · rintro ⟨⟩
  · exact fun hx => absurd rfl hx
  · rintro _ ⟨⟩

/-! ### The end -/

/-- Steps left of `main`. -/
def rank (n : ℕ) : ClosingPc → ℕ
  | .loop => 2 * n + 2
  | .kill i => 2 * (n - i) + 1
  | .wait i => 2 * (n - i)
  | .report => 1
  | .exited _ => 0

/-- One for a voter that has not ended. -/
def runningCount (c : Child) : ℕ := (decide (c.life = .running)).toNat

/-- Steps left: of `main`, ends of voters, and flags that can still be set. -/
def measure (s : Shutdown n) : ℕ :=
  rank n s.pc + Family.total runningCount s.child + (!s.sint).toNat + (!s.salarm).toNat

theorem rank_killFrom (k : ℕ) : rank n (killFrom n k) ≤ 2 * (n - k) + 1 := by
  unfold killFrom
  split <;> simp only [rank] <;> omega

/-- The handlers clear no flag. -/
theorem flags_catcher (s : Shutdown n) (sig : MainSignal) :
    (!(s.catcher sig).sint).toNat + (!(s.catcher sig).salarm).toNat ≤
      (!s.sint).toNat + (!s.salarm).toNat := by
  cases sig <;> simp [catcher]

/-- A handler that changes something sets a flag. -/
theorem flags_catcher_lt (s : Shutdown n) (sig : MainSignal)
    (hne : ¬ ((s.catcher sig).sint = s.sint ∧ (s.catcher sig).salarm = s.salarm)) :
    (!(s.catcher sig).sint).toNat + (!(s.catcher sig).salarm).toNat <
      (!s.sint).toNat + (!s.salarm).toNat := by
  cases sig with
  | usr1 | usr2 => exact absurd ⟨rfl, rfl⟩ hne
  | int | alrm =>
    cases hs : s.sint <;> cases ha : s.salarm <;> simp [catcher, hs, ha] at hne ⊢

/-- The end of a voter. -/
theorem measure_ends {quit : Bool} (hlife : (s.child j).life = .running) :
    measure (s.ends j quit) < measure s := by
  have hlt : Family.total runningCount (s.ends j quit).child <
      Family.total runningCount s.child := by
    refine Family.total_update_lt ?_
    simp [runningCount, hlife]
  simp only [measure, ends] at hlt ⊢
  omega

/-- The next voter, or the report. -/
theorem measure_leaveWait {k : ℕ} (h : Inv s) (hpc : s.pc = .wait k)
    (hnext : t.pc = killFrom n (k + 1))
    (hchild : Family.total runningCount t.child = Family.total runningCount s.child)
    (hflags : (!t.sint).toNat + (!t.salarm).toNat ≤ (!s.sint).toNat + (!s.salarm).toNat) :
    measure t < measure s := by
  have hk : k < n := by
    have hwithin := h.within
    rwa [hpc] at hwithin
  have hrank := rank_killFrom (n := n) (k + 1)
  have hold : rank n s.pc = 2 * (n - k) := by rw [hpc]; rfl
  simp only [measure, hold, hnext, hchild]
  omega

/-- A step of `main`. -/
theorem measure_stepMain (h : Inv s) (hn : s.stepMain = some t) : measure t < measure s := by
  match hpc : s.pc with
  | .exited _ => simp [stepMain, hpc] at hn
  | .loop =>
    simp only [stepMain, hpc] at hn
    split at hn <;> cases hn
    have hrank := rank_killFrom (n := n) 0
    have hold : rank n s.pc = 2 * n + 2 := by rw [hpc]; rfl
    simp only [measure, hold]
    omega
  | .kill k =>
    simp only [stepMain, hpc] at hn
    split at hn <;> cases hn
    rename_i hk
    have hsame : Family.total runningCount
        (Function.update s.child ⟨k, hk⟩ (sendTerm (s.child ⟨k, hk⟩))) =
          Family.total runningCount s.child := Family.total_update_eq rfl
    simp only [measure, hpc, rank, hsame]
    omega
  | .wait k =>
    simp only [stepMain, hpc] at hn
    split at hn <;> cases hn
    exact measure_leaveWait h hpc rfl rfl le_rfl
  | .report =>
    simp only [stepMain, hpc] at hn
    cases hn
    simp only [measure, hpc, rank]
    omega

/-- **Every step takes one of the steps left.** -/
theorem measure_next {a : ClosingStep n} (h : Inv s) (hn : next s a = some t) :
    measure t < measure s := by
  cases a with
  | main => exact measure_stepMain h hn
  | reap j =>
    cases hpc : s.pc with
    | loop | kill _ | report | exited _ => simp [next, reap, hpc] at hn
    | wait k =>
      simp only [next, reap, hpc] at hn
      split at hn <;> cases hn
      rename_i hzombie
      refine measure_leaveWait h hpc rfl (Family.total_update_eq ?_) le_rfl
      simp [runningCount, hzombie]
  | interrupt sig =>
    cases hpc : s.pc with
    | loop | kill _ | report | exited _ => simp [next, interrupt, hpc] at hn
    | wait k =>
      simp only [next, interrupt, hpc] at hn
      split at hn <;> cases hn
      refine measure_leaveWait h hpc rfl ?_ (flags_catcher s sig)
      simp only [(catcher_frame s sig).2.1]
  | dies j | quits j =>
    simp only [next] at hn
    split at hn <;> cases hn
    rename_i hrun
    first | exact measure_ends hrun.1 | exact measure_ends hrun
  | signal sig =>
    obtain ⟨hpc, hchild, -, -, -⟩ := catcher_frame s sig
    have hsome : t = s.catcher sig ∧
        ¬ ((s.catcher sig).sint = s.sint ∧ (s.catcher sig).salarm = s.salarm) := by
      simp only [next] at hn
      split at hn
      · cases hn
      all_goals
        split at hn <;> cases hn
        exact ⟨rfl, by assumption⟩
    obtain ⟨rfl, hne⟩ := hsome
    have hlt := flags_catcher_lt s sig hne
    simp only [measure, hpc, hchild]
    omega

/-- How the program ends. -/
structure Closed (s : Shutdown n) : Prop where
  /-- `main` is gone, after a signal, and has named SIGINT if it has come. -/
  main : s.pc = .exited s.sint
  signalled : s.salarm = true
  /-- Each voter has been sent SIGTERM, and is gone. -/
  voters : ∀ j, (s.child j).term = true ∧ (s.child j).life ≠ .running
  /-- A voter is left unreaped for each call of `wait` that a handler has interrupted. No other
  call comes back without a voter. -/
  left : Family.total reapedCount s.child + s.missed = n
  /-- SIGTERM went to the process id of a reaped voter only if this one had exited by itself. -/
  stale : ∀ j, (s.child j).stale = true → (s.child j).quit = true

/-- The steps of the processes; the others are up to the environment. -/
def Own : ClosingStep n → Prop
  | .main | .reap _ | .dies _ => True
  | .quits _ | .signal _ | .interrupt _ => False

/-- A call of `wait` has a voter to wait for. -/
theorem exists_unreaped {k : ℕ} (h : Inv s) (hpc : s.pc = .wait k) :
    ∃ j, (s.child j).life ≠ .reaped := by
  have hk : k < n := by
    have hwithin := h.within
    rwa [hpc] at hwithin
  have hwaits := h.waits
  rw [hpc] at hwaits
  simp only [ClosingPc.waited] at hwaits
  obtain ⟨j, hj⟩ := Family.exists_eq_zero_of_lt_card (w := reapedCount) (f := s.child)
    (by rw [Fintype.card_fin]; omega)
  refine ⟨j, fun hlife => ?_⟩
  simp [reapedCount, hlife] at hj

/-- **`main` does not wait in vain**: it has sent SIGTERM to more voters than it has reaped. -/
theorem not_blocked_wait {k : ℕ} (h : Inv s) (hpc : s.pc = .wait k)
    (hreap : ∀ j, s.reap j = none) (hdies : ∀ j, next s (.dies j) = none) : False := by
  have hk : k < n := by
    have hwithin := h.within
    rwa [hpc] at hwithin
  have hreaped : ∀ j : Fin n, (j : ℕ) < k + 1 → 1 ≤ reapedCount (s.child j) := by
    intro j hj
    have hterm : (s.child j).term = true := by
      rw [h.term j, hpc]
      exact hj
    have hnotRunning := hdies j
    have hnotZombie := hreap j
    simp only [next, hterm, and_true, ite_eq_right_iff, reduceCtorEq, imp_false] at hnotRunning
    simp only [reap, hpc, ite_eq_right_iff, reduceCtorEq, imp_false] at hnotZombie
    cases hlife : (s.child j).life with
    | running => exact absurd hlife hnotRunning
    | zombie => exact absurd hlife hnotZombie
    | reaped => simp [reapedCount, hlife]
  have hmany := Family.le_total_of_lt (Nat.succ_le_of_lt hk) hreaped
  have hwaits := h.waits
  rw [hpc] at hwaits
  simp only [ClosingPc.waited] at hwaits
  omega

/-- Where the processes cannot go on, `main` still waits for its first signal, or the program has
ended. -/
theorem closed_of_blocked (h : Inv s) (hblocked : ∀ a, Own a → next s a = none) :
    (s.pc = .loop ∧ s.sint = false ∧ s.salarm = false) ∨ Closed s := by
  have hmain : s.stepMain = none := hblocked .main trivial
  have hdies : ∀ j, next s (.dies j) = none := fun j => hblocked (.dies j) trivial
  cases hpc : s.pc with
  | loop =>
    left
    simp only [stepMain, hpc, ite_eq_left_iff, reduceCtorEq, imp_false, not_not] at hmain
    exact ⟨rfl, hmain⟩
  | kill k =>
    have hwithin := h.within
    rw [hpc] at hwithin
    simp only [stepMain, hpc, dif_pos (show k < n from hwithin)] at hmain
    cases hmain
  | wait k => exact (not_blocked_wait h hpc (fun j => hblocked (.reap j) trivial) hdies).elim
  | report => simp [stepMain, hpc] at hmain
  | exited b =>
    right
    have hterm : ∀ j, (s.child j).term = true := by
      intro j
      rw [h.term j, hpc]
      exact j.isLt
    constructor
    · rw [hpc, h.reported b hpc]
    · exact h.signalled (by rw [hpc]; rintro ⟨⟩)
    · intro j
      refine ⟨hterm j, fun hlife => ?_⟩
      have hnot := hdies j
      simp [next, hlife, hterm j] at hnot
    · have hwaits := h.waits
      rwa [hpc] at hwaits
    · exact fun j => (h.child j).stale

/-- **How the program ends.** Once `main` sleeps, no run goes on for ever, whatever signals come
and in whatever order the voters end, and where the processes cannot go on, `main` has had no
signal or the program has ended. -/
theorem ensures_closed (n : ℕ) :
    (system n).EnsuresBy Own fun s =>
      (s.pc = .loop ∧ s.sint = false ∧ s.salarm = false) ∨ Closed s :=
  System.ensuresBy_of_measure measure (fun _ _ _ hs hn => measure_next (inv_reachable hs) hn)
    fun _ hs hblocked => closed_of_blocked (inv_reachable hs) hblocked

end Shutdown

end Soper.Voting
