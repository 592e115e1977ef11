import Soper.Library.Total
import Soper.Library.Transition
import Soper.Pow

/-!
# The voting program

`main` forks `n` voters, writes their process ids to `pids.bin`, waits on the semaphore `sem_s`
once for each of them and starts the first round with SIGUSR1. In each pass of its loop a voter
waits for SIGUSR1 (unless it was the last candidate) and tries `sem_c`. The one that gets it is
the candidate: it empties `votes.bin`, waits on `sem_s` for the other voters, calls them with
SIGUSR2, votes, counts the file, waits for the others once more, sends each SIGUSR1 and returns
`sem_c`. The others announce themselves on `sem_s`, wait for SIGUSR2 and vote.

Three readings of signal delivery are modelled (`Mode`). A signal that is not kept for a
`sigsuspend` runs the empty handler and is gone; where the receiver is blocked in `sem_wait`,
which the handler interrupts, the code goes on as if it held the token (`Action.interrupt`).
SIGINT and SIGALRM do not occur. Calls that only print are left out, and so are the values of
`sem_getvalue` that are read before a `sem_wait` and overwritten after it.

Ghost fields say in which pass a voter is, whether its last `sem_trywait` succeeded, which
signals it has missed, and what it has counted.
-/

namespace Soper.Voting

/-- The voters' process ids. -/
structure Census (n : ℕ) where
  pid : Fin n → ℤ
  pos : ∀ i, 0 < pid i
  inj : Function.Injective pid

/-- Consecutive process ids. -/
def Census.consecutive (n : ℕ) (first : ℤ) (h : 0 < first) : Census n where
  pid i := first + (i : ℕ)
  pos i := by omega
  inj i j hij := Fin.ext (by simpa using hij)

/-- How signals reach the voters. -/
inductive Mode
  /-- A signal sent to a voter that has announced itself on `sem_s` is kept for the
  `sigsuspend` that follows. -/
  | ideal
  /-- A signal is kept only for a voter inside `sigsuspend`. -/
  | posix
  /-- As `posix`, and SIGUSR1 and SIGUSR2 may also come from outside at any time. -/
  | outside
  deriving DecidableEq

inductive Signal
  | usr1
  | usr2
  deriving DecidableEq

/-- Where `voter_process` stands. -/
inductive VoterPc
  /-- Not forked yet. -/
  | absent
  /-- `if (candidate == 0)`, with `sem_post(sem_s)`. -/
  | head
  /-- Between `sem_post(sem_s)` and `sigsuspend`. -/
  | beforeWait1
  /-- Inside the `sigsuspend` for SIGUSR1. -/
  | wait1
  /-- The edits of the mask and `sem_trywait(sem_c)`. -/
  | elect
  /-- `fopen("votes.bin", "w")`. -/
  | truncate
  /-- The `i`-th `sem_wait(sem_s)` of the candidate before the vote. -/
  | gather (i : ℕ)
  /-- The `sem_getvalue` after it. -/
  | gathered (i : ℕ)
  /-- `kill(0, SIGUSR2)`. -/
  | call
  /-- `sem_post(sem_s)` of a voter that is not the candidate. -/
  | announce
  /-- The `sem_getvalue` after it. -/
  | measure
  /-- Before the `sigsuspend` for SIGUSR2. -/
  | beforeWait2
  /-- Inside the `sigsuspend` for SIGUSR2. -/
  | wait2
  /-- `sem_wait(sem_f)`. -/
  | lock
  /-- The vote is appended to `votes.bin`. -/
  | append
  /-- `sem_post(sem_f)` and `if (candidate == 1)`. -/
  | unlock
  /-- `fread` at position `p`. -/
  | read (p : ℕ)
  /-- The verdict is printed. -/
  | verdict
  /-- The `i`-th `sem_wait(sem_s)` of the candidate after the vote. -/
  | close (i : ℕ)
  /-- The `sem_getvalue` after it. -/
  | closed (i : ℕ)
  /-- `fopen("pids.bin", "r+b")`. -/
  | openPids
  /-- The loop over the process ids still to read. -/
  | notify (pids : List ℤ)
  /-- `sem_post(sem_c)`. -/
  | release
  /-- `sigaddset(.., SIGUSR1)` and back to the head of the loop. -/
  | loop
  | exited
  deriving DecidableEq

/-- Where `main` stands. -/
inductive MainPc
  | fork (i : ℕ)
  /-- `sem_wait(sem_f)`. -/
  | lockFile
  /-- `fopen("pids.bin", "w+")`. -/
  | openPids
  /-- The process ids reach the file. -/
  | writePids
  /-- `sem_post(sem_f)`. -/
  | unlockFile
  /-- The `i`-th `sem_wait(sem_s)`. -/
  | wait (i : ℕ)
  /-- `kill(0, SIGUSR1)`. -/
  | launch
  /-- The loop of `sleep`. -/
  | sleep
  deriving DecidableEq

/-- A record of `votes.bin`, with the voter that wrote it. -/
structure Vote (n : ℕ) where
  voter : Fin n
  vote : ℤ
  deriving DecidableEq

/-- The local state of a voter. -/
structure Voter (n : ℕ) where
  pc : VoterPc
  candidate : Bool
  result : ℕ
  /-- SIGUSR1 is in the mask of `sigsuspend`. -/
  blocked1 : Bool
  /-- SIGUSR2 is in the mask of `sigsuspend`. -/
  blocked2 : Bool
  pending1 : Bool
  pending2 : Bool
  /-- A handler has run while the voter was at a `sem_wait`. -/
  interrupted : Bool
  /-- Ghost: the last `sem_trywait(sem_c)` succeeded. -/
  elected : Bool
  /-- Ghost: passes of the loop completed. -/
  round : ℕ
  /-- Ghost: it has been through a wait for SIGUSR2. -/
  waited2 : Bool
  /-- Ghost: the SIGUSR1 of `main` ran the handler outside `sigsuspend`. -/
  missed1 : Bool
  /-- Ghost: a SIGUSR2 of another voter ran the handler outside `sigsuspend`. -/
  missed2 : Bool
  /-- Ghost: `result` at the start of the count. -/
  start : ℕ
  /-- Ghost: the records counted. -/
  ballot : List (Vote n)

/-- The semaphores and the files. -/
structure Shared (n : ℕ) where
  semC : ℕ
  semF : ℕ
  semS : ℕ
  votes : List (Vote n)
  pidsBin : Option (List ℤ)

/-- The whole program. -/
structure State (n : ℕ) where
  main : MainPc
  /-- A handler has run in `main` while it was at a `sem_wait`. -/
  mainInterrupted : Bool
  shared : Shared n
  voter : Fin n → Voter n

/-- What happens next. -/
inductive Action (n : ℕ)
  | main
  /-- A voter runs on to its next call. -/
  | voter (i : Fin n)
  /-- The `sigsuspend` of a voter returns. -/
  | wake (i : Fin n)
  /-- A blocked `sem_wait` of a voter returns without the token. -/
  | interrupt (i : Fin n)
  /-- A blocked `sem_wait` of `main` returns without the token. -/
  | interruptMain

/-- Signals sent by a step. -/
inductive Emission
  | none
  /-- `kill(0, sig)`: to the whole process group. -/
  | group (sig : Signal)
  /-- `kill(pid, sig)`. -/
  | single (pid : ℤ) (sig : Signal)

/-- What a step of a voter does: to the shared objects, to itself, and by signals. -/
structure Effect (n : ℕ) where
  shared : Shared n
  voter : Voter n
  emission : Emission

variable {n : ℕ}

/-- `vote = pow_hash(getpid()) % 2`. -/
def Census.vote (C : Census n) (i : Fin n) : ℤ := (powHash (C.pid i)).tmod 2

/-! ### Signals -/

/-- The voter has announced itself on `sem_s` and not passed the `sigsuspend` that follows. -/
def VoterPc.announced : VoterPc → Bool
  | .beforeWait1 | .wait1 | .measure | .beforeWait2 | .wait2 => true
  | _ => false

/-- The voter is inside `sigsuspend`. -/
def VoterPc.suspended : VoterPc → Bool
  | .wait1 | .wait2 => true
  | _ => false

/-- The voter is at a `sem_wait`. -/
def VoterPc.inSemWait : VoterPc → Bool
  | .gather _ | .lock | .close _ => true
  | _ => false

/-- `main` is at a `sem_wait`. -/
def MainPc.inSemWait : MainPc → Bool
  | .lockFile | .wait _ => true
  | _ => false

/-- A signal sent to a voter at this point is kept for its `sigsuspend`. -/
def Mode.keeps : Mode → VoterPc → Bool
  | .ideal, pc => pc.announced
  | .posix, pc | .outside, pc => pc.suspended

/-- The voter `i` receives a signal; `origin` is the voter that sent it, or `none` for `main`. A
signal that a voter sends to itself runs the handler before `kill` returns. -/
def receive (mode : Mode) (sig : Signal) (origin : Option (Fin n)) (i : Fin n) (v : Voter n) :
    Voter n :=
  if v.pc = .absent ∨ origin = some i then v
  else if mode.keeps v.pc = true then
    match sig with
    | .usr1 => { v with pending1 := true }
    | .usr2 => { v with pending2 := true }
  else
    match sig with
    | .usr1 => { v with
        interrupted := v.interrupted || v.pc.inSemWait
        missed1 := v.missed1 || decide (origin = none) }
    | .usr2 => { v with
        interrupted := v.interrupted || v.pc.inSemWait
        missed2 := true }

/-- The signals of a step reach the processes. -/
def deliver (mode : Mode) (C : Census n) (origin : Option (Fin n)) (s : State n) :
    Emission → State n
  | .none => s
  | .group sig => { s with
      mainInterrupted := s.mainInterrupted || s.main.inSemWait
      voter := fun j => receive mode sig origin j (s.voter j) }
  | .single pid sig => { s with
      voter := fun j => if C.pid j = pid then receive mode sig origin j (s.voter j)
        else s.voter j }

/-- The `sigsuspend` returns: its mask leaves a pending signal, or one from outside, unblocked.
A signal it had blocked is delivered right after it. -/
def wakeVoter (mode : Mode) (v : Voter n) : Option (Voter n) :=
  if (mode = .outside ∨ v.pending1 = true) ∧ v.blocked1 = false ∨
      (mode = .outside ∨ v.pending2 = true) ∧ v.blocked2 = false then
    match v.pc with
    | .wait1 => some { v with pending1 := false, pending2 := false, pc := .elect }
    | .wait2 => some { v with pending1 := false, pending2 := false, waited2 := true, pc := .lock }
    | _ => none
  else none

/-- A `sem_wait` that is blocked when a handler runs returns; the code ignores its result. -/
def interruptVoter (mode : Mode) (sh : Shared n) (v : Voter n) : Option (Voter n) :=
  if mode = .outside ∨ v.interrupted = true then
    match v.pc with
    | .gather i => if sh.semS = 0 then some { v with interrupted := false, pc := .gathered i }
      else none
    | .lock => if sh.semF = 0 then some { v with interrupted := false, pc := .append } else none
    | .close i => if sh.semS = 0 then some { v with interrupted := false, pc := .closed i }
      else none
    | _ => none
  else none

/-! ### The voters -/

/-- The loop of `n_procs - 1` waits before the vote, at `i`. -/
def gatherFrom (n i : ℕ) : VoterPc := if i < n - 1 then .gather i else .call

/-- The loop of `n_procs - 1` waits after the vote, at `i`. -/
def closeFrom (n i : ℕ) : VoterPc := if i < n - 1 then .close i else .openPids

/-- One step of `voter_process`. -/
def stepVoter (C : Census n) (i : Fin n) (sh : Shared n) (v : Voter n) : Option (Effect n) :=
  match v.pc with
  | .absent | .wait1 | .wait2 | .exited => none
  | .head =>
    if v.candidate = false then
      some ⟨{ sh with semS := sh.semS + 1 }, { v with pc := .beforeWait1 }, .none⟩
    else some ⟨sh, { v with pc := .elect }, .none⟩
  | .beforeWait1 => some ⟨sh, { v with pc := .wait1 }, .none⟩
  | .elect =>
    -- where the token is gone, `candidate` keeps its value from an earlier pass
    if 0 < sh.semC then
      some ⟨{ sh with semC := sh.semC - 1 },
        { v with
          blocked1 := true, blocked2 := false, candidate := true, elected := true
          pc := .truncate }, .none⟩
    else
      some ⟨sh,
        { v with blocked1 := true, blocked2 := false, elected := false, pc := .announce }, .none⟩
  | .truncate => some ⟨{ sh with votes := [] }, { v with pc := gatherFrom n 0 }, .none⟩
  | .gather k =>
    if 0 < sh.semS then
      some ⟨{ sh with semS := sh.semS - 1 }, { v with pc := .gathered k }, .none⟩
    else none
  -- the counter of the tally doubles as the target of `sem_getvalue`
  | .gathered k => some ⟨sh, { v with result := sh.semS, pc := gatherFrom n (k + 1) }, .none⟩
  | .call => some ⟨sh, { v with pc := .lock }, .group .usr2⟩
  | .announce => some ⟨{ sh with semS := sh.semS + 1 }, { v with pc := .measure }, .none⟩
  | .measure => some ⟨sh, { v with result := sh.semS, pc := .beforeWait2 }, .none⟩
  | .beforeWait2 => some ⟨sh, { v with pc := .wait2 }, .none⟩
  | .lock =>
    if 0 < sh.semF then
      some ⟨{ sh with semF := sh.semF - 1 }, { v with pc := .append }, .none⟩
    else none
  | .append =>
    some ⟨{ sh with votes := sh.votes ++ [⟨i, C.vote i⟩] }, { v with pc := .unlock }, .none⟩
  | .unlock =>
    if v.candidate = true then
      some ⟨{ sh with semF := sh.semF + 1 },
        { v with start := v.result, ballot := [], pc := .read 0 }, .none⟩
    else some ⟨{ sh with semF := sh.semF + 1 }, { v with pc := .loop }, .none⟩
  | .read p =>
    match sh.votes[p]? with
    | some b =>
      some ⟨sh,
        { v with
          result := if b.vote = 1 then v.result + 1 else v.result
          ballot := v.ballot ++ [b], pc := .read (p + 1) }, .none⟩
    | none => some ⟨sh, { v with pc := .verdict }, .none⟩
  | .verdict => some ⟨sh, { v with pc := closeFrom n 0 }, .none⟩
  | .close k =>
    if 0 < sh.semS then
      some ⟨{ sh with semS := sh.semS - 1 }, { v with pc := .closed k }, .none⟩
    else none
  | .closed k => some ⟨sh, { v with result := sh.semS, pc := closeFrom n (k + 1) }, .none⟩
  | .openPids =>
    match sh.pidsBin with
    | some pids => some ⟨sh, { v with pc := .notify pids }, .none⟩
    | none => some ⟨sh, { v with pc := .exited }, .none⟩
  | .notify [] => some ⟨sh, { v with pc := .release }, .none⟩
  | .notify (p :: pids) =>
    -- every process id of the file but its own
    some ⟨sh, { v with pc := .notify pids },
      if p ≠ C.pid i then .single p .usr1 else .none⟩
  | .release => some ⟨{ sh with semC := sh.semC + 1 }, { v with pc := .loop }, .none⟩
  -- `sigaddset`, under a comment that says SIGUSR1 is unblocked
  | .loop => some ⟨sh, { v with blocked1 := true, round := v.round + 1, pc := .head }, .none⟩

/-- A voter as `fork` creates it. -/
def Voter.forked (n : ℕ) : Voter n where
  pc := .head
  candidate := false
  result := 0
  blocked1 := false
  blocked2 := true
  pending1 := false
  pending2 := false
  interrupted := false
  elected := false
  round := 0
  waited2 := false
  missed1 := false
  missed2 := false
  start := 0
  ballot := []

/-! ### The program -/

/-- One step of `main`. -/
def stepMain (mode : Mode) (C : Census n) (s : State n) : Option (State n) :=
  match s.main with
  | .fork i =>
    if h : i < n then
      some { s with
        main := .fork (i + 1), voter := Function.update s.voter ⟨i, h⟩ (Voter.forked n) }
    else some { s with main := .lockFile }
  | .lockFile =>
    if 0 < s.shared.semF then
      some { s with main := .openPids, shared := { s.shared with semF := s.shared.semF - 1 } }
    else none
  | .openPids => some { s with main := .writePids, shared := { s.shared with pidsBin := some [] } }
  | .writePids =>
    some { s with
      main := .unlockFile, shared := { s.shared with pidsBin := some (List.ofFn C.pid) } }
  | .unlockFile =>
    some { s with main := .wait 0, shared := { s.shared with semF := s.shared.semF + 1 } }
  | .wait i =>
    if i < n then
      if 0 < s.shared.semS then
        some { s with main := .wait (i + 1), shared := { s.shared with semS := s.shared.semS - 1 } }
      else none
    else some { s with main := .launch }
  | .launch => some (deliver mode C none { s with main := .sleep } (.group .usr1))
  | .sleep => none

/-- A blocked `sem_wait` of `main` returns when a handler runs. -/
def interruptMain (mode : Mode) (s : State n) : Option (State n) :=
  if mode = .outside ∨ s.mainInterrupted = true then
    match s.main with
    | .lockFile =>
      if s.shared.semF = 0 then some { s with mainInterrupted := false, main := .openPids }
      else none
    | .wait i =>
      if i < n ∧ s.shared.semS = 0 then
        some { s with mainInterrupted := false, main := .wait (i + 1) }
      else none
    | _ => none
  else none

/-- The state after a step of the voter `i`. -/
def applyEffect (mode : Mode) (C : Census n) (i : Fin n) (s : State n) (e : Effect n) :
    State n :=
  deliver mode C (some i)
    { s with shared := e.shared, voter := Function.update s.voter i e.voter } e.emission

/-- One step of the program. -/
def next (mode : Mode) (C : Census n) (s : State n) : Action n → Option (State n)
  | .main => stepMain mode C s
  | .voter i => (stepVoter C i s.shared (s.voter i)).map (applyEffect mode C i s)
  | .wake i => (wakeVoter mode (s.voter i)).map fun v =>
      { s with voter := Function.update s.voter i v }
  | .interrupt i => (interruptVoter mode s.shared (s.voter i)).map fun v =>
      { s with voter := Function.update s.voter i v }
  | .interruptMain => interruptMain mode s

/-- Before the first `fork`; the files may be left over from an earlier run. -/
def initial (votes : List (Vote n)) (pidsBin : Option (List ℤ)) : State n where
  main := .fork 0
  mainInterrupted := false
  shared := { semC := 1, semF := 1, semS := 0, votes := votes, pidsBin := pidsBin }
  voter _ := { Voter.forked n with pc := .absent }

/-- The voting program with `n` voters as a transition system. -/
def system (mode : Mode) (C : Census n) : System (State n) (Action n) where
  Init s := ∃ votes pidsBin, s = initial votes pidsBin
  next := next mode C

/-- A run of two voters up to the call of voter 0; each signal finds the other voter inside its
wait. -/
def runToCall : List (Action 2) :=
  List.replicate 7 .main ++ [.voter 0, .voter 1, .voter 0, .voter 1] ++
    List.replicate 4 .main ++ [.wake 0, .wake 1] ++ List.replicate 2 (.voter 0) ++
    List.replicate 4 (.voter 1) ++ List.replicate 3 (.voter 0)

/-- The rest of that round, up to the `sem_post(sem_c)` of voter 0. -/
def runToRelease : List (Action 2) :=
  runToCall ++ List.replicate 3 (.voter 0) ++ [.wake 1] ++ List.replicate 6 (.voter 1) ++
    List.replicate 11 (.voter 0)

end Soper.Voting
