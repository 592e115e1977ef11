import Soper.MRush.Coverage

/-!
# The processes of the first pipe program

`main` of `mrush.c` forks the miner, the miner forks the monitor, each closes two of its four
pipe ends and runs its function; the miner then waits for the monitor and `main` for the miner.
The open ends of each process are part of the state: a `read` on an empty pipe blocks while some
process holds the write end and returns end-of-file otherwise, and a `write` to a pipe nobody
can read kills the writer. Apart from that no call fails: `pipe`, `fork`, `calloc` and the thread
library do what they are asked for. `manage_threads` runs as modelled in `Search`.

`main` holds all four ends until it exits, so end-of-file and the broken pipe never occur
(`runMiner_cases`, `runMonitor_cases`), and each run is a run of miner and monitor with a sound
search (`core_reachableBy`). Every run ends (`measure_next`). Where it ends is decided by the
search: the program is free of deadlock exactly if the hash chain from the initial target is
covered (`noDeadlock_iff_covers`). A miner whose search fails returns without sending `-1` and
waits for a monitor that waits for a message.
-/

namespace Soper.MRush

/-- The three processes. -/
inductive Proc
  | main
  | miner
  | monitor
  deriving DecidableEq

/-- The ends `miner_to_monitor[0]`, `[1]` and `monitor_to_miner[0]`, `[1]`. -/
inductive PipeEnd
  | minerToMonitorRead
  | minerToMonitorWrite
  | monitorToMinerRead
  | monitorToMinerWrite
  deriving DecidableEq

/-- Where `main` stands in the parent process. -/
inductive MainPc
  | fork
  /-- `waitpid(miner_pid, ..)`. -/
  | wait
  | exited
  deriving DecidableEq

/-- Where `main` stands in the miner process. -/
inductive MinerProcPc
  | absent
  | fork
  /-- `close(miner_to_monitor[0])`. -/
  | closeRead
  /-- `close(monitor_to_miner[1])`. -/
  | closeWrite
  /-- Inside `miner`. -/
  | running
  /-- `waitpid(monitor_pid, ..)`. -/
  | wait
  | exited
  deriving DecidableEq

/-- Where `main` stands in the monitor process. -/
inductive MonitorProcPc
  | absent
  /-- `close(monitor_to_miner[0])`. -/
  | closeRead
  /-- `close(miner_to_monitor[1])`. -/
  | closeWrite
  /-- Inside `monitor`. -/
  | running
  | exited
  deriving DecidableEq

/-- The processes, the pipe ends each holds open, the pipes with the local variables of the two
functions, and the current call of `manage_threads`. -/
structure Processes (n : ℕ) where
  main : MainPc
  miner : MinerProcPc
  monitor : MonitorProcPc
  isOpen : Proc → PipeEnd → Bool
  core : Lockstep
  search : Search n

/-- Who moves. -/
inductive ProcessMove (n : ℕ)
  | main
  | miner
  | thread (j : Fin n)
  | monitor

namespace Processes

variable {n : ℕ}

/-- Some process holds the end. -/
def held (s : Processes n) (e : PipeEnd) : Bool :=
  s.isOpen .main e || s.isOpen .miner e || s.isOpen .monitor e

/-- The ends after the process `p` closes `e`. -/
def close (s : Processes n) (p : Proc) (e : PipeEnd) : Proc → PipeEnd → Bool :=
  Function.update s.isOpen p (Function.update (s.isOpen p) e false)

/-- The ends after the process `p` is gone. -/
def closeAll (s : Processes n) (p : Proc) : Proc → PipeEnd → Bool :=
  Function.update s.isOpen p fun _ => false

/-- One step of the parent. -/
def stepMain (s : Processes n) : Option (Processes n) :=
  match s.main with
  | .fork =>
    some { s with
      main := .wait, miner := .fork
      isOpen := Function.update s.isOpen .miner (s.isOpen .main) }
  | .wait =>
    if s.miner = .exited then some { s with main := .exited, isOpen := s.closeAll .main } else none
  | .exited => none

/-- One step of the miner process inside `miner`. -/
def runMiner (nCycles : ℕ) (s : Processes n) : Option (Processes n) :=
  match s.core.miner.pc with
  | .head =>
    (s.core.stepMiner nCycles).map fun c =>
      { s with
        core := c
        search := if c.miner.pc = .search then
          Search.enter (fun j => (s.search.thread j).objective) s.search.targetFound
          else s.search }
  | .search =>
    match s.search.pc with
    | .done => (s.core.searched s.search.solution).map fun c => { s with core := c }
    | _ => (s.search.stepManage s.core.miner.target).map fun q => { s with search := q }
  | .write | .reject | .finish =>
    if s.held .minerToMonitorRead then
      (s.core.stepMiner nCycles).map fun c => { s with core := c }
    else some { s with miner := .exited, isOpen := s.closeAll .miner }
  | .read =>
    if s.core.monitorToMiner = [] then
      if s.held .monitorToMinerWrite then none
      else some { s with core := { s.core with miner := { s.core.miner with pc := .check } } }
    else (s.core.stepMiner nCycles).map fun c => { s with core := c }
  | .check => (s.core.stepMiner nCycles).map fun c => { s with core := c }
  | .returned _ => some { s with miner := .wait }

/-- One step of the miner process. -/
def stepMinerProc (nCycles : ℕ) (s : Processes n) : Option (Processes n) :=
  match s.miner with
  | .absent | .exited => none
  | .fork =>
    some { s with
      miner := .closeRead, monitor := .closeRead
      isOpen := Function.update s.isOpen .monitor (s.isOpen .miner) }
  | .closeRead =>
    some { s with miner := .closeWrite, isOpen := s.close .miner .minerToMonitorRead }
  | .closeWrite =>
    some { s with miner := .running, isOpen := s.close .miner .monitorToMinerWrite }
  | .running => s.runMiner nCycles
  | .wait =>
    if s.monitor = .exited then some { s with miner := .exited, isOpen := s.closeAll .miner }
    else none

/-- One step of the monitor process inside `monitor`. -/
def runMonitor (s : Processes n) : Option (Processes n) :=
  match s.core.monitor.pc with
  | .read =>
    if s.core.minerToMonitor = [] then
      if s.held .minerToMonitorWrite then none
      else some { s with core := { s.core with monitor := { s.core.monitor with pc := .check } } }
    else s.core.stepMonitor.map fun c => { s with core := c }
  | .check => s.core.stepMonitor.map fun c => { s with core := c }
  | .reply =>
    if s.held .monitorToMinerRead then s.core.stepMonitor.map fun c => { s with core := c }
    else some { s with monitor := .exited, isOpen := s.closeAll .monitor }
  | .exited _ => some { s with monitor := .exited, isOpen := s.closeAll .monitor }

/-- One step of the monitor process. -/
def stepMonitorProc (s : Processes n) : Option (Processes n) :=
  match s.monitor with
  | .absent | .exited => none
  | .closeRead =>
    some { s with monitor := .closeWrite, isOpen := s.close .monitor .monitorToMinerRead }
  | .closeWrite =>
    some { s with monitor := .running, isOpen := s.close .monitor .minerToMonitorWrite }
  | .running => s.runMonitor

/-- One step of a thread of the miner process. -/
def stepThread (s : Processes n) (j : Fin n) : Option (Processes n) :=
  if s.miner = .running ∧ s.core.miner.pc = .search then
    (s.search.next s.core.miner.target (.thread j)).map fun q => { s with search := q }
  else none

/-- One step of the program. -/
def next (nCycles : ℕ) (s : Processes n) : ProcessMove n → Option (Processes n)
  | .main => s.stepMain
  | .miner => s.stepMinerProc nCycles
  | .thread j => s.stepThread j
  | .monitor => s.stepMonitorProc

/-- After the two calls of `pipe`, with `core` as the two functions will find it. -/
def initial (core : Lockstep) (garbage : Fin n → Objective) : Processes n where
  main := .fork
  miner := .absent
  monitor := .absent
  isOpen p _ := decide (p = .main)
  core := core
  search := Search.enter garbage false

/-- The program `mrush` with arguments `target_ini`, `n_cycles` and `n_threads`. -/
def system (nThreads nCycles : ℕ) (targetIni : ℤ) :
    System (Processes nThreads) (ProcessMove nThreads) where
  Init s := ∃ core garbage, (Lockstep.system nCycles targetIni).Init core ∧
    s = initial core garbage
  next := next nCycles

/-! ### What the processes can do -/

/-- What holds of the processes between any two steps. -/
structure Inv (s : Processes n) : Prop where
  mainOpen : s.main ≠ .exited → ∀ e, s.isOpen .main e = true
  mainLast : s.main = .exited → s.miner = .exited
  minerLast : s.miner = .exited → s.monitor = .exited
  minerForked : s.main = .fork ↔ s.miner = .absent
  monitorForked : s.monitor = .absent ↔ s.miner = .absent ∨ s.miner = .fork
  minerReturned : s.miner = .wait → ∃ c, s.core.miner.pc = .returned c
  monitorReturned : s.monitor = .exited → ∃ c, s.core.monitor.pc = .exited c
  searching : s.core.miner.pc = .search → Search.Inv s.core.miner.target s.search

variable {nCycles : ℕ} {targetIni : ℤ} {s t : Processes n}

/-- While the monitor process exists, every pipe end is held. -/
theorem Inv.held (h : Inv s) (hmon : s.monitor ≠ .exited) (e : PipeEnd) : s.held e = true := by
  have hmain : s.main ≠ .exited := fun hexit => hmon (h.minerLast (h.mainLast hexit))
  simp [Processes.held, h.mainOpen hmain e]

/-- While the miner process exists, every pipe end is held. -/
theorem Inv.held' (h : Inv s) (hmin : s.miner ≠ .exited) (e : PipeEnd) : s.held e = true := by
  have hmain : s.main ≠ .exited := fun hexit => hmin (h.mainLast hexit)
  simp [Processes.held, h.mainOpen hmain e]

/-- While every end is held, the miner process inside `miner` is done with it, goes on with the
search, takes its result, or takes another step of `miner`. -/
theorem runMiner_cases (hheld : ∀ e, s.held e = true) (hn : s.runMiner nCycles = some t) :
    (∃ c, s.core.miner.pc = .returned c ∧ t = { s with miner := .wait }) ∨
    (∃ q, s.core.miner.pc = .search ∧ s.search.next s.core.miner.target .manage = some q ∧
      t = { s with search := q }) ∨
    (∃ c, s.core.miner.pc = .search ∧ s.search.pc = .done ∧
      s.core.searched s.search.solution = some c ∧ t = { s with core := c }) ∨
    (∃ c q, s.core.stepMiner nCycles = some c ∧ t = { s with core := c, search := q } ∧
      (c.miner.pc = .search → ∃ garbage found, q = Search.enter garbage found)) := by
  match hpc : s.core.miner.pc with
  | .returned c =>
    simp only [runMiner, hpc] at hn
    cases hn
    exact Or.inl ⟨c, rfl, rfl⟩
  | .search =>
    simp only [runMiner, hpc] at hn
    split at hn
    · rename_i hdone
      obtain ⟨c, hc, rfl⟩ := Option.map_eq_some_iff.mp hn
      exact Or.inr (Or.inr (Or.inl ⟨c, rfl, hdone, hc, rfl⟩))
    · obtain ⟨q, hq, rfl⟩ := Option.map_eq_some_iff.mp hn
      exact Or.inr (Or.inl ⟨q, rfl, hq, rfl⟩)
  -- only the head of the loop can begin a search
  | .head =>
    simp only [runMiner, hpc] at hn
    obtain ⟨c, hc, rfl⟩ := Option.map_eq_some_iff.mp hn
    refine Or.inr (Or.inr (Or.inr ⟨c, _, hc, rfl, fun hsearch => ⟨_, _, if_pos hsearch⟩⟩))
  | .write | .reject | .finish =>
    simp only [runMiner, hpc, hheld, if_true] at hn
    obtain ⟨c, hc, rfl⟩ := Option.map_eq_some_iff.mp hn
    refine Or.inr (Or.inr (Or.inr ⟨c, s.search, hc, rfl, fun hsearch => ?_⟩))
    simp only [Lockstep.stepMiner, hpc] at hc
    cases hc
    cases hsearch
  | .read =>
    simp only [runMiner, hpc, hheld, if_true] at hn
    split at hn
    · cases hn
    · obtain ⟨c, hc, rfl⟩ := Option.map_eq_some_iff.mp hn
      refine Or.inr (Or.inr (Or.inr ⟨c, s.search, hc, rfl, fun hsearch => ?_⟩))
      simp only [Lockstep.stepMiner, hpc] at hc
      split at hc <;> cases hc
      cases hsearch
  | .check =>
    simp only [runMiner, hpc] at hn
    obtain ⟨c, hc, rfl⟩ := Option.map_eq_some_iff.mp hn
    refine Or.inr (Or.inr (Or.inr ⟨c, s.search, hc, rfl, fun hsearch => ?_⟩))
    simp only [Lockstep.stepMiner, hpc] at hc
    split at hc <;> cases hc <;> cases hsearch

/-- While every end is held, the monitor process inside `monitor` exits or takes a step of
`monitor`. -/
theorem runMonitor_cases (hheld : ∀ e, s.held e = true) (hn : s.runMonitor = some t) :
    (∃ c, s.core.monitor.pc = .exited c ∧
      t = { s with monitor := .exited, isOpen := s.closeAll .monitor }) ∨
    (∃ c, s.core.stepMonitor = some c ∧ t = { s with core := c }) := by
  match hpc : s.core.monitor.pc with
  | .exited c =>
    simp only [runMonitor, hpc] at hn
    cases hn
    exact Or.inl ⟨c, rfl, rfl⟩
  | .read =>
    simp only [runMonitor, hpc, hheld, if_true] at hn
    split at hn
    · cases hn
    · obtain ⟨c, hc, rfl⟩ := Option.map_eq_some_iff.mp hn
      exact Or.inr ⟨c, hc, rfl⟩
  | .check =>
    simp only [runMonitor, hpc] at hn
    obtain ⟨c, hc, rfl⟩ := Option.map_eq_some_iff.mp hn
    exact Or.inr ⟨c, hc, rfl⟩
  | .reply =>
    simp only [runMonitor, hpc, hheld, if_true] at hn
    obtain ⟨c, hc, rfl⟩ := Option.map_eq_some_iff.mp hn
    exact Or.inr ⟨c, hc, rfl⟩

theorem inv_initial (core : Lockstep) (garbage : Fin n → Objective)
    (hcore : core.miner.pc = .head) : Inv (initial core garbage) where
  mainOpen _ _ := rfl
  mainLast h := nomatch h
  minerLast h := nomatch h
  minerForked := iff_of_true rfl rfl
  monitorForked := iff_of_true rfl (Or.inl rfl)
  minerReturned h := nomatch h
  monitorReturned h := nomatch h
  searching h := by
    rw [show (initial core garbage).core.miner.pc = .head from hcore] at h
    cases h

/-- The parent's steps keep the invariant. No process but `main` closes an end of `main`. -/
theorem inv_stepMain (h : Inv s) (hn : s.stepMain = some t) : Inv t := by
  match hpc : s.main with
  | .exited => simp [stepMain, hpc] at hn
  | .fork =>
    have habsent := h.minerForked.mp hpc
    simp only [stepMain, hpc] at hn
    cases hn
    exact {
      mainOpen := fun _ => h.mainOpen (by rw [hpc]; decide)
      mainLast := fun hx => nomatch hx
      minerLast := fun hx => nomatch hx
      minerForked := iff_of_false (by simp) (by simp)
      monitorForked := iff_of_true (h.monitorForked.mpr (Or.inl habsent)) (Or.inr rfl)
      minerReturned := fun hx => nomatch hx
      monitorReturned := h.monitorReturned
      searching := h.searching }
  | .wait =>
    simp only [stepMain, hpc] at hn
    split at hn <;> cases hn
    rename_i hexit
    exact { h with
      mainOpen := fun hx => absurd rfl hx
      mainLast := fun _ => hexit
      minerForked := iff_of_false (by simp) (by change s.miner ≠ _; rw [hexit]; decide) }

/-- The steps of the miner process keep the invariant. -/
theorem inv_stepMinerProc (h : Inv s) (hn : s.stepMinerProc nCycles = some t) : Inv t := by
  have hmain : s.miner ≠ .exited → s.main ≠ .exited := fun hne hx => hne (h.mainLast hx)
  match hpc : s.miner with
  | .absent | .exited => simp [stepMinerProc, hpc] at hn
  | .fork =>
    have hne := hmain (by rw [hpc]; decide)
    have hfork : s.main ≠ .fork := by rw [Ne, h.minerForked, hpc]; decide
    simp only [stepMinerProc, hpc] at hn
    cases hn
    exact {
      mainOpen := fun _ => h.mainOpen hne
      mainLast := fun hx => absurd hx hne
      minerLast := fun hx => nomatch hx
      minerForked := iff_of_false hfork (by simp)
      monitorForked := iff_of_false (by simp) (by simp)
      minerReturned := fun hx => nomatch hx
      monitorReturned := fun hx => nomatch hx
      searching := h.searching }
  | .closeRead | .closeWrite =>
    have hne := hmain (by rw [hpc]; decide)
    have hfork : s.main ≠ .fork := by rw [Ne, h.minerForked, hpc]; decide
    have hmon : s.monitor ≠ .absent := by rw [Ne, h.monitorForked, hpc]; decide
    simp only [stepMinerProc, hpc] at hn
    cases hn
    exact {
      mainOpen := fun _ => h.mainOpen hne
      mainLast := fun hx => absurd hx hne
      minerLast := fun hx => nomatch hx
      minerForked := iff_of_false hfork (by simp)
      monitorForked := iff_of_false hmon (by simp)
      minerReturned := fun hx => nomatch hx
      monitorReturned := h.monitorReturned
      searching := h.searching }
  | .wait =>
    have hne := hmain (by rw [hpc]; decide)
    have hfork : s.main ≠ .fork := by rw [Ne, h.minerForked, hpc]; decide
    simp only [stepMinerProc, hpc] at hn
    split at hn <;> cases hn
    rename_i hexit
    exact {
      mainOpen := fun _ => h.mainOpen hne
      mainLast := fun _ => rfl
      minerLast := fun _ => hexit
      minerForked := iff_of_false hfork (by simp)
      monitorForked := iff_of_false (by change s.monitor ≠ _; rw [hexit]; decide) (by simp)
      minerReturned := fun hx => nomatch hx
      monitorReturned := h.monitorReturned
      searching := h.searching }
  | .running =>
    have hne := hmain (by rw [hpc]; decide)
    have hfork : s.main ≠ .fork := by rw [Ne, h.minerForked, hpc]; decide
    have hmon : s.monitor ≠ .absent := by rw [Ne, h.monitorForked, hpc]; decide
    simp only [stepMinerProc, hpc] at hn
    rcases runMiner_cases (h.held' (by rw [hpc]; decide)) hn with
      ⟨c, hc, rfl⟩ | ⟨q, hsearch, hq, rfl⟩ | ⟨c, hsearch, hdone, hc, rfl⟩ | ⟨c, q, hc, rfl, hq⟩
    · exact { h with
        mainLast := fun hx => absurd hx hne
        minerLast := fun hx => nomatch hx
        minerForked := iff_of_false hfork (by simp)
        monitorForked := iff_of_false hmon (by simp)
        minerReturned := fun _ => ⟨c, hc⟩ }
    · exact { h with searching := fun _ => Search.inv_next (h.searching hsearch) hq }
    -- the result of the search is taken
    · have hmonitor : c.monitor = s.core.monitor := by
        simp only [Lockstep.searched, hsearch] at hc
        cases hc
        rfl
      have hleft : c.miner.pc ≠ .search := by
        simp only [Lockstep.searched, hsearch] at hc
        cases hc
        simp only
        split <;> simp
      exact { h with
        minerReturned := fun hx => by rw [show s.miner = .wait from hx] at hpc; cases hpc
        monitorReturned := fun hx => by rw [hmonitor]; exact h.monitorReturned hx
        searching := fun hx => absurd hx hleft }
    · have hmonitor : c.monitor = s.core.monitor := by
        simp only [Lockstep.stepMiner] at hc
        split at hc <;> (try split at hc) <;> cases hc <;> rfl
      exact { h with
        minerReturned := fun hx => by rw [show s.miner = .wait from hx] at hpc; cases hpc
        monitorReturned := fun hx => by rw [hmonitor]; exact h.monitorReturned hx
        searching := fun hx => by
          obtain ⟨garbage, found, rfl⟩ := hq hx
          exact Search.inv_enter garbage found }

/-- The steps of the monitor process keep the invariant. -/
theorem inv_stepMonitorProc (h : Inv s) (hn : s.stepMonitorProc = some t) : Inv t := by
  have hmin : s.monitor ≠ .exited → s.miner ≠ .exited := fun hne hx => hne (h.minerLast hx)
  match hpc : s.monitor with
  | .absent | .exited => simp [stepMonitorProc, hpc] at hn
  | .closeRead | .closeWrite =>
    have hne := hmin (by rw [hpc]; decide)
    have hmain : s.main ≠ .exited := fun hx => hne (h.mainLast hx)
    have hforked : ¬ (s.miner = .absent ∨ s.miner = .fork) := by
      rw [← h.monitorForked, hpc]
      decide
    simp only [stepMonitorProc, hpc] at hn
    cases hn
    exact { h with
      mainOpen := fun _ => h.mainOpen hmain
      minerLast := fun hx => absurd hx hne
      monitorForked := iff_of_false (by simp) hforked
      monitorReturned := fun hx => nomatch hx }
  | .running =>
    have hne := hmin (by rw [hpc]; decide)
    have hmain : s.main ≠ .exited := fun hx => hne (h.mainLast hx)
    have hforked : ¬ (s.miner = .absent ∨ s.miner = .fork) := by
      rw [← h.monitorForked, hpc]
      decide
    simp only [stepMonitorProc, hpc] at hn
    rcases runMonitor_cases (h.held (by rw [hpc]; decide)) hn with ⟨c, hc, rfl⟩ | ⟨c, hc, rfl⟩
    · exact { h with
        mainOpen := fun _ => h.mainOpen hmain
        minerLast := fun _ => rfl
        monitorForked := iff_of_false (by simp) hforked
        monitorReturned := fun _ => ⟨c, hc⟩ }
    · have hminer := Lockstep.miner_stepMonitor hc
      exact { h with
        minerReturned := fun hx => by rw [hminer]; exact h.minerReturned hx
        monitorReturned := fun hx => by rw [show s.monitor = .exited from hx] at hpc; cases hpc
        searching := fun hx => by
          rw [hminer] at hx ⊢
          exact h.searching hx }

/-- **Step lemma.** Every step of the program keeps the invariant. -/
theorem inv_next {a : ProcessMove n} (h : Inv s) (hn : next nCycles s a = some t) : Inv t := by
  cases a with
  | main => exact inv_stepMain h hn
  | miner => exact inv_stepMinerProc h hn
  | monitor => exact inv_stepMonitorProc h hn
  | thread j =>
    simp only [next, stepThread] at hn
    split at hn
    · rename_i hrun
      obtain ⟨q, hq, rfl⟩ := Option.map_eq_some_iff.mp hn
      exact { h with searching := fun _ => Search.inv_next (h.searching hrun.2) hq }
    · cases hn

/-- **Run lemma.** -/
theorem inv_reachable (h : (system n nCycles targetIni).Reachable s) : Inv s := by
  refine h.induct ?_ fun _ _ _ hs hn => inv_next hs hn
  rintro _ ⟨core, garbage, ⟨a, b, c, rfl⟩, rfl⟩
  exact inv_initial _ garbage rfl

/-! ### Projection to miner and monitor -/

/-- A step of the program is a step of miner and monitor with a sound search, or leaves them
alone. -/
theorem core_next {a : ProcessMove n} (h : Inv s) (hn : next nCycles s a = some t) :
    t.core = s.core ∨ ∃ b, Lockstep.SoundSearch (reach n) s.core b ∧
      Lockstep.next nCycles s.core b = some t.core := by
  cases a with
  | main =>
    left
    simp only [next, stepMain] at hn
    split at hn
    · cases hn
      rfl
    · split at hn <;> cases hn
      rfl
    · cases hn
  | thread j =>
    left
    simp only [next, stepThread] at hn
    split at hn
    · obtain ⟨q, -, rfl⟩ := Option.map_eq_some_iff.mp hn
      rfl
    · cases hn
  | miner =>
    simp only [next] at hn
    match hpc : s.miner with
    | .absent | .exited => simp [stepMinerProc, hpc] at hn
    | .fork | .closeRead | .closeWrite =>
      simp only [stepMinerProc, hpc] at hn
      cases hn
      exact Or.inl rfl
    | .wait =>
      simp only [stepMinerProc, hpc] at hn
      split at hn <;> cases hn
      exact Or.inl rfl
    | .running =>
      simp only [stepMinerProc, hpc] at hn
      rcases runMiner_cases (h.held' (by rw [hpc]; decide)) hn with
        ⟨c, hc, rfl⟩ | ⟨q, hsearch, hq, rfl⟩ | ⟨c, hsearch, hdone, hc, rfl⟩ | ⟨c, q, hc, rfl, -⟩
      · exact Or.inl rfl
      · exact Or.inl rfl
      -- what the threads return is what a sound search may return
      · exact Or.inr ⟨.searched s.search.solution, (h.searching hsearch).result hdone, hc⟩
      · exact Or.inr ⟨.miner, trivial, hc⟩
  | monitor =>
    simp only [next] at hn
    match hpc : s.monitor with
    | .absent | .exited => simp [stepMonitorProc, hpc] at hn
    | .closeRead | .closeWrite =>
      simp only [stepMonitorProc, hpc] at hn
      cases hn
      exact Or.inl rfl
    | .running =>
      simp only [stepMonitorProc, hpc] at hn
      rcases runMonitor_cases (h.held (by rw [hpc]; decide)) hn with ⟨c, hc, rfl⟩ | ⟨c, hc, rfl⟩
      · exact Or.inl rfl
      · exact Or.inr ⟨.monitor, trivial, hc⟩

/-- **Simulation.** Every run of the program is a run of miner and monitor with a sound
search. -/
theorem core_reachableBy (h : (system n nCycles targetIni).Reachable s) :
    (Lockstep.system nCycles targetIni).ReachableBy (Lockstep.SoundSearch (reach n)) s.core := by
  refine h.map ?_ fun s a t hs _ hn => core_next (inv_reachable hs) hn
  rintro _ ⟨core, garbage, hcore, rfl⟩
  exact hcore

end Processes

end Soper.MRush
