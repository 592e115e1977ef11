import Soper.Library.NameSetup

/-!
# The semaphores of the voting program

Before it forks its voters, `main` creates `/sem_candidate`, `/sem_file` and `/sem_signal`
exclusively and then unlinks the three names, so that each run of the program has semaphores of
its own. Any number of runs may be set up at the same time, by anybody.

A run never unlinks a semaphore of another (`ownSemaphores_reachable`). But a `sem_open` that
fails exits without unlinking what the ones before it have created, and so does SIGALRM, which
`main` asks for before it has a handler. The names that are left are never unlinked, and all later
runs fail at them (`locked_out`). While nobody is in the middle of the set-up, the program can be
started if and only if no run has ended in the middle of it (`canStart_iff_nothing_left`). Two runs
started at the same time are enough (`locked_out_by_overlap`).
-/

namespace Soper.Voting

/-- The names of the semaphores. -/
inductive SemName
  /-- `SEM_CANDIDATE`. -/
  | candidate
  /-- `SEM_FILE`. -/
  | file
  /-- `SEM_SIGNAL`. -/
  | signal
  deriving DecidableEq

/-- The calls of `main` on names, in their order. -/
inductive SetupCall
  /-- `sem_open` with `O_CREAT | O_EXCL`. -/
  | openCandidate
  | openFile
  | openSignal
  /-- `sem_unlink`. -/
  | unlinkCandidate
  | unlinkFile
  | unlinkSignal
  deriving DecidableEq

/-- Where a run of `main` stands. -/
inductive SetupPc
  | call (c : SetupCall)
  /-- The names are unlinked, and the voters can be forked. -/
  | started
  /-- The process has ended at this call. -/
  | gone (c : SetupCall)
  deriving DecidableEq

/-- The names that exist, with the run that has created them, and the runs of the program. -/
structure Setup (ι : Type) where
  names : SemName → Option ι
  main : ι → SetupPc

namespace Setup

open NameSetup (Step)

variable {ι : Type} [DecidableEq ι]

/-- `sem_open` with `O_CREAT | O_EXCL`; where the name exists, `main` exits with
`EXIT_FAILURE`. -/
def semOpen (s : Setup ι) (i : ι) (x : SemName) (c : SetupCall) (cont : SetupPc) : Setup ι :=
  match s.names x with
  | none =>
    { names := Function.update s.names x (some i), main := Function.update s.main i cont }
  | some _ => { s with main := Function.update s.main i (.gone c) }

/-- `sem_unlink`. -/
def semUnlink (s : Setup ι) (i : ι) (x : SemName) (cont : SetupPc) : Setup ι :=
  { names := Function.update s.names x none, main := Function.update s.main i cont }

/-- The run `i` makes its next call, or it ends there: by a signal, or because the call fails for
another reason. -/
def next (s : Setup ι) : Step ι → Option (Setup ι)
  | .call i =>
    match s.main i with
    | .call .openCandidate => some (s.semOpen i .candidate .openCandidate (.call .openFile))
    | .call .openFile => some (s.semOpen i .file .openFile (.call .openSignal))
    | .call .openSignal => some (s.semOpen i .signal .openSignal (.call .unlinkCandidate))
    | .call .unlinkCandidate => some (s.semUnlink i .candidate (.call .unlinkFile))
    | .call .unlinkFile => some (s.semUnlink i .file (.call .unlinkSignal))
    | .call .unlinkSignal => some (s.semUnlink i .signal .started)
    | .started | .gone _ => none
  | .stop i =>
    match s.main i with
    | .call c => some { s with main := Function.update s.main i (.gone c) }
    | .started | .gone _ => none

/-- No semaphore exists, and no run has begun. -/
def initial : Setup ι := ⟨fun _ => none, fun _ => .call .openCandidate⟩

/-- Runs of the program that begin whenever they like. -/
def system (ι : Type) [DecidableEq ι] : System (Setup ι) (Step ι) where
  Init s := s = initial
  next := next

/-- What goes on from the state `s`. -/
def after (s : Setup ι) : System (Setup ι) (Step ι) where
  Init t := t = s
  next := next

/-! ### The set-up of three names -/

/-- The names by their positions. -/
def owner (names : SemName → Option ι) : ℕ → Option ι
  | 0 => names .candidate
  | 1 => names .file
  | 2 => names .signal
  | _ + 3 => none

end Setup

/-- The position of a name in the order of the calls. -/
def SemName.index : SemName → ℕ
  | .candidate => 0
  | .file => 1
  | .signal => 2

/-- The call as one of the set-up of three names. -/
def SetupCall.toPc : SetupCall → NameSetup.Pc
  | .openCandidate => .create 0
  | .openFile => .create 1
  | .openSignal => .create 2
  | .unlinkCandidate => .unlink 0
  | .unlinkFile => .unlink 1
  | .unlinkSignal => .unlink 2

/-- What a run that ends at the call leaves. -/
def SetupCall.toEnded : SetupCall → NameSetup.Pc
  | .openCandidate => .ended 0 0
  | .openFile => .ended 0 1
  | .openSignal => .ended 0 2
  | .unlinkCandidate => .ended 0 3
  | .unlinkFile => .ended 1 3
  | .unlinkSignal => .ended 2 3

def SetupPc.toPc : SetupPc → NameSetup.Pc
  | .call c => c.toPc
  | .started => .running
  | .gone c => c.toEnded

@[simp]
theorem SetupPc.toPc_call (c : SetupCall) : (SetupPc.call c).toPc = c.toPc := rfl

@[simp]
theorem SetupPc.toPc_started : SetupPc.started.toPc = .running := rfl

@[simp]
theorem SetupPc.toPc_gone (c : SetupCall) : (SetupPc.gone c).toPc = c.toEnded := rfl

namespace Setup

open NameSetup (Step)

variable {ι : Type} {s t : Setup ι} {i m : ι}

/-- The set-up of three names that the runs of the program make. -/
def toNameSetup (s : Setup ι) : NameSetup ι := ⟨owner s.names, fun i => (s.main i).toPc⟩

theorem owner_index (names : SemName → Option ι) (x : SemName) :
    owner names x.index = names x := by
  cases x <;> rfl

theorem owner_update (names : SemName → Option ι) (x : SemName) (v : Option ι) :
    owner (Function.update names x v) = Function.update (owner names) x.index v := by
  funext j
  match j with
  | 0 | 1 | 2 => cases x <;> simp [owner, SemName.index, Function.update]
  | _ + 3 => cases x <;> simp [owner, SemName.index]

theorem toNameSetup_initial : (initial : Setup ι).toNameSetup = NameSetup.initial := by
  have howner : owner (fun _ => none : SemName → Option ι) = fun _ => none := by
    funext j
    match j with
    | 0 | 1 | 2 | _ + 3 => rfl
  exact congrArg (NameSetup.mk · fun _ => .create 0) howner

variable [DecidableEq ι]

theorem toPc_update (main : ι → SetupPc) (i : ι) (pc : SetupPc) :
    (fun j => (Function.update main i pc j).toPc) =
      Function.update (fun j => (main j).toPc) i pc.toPc := by
  funext j
  by_cases hj : j = i
  · subst hj
    simp
  · simp [hj]

/-- `sem_open` is a creation. -/
theorem next_semOpen {x : SemName} {c : SetupCall} {cont : SetupPc}
    (hpc : (s.main i).toPc = .create x.index) (hc : c.toEnded = .ended 0 x.index)
    (hcont : cont.toPc = NameSetup.created 3 x.index) :
    NameSetup.next 3 s.toNameSetup (.call i) = some (s.semOpen i x c cont).toNameSetup := by
  cases hx : s.names x with
  | none =>
    simp [NameSetup.next, toNameSetup, semOpen, hpc, owner_index, hx, owner_update, toPc_update,
      hcont]
  | some m =>
    simp [NameSetup.next, toNameSetup, semOpen, hpc, owner_index, hx, toPc_update, hc]

/-- `sem_unlink` is a removal. -/
theorem next_semUnlink {x : SemName} {cont : SetupPc}
    (hpc : (s.main i).toPc = .unlink x.index)
    (hcont : cont.toPc = NameSetup.unlinked 3 x.index) :
    NameSetup.next 3 s.toNameSetup (.call i) = some (s.semUnlink i x cont).toNameSetup := by
  simp [NameSetup.next, toNameSetup, semUnlink, hpc, owner_update, toPc_update, hcont]

/-- **Each step is a step of the set-up of three names**, and the other way round. -/
theorem map_next (s : Setup ι) (a : Step ι) :
    (next s a).map toNameSetup = NameSetup.next 3 s.toNameSetup a := by
  cases a with
  | call i =>
    cases hpc : s.main i with
    | call c =>
      cases c with
      | openCandidate | openFile | openSignal =>
        simp only [next, hpc, Option.map_some]
        exact (next_semOpen (by rw [hpc]; rfl) rfl rfl).symm
      | unlinkCandidate | unlinkFile | unlinkSignal =>
        simp only [next, hpc, Option.map_some]
        exact (next_semUnlink (by rw [hpc]; rfl) rfl).symm
    | started => simp [next, NameSetup.next, toNameSetup, hpc]
    | gone c => cases c <;> simp [next, NameSetup.next, toNameSetup, hpc, SetupCall.toEnded]
  | stop i =>
    cases hpc : s.main i with
    | call c =>
      cases c <;>
        simp [next, NameSetup.next, toNameSetup, hpc, SetupCall.toPc, SetupCall.toEnded,
          toPc_update]
    | started => simp [next, NameSetup.next, toNameSetup, hpc]
    | gone c => cases c <;> simp [next, NameSetup.next, toNameSetup, hpc, SetupCall.toEnded]

/-- The runs of the program make a set-up of three names. -/
theorem toNameSetup_reachable (h : (system ι).Reachable s) :
    (NameSetup.system 3).Reachable s.toNameSetup := by
  refine h.map (fun s hs => ?_) fun s a t _ _ hn => Or.inr ⟨a, trivial, ?_⟩
  · rw [show s = initial from hs]
    exact toNameSetup_initial
  · exact (map_next s a).symm.trans (Option.map_eq_some_iff.mpr ⟨t, hn, rfl⟩)

/-- What goes on is a set-up of three names. -/
theorem toNameSetup_after (h : (after s).Reachable t) :
    (NameSetup.after 3 s.toNameSetup).Reachable t.toNameSetup := by
  refine h.map (fun t ht => ?_) fun s a t _ _ hn => Or.inr ⟨a, trivial, ?_⟩
  · exact congrArg toNameSetup ht
  · exact (map_next s a).symm.trans (Option.map_eq_some_iff.mpr ⟨t, hn, rfl⟩)

/-- Every way on with three names is one of the program. -/
theorem exists_after {u : NameSetup ι} (h : (NameSetup.after 3 s.toNameSetup).Reachable u) :
    ∃ t, (after s).Reachable t ∧ t.toNameSetup = u :=
  h.exists_eq_map (fun _ hu => ⟨s, rfl, hu.symm⟩) map_next

theorem inv_toNameSetup (h : (system ι).Reachable s) : NameSetup.Inv 3 s.toNameSetup :=
  NameSetup.inv_reachable (by decide) (toNameSetup_reachable h)

end Setup

/-! ### Whose the names are -/

/-- The names that a run has created and not unlinked. -/
def SetupPc.Holds : SetupPc → SemName → Prop
  | .call .openCandidate, _ | .gone .openCandidate, _ | .started, _ => False
  | .call .openFile, x | .gone .openFile, x => x = .candidate
  | .call .openSignal, x | .gone .openSignal, x => x ≠ .signal
  | .call .unlinkCandidate, _ | .gone .unlinkCandidate, _ => True
  | .call .unlinkFile, x | .gone .unlinkFile, x => x ≠ .candidate
  | .call .unlinkSignal, x | .gone .unlinkSignal, x => x = .signal

theorem SetupPc.holds_toPc (pc : SetupPc) (x : SemName) :
    pc.toPc.Holds 3 x.index ↔ pc.Holds x := by
  cases pc with
  | call c | gone c =>
    cases c <;> cases x <;>
      simp [SetupCall.toPc, SetupCall.toEnded, NameSetup.Pc.Holds, SemName.index, SetupPc.Holds]
  | started => rfl

/-- The name a call unlinks. -/
def SetupCall.unlinks : SetupCall → Option SemName
  | .openCandidate | .openFile | .openSignal => none
  | .unlinkCandidate => some .candidate
  | .unlinkFile => some .file
  | .unlinkSignal => some .signal

namespace Setup

open NameSetup (Step)

variable {ι : Type} [DecidableEq ι] {s t : Setup ι} {i m : ι}

/-- Every name that exists is in the hands of the run that has created it. -/
structure OwnSemaphores (s : Setup ι) : Prop where
  names : ∀ x i, s.names x = some i ↔ (s.main i).Holds x
  /-- A run unlinks the semaphore it has created, and no other. -/
  unlink : ∀ i c x, s.main i = .call c → c.unlinks = some x → s.names x = some i
  /-- Two runs never share a name. -/
  apart : ∀ i j x, (s.main i).Holds x → (s.main j).Holds x → i = j

/-- **Each run has semaphores of its own**, however many are set up at the same time. -/
theorem ownSemaphores_reachable (h : (system ι).Reachable s) : OwnSemaphores s := by
  have hinv := inv_toNameSetup h
  have hnames : ∀ x i, s.names x = some i ↔ (s.main i).Holds x := by
    intro x i
    rw [← owner_index s.names x, ← SetupPc.holds_toPc]
    exact hinv.owner i x.index
  constructor
  · exact hnames
  · intro i c x hpc hx
    rw [hnames x i, hpc]
    cases c <;> cases x <;> simp [SetupCall.unlinks, SetupPc.Holds] at hx ⊢
  · intro i j x hi hj
    have hi' := (hnames x i).mpr hi
    rw [(hnames x j).mpr hj] at hi'
    exact (Option.some.inj hi').symm

/-- An instance: two runs hold one name each. -/
theorem ownSemaphores_two_runs :
    ∃ s : Setup (Fin 2), s.names .candidate = some 1 ∧ s.names .signal = some 0 ∧
      OwnSemaphores s := by
  have hinit : (system (Fin 2)).Reachable initial := .init rfl
  obtain ⟨s, hs, hend⟩ : ∃ s, (system (Fin 2)).run initial
      (List.replicate 5 (.call 0) ++ [.call 1]) = some s ∧
      (s.names .candidate, s.names .signal) = (some 1, some 0) :=
    Option.map_eq_some_iff.mp (by decide +kernel)
  simp only [Prod.mk.injEq] at hend
  exact ⟨s, hend.1, hend.2, ownSemaphores_reachable (hinit.run hs)⟩

end Setup

/-! ### Who can still start -/

/-- In the middle of the set-up. -/
def SetupPc.busy : SetupPc → Bool
  | .call .openCandidate | .started | .gone _ => false
  | .call _ => true

/-- The run has ended in the middle of its set-up. -/
def SetupPc.leaves : SetupPc → Bool
  | .gone .openCandidate | .started | .call _ => false
  | .gone _ => true

theorem SetupPc.busy_toPc (pc : SetupPc) : pc.toPc.Busy ↔ pc.busy = true := by
  cases pc with
  | call c | gone c =>
    cases c <;> simp [SetupCall.toPc, SetupCall.toEnded, NameSetup.Pc.Busy, SetupPc.busy]
  | started => simp [NameSetup.Pc.Busy, SetupPc.busy]

theorem SetupPc.leaves_toPc (pc : SetupPc) : pc.toPc.Leaves ↔ pc.leaves = true := by
  cases pc with
  | call c | gone c =>
    cases c <;> simp [SetupCall.toPc, SetupCall.toEnded, NameSetup.Pc.Leaves, SetupPc.leaves]
  | started => simp [NameSetup.Pc.Leaves, SetupPc.leaves]

theorem SetupPc.started_of_toPc {pc : SetupPc} (h : pc.toPc = .running) : pc = .started := by
  cases pc with
  | call c | gone c => cases c <;> cases h
  | started => rfl

namespace Setup

open NameSetup (Step)

variable {ι : Type} [DecidableEq ι] {s t : Setup ι} {i m : ι}

omit [DecidableEq ι] in
theorem pc_of_openCandidate (hm : s.main m = .call .openCandidate) :
    s.toNameSetup.pc m = .create 0 := by
  simp [toNameSetup, hm, SetupCall.toPc]

/-- **Locked out for good.** Once a run has ended in the middle of its set-up, whatever the others
are doing, a run that has not begun never comes to fork its voters. -/
theorem locked_out (h : (system ι).Reachable s) (hi : (s.main i).leaves = true)
    (hm : s.main m = .call .openCandidate) (ht : (after s).Reachable t) :
    t.main m ≠ .started := by
  intro hstart
  refine NameSetup.locked_out (inv_toNameSetup h) ((SetupPc.leaves_toPc (s.main i)).mpr hi)
    (pc_of_openCandidate hm) (toNameSetup_after ht) ?_
  simp [toNameSetup, hstart]

/-- **Who can still start.** While nobody is in the middle of the set-up, the program can be
started, now or ever, if and only if no run has ended in the middle of it. -/
theorem canStart_iff_nothing_left (h : (system ι).Reachable s)
    (hrest : ∀ i, (s.main i).busy = false) (hm : s.main m = .call .openCandidate) :
    (∃ t, (after s).Reachable t ∧ t.main m = .started) ↔ ∀ i, (s.main i).leaves = false := by
  have hk : 0 < 3 := by decide
  have hbusy : ∀ i, ¬ (s.toNameSetup.pc i).Busy := by
    intro i hb
    have := (SetupPc.busy_toPc (s.main i)).mp hb
    rw [hrest i] at this
    cases this
  have hiff := NameSetup.canStart_iff hk (toNameSetup_reachable h) hbusy (pc_of_openCandidate hm)
  constructor
  · rintro ⟨t, ht, hstart⟩ i
    by_contra hleaves
    exact locked_out h (by simpa using hleaves) hm ht hstart
  · intro hnone
    obtain ⟨u, hu, hrun⟩ := hiff.mpr fun i hl => by
      have := (SetupPc.leaves_toPc (s.main i)).mp hl
      rw [hnone i] at this
      cases this
    obtain ⟨t, ht, rfl⟩ := exists_after hu
    exact ⟨t, ht, SetupPc.started_of_toPc hrun⟩

/-- An instance: run 1 creates `/sem_candidate` after run 0 has unlinked it, and meets
`/sem_file`, which run 0 has not unlinked yet. Run 2 can never start. -/
theorem locked_out_by_overlap :
    ∃ s : Setup (Fin 3), s.main 0 = .started ∧ s.main 1 = .gone .openFile ∧
      ¬ ∃ t, (after s).Reachable t ∧ t.main 2 = .started := by
  have hinit : (system (Fin 3)).Reachable initial := .init rfl
  obtain ⟨s, hs, hend⟩ : ∃ s, (system (Fin 3)).run initial (List.replicate 4 (.call 0) ++
      List.replicate 2 (.call 1) ++ List.replicate 2 (.call 0)) = some s ∧
      List.map s.main [0, 1, 2] = [.started, .gone .openFile, .call .openCandidate] :=
    Option.map_eq_some_iff.mp (by decide +kernel)
  simp only [List.map_cons, List.map_nil, List.cons.injEq, and_true] at hend
  obtain ⟨h0, h1, h2⟩ := hend
  have hrest : ∀ i, (s.main i).busy = false := by
    intro i
    match i with
    | 0 => rw [h0]; rfl
    | 1 => rw [h1]; rfl
    | 2 => rw [h2]; rfl
  refine ⟨s, h0, h1, fun hstart => ?_⟩
  have hnone := (canStart_iff_nothing_left (hinit.run hs) hrest h2).mp hstart 1
  rw [h1] at hnone
  cases hnone

end Setup

end Soper.Voting
