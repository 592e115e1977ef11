import Soper.Library.Loop
import Soper.MRush.Lockstep

/-!
# The loop of the monitor

The function `monitor` alone, on an arbitrary finite stream of messages followed by end of file.
The variable `nbytes` is the result of `read`, then of `write`, and is also what the loop tests:
a rejection sets it to zero, but the `write` that follows overwrites it, and so does the one
after an end of file, at which `solution` still holds the message before.

Each message before the first `-1` gets one verdict, in order (`verdicts`). The loop ends at a
`-1` and nowhere else: at the end of the stream it answers its last message again and again,
unless it has not received any and `solution` happens to hold `-1` (`answers_iff`).
-/

namespace Soper.MRush

/-- `sizeof(int)`, which a successful `read` or `write` returns. -/
def sizeofInt : ℤ := 4

/-- The messages still to be read, the variables of `monitor`, and the verdicts written. -/
structure MonitorLoop where
  input : List ℤ
  nbytes : ℤ
  target : ℤ
  solution : ℤ
  solutionCheck : ℤ
  written : List ℤ
  deriving DecidableEq

namespace MonitorLoop

/-- `nbytes = read(miner_to_monitor, &solution, ..)`: at end of file it returns zero and leaves
`solution` as it is. -/
def readMessage (s : MonitorLoop) : MonitorLoop :=
  match s.input with
  | v :: rest => { s with input := rest, solution := v, nbytes := sizeofInt }
  | [] => { s with nbytes := 0 }

/-- `if (target == pow_hash(solution))`. -/
def judge (s : MonitorLoop) : MonitorLoop :=
  if s.target = powHash s.solution then { s with solutionCheck := 0, target := s.solution }
  else { s with solutionCheck := 1, nbytes := 0 }

/-- `nbytes = write(monitor_to_miner, &solution_check, ..)`. -/
def writeVerdict (s : MonitorLoop) : MonitorLoop :=
  { s with written := s.written ++ [s.solutionCheck], nbytes := sizeofInt }

/-- The body of the loop. -/
def body (s : MonitorLoop) : MonitorLoop :=
  if s.readMessage.solution ≠ -1 then s.readMessage.judge.writeVerdict
  else { s.readMessage with nbytes := 0 }

/-- `while (nbytes != 0)`. -/
def GoOn (s : MonitorLoop) : Prop := s.nbytes ≠ 0

instance : DecidablePred GoOn := fun s => inferInstanceAs (Decidable (s.nbytes ≠ 0))

/-- The call of `monitor` on a stream; `a` and `b` stand in the variables the code leaves
uninitialised. -/
def start (target a b : ℤ) (input : List ℤ) : MonitorLoop where
  input := input
  nbytes := 0
  target := target
  solution := a
  solutionCheck := b
  written := []

/-- The verdicts due on a list of messages: `0` for one whose hash is the current target, which
it then replaces, and `1` for any other. -/
def verdicts : ℤ → List ℤ → List ℤ
  | _, [] => []
  | target, v :: l =>
    if powHash v = target then 0 :: verdicts v l else 1 :: verdicts target l

/-- The messages before the first `-1`. -/
def beforeEnd (input : List ℤ) : List ℤ := input.takeWhile fun v => decide (v ≠ -1)

/-- The loop ends, and has written one verdict for each message before the first `-1`. -/
def Answers (target a b : ℤ) (input : List ℤ) : Prop :=
  ∃ t, DoWhile.Ends body GoOn (start target a b input) t ∧
    t.written = verdicts target (beforeEnd input)

variable {s : MonitorLoop} {v : ℤ} {rest : List ℤ}

/-! ### One pass -/

/-- A message other than `-1` is answered, and the loop goes on. -/
theorem body_of_message (hin : s.input = v :: rest) (hv : v ≠ -1) :
    body s = { s with
      input := rest
      nbytes := sizeofInt
      target := if powHash v = s.target then v else s.target
      solution := v
      solutionCheck := if powHash v = s.target then 0 else 1
      written := s.written ++ [if powHash v = s.target then 0 else 1] } := by
  simp only [body, readMessage, hin, ne_eq, hv, not_false_eq_true, if_true, judge, writeVerdict]
  by_cases heq : powHash v = s.target
  · rw [if_pos heq.symm]
    simp [heq]
  · rw [if_neg fun h => heq h.symm]
    simp [heq]

/-- The message `-1` ends the loop. -/
theorem body_of_end (hin : s.input = -1 :: rest) :
    body s = { s with input := rest, nbytes := 0, solution := -1 } := by
  simp [body, readMessage, hin]

/-- At end of file the message before is judged and answered once more. -/
theorem body_of_eof (hin : s.input = []) (hsol : s.solution ≠ -1) :
    (body s).input = [] ∧ (body s).solution = s.solution ∧ (body s).nbytes = sizeofInt := by
  simp only [body, readMessage, hin, hsol, ne_eq, not_false_eq_true, if_true, writeVerdict, judge]
  split <;> simp

/-- Where a message is there, a pass is what three steps of `monitor` do in lock step with the
miner. -/
theorem stepMonitor_body {core : Lockstep} (hpc : core.monitor.pc = .read)
    (hin : core.minerToMonitor = v :: rest) (hv : v ≠ -1) (nbytes : ℤ) :
    ∃ c, ((core.stepMonitor.bind Lockstep.stepMonitor).bind Lockstep.stepMonitor) = some c ∧
      c.monitor.pc = .read ∧
      body ⟨core.minerToMonitor, nbytes, core.monitor.target, core.monitor.solution,
          core.monitor.solutionCheck, core.monitorToMiner⟩ =
        ⟨c.minerToMonitor, sizeofInt, c.monitor.target, c.monitor.solution,
          c.monitor.solutionCheck, c.monitorToMiner⟩ := by
  rw [body_of_message hin hv]
  by_cases heq : powHash v = core.monitor.target
  · simp [Lockstep.stepMonitor, Lockstep.judge, hpc, hin, hv, heq]
  · have hne : ¬ core.monitor.target = powHash v := fun h => heq h.symm
    simp [Lockstep.stepMonitor, Lockstep.judge, hpc, hin, hv, heq, hne]

/-! ### The loop -/

/-- **Up to the first `-1` each message gets its verdict**, and there the loop ends. -/
theorem ends_of_mem {l : List ℤ} (hmem : -1 ∈ l) : ∀ {s : MonitorLoop}, s.input = l →
    ∃ t, DoWhile.Ends body GoOn s t ∧ t.written = s.written ++ verdicts s.target (beforeEnd l) := by
  induction l with
  | nil => cases hmem
  | cons v l ih =>
    intro s hin
    by_cases hv : v = -1
    · subst hv
      have hbody := body_of_end hin
      refine ⟨body s, DoWhile.Ends.last (by simp [GoOn, hbody]), ?_⟩
      simp [hbody, beforeEnd, verdicts]
    · have hbody := body_of_message hin hv
      have hl : -1 ∈ l := (List.mem_cons.mp hmem).resolve_left fun h => hv h.symm
      obtain ⟨t, hends, hwritten⟩ := ih hl (s := body s) (by rw [hbody])
      refine ⟨t, DoWhile.Ends.pass (by simp [GoOn, hbody, sizeofInt]) hends, ?_⟩
      have hbefore : beforeEnd (v :: l) = v :: beforeEnd l := by simp [beforeEnd, hv]
      rw [hwritten, hbefore, hbody, verdicts]
      split <;> simp

/-- What keeps the loop alive: no `-1` is on its way, and there is a message to answer. -/
def Alive (s : MonitorLoop) : Prop := -1 ∉ s.input ∧ (s.input = [] → s.solution ≠ -1)

/-- A pass keeps the loop alive. -/
theorem alive_body (h : Alive s) : Alive (body s) ∧ GoOn (body s) := by
  obtain ⟨hmem, hsol⟩ := h
  match hin : s.input with
  | [] =>
    obtain ⟨hin', hsol', hbytes⟩ := body_of_eof hin (hsol hin)
    exact ⟨⟨by simp [hin'], fun _ => by rw [hsol']; exact hsol hin⟩,
      by simp [GoOn, hbytes, sizeofInt]⟩
  | v :: rest =>
    rw [hin, List.mem_cons, not_or] at hmem
    have hv : v ≠ -1 := fun h => hmem.1 h.symm
    rw [body_of_message hin hv]
    exact ⟨⟨hmem.2, fun _ => hv⟩, by simp [GoOn, sizeofInt]⟩

/-- **One verdict for each message, and an end, exactly on streams with a `-1`**, and on the
empty stream if the uninitialised `solution` is `-1`. -/
theorem answers_iff (target a b : ℤ) (input : List ℤ) :
    Answers target a b input ↔ -1 ∈ input ∨ (input = [] ∧ a = -1) := by
  constructor
  · rintro ⟨t, hends, -⟩
    by_contra hnot
    rw [not_or, not_and] at hnot
    have halive : Alive (start target a b input) := hnot
    exact DoWhile.not_ends (fun _ => alive_body) halive hends
  · rintro (hmem | ⟨rfl, rfl⟩)
    · obtain ⟨t, hends, hwritten⟩ := ends_of_mem hmem (s := start target a b input) rfl
      exact ⟨t, hends, hwritten⟩
    · exact ⟨_, DoWhile.Ends.last (by simp [GoOn, body, readMessage, start]), by
        simp [body, readMessage, start, verdicts, beforeEnd]⟩

/-- The stream of a miner that has died after one good message: the monitor rejects that message
for ever. -/
theorem not_answers_eof : ¬ Answers 35693286 0 0 [1] := by
  rintro ⟨t, hends, -⟩
  have halive : Alive (start 35693286 0 0 [1]) := ⟨by decide, nofun⟩
  exact DoWhile.not_ends (fun _ => alive_body) halive hends

end MonitorLoop

end Soper.MRush
