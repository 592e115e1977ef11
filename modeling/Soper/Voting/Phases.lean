import Soper.Voting.Frame

/-!
# The phases of a round

Without signals from outside, the voters go through the round together. `Phase` names the
stages: the start-up of `main`, the election, the gathering of the voters around the candidate
`c`, the vote, and the closing of the round. In each stage every voter is at one of a few
program points (`Place`), and `sem_s` holds the announcements that have not been waited for
(`Global`). With more than one voter there is one more stage, `blocked`: the candidate of the
second round waits for announcements that nobody will make, because the mask still blocks
SIGUSR1.

Every step keeps a state in its phase or leads to the next one (`inPhase_next`), whichever of
the two deliveries `Mode.ideal` and `Mode.posix` is assumed; what differs is only that in the
ideal one a voter that has been called finds the signal pending.
-/

namespace Soper.Voting

/-- The stages of a run; `c` is the candidate. -/
inductive Phase (n : ℕ)
  | startUp
  | election
  | gathering (c : Fin n)
  | voting (c : Fin n)
  | closing (c : Fin n)
  | blocked (c : Fin n)

namespace VoterPc

/-- Announced, and waiting for SIGUSR1. -/
def waits1 : VoterPc → Bool
  | .beforeWait1 | .wait1 => true
  | _ => false

/-- Announced, and waiting for SIGUSR2. -/
def waits2 : VoterPc → Bool
  | .measure | .beforeWait2 | .wait2 => true
  | _ => false

/-- A voter before the first round starts. -/
def starts : VoterPc → Bool
  | .absent | .head | .beforeWait1 | .wait1 => true
  | _ => false

/-- A voter between SIGUSR1 and SIGUSR2 that is not the candidate. -/
def follows : VoterPc → Bool
  | .beforeWait1 | .wait1 | .elect | .announce | .measure | .beforeWait2 | .wait2 => true
  | _ => false

/-- The candidate between its election and its call. -/
def gathers (n : ℕ) : VoterPc → Bool
  | .truncate | .call => true
  | .gather k | .gathered k => k < n - 1
  | _ => false

/-- The candidate between its call and the end of the count. -/
def counts (n : ℕ) : VoterPc → Bool
  | .lock | .append | .unlock | .read _ | .verdict | .openPids => true
  | .close k | .closed k => k < n - 1
  | _ => false

/-- A voter between SIGUSR2 and the end of its pass that is not the candidate. -/
def votes : VoterPc → Bool
  | .measure | .beforeWait2 | .wait2 | .lock | .append | .unlock | .loop => true
  | _ => false

/-- A voter at the start of its second pass that was not the candidate. -/
def returns : VoterPc → Bool
  | .head | .beforeWait1 | .wait1 => true
  | _ => false

/-- The candidate while it ends its pass. -/
def closes : VoterPc → Bool
  | .notify _ | .release | .loop => true
  | _ => false

/-- The candidate holds `sem_c` while it ends its pass. -/
def closesHolding : VoterPc → Bool
  | .notify _ | .release => true
  | _ => false

/-- The old candidate before its next election. -/
def reenters : VoterPc → Bool
  | .head | .elect => true
  | _ => false

/-- Announcements the candidate has waited for before the vote. -/
def gatherCount (n : ℕ) : VoterPc → ℕ
  | .gather k => k
  | .gathered k => k + 1
  | .call => n - 1
  | _ => 0

/-- Announcements the candidate has waited for after the vote. -/
def closeCount (n : ℕ) : VoterPc → ℕ
  | .close k => k
  | .closed k => k + 1
  | .openPids => n - 1
  | _ => 0

end VoterPc

/-- Announcements `main` has waited for. -/
def MainPc.waitCount (n : ℕ) : MainPc → ℕ
  | .wait i => i
  | .launch => n
  | _ => 0

/-- Voters forked so far. -/
def MainPc.forkCount (n : ℕ) : MainPc → ℕ
  | .fork i => i
  | _ => n

variable {n : ℕ}

/-- Announcements waiting for SIGUSR1. -/
def announced1 (v : Voter n) : ℕ := v.pc.waits1.toNat

/-- Announcements waiting for SIGUSR2. -/
def announced2 (v : Voter n) : ℕ := v.pc.waits2.toNat

/-- Where a voter may be in each phase. -/
def Spot (mode : Mode) (p : Phase n) (j : Fin n) (v : Voter n) : Prop :=
  match p with
  | .startUp =>
    v.round = 0 ∧ v.candidate = false ∧ v.pc.starts = true ∧ v.pending1 = false
  | .election =>
    v.round = 0 ∧ v.candidate = false ∧ (v.pc.waits1 = true ∨ v.pc = .elect) ∧
      (mode = .ideal → v.pc.waits1 = true → v.pending1 = true)
  | .gathering c =>
    if j = c then v.candidate = true ∧ (v.round = 0 ∨ n = 1) ∧ v.pc.gathers n = true
    else v.round = 0 ∧ v.candidate = false ∧ v.pc.follows = true ∧ v.pending2 = false ∧
      (mode = .ideal → v.pc.waits1 = true → v.pending1 = true)
  | .voting c =>
    if j = c then v.candidate = true ∧ (v.round = 0 ∨ n = 1) ∧ v.pc.counts n = true
    else v.candidate = false ∧
      (v.round = 0 ∧ v.pc.votes = true ∨ v.round = 1 ∧ v.pc.returns = true) ∧
      (mode = .ideal → v.pc.waits2 = true → v.pending2 = true)
  | .closing c =>
    if j = c then v.candidate = true ∧
      ((v.round = 0 ∨ n = 1) ∧ v.pc.closes = true ∨
        (v.round = 1 ∨ n = 1) ∧ v.pc.reenters = true)
    else v.candidate = false ∧ v.round = 1 ∧ v.pc.waits1 = true
  | .blocked c =>
    if j = c then v.candidate = true ∧ v.round = 1 ∧ (v.pc = .truncate ∨ v.pc = .gather 0)
    else v.candidate = false ∧ v.round = 1 ∧ v.pc.waits1 = true

/-- What holds of a voter in a phase: no `sem_wait` of it has been disturbed, and a signal is
pending only where it is waited for. -/
structure Place (mode : Mode) (p : Phase n) (j : Fin n) (v : Voter n) : Prop where
  undisturbed : v.interrupted = false
  pending1 : v.pending1 = true → v.pc.waits1 = true
  pending2 : v.pending2 = true → v.pc.waits2 = true
  spot : Spot mode p j v

/-- What holds of `main` and of the semaphores in a phase. -/
def Global (p : Phase n) (s : State n) : Prop :=
  match p with
  | .startUp =>
    s.main ≠ .sleep ∧ s.shared.semC = 1 ∧
      s.shared.semS + s.main.waitCount n = Family.total announced1 s.voter ∧
      (∀ j : Fin n, (s.voter j).pc ≠ .absent ↔ (j : ℕ) < s.main.forkCount n) ∧
      s.main.forkCount n ≤ n ∧ s.main.waitCount n ≤ n
  | .election => s.main = .sleep ∧ s.shared.semC = 1 ∧ s.shared.semS = 0
  | .gathering c =>
    s.main = .sleep ∧ s.shared.semC = 0 ∧
      s.shared.semS + (s.voter c).pc.gatherCount n = Family.total announced2 s.voter
  | .voting c =>
    s.main = .sleep ∧ s.shared.semC = 0 ∧
      s.shared.semS + (s.voter c).pc.closeCount n = Family.total announced1 s.voter
  | .closing c =>
    s.main = .sleep ∧ s.shared.semS = 0 ∧
      s.shared.semC + (s.voter c).pc.closesHolding.toNat = 1
  | .blocked _ => s.main = .sleep ∧ s.shared.semS = 0 ∧ s.shared.semC = 0 ∧ n ≠ 1

/-- The state is in the phase `p`. -/
structure InPhase (mode : Mode) (p : Phase n) (s : State n) : Prop where
  mainUndisturbed : s.mainInterrupted = false
  global : Global p s
  place : ∀ j, Place mode p j (s.voter j)

variable {mode : Mode} {s : State n} {i c : Fin n}

/-- A voter that waits for a signal has announced itself and is not at a `sem_wait`. -/
theorem VoterPc.announced_of_waits1 {pc : VoterPc} (h : pc.waits1 = true) :
    pc.announced = true ∧ pc.inSemWait = false ∧ pc.waits2 = false ∧ pc ≠ .absent := by
  cases pc <;> first | exact ⟨rfl, rfl, rfl, nofun⟩ | cases h

theorem VoterPc.announced_of_waits2 {pc : VoterPc} (h : pc.waits2 = true) :
    pc.announced = true ∧ pc.inSemWait = false ∧ pc.waits1 = false ∧ pc ≠ .absent := by
  cases pc <;> first | exact ⟨rfl, rfl, rfl, nofun⟩ | cases h

/-! ### Places after a step -/

/-- A step that does not touch what is pending keeps a voter in place, if it goes on waiting for
the signals it has been waiting for. -/
theorem Place.step {p q : Phase n} {j : Fin n} {v w : Voter n} (h : Place mode p j v)
    (hint : w.interrupted = v.interrupted) (hp1 : w.pending1 = v.pending1)
    (hp2 : w.pending2 = v.pending2) (hw1 : v.pc.waits1 = true → w.pc.waits1 = true)
    (hw2 : v.pc.waits2 = true → w.pc.waits2 = true) (hspot : Spot mode q j w) :
    Place mode q j w where
  undisturbed := hint.trans h.undisturbed
  pending1 hp := hw1 (h.pending1 (hp1 ▸ hp))
  pending2 hp := hw2 (h.pending2 (hp2 ▸ hp))
  spot := hspot

theorem Place.pending1_eq {p : Phase n} {j : Fin n} {v : Voter n} (h : Place mode p j v)
    (hv : v.pc.waits1 = false) : v.pending1 = false := by
  cases hp : v.pending1 with
  | false => rfl
  | true =>
    rw [h.pending1 hp] at hv
    cases hv

theorem Place.pending2_eq {p : Phase n} {j : Fin n} {v : Voter n} (h : Place mode p j v)
    (hv : v.pc.waits2 = false) : v.pending2 = false := by
  cases hp : v.pending2 with
  | false => rfl
  | true =>
    rw [h.pending2 hp] at hv
    cases hv

/-- One voter moves and nobody sends a signal: the others keep their places. -/
theorem InPhase.move {p : Phase n} {sh : Shared n} {w : Voter n} (h : InPhase mode p s)
    (hplace : Place mode p i w)
    (hglobal : Global p { s with shared := sh, voter := Function.update s.voter i w }) :
    InPhase mode p { s with shared := sh, voter := Function.update s.voter i w } where
  mainUndisturbed := h.mainUndisturbed
  global := hglobal
  place := (Function.forall_update_iff s.voter (Place mode p)).mpr ⟨hplace, fun j _ => h.place j⟩

/-- The balance of the announcements against the waits of somebody else, after a voter moves. -/
theorem balance_step {weight : Voter n → ℕ} {f : Fin n → Voter n} {w : Voter n} {a b k : ℕ}
    (h : a + k = Family.total weight f) (hb : b + weight (f i) = a + weight w) :
    b + k = Family.total weight (Function.update f i w) := by
  have := Family.total_update weight f i w
  omega

/-- The balance against the waits of the candidate, after another voter moves. -/
theorem balance_other {weight : Voter n → ℕ} {count : VoterPc → ℕ} {f : Fin n → Voter n}
    {w : Voter n} {a b : ℕ} (h : a + count (f c).pc = Family.total weight f) (hi : i ≠ c)
    (hb : b + weight (f i) = a + weight w) :
    b + count (Function.update f i w c).pc = Family.total weight (Function.update f i w) := by
  rw [Function.update_of_ne hi.symm]
  exact balance_step h hb

/-- The balance against the waits of the candidate, after the candidate moves. -/
theorem balance_candidate {weight : Voter n → ℕ} {count : VoterPc → ℕ} {f : Fin n → Voter n}
    {w : Voter n} {a b : ℕ} (h : a + count (f c).pc = Family.total weight f)
    (hold : weight (f c) = 0) (hnew : weight w = 0) (hb : b + count w.pc = a + count (f c).pc) :
    b + count (Function.update f c w c).pc = Family.total weight (Function.update f c w) := by
  rw [Function.update_self, Family.total_update_eq (hnew.trans hold.symm), hb, h]

/-- The candidate has waited for all others: each has announced itself, and no announcement is
left over. -/
theorem balance_complete {weight : Voter n → ℕ} {f : Fin n → Voter n} {a : ℕ}
    (hw : ∀ v, weight v ≤ 1) (h : a + (n - 1) = Family.total weight f)
    (hc : weight (f c) = 0) : a = 0 ∧ ∀ j, j ≠ c → weight (f j) = 1 := by
  refine ⟨?_, fun j hj => Family.eq_one_of_card_pred_le hw hc ?_ hj⟩
  · have := Family.total_le_card_pred (c := c) hw hc
    rw [Fintype.card_fin] at this
    omega
  · rw [Fintype.card_fin]
    omega

theorem announced1_le (v : Voter n) : announced1 v ≤ 1 := Bool.toNat_le _

theorem announced2_le (v : Voter n) : announced2 v ≤ 1 := Bool.toNat_le _

theorem announced1_eq_one {v : Voter n} : announced1 v = 1 ↔ v.pc.waits1 = true := by
  simp [announced1]

theorem announced2_eq_one {v : Voter n} : announced2 v = 1 ↔ v.pc.waits2 = true := by
  simp [announced2]

end Soper.Voting
