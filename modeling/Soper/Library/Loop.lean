import Mathlib.Data.Nat.Notation
import Mathlib.Tactic.Push

/-!
# Loops that test after the body

A loop `do body while (goOn)`, run with an explicit number of passes: `run k s` is the state in
which the loop ends if it does so within `k` passes. `Ends s t` says that it ends in `t` at all.
A loop is shown to end by one pass after the other (`Ends.last`, `Ends.pass`), and not to end by
an invariant of its passes under which the test always succeeds (`not_ends`).
-/

universe u

namespace DoWhile

variable {σ : Type u} (body : σ → σ) (goOn : σ → Prop) [DecidablePred goOn]

/-- The state in which the loop ends, within the given number of passes. -/
def run : ℕ → σ → Option σ
  | 0, _ => none
  | k + 1, s => if goOn (body s) then run k (body s) else some (body s)

/-- The loop entered in `s` ends in `t`. -/
def Ends (s t : σ) : Prop := ∃ k, run body goOn k s = some t

variable {body goOn} {s t : σ}

/-- The test fails after this pass. -/
theorem Ends.last (h : ¬ goOn (body s)) : Ends body goOn s (body s) := ⟨1, if_neg h⟩

/-- The test succeeds after this pass, and the rest of the loop ends. -/
theorem Ends.pass (hgo : goOn (body s)) (h : Ends body goOn (body s) t) : Ends body goOn s t := by
  obtain ⟨k, hk⟩ := h
  exact ⟨k + 1, (if_pos hgo).trans hk⟩

/-- **Divergence rule.** The loop does not end where each pass keeps an invariant under which
the test succeeds. -/
theorem not_ends {I : σ → Prop} (hstep : ∀ s, I s → I (body s) ∧ goOn (body s)) (hs : I s) :
    ¬ Ends body goOn s t := by
  rintro ⟨k, hk⟩
  induction k generalizing s with
  | zero => cases hk
  | succ k ih =>
    obtain ⟨hinv, hgo⟩ := hstep s hs
    rw [run, if_pos hgo] at hk
    exact ih hinv hk

end DoWhile
