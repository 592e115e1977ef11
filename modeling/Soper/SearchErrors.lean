import Soper.MRush.Errors
import Soper.Proyecto.Hilos

/-!
# Errors of the searches

The first pipe program and the final project divide their searches alike, and report them alike:
the value `manage_threads` returns is a solution, `-1`, or `EXIT_FAILURE`, and their callers take
every value other than `-1` for a solution. Since `EXIT_FAILURE` is `1`, a failed call passes for
the solution `1`.
-/

namespace Soper

open Scan (Outcomes)

/-- In both programs, whatever a search with `n` threads returns other than `-1` is a solution of
its target, and so is what the caller makes of it. -/
structure ErrorsApart (n : ℕ) (o : Outcomes) (target : ℤ) : Prop where
  pipes : MRush.ManageThreads.Sound n o target
  proyecto : Proyecto.Hilos.Sound n o target

/-- **Errors are told from solutions exactly where no call fails**, unless the target is the hash
of the error value. -/
theorem errorsApart_iff {n : ℕ} {o : Outcomes} {target : ℤ} :
    ErrorsApart n o target ↔ o.AllSucceed n ∨ powHash 1 = target := by
  constructor
  · intro h
    exact Proyecto.Hilos.sound_iff.mp h.proyecto
  · intro h
    exact ⟨MRush.ManageThreads.sound_iff.mpr h, Proyecto.Hilos.sound_iff.mpr h⟩

/-- The array of threads cannot be allocated: both searches for the target `0` return `1`, whose
hash is another one. -/
theorem not_errorsApart_calloc :
    ¬ MRush.ManageThreads.Sound 1 ⟨false, fun _ => true, fun _ => true⟩ 0 ∧
      ¬ Proyecto.Hilos.Sound 1 ⟨false, fun _ => true, fun _ => true⟩ 0 := by
  have hfail : ¬ (⟨false, fun _ => true, fun _ => true⟩ : Outcomes).AllSucceed 1 :=
    fun h => nomatch h.alloc
  have hhash : powHash 1 ≠ 0 := by decide
  constructor
  · intro h
    exact (MRush.ManageThreads.sound_iff.mp h).elim hfail hhash
  · intro h
    exact (Proyecto.Hilos.sound_iff.mp h).elim hfail hhash

end Soper
