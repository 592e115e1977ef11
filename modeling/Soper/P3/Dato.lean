import Soper.Library.BoundedBuffer
import Soper.Library.Scan
import Soper.Pow

/-!
# Blocks of the third practice

The data of `p3/common.h` and the functions on a single block: the copies into and out of the
shared ring, the recomputed hash of the comprobador, the line the monitor prints, and
`target_search`, which here is one loop over `[0, POW_LIMIT]`.

The miner sends a block with the verdict the comprobador will find (`comprobar_resultado`,
`comprobar_datoFin`), so no block changes on its way.
-/

namespace Soper.P3

/-- `#define BUFFER_SIZE 6`. -/
def BUFFER_SIZE : ℕ := 6

/-- `#define MAX_MSG 7`. -/
def MAX_MSG : ℕ := 7

def EXIT_SUCCESS : ℤ := 0

def EXIT_FAILURE : ℤ := 1

/-- `Dato`. -/
structure Dato where
  fin : Bool
  objetivo : ℤ
  solucion : ℤ
  correcto : Bool
  deriving DecidableEq

/-- The assignments of `anadirElemento`. -/
def anadirElemento : List (Dato → Dato → Dato) :=
  [fun shm mq => { shm with fin := mq.fin },
   fun shm mq => { shm with objetivo := mq.objetivo },
   fun shm mq => { shm with solucion := mq.solucion },
   fun shm mq => { shm with correcto := mq.correcto }]

/-- The assignments of `extraerElemento`. -/
def extraerElemento : List (Dato → Dato → Dato) :=
  [fun ret shm => { ret with fin := shm.fin },
   fun ret shm => { ret with objetivo := shm.objetivo },
   fun ret shm => { ret with solucion := shm.solucion },
   fun ret shm => { ret with correcto := shm.correcto }]

/-- `anadirElemento` copies every field. -/
def copiaAnadir : CopyProgram Dato := ⟨anadirElemento, fun _ _ => rfl⟩

/-- `extraerElemento` copies every field. -/
def copiaExtraer : CopyProgram Dato := ⟨extraerElemento, fun _ _ => rfl⟩

/-! ### The verdict -/

/-- The comprobador recomputes the hash and sets `correcto`. -/
def comprobar (b : Dato) : Dato :=
  if powHash b.solucion ≠ b.objetivo then { b with correcto := false }
  else { b with correcto := true }

/-- A line of the monitor: `Solution accepted` or `Solution rejected`, with both numbers. -/
structure Linea where
  aceptada : Bool
  objetivo : ℤ
  solucion : ℤ
  deriving DecidableEq

/-- What the monitor prints for a block. -/
def imprimir (b : Dato) : Linea :=
  if b.correcto = false then { aceptada := false, objetivo := b.objetivo, solucion := b.solucion }
  else { aceptada := true, objetivo := b.objetivo, solucion := b.solucion }

/-- The line of a block the comprobador has judged says whether its hash is right. -/
theorem imprimir_aceptada {b : Dato} (h : comprobar b = b) :
    (imprimir b).aceptada = true ↔ powHash (imprimir b).solucion = (imprimir b).objetivo := by
  rw [← h]
  unfold comprobar imprimir
  split
  · rename_i hne
    simpa using hne
  · rename_i heq
    simpa using not_not.mp heq

/-! ### The search -/

/-- The loop of `target_search` at `i`, with `k` more values to try. -/
def targetSearchFrom (objective : ℤ) : ℕ → ℤ → ℤ
  | 0, _ => -1
  | k + 1, i => if powHash i = objective then i else targetSearchFrom objective k (i + 1)

/-- `target_search`: the first `i` in `[0, POW_LIMIT]` with the hash, or `-1`. -/
def targetSearch (objective : ℤ) : ℤ := targetSearchFrom objective (POW_LIMIT.toNat + 1) 0

/-- The loop is a scan for the hash. -/
theorem targetSearchFrom_eq_scan (objective : ℤ) (k : ℕ) (i : ℤ) :
    targetSearchFrom objective k i = Scan.scan (fun x => powHash x = objective) k i := by
  induction k generalizing i with
  | zero => rfl
  | succ k ih => rw [targetSearchFrom, Scan.scan, ih]

theorem powHash_targetSearch {objective : ℤ} (h : targetSearch objective ≠ -1) :
    powHash (targetSearch objective) = objective := by
  rw [targetSearch, targetSearchFrom_eq_scan] at h ⊢
  rcases Scan.scan_cases (p := fun x => powHash x = objective) (POW_LIMIT.toNat + 1) 0 with
    ⟨-, -, hhash⟩ | ⟨hnone, -⟩
  · exact hhash
  · exact absurd hnone h

/-- **The search is exact.** The nonce of a target below `POW_LIMIT` is found. -/
theorem targetSearch_eq {x objective : ℤ} (hx : 0 ≤ x) (hx' : x < POW_LIMIT)
    (h : powHash x = objective) : targetSearch objective = x := by
  rw [targetSearch, targetSearchFrom_eq_scan]
  refine Scan.scan_eq hx (by omega) h fun y hy hlt heq => ?_
  -- two nonces below `POW_LIMIT` with one hash are the same
  have hsame : y = x := powHash_injOn hy (by omega) hx hx' (heq.trans h.symm)
  omega

/-! ### The blocks the miner sends -/

/-- The block of a round. -/
def resultado (target solution : ℤ) : Dato where
  fin := false
  objetivo := target
  solucion := solution
  correcto := true

/-- The finishing block. -/
def fin : Dato where
  fin := true
  objetivo := -1
  solucion := -1
  correcto := false

/-- The comprobador confirms the block of a round. -/
theorem comprobar_resultado {target solution : ℤ} (h : powHash solution = target) :
    comprobar (resultado target solution) = resultado target solution := by
  simp [comprobar, resultado, h]

/-- The comprobador leaves the finishing block as it is: its proof of work is wrong. -/
theorem comprobar_datoFin : comprobar fin = fin := by decide

end Soper.P3
