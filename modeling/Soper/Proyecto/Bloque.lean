import Mathlib.Data.Rat.Floor
import Mathlib.Data.Fintype.Pi
import Soper.Library.BoundedBuffer
import Soper.Pow

/-!
# Blocks of the final project

The data of `proyecto/common.h` and the functions on a single block: the copies into and out of
the shared ring (`anadirElemento`, `extraerElemento`), the three tests that judge a block — the
quorum of the miner and of its Registrador, and the recomputed hash of the comprobador — and
what the monitor prints.

`unsigned int` counters are natural numbers below `2 ^ 32`, incremented by `incUnsigned`. Both
copies are kept as the list of their assignments, in program order: the ring is shared, so what
a half finished copy leaves in a slot matters.
-/

namespace Soper.Proyecto

/-- `#define BUFFER_SIZE 5`. -/
def BUFFER_SIZE : ℕ := 5

/-- `#define MAX_MSG 10`. -/
def MAX_MSG : ℕ := 10

/-- `#define MAX_MINEROS 50`. -/
def MAX_MINEROS : ℕ := 50

/-- `EXIT_FAILURE`, which `manage_threads` also returns on an error. -/
def EXIT_FAILURE : ℤ := 1

/-- Adding one to an `unsigned int`. -/
def incUnsigned (n : ℕ) : ℕ := (n + 1) % 2 ^ 32

/-- `Cartera`: the wallet of a miner. -/
structure Cartera where
  idProceso : ℤ
  monedas : ℕ
  deriving DecidableEq

/-- `Bloque`. -/
structure Bloque where
  id : ℤ
  objetivo : ℤ
  solucion : ℤ
  ganador : ℤ
  carteras : Fin MAX_MINEROS → Cartera
  votosTotales : ℕ
  votosPositivos : ℕ
  correcto : Bool
  fin : Bool
  deriving DecidableEq

/-- The entry of the only miner: `carteras[n_minero - 1]` with `n_minero = 1`. -/
def primera : Fin MAX_MINEROS := ⟨0, by decide⟩

/-! ### Copies through shared memory -/

/-- The assignments of `anadirElemento`. -/
def anadirElemento : List (Bloque → Bloque → Bloque) :=
  [fun shm mq => { shm with id := mq.id },
   fun shm mq => { shm with ganador := mq.ganador },
   fun shm mq => { shm with carteras := mq.carteras },
   fun shm mq => { shm with votosTotales := mq.votosTotales },
   fun shm mq => { shm with votosPositivos := mq.votosPositivos },
   fun shm mq => { shm with objetivo := mq.objetivo },
   fun shm mq => { shm with solucion := mq.solucion },
   fun shm mq => { shm with correcto := mq.correcto },
   fun shm mq => { shm with fin := mq.fin }]

/-- The assignments of `extraerElemento`. -/
def extraerElemento : List (Bloque → Bloque → Bloque) :=
  [fun ret shm => { ret with id := shm.id },
   fun ret shm => { ret with ganador := shm.ganador },
   fun ret shm => { ret with carteras := shm.carteras },
   fun ret shm => { ret with votosTotales := shm.votosTotales },
   fun ret shm => { ret with votosPositivos := shm.votosPositivos },
   fun ret shm => { ret with objetivo := shm.objetivo },
   fun ret shm => { ret with solucion := shm.solucion },
   fun ret shm => { ret with correcto := shm.correcto },
   fun ret shm => { ret with fin := shm.fin }]

/-- `anadirElemento` copies every field. -/
def copiaAnadir : CopyProgram Bloque := ⟨anadirElemento, fun _ _ => rfl⟩

/-- `extraerElemento` copies every field. -/
def copiaExtraer : CopyProgram Bloque := ⟨extraerElemento, fun _ _ => rfl⟩

/-! ### The judgements of a block -/

/-- `votos_positivos >= ceil(votos_totales / 2)`: the division is on `unsigned int`, so `ceil`
receives an integer. The miner and the Registrador share this test. -/
def quorum (b : Bloque) : Prop :=
  ⌈((b.votosTotales / 2 : ℕ) : ℚ)⌉ ≤ (b.votosPositivos : ℤ)

instance (b : Bloque) : Decidable (quorum b) := inferInstanceAs (Decidable (_ ≤ _))

/-- The `ceil` is the identity: the quorum is the truncated half. -/
theorem quorum_iff {b : Bloque} : quorum b ↔ b.votosTotales / 2 ≤ b.votosPositivos := by
  rw [quorum, Int.ceil_natCast]
  exact Int.ofNat_le

/-- The proof of work of a block is right. -/
def Valido (b : Bloque) : Prop := powHash b.solucion = b.objetivo

instance (b : Bloque) : Decidable (Valido b) := inferInstanceAs (Decidable (_ = _))

/-- The comprobador recomputes the hash and sets `correcto`. -/
def comprobar (b : Bloque) : Bloque :=
  if powHash b.solucion ≠ b.objetivo then { b with correcto := false }
  else { b with correcto := true }

theorem comprobar_eq (b : Bloque) : comprobar b = { b with correcto := decide (Valido b) } := by
  unfold comprobar
  split
  · rename_i h
    rw [decide_eq_false (p := Valido b) h]
  · rename_i h
    rw [decide_eq_true (p := Valido b) (not_not.mp h)]

/-- The comprobador accepts exactly the blocks whose proof of work is right. -/
theorem comprobar_correcto {b : Bloque} : (comprobar b).correcto = true ↔ Valido b := by
  rw [comprobar_eq, decide_eq_true_iff]

end Soper.Proyecto
