import Soper.P3.Pipeline

/-!
# The life cycle of the shared segment

Comprobador and monitor of the third practice from their `shm_open` to their exit. The process
whose `shm_open` creates the segment becomes comprobador: it sizes and maps the segment, sets the
indices, initialises the three semaphores, opens the queue and enters its loop. The process that
finds the name becomes monitor and maps the segment at once. At the end each of them unmaps the
segment and destroys the three semaphores. Messages arrive in any order and with any contents;
`mq_open` and `mq_receive` may fail, the other calls do not.

Neither process waits for the other. A use of the segment is safe when it comes after the size,
the indices and the three `sem_init`, and before any `sem_destroy` of the semaphore and the
process's own `munmap` (`UsoVivo`); a run is in order (`Ordenado`) when the monitor comes to its
`sem_wait(sem_fill)` after the third `sem_init`, and the comprobador destroys a semaphore only
where the monitor is past its last call on it.
-/

namespace Soper.P3

/-- The semaphores of the segment, in the order in which they are initialised and destroyed. -/
inductive Semaforo
  | fill
  | empty
  | mutex
  deriving DecidableEq

/-- The next one in that order. -/
def Semaforo.siguiente : Semaforo → Option Semaforo
  | .fill => some .empty
  | .empty => some .mutex
  | .mutex => none

/-- The ones before it. -/
def Semaforo.anteriores : Semaforo → List Semaforo
  | .fill => []
  | .empty => [.fill]
  | .mutex => [.fill, .empty]

/-- Where the comprobador stands. -/
inductive FaseComprobador
  /-- `shm_open` with `O_EXCL`. -/
  | shmOpen
  | ftruncate
  | mmap
  /-- `front = 0` and `rear = 0`. -/
  | indices
  | semInit (x : Semaforo)
  | mqOpen
  | bucle
  /-- `munmap` after the loop, which an error of `mq_receive` has ended or not. -/
  | munmap (error : Bool)
  | semDestroy (x : Semaforo)
  /-- The process has exited and has destroyed the semaphores. -/
  | acabado
  /-- The process has exited after an error and has destroyed nothing. -/
  | salido
  deriving DecidableEq

/-- Where the monitor stands. -/
inductive FaseMonitor
  /-- `shm_open` with `O_EXCL`, which fails with `EEXIST`. -/
  | shmOpen
  /-- `shm_open` of the existing segment. -/
  | reabre
  /-- `shm_unlink`. -/
  | desenlaza
  | mmap
  | bucle
  | munmap
  | semDestroy (x : Semaforo)
  | acabado
  /-- A use of a segment without a size has killed the process. -/
  | muerto
  deriving DecidableEq

/-- Both processes, and what their loops work on. -/
structure Ciclo where
  comprobador : FaseComprobador
  monitor : FaseMonitor
  pipeline : Pipeline

/-- What may happen next. -/
inductive PasoCiclo
  /-- A message arrives in the queue. -/
  | mensaje (b : Dato)
  /-- The comprobador goes on; where a call may fail, whether it succeeds. -/
  | comprobador (exito : Bool)
  | monitor

namespace Ciclo

/-- `sem_init`, with the values of the source. -/
def semInit (s : Pipeline) : Semaforo → Pipeline
  | .fill => { s with semFill := 0 }
  | .empty => { s with semEmpty := BUFFER_SIZE }
  | .mutex => { s with semMutex := 1 }

/-- One step of the comprobador. -/
def pasoComprobador (exito : Bool) (s : Ciclo) : Option Ciclo :=
  match s.comprobador with
  | .shmOpen => some { s with comprobador := .ftruncate }
  | .ftruncate => some { s with comprobador := .mmap }
  | .mmap => some { s with comprobador := .indices }
  | .indices =>
    some { s with
      comprobador := .semInit .fill
      pipeline := { s.pipeline with front := 0, rear := 0 } }
  | .semInit x =>
    some { s with
      comprobador :=
        match x.siguiente with
        | some y => .semInit y
        | none => .mqOpen
      pipeline := semInit s.pipeline x }
  | .mqOpen => some { s with comprobador := if exito = true then .bucle else .salido }
  | .bucle =>
    match s.pipeline.pcComprobador with
    | .salido => some { s with comprobador := .munmap false }
    | .recibe =>
      if exito = true then s.pipeline.pasoComprobador.map fun p => { s with pipeline := p }
      else some { s with comprobador := .munmap true }
    | _ => s.pipeline.pasoComprobador.map fun p => { s with pipeline := p }
  | .munmap error =>
    some { s with comprobador := if error = true then .salido else .semDestroy .fill }
  | .semDestroy x =>
    some { s with
      comprobador :=
        match x.siguiente with
        | some y => .semDestroy y
        | none => .acabado }
  | .acabado | .salido => none

/-- The segment has its size. -/
def truncado : FaseComprobador → Bool
  | .shmOpen | .ftruncate => false
  | .mmap | .indices | .semInit _ | .mqOpen | .bucle | .munmap _ | .semDestroy _ | .acabado
  | .salido => true

/-- One step of the monitor. -/
def pasoMonitor (s : Ciclo) : Option Ciclo :=
  match s.monitor with
  | .shmOpen =>
    -- the name must be there, or the process would become comprobador
    if s.comprobador = .shmOpen then none else some { s with monitor := .reabre }
  | .reabre => some { s with monitor := .desenlaza }
  | .desenlaza => some { s with monitor := .mmap }
  | .mmap => some { s with monitor := .bucle }
  | .bucle =>
    if truncado s.comprobador = false then some { s with monitor := .muerto }
    else
      match s.pipeline.pcMonitor with
      | .salido => some { s with monitor := .munmap }
      | _ => s.pipeline.pasoMonitor.map fun p => { s with pipeline := p }
  | .munmap => some { s with monitor := .semDestroy .fill }
  | .semDestroy x =>
    some { s with
      monitor :=
        match x.siguiente with
        | some y => .semDestroy y
        | none => .acabado }
  | .acabado | .muerto => none

/-- One step. -/
def next (s : Ciclo) : PasoCiclo → Option Ciclo
  | .mensaje b => some { s with pipeline := { s.pipeline with cola := s.pipeline.cola ++ [b] } }
  | .comprobador exito => pasoComprobador exito s
  | .monitor => pasoMonitor s

/-- Both processes start. A new segment is filled with zeros, also where the semaphores will be;
slots and local variables hold anything. -/
def inicial (bloque : ℕ → Dato) (mq mon : Dato) : Ciclo where
  comprobador := .shmOpen
  monitor := .shmOpen
  pipeline := { Pipeline.inicial bloque mq mon with semEmpty := 0, semMutex := 0 }

/-- The two processes as a transition system. -/
def procesos : System Ciclo PasoCiclo where
  Init s := ∃ bloque mq mon, s = inicial bloque mq mon
  next := next

/-! ### Uses -/

/-- What a process may use in the segment. -/
inductive Objeto
  | semaforo (x : Semaforo)
  | anillo
  deriving DecidableEq

/-- What the next call of the comprobador in its loop uses. -/
def usaComprobador : PcComprobador → Option Objeto
  | .esperaEmpty => some (.semaforo .empty)
  | .esperaMutex | .sueltaMutex => some (.semaforo .mutex)
  | .anade _ => some .anillo
  | .sueltaFill => some (.semaforo .fill)
  | .recibe | .comprueba | .salido => none

/-- What the next call of the monitor in its loop uses. -/
def usaMonitor : PcMonitor → Option Objeto
  | .esperaFill => some (.semaforo .fill)
  | .esperaMutex | .sueltaMutex => some (.semaforo .mutex)
  | .extrae _ _ => some .anillo
  | .sueltaEmpty => some (.semaforo .empty)
  | .mira | .salido => none

/-- The comprobador has sized the segment, set the indices and initialised all semaphores. -/
def preparado : FaseComprobador → Bool
  | .shmOpen | .ftruncate | .mmap | .indices | .semInit _ => false
  | .mqOpen | .bucle | .munmap _ | .semDestroy _ | .acabado | .salido => true

/-- The comprobador has mapped the segment and not unmapped it. -/
def mapeadoComprobador : FaseComprobador → Bool
  | .shmOpen | .ftruncate | .mmap | .semDestroy _ | .acabado | .salido => false
  | .indices | .semInit _ | .mqOpen | .bucle | .munmap _ => true

/-- The monitor has mapped the segment and not unmapped it. -/
def mapeadoMonitor : FaseMonitor → Bool
  | .bucle | .munmap => true
  | .shmOpen | .reabre | .desenlaza | .mmap | .semDestroy _ | .acabado | .muerto => false

/-- The semaphores the comprobador has destroyed. -/
def destruidosComprobador : FaseComprobador → List Semaforo
  | .semDestroy x => x.anteriores
  | .acabado => [.fill, .empty, .mutex]
  | .shmOpen | .ftruncate | .mmap | .indices | .semInit _ | .mqOpen | .bucle | .munmap _
  | .salido => []

/-- The semaphores the monitor has destroyed. -/
def destruidosMonitor : FaseMonitor → List Semaforo
  | .semDestroy x => x.anteriores
  | .acabado => [.fill, .empty, .mutex]
  | .shmOpen | .reabre | .desenlaza | .mmap | .bucle | .munmap | .muerto => []

/-- One of the processes has destroyed the semaphore. -/
def Destruido (s : Ciclo) (x : Semaforo) : Prop :=
  x ∈ destruidosComprobador s.comprobador ∨ x ∈ destruidosMonitor s.monitor

/-- The object may be used: everything is prepared, and a semaphore is not destroyed. -/
def Vivo (s : Ciclo) : Objeto → Prop
  | .semaforo x => preparado s.comprobador = true ∧ ¬ Destruido s x
  | .anillo => preparado s.comprobador = true

/-- If the next call of the process that goes on uses something, this is alive, and the process
has it mapped. A `sem_wait` that blocks is a use, too. -/
def UsoVivo (s : Ciclo) : PasoCiclo → Prop
  | .mensaje _ => True
  | .comprobador _ =>
    s.comprobador = .bucle → ∀ o, usaComprobador s.pipeline.pcComprobador = some o →
      Vivo s o ∧ mapeadoComprobador s.comprobador = true
  | .monitor =>
    s.monitor = .bucle → ∀ o, usaMonitor s.pipeline.pcMonitor = some o →
      Vivo s o ∧ mapeadoMonitor s.monitor = true

/-- The monitor comes to `sem_post(sem_mutex)` in this round. -/
def debeMutex : PcMonitor → Bool
  | .esperaMutex | .extrae _ _ | .sueltaMutex => true
  | .esperaFill | .sueltaEmpty | .mira | .salido => false

/-- The monitor comes to `sem_post(sem_empty)` in this round. -/
def debeEmpty : PcMonitor → Bool
  | .esperaMutex | .extrae _ _ | .sueltaMutex | .sueltaEmpty => true
  | .esperaFill | .mira | .salido => false

/-- The monitor has still to use the semaphore: it has not fetched the last block, or is on its
way to the last call on the semaphore. -/
def EnUso (s : Pipeline) : Semaforo → Prop
  | .fill => 0 < s.semFill
  | .mutex => 0 < s.semFill ∨ debeMutex s.pcMonitor = true
  | .empty => 0 < s.semFill ∨ debeEmpty s.pcMonitor = true

instance (s : Pipeline) : DecidablePred (EnUso s)
  | .fill => inferInstanceAs (Decidable (0 < s.semFill))
  | .mutex => inferInstanceAs (Decidable (0 < s.semFill ∨ debeMutex s.pcMonitor = true))
  | .empty => inferInstanceAs (Decidable (0 < s.semFill ∨ debeEmpty s.pcMonitor = true))

/-- The monitor comes to `sem_wait(sem_fill)` after the third `sem_init`, and the comprobador
destroys a semaphore after the monitor's last use of it. -/
def Ordenado (s : Ciclo) : PasoCiclo → Prop
  | .mensaje _ => True
  | .comprobador _ => ∀ x, s.comprobador = .semDestroy x → ¬ EnUso s.pipeline x
  | .monitor => s.monitor = .bucle → s.pipeline.pcMonitor = .esperaFill →
      preparado s.comprobador = true

end Ciclo

end Soper.P3
