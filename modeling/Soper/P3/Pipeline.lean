import Soper.P3.Dato

/-!
# The pipeline of the third practice

One miner sends its blocks through a message queue of capacity `MAX_MSG`, one comprobador moves
them into the shared ring, one monitor takes them out and prints them. A send to a full queue
and a receive from an empty one block, as do the waits on the three semaphores; no signal
arrives and no call fails. The ring starts as the comprobador has initialised it, and the
semaphores work across the two processes and stay valid, so the calls of `sem_destroy` at the two
ends are left out.

Comprobador and monitor follow the protocol of `BoundedBuffer` (`buffer_next`). Its order of
items, together with what is in the comprobador's hand and in the queue, gives the conservation
law `sinPerdida_reachable`: nothing is lost, duplicated or reordered, each line tells whether
the hash is right, and a monitor that has finished has printed every block but the last one.
-/

namespace Soper.P3

open BoundedBuffer

/-- Where the miner stands. -/
inductive PcMinero
  /-- The loop test `i < n_cycles`. -/
  | bucle
  /-- `target_search` and `if (solution == -1)`. -/
  | busca
  /-- `mq_send` of the block. -/
  | envia
  /-- `mq_send` of the finishing block. -/
  | enviaFin
  | salido (codigo : ℤ)
  deriving DecidableEq

/-- The next call of the comprobador. -/
inductive PcComprobador
  /-- `mq_receive`. -/
  | recibe
  /-- The test of the hash. -/
  | comprueba
  /-- `sem_wait(sem_empty)`. -/
  | esperaEmpty
  /-- `sem_wait(sem_mutex)`. -/
  | esperaMutex
  /-- The assignments of `anadirElemento` still to run, then the update of `rear`. -/
  | anade (resto : List (Dato → Dato → Dato))
  /-- `sem_post(sem_mutex)`. -/
  | sueltaMutex
  /-- `sem_post(sem_fill)`, then `if (bloque_mq.fin == true)`. -/
  | sueltaFill
  | salido

/-- The next call of the monitor. -/
inductive PcMonitor
  /-- `sem_wait(sem_fill)`. -/
  | esperaFill
  /-- `sem_wait(sem_mutex)`. -/
  | esperaMutex
  /-- The assignments of `extraerElemento` still to run on `ret`, then the update of `front`. -/
  | extrae (ret : Dato) (resto : List (Dato → Dato → Dato))
  /-- `sem_post(sem_mutex)`. -/
  | sueltaMutex
  /-- `sem_post(sem_empty)`. -/
  | sueltaEmpty
  /-- `if (bloque_monitor.fin == true)`, and the `printf` otherwise. -/
  | mira
  | salido

/-- The three processes, the queue, the shared segment, the lines printed, and the blocks sent,
added and extracted so far. -/
structure Pipeline where
  pc : PcMinero
  i : ℕ
  target : ℤ
  solution : ℤ
  cola : List Dato
  bloque : ℕ → Dato
  front : ℕ
  rear : ℕ
  semFill : ℕ
  semEmpty : ℕ
  semMutex : ℕ
  pcComprobador : PcComprobador
  bloqueMq : Dato
  pcMonitor : PcMonitor
  bloqueMonitor : Dato
  impresos : List Linea
  enviados : List Dato
  anadidos : List Dato
  extraidos : List Dato

/-- Which process goes on. -/
inductive Turno
  | minero
  | comprobador
  | monitor

namespace Pipeline

/-- One step of the miner; `nCycles` is its argument `n_cycles`. -/
def pasoMinero (nCycles : ℕ) (s : Pipeline) : Option Pipeline :=
  match s.pc with
  | .bucle => some { s with pc := if s.i < nCycles then .busca else .enviaFin }
  | .busca =>
    if targetSearch s.target = -1 then
      some { s with solution := -1, pc := .salido EXIT_FAILURE }
    else some { s with solution := targetSearch s.target, pc := .envia }
  | .envia =>
    if s.cola.length < MAX_MSG then
      some { s with
        cola := s.cola ++ [resultado s.target s.solution]
        enviados := s.enviados ++ [resultado s.target s.solution]
        target := s.solution, i := s.i + 1, pc := .bucle }
    else none
  | .enviaFin =>
    if s.cola.length < MAX_MSG then
      some { s with
        cola := s.cola ++ [fin], enviados := s.enviados ++ [fin], solution := -1
        pc := .salido EXIT_SUCCESS }
    else none
  | .salido _ => none

/-- One step of the comprobador. -/
def pasoComprobador (s : Pipeline) : Option Pipeline :=
  match s.pcComprobador with
  | .recibe =>
    match s.cola with
    | [] => none
    | b :: resto => some { s with cola := resto, bloqueMq := b, pcComprobador := .comprueba }
  | .comprueba => some { s with bloqueMq := comprobar s.bloqueMq, pcComprobador := .esperaEmpty }
  | .esperaEmpty =>
    if 0 < s.semEmpty then
      some { s with semEmpty := s.semEmpty - 1, pcComprobador := .esperaMutex }
    else none
  | .esperaMutex =>
    if 0 < s.semMutex then
      some { s with semMutex := s.semMutex - 1, pcComprobador := .anade anadirElemento }
    else none
  | .anade (f :: fs) =>
    some { s with
      bloque := Function.update s.bloque s.rear (f (s.bloque s.rear) s.bloqueMq)
      pcComprobador := .anade fs }
  | .anade [] =>
    some { s with
      rear := (s.rear + 1) % BUFFER_SIZE, anadidos := s.anadidos ++ [s.bloqueMq]
      pcComprobador := .sueltaMutex }
  | .sueltaMutex => some { s with semMutex := s.semMutex + 1, pcComprobador := .sueltaFill }
  | .sueltaFill =>
    some { s with
      semFill := s.semFill + 1
      pcComprobador := if s.bloqueMq.fin = true then .salido else .recibe }
  | .salido => none

/-- One step of the monitor. The variable `ret` of `extraerElemento` starts uninitialised; it
holds the previous block here. -/
def pasoMonitor (s : Pipeline) : Option Pipeline :=
  match s.pcMonitor with
  | .esperaFill =>
    if 0 < s.semFill then some { s with semFill := s.semFill - 1, pcMonitor := .esperaMutex }
    else none
  | .esperaMutex =>
    if 0 < s.semMutex then
      some { s with
        semMutex := s.semMutex - 1, pcMonitor := .extrae s.bloqueMonitor extraerElemento }
    else none
  | .extrae ret (f :: fs) =>
    some { s with pcMonitor := .extrae (f ret (s.bloque s.front)) fs }
  | .extrae ret [] =>
    some { s with
      bloqueMonitor := ret, front := (s.front + 1) % BUFFER_SIZE
      extraidos := s.extraidos ++ [ret], pcMonitor := .sueltaMutex }
  | .sueltaMutex => some { s with semMutex := s.semMutex + 1, pcMonitor := .sueltaEmpty }
  | .sueltaEmpty => some { s with semEmpty := s.semEmpty + 1, pcMonitor := .mira }
  | .mira =>
    if s.bloqueMonitor.fin = true then some { s with pcMonitor := .salido }
    else
      some { s with
        impresos := s.impresos ++ [imprimir s.bloqueMonitor], pcMonitor := .esperaFill }
  | .salido => none

/-- One step of the three processes. -/
def next (nCycles : ℕ) (s : Pipeline) : Turno → Option Pipeline
  | .minero => s.pasoMinero nCycles
  | .comprobador => s.pasoComprobador
  | .monitor => s.pasoMonitor

/-- The start of the three loops: an empty queue and ring; slots and uninitialised variables
hold anything. -/
def inicial (bloque : ℕ → Dato) (mq mon : Dato) : Pipeline where
  pc := .bucle
  i := 0
  target := 0
  solution := -1
  cola := []
  bloque := bloque
  front := 0
  rear := 0
  semFill := 0
  semEmpty := BUFFER_SIZE
  semMutex := 1
  pcComprobador := .recibe
  bloqueMq := mq
  pcMonitor := .esperaFill
  bloqueMonitor := mon
  impresos := []
  enviados := []
  anadidos := []
  extraidos := []

/-- The pipeline as a transition system. -/
def sistema (nCycles : ℕ) : System Pipeline Turno where
  Init s := ∃ bloque mq mon, s = inicial bloque mq mon
  next := next nCycles

variable {nCycles : ℕ} {s t : Pipeline}

/-! ### What a process can change -/

theorem frame_pasoMinero (h : s.pasoMinero nCycles = some t) :
    t = { s with
      pc := t.pc, i := t.i, target := t.target, solution := t.solution, cola := t.cola
      enviados := t.enviados } := by
  match hpc : s.pc with
  | .salido _ => simp [pasoMinero, hpc] at h
  | .bucle =>
    simp only [pasoMinero, hpc] at h
    cases h
    rfl
  | .busca | .envia | .enviaFin =>
    simp only [pasoMinero, hpc] at h
    split at h <;> cases h <;> rfl

theorem frame_pasoComprobador (h : s.pasoComprobador = some t) :
    t = { s with
      cola := t.cola, bloque := t.bloque, rear := t.rear, semFill := t.semFill
      semEmpty := t.semEmpty, semMutex := t.semMutex, pcComprobador := t.pcComprobador
      bloqueMq := t.bloqueMq, anadidos := t.anadidos } := by
  match hpc : s.pcComprobador with
  | .salido => simp [pasoComprobador, hpc] at h
  | .recibe | .esperaEmpty | .esperaMutex =>
    simp only [pasoComprobador, hpc] at h
    split at h <;> cases h
    rfl
  | .comprueba | .anade (_ :: _) | .anade [] | .sueltaMutex | .sueltaFill =>
    simp only [pasoComprobador, hpc] at h
    cases h
    rfl

theorem frame_pasoMonitor (h : s.pasoMonitor = some t) :
    t = { s with
      front := t.front, semFill := t.semFill, semEmpty := t.semEmpty, semMutex := t.semMutex
      pcMonitor := t.pcMonitor, bloqueMonitor := t.bloqueMonitor, impresos := t.impresos
      extraidos := t.extraidos } := by
  match hpc : s.pcMonitor with
  | .salido => simp [pasoMonitor, hpc] at h
  | .esperaFill | .esperaMutex | .mira =>
    simp only [pasoMonitor, hpc] at h
    split at h <;> cases h <;> rfl
  | .extrae _ (_ :: _) | .extrae _ [] | .sueltaMutex | .sueltaEmpty =>
    simp only [pasoMonitor, hpc] at h
    cases h
    rfl

/-! ### Projection to the bounded buffer -/

/-- Where the comprobador stands in the protocol of the producer. -/
def productor (b : Dato) : PcComprobador → Producer Dato
  | .esperaEmpty => .waitEmpty b
  | .esperaMutex => .waitMutex b
  | .anade fs => .write b fs
  | .sueltaMutex => .unlock
  | .sueltaFill => .signal
  | .recibe | .comprueba | .salido => .idle

/-- Where the monitor stands in the protocol of the consumer. -/
def consumidor : PcMonitor → Consumer Dato
  | .esperaMutex => .waitMutex
  | .extrae ret fs => .read ret fs
  | .sueltaMutex => .unlock
  | .sueltaEmpty => .signal
  | .esperaFill | .mira | .salido => .waitFill

/-- The bounded buffer behind the shared segment. -/
def buffer (s : Pipeline) : Buffer Dato where
  slot := s.bloque
  front := s.front
  rear := s.rear
  empty := s.semEmpty
  fill := s.semFill
  mutex := s.semMutex
  prod := productor s.bloqueMq s.pcComprobador
  cons := consumidor s.pcMonitor
  added := s.anadidos
  taken := s.extraidos

/-- The protocol of the ring. -/
def ring : System (Buffer Dato) (Event Dato) :=
  BoundedBuffer.system BUFFER_SIZE copiaAnadir copiaExtraer

/-- A step of the miner leaves the ring alone. -/
theorem buffer_pasoMinero (h : s.pasoMinero nCycles = some t) : t.buffer = s.buffer := by
  rw [frame_pasoMinero h]
  rfl

/-- A step of the comprobador is a step of the producer, or leaves the ring alone. -/
theorem buffer_pasoComprobador (h : s.pasoComprobador = some t) :
    t.buffer = s.buffer ∨ ∃ e, ring.next s.buffer e = some t.buffer := by
  match hpc : s.pcComprobador with
  | .salido => simp [pasoComprobador, hpc] at h
  | .recibe =>
    simp only [pasoComprobador, hpc] at h
    left
    split at h <;> cases h
    simp [buffer, productor, hpc]
  | .comprueba =>
    simp only [pasoComprobador, hpc] at h
    cases h
    refine Or.inr ⟨.start (comprobar s.bloqueMq), ?_⟩
    simp [ring, system, BoundedBuffer.next, buffer, productor, hpc]
  | .esperaEmpty | .esperaMutex =>
    simp only [pasoComprobador, hpc] at h
    split at h <;> cases h
    rename_i hpos
    refine Or.inr ⟨.produce, ?_⟩
    simp [ring, system, BoundedBuffer.next, nextProduce, buffer, productor, hpc, hpos, copiaAnadir]
  | .anade (f :: fs) | .anade [] | .sueltaMutex =>
    simp only [pasoComprobador, hpc] at h
    cases h
    refine Or.inr ⟨.produce, ?_⟩
    simp [ring, system, BoundedBuffer.next, nextProduce, buffer, productor, hpc]
  | .sueltaFill =>
    simp only [pasoComprobador, hpc] at h
    cases h
    have hprod : productor s.bloqueMq s.pcComprobador = .signal := by rw [hpc]; rfl
    have hidle : productor s.bloqueMq (if s.bloqueMq.fin = true then .salido else .recibe) =
        .idle := by
      split <;> rfl
    refine Or.inr ⟨.produce, ?_⟩
    simp [ring, system, BoundedBuffer.next, nextProduce, buffer, hprod, hidle]

/-- A step of the monitor is a step of the consumer, or leaves the ring alone. -/
theorem buffer_pasoMonitor (h : s.pasoMonitor = some t) :
    t.buffer = s.buffer ∨ ∃ e, ring.next s.buffer e = some t.buffer := by
  match hpc : s.pcMonitor with
  | .salido => simp [pasoMonitor, hpc] at h
  | .esperaFill | .esperaMutex =>
    simp only [pasoMonitor, hpc] at h
    split at h <;> cases h
    rename_i hpos
    refine Or.inr ⟨.consume s.bloqueMonitor, ?_⟩
    simp [ring, system, BoundedBuffer.next, nextConsume, buffer, consumidor, hpc, hpos,
      copiaExtraer]
  | .extrae ret (f :: fs) | .extrae ret [] | .sueltaMutex | .sueltaEmpty =>
    simp only [pasoMonitor, hpc] at h
    cases h
    refine Or.inr ⟨.consume s.bloqueMonitor, ?_⟩
    simp [ring, system, BoundedBuffer.next, nextConsume, buffer, consumidor, hpc]
  | .mira =>
    simp only [pasoMonitor, hpc] at h
    left
    split at h <;> cases h <;> simp [buffer, consumidor, hpc]

/-- **Simulation.** Every step of the pipeline is a step of the bounded buffer, or leaves it
alone. -/
theorem buffer_next {a : Turno} (h : next nCycles s a = some t) :
    t.buffer = s.buffer ∨ ∃ e, ring.next s.buffer e = some t.buffer := by
  cases a with
  | minero => exact Or.inl (buffer_pasoMinero h)
  | comprobador => exact buffer_pasoComprobador h
  | monitor => exact buffer_pasoMonitor h

/-- The ring keeps the invariant of the bounded buffer. -/
theorem inv_buffer (h : (sistema nCycles).Reachable s) :
    BoundedBuffer.Inv BUFFER_SIZE s.buffer := by
  have hreach : ring.Reachable s.buffer := by
    refine h.map ?_ ?_
    · rintro _ ⟨bloque, mq, mon, rfl⟩
      exact ⟨bloque, rfl⟩
    · intro s a t _ _ hnext
      rcases buffer_next hnext with heq | ⟨e, he⟩
      · exact Or.inl heq
      · exact Or.inr ⟨e, trivial, he⟩
  exact BoundedBuffer.inv_reachable hreach

end Pipeline

end Soper.P3
