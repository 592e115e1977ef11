import Soper.Proyecto.Minero

/-!
# Comprobador and monitor of the final project

The two processes of `proyecto/monitor.c` on their shared ring. The comprobador receives a
block, judges it and inserts it; the monitor extracts and prints. The insertion sequence stands
three times in the source — for a received block, for an error of `mq_receive` and for a
pending SIGINT — and differs only in what follows it, so it is modelled once, with the reason
(`Motivo`) as a parameter.

SIGINT is caught without `SA_RESTART`. Where it arrives while the comprobador is blocked in
`sem_wait`, the call returns `-1`, nothing is decremented, and the code goes on as if it held
the token (`Accion.interrumpe`). Runs without such a step project to the protocol of
`BoundedBuffer` and inherit its invariant (`bufferAcotado_of_reachableBy`); one interrupted
wait on a full ring already breaks it (`not_bufferAcotado_interrumpido`).
-/

namespace Soper.Proyecto

open BoundedBuffer

/-- Why a block is inserted: it was received, `mq_receive` failed, or SIGINT was pending. -/
inductive Motivo
  | normal
  | errorRecepcion
  | interrupcion
  deriving DecidableEq

/-- The next call of the comprobador. -/
inductive PcComprobador
  /-- `mq_receive`. -/
  | recibe
  /-- `if (sint == 1)`. -/
  | mira
  /-- `sem_wait(sem_empty)`. -/
  | esperaEmpty (m : Motivo)
  /-- `sem_wait(sem_mutex)`. -/
  | esperaMutex (m : Motivo)
  /-- The assignments of `anadirElemento` still to run, then the update of `rear`. -/
  | anade (m : Motivo) (resto : List (Bloque → Bloque → Bloque))
  /-- `sem_post(sem_mutex)`. -/
  | sueltaMutex (m : Motivo)
  /-- `sem_post(sem_fill)`. -/
  | sueltaFill (m : Motivo)
  /-- `wait(NULL)`. -/
  | espera (m : Motivo)
  /-- The process has exited with this status. -/
  | salido (codigo : ℤ)

/-- The next call of the monitor. -/
inductive PcMonitor
  /-- `sem_wait(sem_fill)`. -/
  | esperaFill
  /-- `sem_wait(sem_mutex)`. -/
  | esperaMutex
  /-- The assignments of `extraerElemento` still to run on `ret`, then the update of `front`. -/
  | extrae (ret : Bloque) (resto : List (Bloque → Bloque → Bloque))
  /-- `sem_post(sem_mutex)`. -/
  | sueltaMutex
  /-- `sem_post(sem_empty)`. -/
  | sueltaEmpty
  /-- `if (bloque_monitor.fin == true)`, and `imprimir_bloque` otherwise. -/
  | mira
  | salido

/-- The shared segment, the semaphores, both processes, and the blocks added, extracted and
printed so far. -/
structure Anillo where
  bloque : ℕ → Bloque
  front : ℕ
  rear : ℕ
  semFill : ℕ
  semEmpty : ℕ
  semMutex : ℕ
  pc : PcComprobador
  bloqueMq : Bloque
  sint : Bool
  pcMonitor : PcMonitor
  bloqueMonitor : Bloque
  anadidos : List Bloque
  extraidos : List Bloque
  impresos : List Bloque

/-- What may happen next. -/
inductive Accion
  /-- `mq_receive` delivers a block. -/
  | llega (b : Bloque)
  /-- `mq_receive` fails. -/
  | falla
  /-- The comprobador runs on to its next call. -/
  | comprobador
  /-- The handler of SIGINT runs while the comprobador is not blocked. -/
  | sigint
  /-- The handler of SIGINT runs while the comprobador is blocked, and the call returns. -/
  | interrumpe
  /-- The monitor runs on to its next call. -/
  | monitor

namespace Anillo

/-- What follows an insertion: the loop, or the end of the process. -/
def trasInsertar (m : Motivo) (b : Bloque) : PcComprobador :=
  match m with
  | .normal => if b.fin = true then .espera m else .recibe
  | _ => .espera m

/-- The exit status after `wait(NULL)`. -/
def codigoSalida : Motivo → ℤ
  | .errorRecepcion => EXIT_FAILURE
  | _ => 0

/-- `mq_receive` returned `-1`: the finishing block is inserted instead. -/
def recepcionFallida (s : Anillo) : Anillo :=
  { s with bloqueMq := { s.bloqueMq with fin := true }, pc := .esperaEmpty .errorRecepcion }

/-- One step of the comprobador, outside `mq_receive`. -/
def pasoComprobador (s : Anillo) : Option Anillo :=
  match s.pc with
  | .recibe => none
  | .mira =>
    if s.sint = true then
      some { s with
        bloqueMq := { s.bloqueMq with fin := true }, pc := .esperaEmpty .interrupcion }
    else some { s with bloqueMq := comprobar s.bloqueMq, pc := .esperaEmpty .normal }
  | .esperaEmpty m =>
    if 0 < s.semEmpty then some { s with semEmpty := s.semEmpty - 1, pc := .esperaMutex m }
    else none
  | .esperaMutex m =>
    if 0 < s.semMutex then
      some { s with semMutex := s.semMutex - 1, pc := .anade m anadirElemento }
    else none
  | .anade m (f :: fs) =>
    some { s with
      bloque := Function.update s.bloque s.rear (f (s.bloque s.rear) s.bloqueMq)
      pc := .anade m fs }
  | .anade m [] =>
    some { s with
      rear := (s.rear + 1) % BUFFER_SIZE, anadidos := s.anadidos ++ [s.bloqueMq]
      pc := .sueltaMutex m }
  | .sueltaMutex m => some { s with semMutex := s.semMutex + 1, pc := .sueltaFill m }
  | .sueltaFill m => some { s with semFill := s.semFill + 1, pc := trasInsertar m s.bloqueMq }
  | .espera m =>
    match s.pcMonitor with
    | .salido => some { s with pc := .salido (codigoSalida m) }
    | _ => none
  | .salido _ => none

/-- SIGINT while the comprobador is blocked: the call fails and the code goes on. -/
def interrumpida (s : Anillo) : Option Anillo :=
  match s.pc with
  | .recibe => some (recepcionFallida { s with sint := true })
  | .esperaEmpty m =>
    if s.semEmpty = 0 then some { s with sint := true, pc := .esperaMutex m } else none
  | .esperaMutex m =>
    if s.semMutex = 0 then some { s with sint := true, pc := .anade m anadirElemento } else none
  | .espera m => some { s with sint := true, pc := .salido (codigoSalida m) }
  | _ => none

/-- One step of the monitor. The variable `ret` of `extraerElemento` starts uninitialised; it
holds the previous block here. -/
def pasoMonitor (s : Anillo) : Option Anillo :=
  match s.pcMonitor with
  | .esperaFill =>
    if 0 < s.semFill then some { s with semFill := s.semFill - 1, pcMonitor := .esperaMutex }
    else none
  | .esperaMutex =>
    if 0 < s.semMutex then
      some { s with
        semMutex := s.semMutex - 1, pcMonitor := .extrae s.bloqueMonitor extraerElemento }
    else none
  | .extrae ret (f :: fs) =>
    some { s with pcMonitor := .extrae (f ret (s.bloque s.front)) fs }
  | .extrae ret [] =>
    some { s with
      bloqueMonitor := ret, front := (s.front + 1) % BUFFER_SIZE
      extraidos := s.extraidos ++ [ret], pcMonitor := .sueltaMutex }
  | .sueltaMutex => some { s with semMutex := s.semMutex + 1, pcMonitor := .sueltaEmpty }
  | .sueltaEmpty => some { s with semEmpty := s.semEmpty + 1, pcMonitor := .mira }
  | .mira =>
    if s.bloqueMonitor.fin = true then some { s with pcMonitor := .salido }
    else some { s with impresos := s.impresos ++ [s.bloqueMonitor], pcMonitor := .esperaFill }
  | .salido => none

/-- One step of the two processes. -/
def next (s : Anillo) : Accion → Option Anillo
  | .llega b =>
    match s.pc with
    | .recibe => some { s with bloqueMq := b, pc := .mira }
    | _ => none
  | .falla =>
    match s.pc with
    | .recibe => some (recepcionFallida s)
    | _ => none
  | .comprobador => pasoComprobador s
  | .sigint => some { s with sint := true }
  | .interrumpe => interrumpida s
  | .monitor => pasoMonitor s

/-- The start of both loops: an empty ring; slots and local variables hold anything. -/
def inicial (bloque : ℕ → Bloque) (mq mon : Bloque) : Anillo where
  bloque := bloque
  front := 0
  rear := 0
  semFill := 0
  semEmpty := BUFFER_SIZE
  semMutex := 1
  pc := .recibe
  bloqueMq := mq
  sint := false
  pcMonitor := .esperaFill
  bloqueMonitor := mon
  anadidos := []
  extraidos := []
  impresos := []

/-- Comprobador and monitor as a transition system. -/
def sistema : System Anillo Accion where
  Init s := ∃ bloque mq mon, s = inicial bloque mq mon
  next := next

/-! ### Projection to the bounded buffer -/

/-- Where the comprobador stands in the protocol of the producer. -/
def productor (b : Bloque) : PcComprobador → Producer Bloque
  | .esperaEmpty _ => .waitEmpty b
  | .esperaMutex _ => .waitMutex b
  | .anade _ fs => .write b fs
  | .sueltaMutex _ => .unlock
  | .sueltaFill _ => .signal
  | .recibe | .mira | .espera _ | .salido _ => .idle

/-- Where the monitor stands in the protocol of the consumer. -/
def consumidor : PcMonitor → Consumer Bloque
  | .esperaMutex => .waitMutex
  | .extrae ret fs => .read ret fs
  | .sueltaMutex => .unlock
  | .sueltaEmpty => .signal
  | .esperaFill | .mira | .salido => .waitFill

/-- The bounded buffer behind the shared segment. -/
def buffer (s : Anillo) : Buffer Bloque where
  slot := s.bloque
  front := s.front
  rear := s.rear
  empty := s.semEmpty
  fill := s.semFill
  mutex := s.semMutex
  prod := productor s.bloqueMq s.pc
  cons := consumidor s.pcMonitor
  added := s.anadidos
  taken := s.extraidos

/-- After an insertion the comprobador receives again or waits for its child. -/
theorem trasInsertar_cases (m : Motivo) (b : Bloque) :
    trasInsertar m b = .recibe ∨ trasInsertar m b = .espera m := by
  unfold trasInsertar
  split
  · split
    · exact Or.inr rfl
    · exact Or.inl rfl
  · exact Or.inr rfl

@[simp]
theorem productor_trasInsertar (b : Bloque) (m : Motivo) :
    productor b (trasInsertar m b) = .idle := by
  rcases trasInsertar_cases m b with h | h <;> rw [h] <;> rfl

/-- The comprobador is at one of its calls of `sem_wait`. -/
def enSemWait : PcComprobador → Bool
  | .esperaEmpty _ | .esperaMutex _ => true
  | _ => false

/-- The step is the handler of SIGINT running while the comprobador is blocked. -/
def esInterrupcion : Accion → Bool
  | .interrumpe => true
  | _ => false

/-- The handler of SIGINT does not run while the comprobador is blocked in a `sem_wait`. -/
def SinEsperaInterrumpida (s : Anillo) (a : Accion) : Prop :=
  ¬ (esInterrupcion a = true ∧ enSemWait s.pc = true)

instance (s : Anillo) (a : Accion) : Decidable (SinEsperaInterrumpida s a) :=
  inferInstanceAs (Decidable (¬ _))

variable {s t : Anillo}

/-- A step of the comprobador is a step of the producer, or leaves the buffer alone. -/
theorem buffer_pasoComprobador (h : pasoComprobador s = some t) :
    buffer t = buffer s ∨ ∃ e, BoundedBuffer.next BUFFER_SIZE copiaAnadir copiaExtraer
      (buffer s) e = some (buffer t) := by
  match hpc : s.pc with
  | .recibe | .salido _ => simp [pasoComprobador, hpc] at h
  | .mira =>
    simp only [pasoComprobador, hpc] at h
    refine Or.inr ⟨.start t.bloqueMq, ?_⟩
    split at h <;> cases h <;> simp [BoundedBuffer.next, buffer, productor, hpc]
  | .esperaEmpty m | .esperaMutex m =>
    simp only [pasoComprobador, hpc] at h
    split at h <;> cases h
    rename_i hpos
    refine Or.inr ⟨.produce, ?_⟩
    simp [BoundedBuffer.next, nextProduce, buffer, productor, hpc, hpos, copiaAnadir]
  | .anade m (f :: fs) | .anade m [] | .sueltaMutex m =>
    simp only [pasoComprobador, hpc] at h
    cases h
    refine Or.inr ⟨.produce, ?_⟩
    simp [BoundedBuffer.next, nextProduce, buffer, productor, hpc]
  | .sueltaFill m =>
    simp only [pasoComprobador, hpc] at h
    cases h
    have hprod : productor s.bloqueMq s.pc = .signal := by rw [hpc]; rfl
    refine Or.inr ⟨.produce, ?_⟩
    simp [BoundedBuffer.next, nextProduce, buffer, hprod]
  | .espera m =>
    simp only [pasoComprobador, hpc] at h
    split at h <;> cases h
    left
    simp [buffer, productor, hpc]

/-- A step of the monitor is a step of the consumer, or leaves the buffer alone. -/
theorem buffer_pasoMonitor (h : pasoMonitor s = some t) :
    buffer t = buffer s ∨ ∃ e, BoundedBuffer.next BUFFER_SIZE copiaAnadir copiaExtraer
      (buffer s) e = some (buffer t) := by
  match hpc : s.pcMonitor with
  | .salido => simp [pasoMonitor, hpc] at h
  | .esperaFill | .esperaMutex =>
    simp only [pasoMonitor, hpc] at h
    split at h <;> cases h
    rename_i hpos
    refine Or.inr ⟨.consume s.bloqueMonitor, ?_⟩
    simp [BoundedBuffer.next, nextConsume, buffer, consumidor, hpc, hpos, copiaExtraer]
  | .extrae ret (f :: fs) | .extrae ret [] | .sueltaMutex | .sueltaEmpty =>
    simp only [pasoMonitor, hpc] at h
    cases h
    refine Or.inr ⟨.consume s.bloqueMonitor, ?_⟩
    simp [BoundedBuffer.next, nextConsume, buffer, consumidor, hpc]
  | .mira =>
    simp only [pasoMonitor, hpc] at h
    left
    split at h <;> cases h <;> simp [buffer, consumidor, hpc]

/-- **Simulation.** Every step without an interrupted `sem_wait` is a step of the bounded
buffer, or leaves it alone. -/
theorem buffer_next {a : Accion} (hok : SinEsperaInterrumpida s a) (h : next s a = some t) :
    buffer t = buffer s ∨ ∃ e, BoundedBuffer.next BUFFER_SIZE copiaAnadir copiaExtraer
      (buffer s) e = some (buffer t) := by
  cases a with
  | llega b =>
    simp only [next] at h
    split at h <;> cases h
    rename_i hpc
    left
    simp [buffer, productor, hpc]
  | falla =>
    simp only [next] at h
    split at h <;> cases h
    rename_i hpc
    exact Or.inr ⟨.start { s.bloqueMq with fin := true },
      by simp [BoundedBuffer.next, buffer, recepcionFallida, productor, hpc]⟩
  | comprobador => exact buffer_pasoComprobador h
  | sigint =>
    cases h
    exact Or.inl rfl
  | interrumpe =>
    simp only [next] at h
    cases hpc : s.pc with
    | recibe =>
      simp only [interrumpida, hpc] at h
      cases h
      exact Or.inr ⟨.start { s.bloqueMq with fin := true },
        by simp [BoundedBuffer.next, buffer, recepcionFallida, productor, hpc]⟩
    | esperaEmpty m | esperaMutex m =>
      simp [SinEsperaInterrumpida, esInterrupcion, enSemWait, hpc] at hok
    | espera m =>
      simp only [interrumpida, hpc] at h
      cases h
      left
      simp [buffer, productor, hpc]
    | mira | anade m fs | sueltaMutex m | sueltaFill m | salido c =>
      simp [interrumpida, hpc] at h
  | monitor => exact buffer_pasoMonitor h

/-- The ring keeps the invariant of the bounded buffer as long as no `sem_wait` of the
comprobador is interrupted. -/
theorem inv_buffer (h : sistema.ReachableBy SinEsperaInterrumpida s) :
    BoundedBuffer.Inv BUFFER_SIZE (buffer s) := by
  have hreach : (BoundedBuffer.system BUFFER_SIZE copiaAnadir copiaExtraer).Reachable
      (buffer s) := by
    refine h.map ?_ ?_
    · rintro _ ⟨bloque, mq, mon, rfl⟩
      exact ⟨bloque, rfl⟩
    · intro s a t _ hok hnext
      rcases buffer_next hok hnext with heq | ⟨e, he⟩
      · exact Or.inl heq
      · exact Or.inr ⟨e, trivial, he⟩
  exact BoundedBuffer.inv_reachable hreach

/-! ### Bounds, exclusion and unread slots -/

/-- The comprobador is between its `sem_wait(sem_mutex)` and its `sem_post(sem_mutex)`. -/
def EscribeEnMutex (s : Anillo) : Prop := (productor s.bloqueMq s.pc).locked = 1

/-- The monitor is between its `sem_wait(sem_mutex)` and its `sem_post(sem_mutex)`. -/
def LeeEnMutex (s : Anillo) : Prop := (consumidor s.pcMonitor).locked = 1

/-- Blocks added and not yet extracted. -/
def sinLeer (s : Anillo) : ℕ := s.anadidos.length - s.extraidos.length

/-- The ring works as a bounded buffer: at most `BUFFER_SIZE` blocks are unread, the indices
enclose them whenever the mutex is free, the slot being written holds none of them, the
processes exclude each other, and the blocks come out as they went in. -/
structure BufferAcotado (s : Anillo) : Prop where
  acotado : s.anadidos.length ≤ s.extraidos.length + BUFFER_SIZE
  indices : 0 < s.semMutex → s.front < BUFFER_SIZE ∧ s.rear < BUFFER_SIZE ∧
    s.rear = (s.front + sinLeer s) % BUFFER_SIZE
  noPisa : ∀ m fs, s.pc = .anade m fs → ∀ k < sinLeer s, (s.front + k) % BUFFER_SIZE ≠ s.rear
  exclusion : ¬ (EscribeEnMutex s ∧ LeeEnMutex s)
  orden : s.extraidos <+: s.anadidos

/-- The buffer's invariant says so. -/
theorem bufferAcotado_of_inv (h : BoundedBuffer.Inv BUFFER_SIZE (buffer s)) :
    BufferAcotado s where
  acotado := h.length_le
  indices _ := ⟨(h.index_lt (by decide)).1, (h.index_lt (by decide)).2, h.rear_eq⟩
  noPisa m fs hpc k hk := by
    have hclaim : (buffer s).prod.claimed = 1 := by simp [buffer, productor, hpc, Producer.claimed]
    have hne := h.not_overwritten hclaim (i := s.extraidos.length + k) (Nat.le_add_right _ _)
      (by unfold sinLeer at hk; change _ < s.anadidos.length; omega)
    have hfront : s.front = s.extraidos.length % BUFFER_SIZE := h.front
    rwa [hfront, Nat.mod_add_mod]
  exclusion hboth := by
    have hex := h.exclusion
    have h₁ : (buffer s).prod.locked = 1 := hboth.1
    have h₂ : (buffer s).cons.locked = 1 := hboth.2
    omega
  orden := h.order

/-- **Bounded buffer, uninterrupted waits.** In every run in which SIGINT never interrupts a
blocked `sem_wait` of the comprobador, every state reached satisfies the bounded buffer. -/
theorem bufferAcotado_of_reachableBy (h : sistema.ReachableBy SinEsperaInterrumpida s) :
    BufferAcotado s :=
  bufferAcotado_of_inv (inv_buffer h)

/-- The steps that insert one received block: the test of `sint`, two waits, the nine
assignments, the update of `rear` and two posts. -/
def insercion (b : Bloque) : List Accion := .llega b :: List.replicate 15 .comprobador

/-- The steps that extract one block and print it, or end at the finishing block. -/
def extraccion : List Accion := List.replicate 15 .monitor

/-- An instance: a block is inserted and extracted, SIGINT arrives while nobody waits, and the
finishing block follows. -/
theorem bufferAcotado_two_blocks :
    ∃ s : Anillo, (s.extraidos.length, s.impresos.length, s.sint) = (2, 1, true) ∧
      BufferAcotado s := by
  have hinit : sistema.ReachableBy SinEsperaInterrumpida
      (inicial (fun _ => bloqueCero) bloqueCero bloqueCero) := .init ⟨_, _, _, rfl⟩
  let acciones := insercion bloqueCero ++ [.sigint] ++ insercion bloqueCero ++ extraccion ++
    extraccion
  obtain ⟨s, hs, hlen⟩ : ∃ s, sistema.runBy SinEsperaInterrumpida
      (inicial (fun _ => bloqueCero) bloqueCero bloqueCero) acciones = some s ∧
        (s.extraidos.length, s.impresos.length, s.sint) = (2, 1, true) :=
    Option.map_eq_some_iff.mp (by decide +kernel)
  exact ⟨s, hlen, bufferAcotado_of_reachableBy (hinit.runBy hs)⟩

/-- On a full ring, one SIGINT during `sem_wait(sem_empty)` makes the comprobador write a sixth
block over an unread one. -/
theorem not_bufferAcotado_interrumpido :
    ¬ ∀ s : Anillo, sistema.Reachable s → BufferAcotado s := by
  intro hall
  have hinit : sistema.Reachable (inicial (fun _ => bloqueCero) bloqueCero bloqueCero) :=
    .init ⟨_, _, _, rfl⟩
  let acciones := (List.replicate 5 (insercion bloqueCero)).flatten ++
    [.llega bloqueCero, .comprobador, .interrumpe] ++ List.replicate 11 .comprobador
  obtain ⟨s, hs, hlen⟩ : ∃ s, sistema.run (inicial (fun _ => bloqueCero) bloqueCero bloqueCero)
      acciones = some s ∧ (s.anadidos.length, s.extraidos.length) = (6, 0) :=
    Option.map_eq_some_iff.mp (by decide +kernel)
  have hacot := (hall s (hinit.run hs)).acotado
  simp only [Prod.mk.injEq] at hlen
  rw [hlen.1, hlen.2] at hacot
  exact absurd hacot (by decide)

end Anillo

end Soper.Proyecto
