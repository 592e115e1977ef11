import Mathlib.Data.List.Pairwise
import Soper.Proyecto.Historia

/-!
# The whole final project: miner, Registrador, comprobador and monitor

The miner writes every block of its loop to a pipe, whose other end its child, the Registrador,
copies to a log file; and it offers the block to a message queue of capacity `MAX_MSG`, from
which the comprobador feeds the shared ring (`Anillo`). The offer is a test of the number of
messages followed by `mq_send`, as two steps: where the queue looks full the block is dropped.

Here the pipe takes every block, and a block's text in the log or on the screen is a single step;
`Cierre` adds the capacity of the pipe and the calls a signal cuts short, `Textos` the texts as
they are written, call by call. The miner's signals end its loop at any moment; no call fails and
the comprobador receives no SIGINT. Whatever the four processes interleave, log and monitor tell
the same story (`relato_reachable`): the log is a beginning of what was mined, the monitor prints
a part of it in order, with the fields as mined and the verdict of the proof of work.
-/

namespace Soper.Proyecto

/-- The next call of the miner. -/
inductive PcMinero
  /-- `while (sint != 1 && salarm != 1)`. -/
  | bucle
  /-- `manage_threads`, the vote and the copy to `auxiliar`. -/
  | mina
  /-- `write` to the Registrador. -/
  | escribe
  /-- `mq_getattr` and the test of `mq_curmsgs`. -/
  | consulta
  /-- `mq_send` of the block. -/
  | envia
  /-- The current block becomes the last one. -/
  | traspasa
  /-- `mq_getattr` after the loop. -/
  | consultaFin
  /-- `mq_send` of the finishing block. -/
  | enviaFin
  /-- The unlinks, and `close` of the pipe. -/
  | cierra
  /-- `wait(NULL)`. -/
  | espera
  | salido
  deriving DecidableEq

/-- The next call of the Registrador. -/
inductive PcRegistrador
  /-- `read`. -/
  | lee
  /-- The `dprintf`s of one block. -/
  | anota
  | salido
  deriving DecidableEq

/-- The four processes, the pipe, the log, the queue, and the blocks mined and sent so far. -/
structure Sistema where
  mem : MemoriaMinero
  auxiliar : Bloque
  bloqueFin : Bloque
  mqCurmsgs : ℕ
  sint : Bool
  salarm : Bool
  pc : PcMinero
  tuberia : List Bloque
  extremoEscritura : Bool
  pcRegistrador : PcRegistrador
  bActual : Bloque
  registro : List (Bloque × Bool)
  cola : List Bloque
  anillo : Anillo
  minados : List Bloque
  mandados : List Bloque

/-- Which process goes on. -/
inductive Turno
  /-- The miner; where it searches, `manage_threads` returns this value. -/
  | minero (v : ℤ)
  | sigint
  | sigalrm
  | registrador
  /-- The comprobador takes a message from the queue. -/
  | recibe
  | comprobador
  | monitor

namespace Sistema

/-- The finishing block; its wallets are never assigned. -/
def fin (carteras : Fin MAX_MINEROS → Cartera) : Bloque where
  id := -1
  objetivo := -1
  solucion := -1
  ganador := 0
  carteras := carteras
  votosTotales := 0
  votosPositivos := 0
  correcto := false
  fin := true

/-- One step of the miner. -/
def pasoMinero (pid v : ℤ) (s : Sistema) : Option Sistema :=
  match s.pc with
  | .bucle => some { s with pc := if s.sint ≠ true ∧ s.salarm ≠ true then .mina else .consultaFin }
  | .mina =>
    let b := minar pid v s.mem.blActual
    some { s with
      mem := { s.mem with blActual := b }, auxiliar := b, minados := s.minados ++ [b]
      pc := .escribe }
  | .escribe => some { s with tuberia := s.tuberia ++ [s.auxiliar], pc := .consulta }
  | .consulta =>
    some { s with
      mqCurmsgs := s.cola.length
      pc := if s.cola.length < MAX_MSG then .envia else .traspasa }
  | .envia =>
    if s.cola.length < MAX_MSG then
      some { s with
        cola := s.cola ++ [s.auxiliar], mandados := s.mandados ++ [s.auxiliar]
        pc := .traspasa }
    else none
  | .traspasa => some { s with mem := traspaso s.mem, pc := .bucle }
  | .consultaFin =>
    some { s with
      mqCurmsgs := s.cola.length
      pc := if s.cola.length < MAX_MSG then .enviaFin else .cierra }
  | .enviaFin =>
    if s.cola.length < MAX_MSG then
      some { s with
        cola := s.cola ++ [s.bloqueFin], mandados := s.mandados ++ [s.bloqueFin]
        pc := .cierra }
    else none
  | .cierra =>
    some { s with
      mem := { s.mem with numMineros := s.mem.numMineros - 1 }, extremoEscritura := false
      pc := .espera }
  | .espera =>
    match s.pcRegistrador with
    | .salido => some { s with pc := .salido }
    | _ => none
  | .salido => none

/-- One step of the Registrador: `read` returns a whole block, or `0` once the miner has closed
its end. -/
def pasoRegistrador (s : Sistema) : Option Sistema :=
  match s.pcRegistrador with
  | .lee =>
    match s.tuberia with
    | b :: resto => some { s with tuberia := resto, bActual := b, pcRegistrador := .anota }
    | [] => if s.extremoEscritura then none else some { s with pcRegistrador := .salido }
  | .anota =>
    some { s with
      registro := s.registro ++ [(s.bActual, decide (quorum s.bActual))]
      pcRegistrador := .lee }
  | .salido => none

/-- One step of the system. -/
def next (pid : ℤ) (s : Sistema) : Turno → Option Sistema
  | .minero v => pasoMinero pid v s
  | .sigint => some { s with sint := true }
  | .sigalrm => some { s with salarm := true }
  | .registrador => pasoRegistrador s
  | .recibe =>
    match s.cola with
    | b :: resto =>
      (Anillo.next s.anillo (.llega b)).map fun a => { s with cola := resto, anillo := a }
    | [] => none
  | .comprobador => (Anillo.next s.anillo .comprobador).map fun a => { s with anillo := a }
  | .monitor => (Anillo.next s.anillo .monitor).map fun a => { s with anillo := a }

/-- The start of the four loops. What uninitialised variables hold is arbitrary. -/
structure Inicial (pid : ℤ) (s : Sistema) : Prop where
  mem : ∃ basura basuraUltimo, s.mem = inicializar pid basura basuraUltimo
  bloqueFin : ∃ carteras, s.bloqueFin = fin carteras
  sint : s.sint = false
  salarm : s.salarm = false
  pc : s.pc = .bucle
  tuberia : s.tuberia = []
  extremoEscritura : s.extremoEscritura = true
  pcRegistrador : s.pcRegistrador = .lee
  registro : s.registro = []
  cola : s.cola = []
  anillo : ∃ bloque mq mon, s.anillo = Anillo.inicial bloque mq mon
  minados : s.minados = []
  mandados : s.mandados = []

/-- The project as a transition system, for a miner with the given process id. -/
def sistema (pid : ℤ) : System Sistema Turno where
  Init := Inicial pid
  next := next pid

/-! ### The invariant -/

open Anillo (limpiar enMano Impresion Juzgados)

/-- The block the Registrador has read and not yet logged. -/
def porAnotar (s : Sistema) : List Bloque :=
  match s.pcRegistrador with
  | .anota => [s.bActual]
  | _ => []

/-- The block mined and not yet written to the pipe. -/
def porEscribir (s : Sistema) : List Bloque :=
  match s.pc with
  | .escribe => [s.auxiliar]
  | _ => []

/-- The block mined and not yet offered to the queue. -/
def porEnviar (s : Sistema) : List Bloque :=
  match s.pc with
  | .escribe | .consulta | .envia => [s.auxiliar]
  | _ => []

/-- The miner is in a round, after the search: `auxiliar` is the current block. -/
def trasMinar : PcMinero → Bool
  | .escribe | .consulta | .envia | .traspasa => true
  | _ => false

/-- The miner is still in its loop. -/
def enBucle : PcMinero → Bool
  | .bucle | .mina | .escribe | .consulta | .envia | .traspasa => true
  | _ => false

/-- What the miner's loop keeps about blocks and identifiers. -/
structure InvMinero (s : Sistema) : Prop where
  copia : trasMinar s.pc = true → s.mem.blActual = s.auxiliar
  idActual : enBucle s.pc = true → s.mem.blActual.id =
    toInt (if trasMinar s.pc = true then s.minados.length else s.minados.length + 1)
  limpio : enBucle s.pc = true → s.mem.blActual.fin = false ∧ s.mem.blActual.correcto = false
  ids : s.minados.map Bloque.id = (List.range s.minados.length).map fun k : ℕ => toInt (k + 1)
  minados : ∀ b ∈ s.minados, b.fin = false ∧ b.correcto = false
  bloqueFin : s.bloqueFin.fin = true ∧ s.bloqueFin.correcto = false

/-- What pipe and queue hold: nothing mined is lost on the way to the log, the queue holds what
was sent and not received, and a block sent was mined before. -/
structure InvCanales (s : Sistema) : Prop where
  registro : s.minados =
    s.registro.map Prod.fst ++ porAnotar s ++ s.tuberia ++ porEscribir s
  flujo : (s.anillo.anadidos ++ enMano s.anillo).map limpiar ++ s.cola = s.mandados
  limpios : ∀ b ∈ s.mandados, b.correcto = false
  envio : ∃ hechos, s.minados = hechos ++ porEnviar s ∧
    (s.mandados.filter fun b => !b.fin).Sublist hechos
  hueco : s.pc = .envia ∨ s.pc = .enviaFin → s.cola.length < MAX_MSG

/-- What the comprobador and the monitor keep. -/
structure InvAnillo (s : Sistema) : Prop where
  sint : s.anillo.sint = false
  impresion : Impresion s.anillo
  juzgados : Juzgados s.anillo

variable {pid : ℤ} {s t : Sistema}

/-! ### Steps of the miner -/

/-- The miner leaves the flags, the Registrador, the log and the ring alone. -/
theorem frame_pasoMinero {v : ℤ} (h : pasoMinero pid v s = some t) :
    t = { s with
      mem := t.mem, auxiliar := t.auxiliar, mqCurmsgs := t.mqCurmsgs, pc := t.pc
      tuberia := t.tuberia, extremoEscritura := t.extremoEscritura, cola := t.cola
      minados := t.minados, mandados := t.mandados } := by
  match hpc : s.pc with
  | .salido => simp [pasoMinero, hpc] at h
  | .bucle | .mina | .escribe | .consulta | .traspasa | .consultaFin | .cierra =>
    simp only [pasoMinero, hpc] at h
    cases h
    rfl
  | .envia | .enviaFin | .espera =>
    simp only [pasoMinero, hpc] at h
    split at h <;> cases h
    rfl

theorem anillo_pasoMinero {v : ℤ} (h : pasoMinero pid v s = some t) : t.anillo = s.anillo := by
  rw [frame_pasoMinero h]

/-- After the loop nothing is said about the current block. -/
theorem InvMinero.of_fuera (htras : trasMinar s.pc = false) (hfuera : enBucle s.pc = false)
    (hids : s.minados.map Bloque.id = (List.range s.minados.length).map fun k : ℕ => toInt (k + 1))
    (hmin : ∀ b ∈ s.minados, b.fin = false ∧ b.correcto = false)
    (hfin : s.bloqueFin.fin = true ∧ s.bloqueFin.correcto = false) : InvMinero s where
  copia hf := absurd (htras.symm.trans hf) Bool.false_ne_true
  idActual hf := absurd (hfuera.symm.trans hf) Bool.false_ne_true
  limpio hf := absurd (hfuera.symm.trans hf) Bool.false_ne_true
  ids := hids
  minados := hmin
  bloqueFin := hfin

theorem invMinero_pasoMinero {v : ℤ} (hi : InvMinero s) (h : pasoMinero pid v s = some t) :
    InvMinero t := by
  obtain ⟨hcopia, hid, hlimpio, hids, hmin, hfin⟩ := hi
  match hpc : s.pc with
  | .salido => simp [pasoMinero, hpc] at h
  | .bucle =>
    simp only [pasoMinero, hpc] at h
    rw [hpc] at hid hlimpio
    cases h
    split
    · exact ⟨fun hf => (Bool.false_ne_true hf).elim, hid, hlimpio, hids, hmin, hfin⟩
    · exact .of_fuera rfl rfl hids hmin hfin
  | .mina =>
    simp only [pasoMinero, hpc] at h
    rw [hpc] at hid hlimpio
    -- the block mined has the next identifier
    replace hid : s.mem.blActual.id = toInt (s.minados.length + 1) := hid rfl
    replace hlimpio := hlimpio rfl
    cases h
    refine ⟨fun _ => rfl, fun _ => ?_, fun _ => ?_, ?_, ?_, hfin⟩
    · simp [trasMinar, hid]
    · simpa using hlimpio
    · simp [hids, hid, List.range_succ]
    · refine List.forall_mem_append.mpr ⟨hmin, List.forall_mem_singleton.mpr ?_⟩
      rw [minar_fin, minar_correcto]
      exact hlimpio
  | .escribe =>
    simp only [pasoMinero, hpc] at h
    rw [hpc] at hcopia hid hlimpio
    cases h
    exact ⟨hcopia, hid, hlimpio, hids, hmin, hfin⟩
  | .consulta =>
    simp only [pasoMinero, hpc] at h
    rw [hpc] at hcopia hid hlimpio
    cases h
    split <;> exact ⟨hcopia, hid, hlimpio, hids, hmin, hfin⟩
  | .envia =>
    simp only [pasoMinero, hpc] at h
    rw [hpc] at hcopia hid hlimpio
    split at h <;> cases h
    exact ⟨hcopia, hid, hlimpio, hids, hmin, hfin⟩
  | .traspasa =>
    simp only [pasoMinero, hpc] at h
    rw [hpc] at hid
    replace hid : s.mem.blActual.id = toInt s.minados.length := hid rfl
    cases h
    refine ⟨fun hf => (Bool.false_ne_true hf).elim, fun _ => ?_, fun _ => ⟨rfl, rfl⟩, hids, hmin,
      hfin⟩
    simp [traspaso, hid, trasMinar, toInt_toInt_add]
  | .consultaFin =>
    simp only [pasoMinero, hpc] at h
    cases h
    split <;> exact .of_fuera rfl rfl hids hmin hfin
  | .enviaFin | .espera =>
    simp only [pasoMinero, hpc] at h
    split at h <;> cases h
    exact .of_fuera rfl rfl hids hmin hfin
  | .cierra =>
    simp only [pasoMinero, hpc] at h
    cases h
    exact .of_fuera rfl rfl hids hmin hfin

/-- The miner keeps the channels: what it mines it writes to the pipe, and offers to the queue
at most once. -/
theorem invCanales_pasoMinero {v : ℤ} (hm : InvMinero s) (hi : InvCanales s)
    (h : pasoMinero pid v s = some t) : InvCanales t := by
  obtain ⟨hreg, hflujo, hlim, ⟨hechos, hmin, hsub⟩, hhueco⟩ := hi
  match hpc : s.pc with
  | .salido => simp [pasoMinero, hpc] at h
  | .bucle =>
    simp only [pasoMinero, hpc] at h
    simp only [porEscribir, porEnviar, hpc] at hreg hmin
    cases h
    split <;> exact ⟨hreg, hflujo, hlim, ⟨hechos, hmin, hsub⟩, by simp⟩
  | .mina =>
    simp only [pasoMinero, hpc] at h
    simp only [porEscribir, porEnviar, hpc, List.append_nil] at hreg hmin
    cases h
    refine ⟨congrArg (· ++ [_]) hreg, hflujo, hlim, ⟨s.minados, rfl, hmin ▸ hsub⟩, by simp⟩
  | .escribe =>
    simp only [pasoMinero, hpc] at h
    simp only [porEscribir, porEnviar, hpc] at hreg hmin
    cases h
    refine ⟨?_, hflujo, hlim, ⟨hechos, hmin, hsub⟩, by simp⟩
    simpa [porEscribir, porAnotar] using hreg
  | .consulta =>
    simp only [pasoMinero, hpc] at h
    simp only [porEscribir, porEnviar, hpc] at hreg hmin
    cases h
    split
    · rename_i hlt
      exact ⟨hreg, hflujo, hlim, ⟨hechos, hmin, hsub⟩, fun _ => hlt⟩
    · -- the queue looks full: the block is dropped
      refine ⟨hreg, hflujo, hlim, ⟨s.minados, (List.append_nil _).symm, ?_⟩, by simp⟩
      rw [hmin]
      exact hsub.trans (List.sublist_append_left _ _)
  | .envia =>
    simp only [pasoMinero, hpc] at h
    simp only [porEscribir, porEnviar, hpc] at hreg hmin
    -- the queue has room: the block goes into it
    have haux := hm.minados s.auxiliar (by rw [hmin]; simp)
    split at h <;> cases h
    refine ⟨hreg, ?_, ?_, ⟨s.minados, (List.append_nil _).symm, ?_⟩, by simp⟩
    · rw [← List.append_assoc]
      exact congrArg (· ++ [s.auxiliar]) hflujo
    · exact List.forall_mem_append.mpr ⟨hlim, List.forall_mem_singleton.mpr haux.2⟩
    · rw [List.filter_append, hmin]
      refine hsub.append ?_
      simp [haux.1]
  | .traspasa | .cierra =>
    simp only [pasoMinero, hpc] at h
    simp only [porEscribir, porEnviar, hpc] at hreg hmin
    cases h
    exact ⟨hreg, hflujo, hlim, ⟨hechos, hmin, hsub⟩, by simp⟩
  | .consultaFin =>
    simp only [pasoMinero, hpc] at h
    simp only [porEscribir, porEnviar, hpc] at hreg hmin
    cases h
    split
    · rename_i hlt
      exact ⟨hreg, hflujo, hlim, ⟨hechos, hmin, hsub⟩, fun _ => hlt⟩
    · exact ⟨hreg, hflujo, hlim, ⟨hechos, hmin, hsub⟩, by simp⟩
  | .enviaFin =>
    simp only [pasoMinero, hpc] at h
    simp only [porEscribir, porEnviar, hpc] at hreg hmin
    split at h <;> cases h
    refine ⟨hreg, ?_, ?_, ⟨hechos, hmin, ?_⟩, by simp⟩
    · rw [← List.append_assoc]
      exact congrArg (· ++ [s.bloqueFin]) hflujo
    · exact List.forall_mem_append.mpr ⟨hlim, List.forall_mem_singleton.mpr hm.bloqueFin.2⟩
    · simpa [List.filter_append, hm.bloqueFin.1] using hsub
  | .espera =>
    simp only [pasoMinero, hpc] at h
    simp only [porEscribir, porEnviar, hpc] at hreg hmin
    split at h <;> cases h
    exact ⟨hreg, hflujo, hlim, ⟨hechos, hmin, hsub⟩, by simp⟩

/-! ### Steps of the other processes -/

/-- The Registrador moves the first block of the pipe to the log. -/
theorem invCanales_pasoRegistrador (hi : InvCanales s) (h : pasoRegistrador s = some t) :
    InvCanales t := by
  obtain ⟨hreg, hflujo, hlim, henvio, hhueco⟩ := hi
  match hpc : s.pcRegistrador with
  | .salido => simp [pasoRegistrador, hpc] at h
  | .lee =>
    simp only [porAnotar, hpc] at hreg
    match htub : s.tuberia with
    | b :: resto =>
      simp only [pasoRegistrador, hpc, htub] at h
      cases h
      refine ⟨?_, hflujo, hlim, henvio, hhueco⟩
      simpa [porAnotar, porEscribir, htub] using hreg
    | [] =>
      simp only [pasoRegistrador, hpc, htub] at h
      split at h <;> cases h
      refine ⟨?_, hflujo, hlim, henvio, hhueco⟩
      simpa [porAnotar, porEscribir, htub] using hreg
  | .anota =>
    simp only [pasoRegistrador, hpc] at h
    simp only [porAnotar, hpc] at hreg
    cases h
    refine ⟨?_, hflujo, hlim, henvio, hhueco⟩
    simpa [porAnotar, porEscribir] using hreg

/-- The Registrador touches the pipe and the log only. -/
theorem frame_pasoRegistrador (h : pasoRegistrador s = some t) :
    t = { s with
      tuberia := t.tuberia, pcRegistrador := t.pcRegistrador, bActual := t.bActual
      registro := t.registro } := by
  match hpc : s.pcRegistrador with
  | .salido => simp [pasoRegistrador, hpc] at h
  | .lee =>
    match htub : s.tuberia with
    | b :: resto =>
      simp only [pasoRegistrador, hpc, htub] at h
      cases h
      rfl
    | [] =>
      simp only [pasoRegistrador, hpc, htub] at h
      split at h <;> cases h
      rfl
  | .anota =>
    simp only [pasoRegistrador, hpc] at h
    cases h
    rfl

theorem anillo_pasoRegistrador (h : pasoRegistrador s = some t) : t.anillo = s.anillo := by
  rw [frame_pasoRegistrador h]

/-- The other processes leave the miner, its messages and its end of the pipe alone. -/
theorem frame_next {a : Turno} (ha : ∀ v, a ≠ .minero v) (h : next pid s a = some t) :
    t = { s with
      sint := t.sint, salarm := t.salarm, tuberia := t.tuberia, pcRegistrador := t.pcRegistrador
      bActual := t.bActual, registro := t.registro, cola := t.cola, anillo := t.anillo } := by
  cases a with
  | minero v => exact absurd rfl (ha v)
  | sigint | sigalrm =>
    cases h
    rfl
  | registrador =>
    rw [frame_pasoRegistrador h]
  | recibe =>
    simp only [next] at h
    split at h
    · obtain ⟨a, -, rfl⟩ := Option.map_eq_some_iff.mp h
      rfl
    · cases h
  | comprobador | monitor =>
    obtain ⟨a, -, rfl⟩ := Option.map_eq_some_iff.mp h
    rfl

/-- What the whole system keeps. -/
structure Inv (s : Sistema) : Prop where
  minero : InvMinero s
  canales : InvCanales s
  anillo : InvAnillo s

/-- The comprobador takes a message over. -/
theorem inv_recibe (hi : Inv s) (h : next pid s .recibe = some t) : Inv t := by
  obtain ⟨hm, ⟨hreg, hflujo, hlim, henvio, hhueco⟩, ⟨hsint, himp, hjuz⟩⟩ := hi
  match hcola : s.cola with
  | [] => simp [next, hcola] at h
  | b :: resto =>
    match hpc : s.anillo.pc with
    | .recibe =>
      simp only [next, hcola, Anillo.next, hpc, Option.map_some] at h
      cases h
      refine ⟨⟨hm.copia, hm.idActual, hm.limpio, hm.ids, hm.minados, hm.bloqueFin⟩,
        ⟨hreg, ?_, hlim, henvio, fun hp => ?_⟩, ⟨hsint, himp.of_eq rfl rfl rfl rfl,
        ⟨hjuz.anadidos, by rintro ⟨⟩⟩⟩⟩
      · -- a message in the queue carries no verdict yet
        have hb : b.correcto = false := hlim b (by rw [← hflujo, hcola]; simp)
        have hlimpia : limpiar b = b := by rw [limpiar, ← hb]
        rw [hcola] at hflujo
        simpa [enMano, hpc, hlimpia] using hflujo
      · have hlt := hhueco hp
        simp only [hcola, List.length_cons] at hlt
        exact Nat.lt_of_succ_lt hlt
    | .mira | .esperaEmpty _ | .esperaMutex _ | .anade _ _ | .sueltaMutex _ | .sueltaFill _
    | .espera _ | .salido _ => simp [next, hcola, Anillo.next, hpc] at h

/-- The comprobador goes on. -/
theorem inv_comprobador (hi : Inv s) (h : next pid s .comprobador = some t) : Inv t := by
  obtain ⟨hm, ⟨hreg, hflujo, hlim, henvio, hhueco⟩, ⟨hsint, himp, hjuz⟩⟩ := hi
  simp only [next, Option.map_eq_some_iff] at h
  obtain ⟨a, ha, rfl⟩ := h
  have hflu := Anillo.flujo_pasoComprobador hsint ha
  obtain ⟨h₁, h₂, h₃, h₄⟩ := Anillo.monitor_pasoComprobador ha
  exact ⟨⟨hm.copia, hm.idActual, hm.limpio, hm.ids, hm.minados, hm.bloqueFin⟩,
    ⟨hreg, by rw [← hflujo, ← hflu.1], hlim, henvio, hhueco⟩,
    ⟨hflu.2, himp.of_eq h₁ h₂ h₃ h₄, Anillo.juzgados_pasoComprobador hsint hjuz ha⟩⟩

/-- The monitor goes on. -/
theorem inv_monitor (hi : Inv s) (h : next pid s .monitor = some t) : Inv t := by
  obtain ⟨hm, ⟨hreg, hflujo, hlim, henvio, hhueco⟩, ⟨hsint, himp, hjuz⟩⟩ := hi
  simp only [next, Option.map_eq_some_iff] at h
  obtain ⟨a, ha, rfl⟩ := h
  obtain ⟨hpc, hmq, hs, hanad⟩ := Anillo.comprobador_pasoMonitor ha
  have hmano : enMano a = enMano s.anillo := by simp only [enMano, hpc, hmq]
  exact ⟨⟨hm.copia, hm.idActual, hm.limpio, hm.ids, hm.minados, hm.bloqueFin⟩,
    ⟨hreg, by rw [← hflujo, ← hanad, ← hmano], hlim, henvio, hhueco⟩,
    ⟨hs.trans hsint, Anillo.impresion_pasoMonitor himp ha,
      ⟨hanad ▸ hjuz.anadidos, by rw [hpc, hmq]; exact hjuz.mano⟩⟩⟩

/-- **Step lemma.** -/
theorem inv_next {a : Turno} (hi : Inv s) (h : next pid s a = some t) : Inv t := by
  cases a with
  | minero v =>
    have hanillo := anillo_pasoMinero h
    refine ⟨invMinero_pasoMinero hi.minero h, invCanales_pasoMinero hi.minero hi.canales h, ?_⟩
    obtain ⟨hsint, himp, hjuz⟩ := hi.anillo
    exact ⟨hanillo ▸ hsint, hanillo ▸ himp, hanillo ▸ hjuz⟩
  | sigint | sigalrm =>
    cases h
    obtain ⟨hm, hc, ha⟩ := hi
    exact ⟨⟨hm.copia, hm.idActual, hm.limpio, hm.ids, hm.minados, hm.bloqueFin⟩,
      ⟨hc.registro, hc.flujo, hc.limpios, hc.envio, hc.hueco⟩,
      ⟨ha.sint, ha.impresion, ha.juzgados⟩⟩
  | registrador =>
    have hanillo := anillo_pasoRegistrador h
    refine ⟨?_, invCanales_pasoRegistrador hi.canales h, ?_⟩
    · obtain ⟨hcopia, hid, hlimpio, hids, hmin, hfin⟩ := hi.minero
      rw [frame_pasoRegistrador h]
      exact ⟨hcopia, hid, hlimpio, hids, hmin, hfin⟩
    obtain ⟨hsint, himp, hjuz⟩ := hi.anillo
    exact ⟨hanillo ▸ hsint, hanillo ▸ himp, hanillo ▸ hjuz⟩
  | recibe => exact inv_recibe hi h
  | comprobador => exact inv_comprobador hi h
  | monitor => exact inv_monitor hi h

theorem inv_inicial (h : Inicial pid s) : Inv s := by
  obtain ⟨basura, basuraUltimo, hmem⟩ := h.mem
  obtain ⟨carteras, hfin⟩ := h.bloqueFin
  obtain ⟨bloque, mq, mon, hanillo⟩ := h.anillo
  refine ⟨⟨?_, ?_, ?_, ?_, ?_, ?_⟩, ⟨?_, ?_, ?_, ⟨[], ?_, ?_⟩, ?_⟩, ⟨?_, ?_, ?_⟩⟩
  · simp [h.pc, trasMinar]
  · simp [h.pc, trasMinar, h.minados, hmem, inicializar, toInt]
  · simp [hmem, inicializar]
  · simp [h.minados]
  · simp [h.minados]
  · simp [hfin, fin]
  · simp [h.minados, h.registro, h.tuberia, porAnotar, h.pcRegistrador, porEscribir, h.pc]
  · simp [hanillo, Anillo.inicial, enMano, h.cola, h.mandados]
  · simp [h.mandados]
  · simp [h.minados, porEnviar, h.pc]
  · simp [h.mandados]
  · simp [h.pc]
  · simp [hanillo, Anillo.inicial]
  · exact hanillo ▸ Anillo.impresion_inicial bloque mq mon
  · exact hanillo ▸ Anillo.juzgados_inicial bloque mq mon

/-- **Run lemma.** -/
theorem inv_reachable (h : (sistema pid).Reachable s) : Inv s :=
  h.induct (fun _ => inv_inicial) fun _ _ _ => inv_next

/-- A step of the system is a step of the ring without SIGINT, or leaves the ring alone. -/
theorem anillo_next {a : Turno} (h : next pid s a = some t) :
    t.anillo = s.anillo ∨ ∃ e, Anillo.SinEsperaInterrumpida s.anillo e ∧
      Anillo.next s.anillo e = some t.anillo := by
  cases a with
  | minero v => exact Or.inl (anillo_pasoMinero h)
  | sigint | sigalrm =>
    cases h
    exact Or.inl rfl
  | registrador => exact Or.inl (anillo_pasoRegistrador h)
  -- a message that arrives is a reception of the ring
  | recibe =>
    right
    match hcola : s.cola with
    | [] => simp [next, hcola] at h
    | b :: resto =>
      simp only [next, hcola, Option.map_eq_some_iff] at h
      obtain ⟨a, ha, rfl⟩ := h
      exact ⟨.llega b, by simp [Anillo.SinEsperaInterrumpida, Anillo.esInterrupcion], ha⟩
  | comprobador =>
    simp only [next, Option.map_eq_some_iff] at h
    obtain ⟨a, ha, rfl⟩ := h
    exact Or.inr ⟨.comprobador, by simp [Anillo.SinEsperaInterrumpida, Anillo.esInterrupcion], ha⟩
  | monitor =>
    simp only [next, Option.map_eq_some_iff] at h
    obtain ⟨a, ha, rfl⟩ := h
    exact Or.inr ⟨.monitor, by simp [Anillo.SinEsperaInterrumpida, Anillo.esInterrupcion], ha⟩

/-- The ring of the system is a ring of `Anillo`, run without SIGINT. -/
theorem reachable_anillo (h : (sistema pid).Reachable s) :
    Anillo.sistema.ReachableBy Anillo.SinEsperaInterrumpida s.anillo :=
  h.map (fun _ hs => hs.anillo) fun _ _ _ _ _ hn => anillo_next hn

/-! ### One story -/

/-- Log and monitor tell the story of the blocks mined: the log is a beginning of it, the
monitor prints a part of it in order, each block as it was mined and with the verdict of its
proof of work, without repeating an identifier; the miner never sends to a full queue; and the
finishing block is not printed and ends the printing. -/
structure Relato (pid : ℤ) (s : Sistema) : Prop where
  registro : s.registro.map Prod.fst <+: s.minados
  impresos : (s.anillo.impresos.map limpiar).Sublist s.minados
  ids : s.minados.length < 2 ^ 31 → (s.anillo.impresos.map Bloque.id).Pairwise (· < ·)
  validado : ∀ b ∈ s.anillo.impresos, b.correcto = true ↔ Valido b
  hueco : s.pc = .envia ∨ s.pc = .enviaFin → s.cola.length < MAX_MSG
  sinFin : ∀ b ∈ s.anillo.impresos, b.fin = false
  nadaTrasFin : (∃ b ∈ s.anillo.extraidos, b.fin = true) →
    ∀ turnos t, (sistema pid).run s turnos = some t → t.anillo.impresos = s.anillo.impresos

/-- What the monitor prints was extracted, what it extracts was added, and what is added was
received: up to the verdicts, a beginning of what was sent. -/
theorem impresos_isPrefix_mandados (hi : Inv s)
    (hring : BoundedBuffer.Inv BUFFER_SIZE (Anillo.buffer s.anillo)) :
    s.anillo.impresos.map limpiar <+: s.mandados := by
  have hext : s.anillo.impresos <+: s.anillo.extraidos := by
    rw [hi.anillo.impresion.reparto]
    exact List.prefix_append _ _
  have hanad : s.anillo.extraidos <+: s.anillo.anadidos := hring.order
  rw [← hi.canales.flujo, List.map_append, List.append_assoc]
  exact ((hext.trans hanad).map limpiar).trans (List.prefix_append _ _)

/-- The monitor prints a part of what was mined and offered to the queue, in order. -/
theorem impresos_sublist_ofrecidos (hi : Inv s)
    (hring : BoundedBuffer.Inv BUFFER_SIZE (Anillo.buffer s.anillo)) :
    ∃ ofrecidos, s.minados = ofrecidos ++ porEnviar s ∧
      (s.anillo.impresos.map limpiar).Sublist ofrecidos := by
  obtain ⟨hechos, hmin, hsub⟩ := hi.canales.envio
  have hfilter : (s.anillo.impresos.map limpiar).filter (fun b => !b.fin) =
      s.anillo.impresos.map limpiar := by
    refine List.filter_eq_self.mpr fun b hb => ?_
    obtain ⟨c, hc, rfl⟩ := List.mem_map.mp hb
    simp [limpiar, hi.anillo.impresion.sinFin c hc]
  refine ⟨hechos, hmin, ?_⟩
  rw [← hfilter]
  exact ((impresos_isPrefix_mandados hi hring).sublist.filter _).trans hsub

/-- The monitor prints a part of what was mined, in order. -/
theorem impresos_sublist_minados (hi : Inv s)
    (hring : BoundedBuffer.Inv BUFFER_SIZE (Anillo.buffer s.anillo)) :
    (s.anillo.impresos.map limpiar).Sublist s.minados := by
  obtain ⟨ofrecidos, hmin, hsub⟩ := impresos_sublist_ofrecidos hi hring
  rw [hmin]
  exact hsub.trans (List.sublist_append_left _ _)

/-- The verdict of a block printed is that of its proof of work. -/
theorem validado_of_mem_impresos (hi : Inv s)
    (hring : BoundedBuffer.Inv BUFFER_SIZE (Anillo.buffer s.anillo)) {b : Bloque}
    (hb : b ∈ s.anillo.impresos) : b.correcto = true ↔ Valido b := by
  have hext : b ∈ s.anillo.extraidos := by
    rw [hi.anillo.impresion.reparto]
    exact List.mem_append_left _ hb
  exact hi.anillo.juzgados.anadidos b (hring.order.subset hext)

/-- Identifiers grow along the blocks mined, as long as the counter does not wrap. -/
theorem ids_pairwise (hi : InvMinero s) (hlen : s.minados.length < 2 ^ 31) :
    (s.minados.map Bloque.id).Pairwise (· < ·) := by
  have hself : s.minados.map Bloque.id =
      (List.range s.minados.length).map fun k : ℕ => (k : ℤ) + 1 := by
    rw [hi.ids]
    refine List.map_congr_left fun k hk => ?_
    have hk' := List.mem_range.mp hk
    exact toInt_eq_self (by omega) (by omega)
  rw [hself, List.pairwise_map]
  exact List.pairwise_lt_range.imp fun hlt => by omega

/-- One step prints nothing once a finishing block has been extracted, and keeps it
extracted. -/
theorem impresos_next_of_fin {a : Turno} (hi : Inv s) {b : Bloque}
    (hb : b ∈ s.anillo.extraidos) (hfin : b.fin = true) (h : next pid s a = some t) :
    t.anillo.impresos = s.anillo.impresos ∧ b ∈ t.anillo.extraidos := by
  cases a with
  | minero v =>
    rw [anillo_pasoMinero h]
    exact ⟨rfl, hb⟩
  | sigint | sigalrm =>
    cases h
    exact ⟨rfl, hb⟩
  | registrador =>
    rw [anillo_pasoRegistrador h]
    exact ⟨rfl, hb⟩
  | recibe =>
    match hcola : s.cola with
    | [] => simp [next, hcola] at h
    | c :: resto =>
      simp only [next, hcola, Option.map_eq_some_iff] at h
      obtain ⟨a, ha, rfl⟩ := h
      simp only [Anillo.next] at ha
      split at ha <;> cases ha
      exact ⟨rfl, hb⟩
  | comprobador =>
    simp only [next, Option.map_eq_some_iff] at h
    obtain ⟨a, ha, rfl⟩ := h
    -- the comprobador prints and extracts nothing
    obtain ⟨-, -, hext, himp⟩ := Anillo.monitor_pasoComprobador ha
    exact ⟨himp, hext ▸ hb⟩
  | monitor =>
    simp only [next, Option.map_eq_some_iff] at h
    obtain ⟨a, ha, rfl⟩ := h
    exact ⟨Anillo.impresos_pasoMonitor_of_fin hi.anillo.impresion hb hfin ha,
      (Anillo.extraidos_pasoMonitor ha).subset hb⟩

/-- No run prints anything once a finishing block has been extracted. -/
theorem impresos_run_of_fin (turnos : List Turno) : ∀ {s t : Sistema}, Inv s →
    (∃ b ∈ s.anillo.extraidos, b.fin = true) → (sistema pid).run s turnos = some t →
      t.anillo.impresos = s.anillo.impresos := by
  induction turnos with
  | nil =>
    intro s t _ _ hrun
    cases hrun
    rfl
  | cons a turnos ih =>
    rintro s t hi ⟨b, hb, hfin⟩ hrun
    obtain ⟨u, hu, hrest⟩ := Option.bind_eq_some_iff.mp
      (show ((sistema pid).next s a).bind (fun u => (sistema pid).run u turnos) = some t from
        hrun)
    obtain ⟨himp, hmem⟩ := impresos_next_of_fin hi hb hfin hu
    rw [ih (inv_next hi hu) ⟨b, hmem, hfin⟩ hrest, himp]

/-- **Log and monitor tell the same story**, in every state of every run. -/
theorem relato_reachable (h : (sistema pid).Reachable s) : Relato pid s := by
  have hi := inv_reachable h
  have hring := Anillo.inv_buffer (reachable_anillo h)
  constructor
  case registro =>
    rw [hi.canales.registro, List.append_assoc, List.append_assoc]
    exact List.prefix_append _ _
  case impresos => exact impresos_sublist_minados hi hring
  case ids =>
    intro hlen
    have hsub := (impresos_sublist_minados hi hring).map Bloque.id
    rw [List.map_map] at hsub
    exact (ids_pairwise hi.minero hlen).sublist hsub
  case validado => exact fun b hb => validado_of_mem_impresos hi hring hb
  case hueco => exact hi.canales.hueco
  case sinFin => exact hi.anillo.impresion.sinFin
  case nadaTrasFin => exact fun hfin turnos _ => impresos_run_of_fin turnos hi hfin

/-- A start in which every uninitialised variable is zero. -/
def inicio (pid : ℤ) : Sistema where
  mem := inicializar pid bloqueCero bloqueCero
  auxiliar := bloqueCero
  bloqueFin := fin fun _ => ⟨0, 0⟩
  mqCurmsgs := 0
  sint := false
  salarm := false
  pc := .bucle
  tuberia := []
  extremoEscritura := true
  pcRegistrador := .lee
  bActual := bloqueCero
  registro := []
  cola := []
  anillo := Anillo.inicial (fun _ => bloqueCero) bloqueCero bloqueCero
  minados := []
  mandados := []

theorem inicial_inicio (pid : ℤ) : Inicial pid (inicio pid) where
  mem := ⟨_, _, rfl⟩
  bloqueFin := ⟨_, rfl⟩
  sint := rfl
  salarm := rfl
  pc := rfl
  tuberia := rfl
  extremoEscritura := rfl
  pcRegistrador := rfl
  registro := rfl
  cola := rfl
  anillo := ⟨_, _, _, rfl⟩
  minados := rfl
  mandados := rfl

/-- An instance: one failed search is mined, logged and printed, then SIGINT ends the loop and
the finishing block stops the monitor. -/
theorem relato_one_block :
    ∃ s : Sistema, (s.minados.length, s.registro.length, s.anillo.impresos.length,
      s.anillo.extraidos.length) = (1, 1, 1, 2) ∧ Relato 1000 s := by
  let turnos : List Turno := List.replicate 6 (.minero (-1)) ++ [.registrador, .registrador,
    .sigint, .recibe] ++ List.replicate 4 (.minero (-1)) ++ List.replicate 15 .comprobador ++
    [.recibe] ++ List.replicate 15 .comprobador ++ List.replicate 30 .monitor
  obtain ⟨s, hs, hlen⟩ : ∃ s, (sistema 1000).run (inicio 1000) turnos = some s ∧
      (s.minados.length, s.registro.length, s.anillo.impresos.length,
        s.anillo.extraidos.length) = (1, 1, 1, 2) :=
    Option.map_eq_some_iff.mp (by decide +kernel)
  have hinit : (sistema 1000).Reachable (inicio 1000) := .init (inicial_inicio 1000)
  exact ⟨s, hlen, relato_reachable (hinit.run hs)⟩

end Sistema

end Soper.Proyecto
