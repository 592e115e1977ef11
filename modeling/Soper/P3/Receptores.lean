import Soper.Library.BufferProgress
import Soper.Library.EndMarker
import Soper.P3.Conservacion

/-!
# The two processes behind the queue

Comprobador and monitor in whatever surroundings: anybody may send anything to the queue while
there is room in it, a second miner as well as a program that forges blocks. The comprobador
judges what it receives and stops after the first finishing block; the monitor prints what comes
before that one.

* `imprimeHastaFin_reachable`: the lines are those of the messages up to the first finishing
  block, in their order, each with the verdict its hash deserves.
* `quietos_of_parados`: where neither process can move, both have exited and every message up to
  the first finishing block has a line, or both wait, for a message that nobody has sent.
* `trabajo_pasoComprobador`, `trabajo_pasoMonitor`: where at most `K` messages are sent, each
  step of the two uses up part of the work that is left.

The state is that of `Pipeline`; the variables of its miner play no role here.
-/

namespace Soper.P3

open BoundedBuffer

/-- A message arrives in the queue, or one of the two processes goes on. -/
inductive Suceso
  | llega (b : Dato)
  | comprobador
  | monitor

/-- The messages before the first finishing block. -/
def hastaFin (l : List Dato) : List Dato := EndMarker.before Dato.fin l

/-- The line of a message once the comprobador has judged it. -/
def linea (b : Dato) : Linea := imprimir (comprobar b)

/-- The verdict does not touch the flag of the finishing block. -/
@[simp]
theorem comprobar_fin (b : Dato) : (comprobar b).fin = b.fin := by
  unfold comprobar
  split <;> rfl

/-- To judge a message again changes nothing. -/
theorem comprobar_comprobar (b : Dato) : comprobar (comprobar b) = comprobar b := by
  unfold comprobar
  split <;> simp_all

/-- A line says `accepted` exactly when the hash is right, whatever the message said itself. -/
theorem linea_aceptada (b : Dato) :
    (linea b).aceptada = true ↔ powHash (linea b).solucion = (linea b).objetivo :=
  imprimir_aceptada (comprobar_comprobar b)

namespace Pipeline

/-- One step of the two processes and their surroundings. -/
def nextAbierto (s : Pipeline) : Suceso → Option Pipeline
  | .llega b =>
    if s.cola.length < MAX_MSG then
      some { s with cola := s.cola ++ [b], enviados := s.enviados ++ [b] }
    else none
  | .comprobador => s.pasoComprobador
  | .monitor => s.pasoMonitor

/-- The two processes as a transition system. -/
def abierto : System Pipeline Suceso where
  Init s := ∃ bloque mq mon, s = inicial bloque mq mon
  next := nextAbierto

variable {s t : Pipeline} {K : ℕ}

/-- The ring keeps the invariant of the bounded buffer. -/
theorem ring_abierto (h : abierto.Reachable s) : BoundedBuffer.Inv BUFFER_SIZE s.buffer := by
  have hreach : ring.Reachable s.buffer := by
    refine h.map ?_ ?_
    · rintro _ ⟨bloque, mq, mon, rfl⟩
      exact ⟨bloque, rfl⟩
    · intro s a t _ _ hn
      have hstep : t.buffer = s.buffer ∨ ∃ e, ring.next s.buffer e = some t.buffer := by
        cases a with
        | llega b =>
          left
          simp only [abierto, nextAbierto] at hn
          split at hn <;> cases hn
          rfl
        | comprobador => exact buffer_pasoComprobador hn
        | monitor => exact buffer_pasoMonitor hn
      exact hstep.imp_right fun ⟨e, he⟩ => ⟨e, trivial, he⟩
  exact BoundedBuffer.inv_reachable hreach

/-! ### The invariant -/

/-- The block in the hand of the comprobador, as it will be added to the ring. -/
def juzgado (s : Pipeline) : List Dato :=
  match s.pcComprobador with
  | .comprueba => [comprobar s.bloqueMq]
  | .esperaEmpty | .esperaMutex | .anade _ => [s.bloqueMq]
  | .recibe | .sueltaMutex | .sueltaFill | .salido => []

/-- The comprobador goes on until it has added a finishing block. -/
def InvRecepcion (s : Pipeline) : Prop :=
  match s.pcComprobador with
  | .recibe | .comprueba | .esperaEmpty | .esperaMutex | .anade _ => ∀ b ∈ s.anadidos, b.fin = false
  | .sueltaMutex | .sueltaFill =>
    ∃ previos, s.anadidos = previos ++ [s.bloqueMq] ∧ ∀ b ∈ previos, b.fin = false
  | .salido =>
    ∃ previos, s.anadidos = previos ++ [s.bloqueMq] ∧ (∀ b ∈ previos, b.fin = false) ∧
      s.bloqueMq.fin = true

/-- Where every message is. -/
structure InvAbierto (s : Pipeline) : Prop where
  flujo : ∃ recibidos, s.enviados = recibidos ++ s.cola ∧
    recibidos.map comprobar = s.anadidos ++ s.juzgado
  comprobador : InvRecepcion s
  monitor : InvMonitor s

theorem invAbierto_inicial (bloque : ℕ → Dato) (mq mon : Dato) :
    InvAbierto (inicial bloque mq mon) where
  flujo := ⟨[], rfl, rfl⟩
  comprobador _ hb := absurd hb List.not_mem_nil
  monitor := (inv_inicial bloque mq mon).monitor

/-- The comprobador's steps keep every message in its place. -/
theorem flujo_pasoComprobador (h : InvAbierto s) (hn : s.pasoComprobador = some t) :
    ∃ recibidos, t.enviados = recibidos ++ t.cola ∧
      recibidos.map comprobar = t.anadidos ++ t.juzgado := by
  obtain ⟨recibidos, henv, hjuz⟩ := h.flujo
  cases hpc : s.pcComprobador with
  | salido => simp [pasoComprobador, hpc] at hn
  | recibe =>
    cases hcola : s.cola with
    | nil => simp [pasoComprobador, hpc, hcola] at hn
    | cons b resto =>
      simp only [pasoComprobador, hpc, hcola] at hn
      simp only [juzgado, hpc, List.append_nil] at hjuz
      cases hn
      refine ⟨recibidos ++ [b], ?_, ?_⟩
      · simp [henv, hcola]
      · simp [juzgado, hjuz]
  | comprueba =>
    simp only [pasoComprobador, hpc] at hn
    cases hn
    exact ⟨recibidos, henv, by simpa [juzgado, hpc] using hjuz⟩
  | esperaEmpty | esperaMutex =>
    simp only [pasoComprobador, hpc] at hn
    split at hn <;> cases hn
    exact ⟨recibidos, henv, by simpa [juzgado, hpc] using hjuz⟩
  | anade campos =>
    cases campos
    all_goals
      simp only [pasoComprobador, hpc] at hn
      cases hn
      exact ⟨recibidos, henv, by simpa [juzgado, hpc] using hjuz⟩
  | sueltaMutex =>
    simp only [pasoComprobador, hpc] at hn
    cases hn
    exact ⟨recibidos, henv, by simpa [juzgado, hpc] using hjuz⟩
  | sueltaFill =>
    simp only [pasoComprobador, hpc] at hn
    cases hn
    refine ⟨recibidos, henv, ?_⟩
    by_cases hfin : s.bloqueMq.fin = true <;> simpa [juzgado, hpc, hfin] using hjuz

/-- The comprobador's steps keep its account of the finishing block. -/
theorem invRecepcion_pasoComprobador (h : InvRecepcion s) (hn : s.pasoComprobador = some t) :
    InvRecepcion t := by
  cases hpc : s.pcComprobador with
  | salido => simp [pasoComprobador, hpc] at hn
  | recibe =>
    simp only [InvRecepcion, hpc] at h
    cases hcola : s.cola with
    | nil => simp [pasoComprobador, hpc, hcola] at hn
    | cons b resto =>
      simp only [pasoComprobador, hpc, hcola] at hn
      cases hn
      exact h
  | comprueba | sueltaMutex =>
    simp only [InvRecepcion, hpc] at h
    simp only [pasoComprobador, hpc] at hn
    cases hn
    exact h
  | esperaEmpty | esperaMutex =>
    simp only [InvRecepcion, hpc] at h
    simp only [pasoComprobador, hpc] at hn
    split at hn <;> cases hn
    exact h
  | anade campos =>
    simp only [InvRecepcion, hpc] at h
    cases campos with
    | nil =>
      simp only [pasoComprobador, hpc] at hn
      cases hn
      exact ⟨s.anadidos, rfl, h⟩
    | cons f fs =>
      simp only [pasoComprobador, hpc] at hn
      cases hn
      exact h
  | sueltaFill =>
    simp only [InvRecepcion, hpc] at h
    obtain ⟨previos, hanad, hprev⟩ := h
    simp only [pasoComprobador, hpc] at hn
    cases hn
    by_cases hfin : s.bloqueMq.fin = true
    · simp only [InvRecepcion, if_pos hfin]
      exact ⟨previos, hanad, hprev, hfin⟩
    · simp only [InvRecepcion, if_neg hfin]
      have hno : s.bloqueMq.fin = false := Bool.eq_false_iff.mpr hfin
      rw [hanad]
      exact List.forall_mem_append.mpr ⟨hprev, List.forall_mem_singleton.mpr hno⟩

/-- **Step lemma.** -/
theorem invAbierto_next {a : Suceso} (h : InvAbierto s) (hn : nextAbierto s a = some t) :
    InvAbierto t := by
  cases a with
  | llega b =>
    obtain ⟨recibidos, henv, hjuz⟩ := h.flujo
    simp only [nextAbierto] at hn
    split at hn <;> cases hn
    exact ⟨⟨recibidos, by simp [henv], hjuz⟩, h.comprobador, h.monitor⟩
  | comprobador =>
    refine ⟨flujo_pasoComprobador h hn, invRecepcion_pasoComprobador h.comprobador hn, ?_⟩
    rw [frame_pasoComprobador hn]
    exact h.monitor
  | monitor =>
    refine ⟨?_, ?_, invMonitor_pasoMonitor h.monitor hn⟩
    · rw [frame_pasoMonitor hn]
      exact h.flujo
    · rw [frame_pasoMonitor hn]
      exact h.comprobador

/-- **Run lemma.** -/
theorem invAbierto_reachable (h : abierto.Reachable s) : InvAbierto s := by
  refine h.induct ?_ fun _ _ _ hs hn => invAbierto_next hs hn
  rintro _ ⟨bloque, mq, mon, rfl⟩
  exact invAbierto_inicial bloque mq mon

theorem cola_pasoComprobador (h : s.pasoComprobador = some t) :
    t.cola.length ≤ s.cola.length := by
  cases hpc : s.pcComprobador with
  | salido => simp [pasoComprobador, hpc] at h
  | recibe =>
    cases hcola : s.cola with
    | nil => simp [pasoComprobador, hpc, hcola] at h
    | cons b resto =>
      simp only [pasoComprobador, hpc, hcola] at h
      cases h
      exact Nat.le_succ _
  | esperaEmpty | esperaMutex =>
    simp only [pasoComprobador, hpc] at h
    split at h <;> cases h
    exact le_rfl
  | anade campos =>
    cases campos
    all_goals
      simp only [pasoComprobador, hpc] at h
      cases h
      exact le_rfl
  | comprueba | sueltaMutex | sueltaFill =>
    simp only [pasoComprobador, hpc] at h
    cases h
    exact le_rfl

/-- The queue never holds more than `MAX_MSG` messages. -/
theorem cola_le (h : abierto.Reachable s) : s.cola.length ≤ MAX_MSG := by
  refine h.induct (I := fun s => s.cola.length ≤ MAX_MSG) ?_ fun s a t hs hn => ?_
  · rintro _ ⟨bloque, mq, mon, rfl⟩
    exact Nat.zero_le _
  · cases a with
    | llega b =>
      simp only [abierto, nextAbierto] at hn
      split at hn <;> cases hn
      rename_i hroom
      rw [List.length_append]
      exact hroom
    | comprobador => exact (cola_pasoComprobador hn).trans hs
    | monitor =>
      rw [frame_pasoMonitor hn]
      exact hs

/-! ### What the monitor prints -/

/-- The exit of the monitor is still to come. -/
def porSalir : PcMonitor → ℕ
  | .salido => 0
  | _ => 1

/-- The blocks added are the first messages, judged. -/
theorem InvAbierto.anadidos_isPrefix (h : InvAbierto s) :
    s.anadidos <+: s.enviados.map comprobar := by
  obtain ⟨recibidos, henv, hjuz⟩ := h.flujo
  rw [henv, List.map_append, hjuz, List.append_assoc]
  exact List.prefix_append _ _

/-- The lines of the monitor, against the messages sent. -/
structure ImprimeHastaFin (s : Pipeline) : Prop where
  /-- A line says `accepted` exactly when the hash is right. -/
  veredicto : ∀ l ∈ s.impresos, l.aceptada = true ↔ powHash l.solucion = l.objetivo
  /-- The lines are those of the first messages, up to the first finishing block. -/
  lineas : s.impresos <+: (hastaFin s.enviados).map linea
  /-- A monitor that has finished has met a finishing block, and printed all messages before
  it. -/
  final : s.pcMonitor = .salido →
    (∃ b ∈ s.enviados, b.fin = true) ∧ s.impresos = (hastaFin s.enviados).map linea

/-- A beginning of the judged messages comes from a beginning of the messages. -/
private theorem exists_isPrefix_of_map {l enviados : List Dato}
    (h : l <+: enviados.map comprobar) : ∃ l', l' <+: enviados ∧ l = l'.map comprobar := by
  refine ⟨enviados.take l.length, List.take_prefix _ _, ?_⟩
  rw [List.map_take]
  exact List.prefix_iff_eq_take.mp h

theorem imprimeHastaFin_of_inv (h : InvAbierto s) (hring : BoundedBuffer.Inv BUFFER_SIZE s.buffer) :
    ImprimeHastaFin s := by
  obtain ⟨hechos, hext, himp, hnofin, hfin⟩ := h.monitor
  have hpre : hechos ++ s.porImprimir <+: s.enviados.map comprobar :=
    hext ▸ List.IsPrefix.trans hring.order h.anadidos_isPrefix
  obtain ⟨mensajes, hmen, heq⟩ := exists_isPrefix_of_map ((List.prefix_append _ _).trans hpre)
  have hno : ∀ b ∈ mensajes, b.fin = false := by
    intro b hb
    rw [← comprobar_fin]
    exact hnofin _ (heq ▸ List.mem_map_of_mem hb)
  have hlineas : s.impresos = mensajes.map linea := by
    rw [himp, heq, List.map_map]
    rfl
  refine ⟨?_, ?_, fun hsal => ?_⟩
  · intro l hl
    rw [hlineas] at hl
    obtain ⟨b, -, rfl⟩ := List.mem_map.mp hl
    exact linea_aceptada b
  · rw [hlineas]
    exact (EndMarker.isPrefix_before hmen hno).map linea
  · -- the block in the monitor's hand is the first finishing block
    simp only [porImprimir, hsal] at hpre
    have hhasta : (hastaFin s.enviados).map comprobar = hechos := by
      rw [hastaFin, ← EndMarker.before_eq (p := Dato.fin) hpre hnofin (hfin hsal),
        ← EndMarker.map_before]
      simp only [comprobar_fin]
    refine ⟨?_, ?_⟩
    · have hmem : s.bloqueMonitor ∈ s.enviados.map comprobar := hpre.subset (by simp)
      obtain ⟨b, hb, heq'⟩ := List.mem_map.mp hmem
      exact ⟨b, hb, by rw [← comprobar_fin, heq', hfin hsal]⟩
    · rw [himp, ← hhasta, List.map_map]
      rfl

/-- A comprobador that cannot move has exited, waits for a message, or is blocked in the ring. -/
theorem pasoComprobador_eq_none (h : s.pasoComprobador = none) :
    s.pcComprobador ≠ .comprueba ∧ (s.pcComprobador = .recibe → s.cola = []) ∧
      nextProduce BUFFER_SIZE copiaAnadir s.buffer = none := by
  cases hpc : s.pcComprobador with
  | salido => exact ⟨by rintro ⟨⟩, by rintro ⟨⟩, by simp [nextProduce, buffer, productor, hpc]⟩
  | recibe =>
    cases hcola : s.cola with
    | nil => exact ⟨by rintro ⟨⟩, fun _ => rfl, by simp [nextProduce, buffer, productor, hpc]⟩
    | cons b resto => simp [pasoComprobador, hpc, hcola] at h
  | esperaEmpty | esperaMutex =>
    simp only [pasoComprobador, hpc, ite_eq_right_iff, reduceCtorEq, imp_false] at h
    exact ⟨by rintro ⟨⟩, by rintro ⟨⟩, by simp [nextProduce, buffer, productor, hpc, h]⟩
  | anade campos => cases campos <;> simp [pasoComprobador, hpc] at h
  | comprueba | sueltaMutex | sueltaFill => simp [pasoComprobador, hpc] at h

/-- A monitor that cannot move and has not exited is blocked in the ring. -/
theorem pasoMonitor_eq_none (h : s.pasoMonitor = none) (hsal : s.pcMonitor ≠ .salido) :
    s.pcMonitor ≠ .mira ∧
      nextConsume BUFFER_SIZE copiaExtraer s.buffer s.bloqueMonitor = none := by
  cases hpc : s.pcMonitor with
  | salido => exact absurd hpc hsal
  | esperaFill | esperaMutex =>
    simp only [pasoMonitor, hpc, ite_eq_right_iff, reduceCtorEq, imp_false] at h
    exact ⟨by rintro ⟨⟩, by simp [nextConsume, buffer, consumidor, hpc, h]⟩
  | extrae ret campos => cases campos <;> simp [pasoMonitor, hpc] at h
  | sueltaMutex | sueltaEmpty => simp [pasoMonitor, hpc] at h
  | mira =>
    simp only [pasoMonitor, hpc] at h
    split at h <;> cases h

/-- A comprobador outside the ring has exited after its finishing block, or has met none. -/
theorem InvAbierto.ocioso (h : InvAbierto s) (hpc : s.pcComprobador ≠ .comprueba)
    (hidle : productor s.bloqueMq s.pcComprobador = .idle) :
    (s.pcComprobador = .salido ∧ ∃ b ∈ s.anadidos, b.fin = true) ∨
      (s.pcComprobador = .recibe ∧ ∀ b ∈ s.anadidos, b.fin = false) := by
  have hinv := h.comprobador
  cases hc : s.pcComprobador with
  | recibe =>
    simp only [InvRecepcion, hc] at hinv
    exact Or.inr ⟨rfl, hinv⟩
  | salido =>
    simp only [InvRecepcion, hc] at hinv
    obtain ⟨previos, hanad, -, hfin⟩ := hinv
    exact Or.inl ⟨rfl, s.bloqueMq, by simp [hanad], hfin⟩
  | comprueba => exact absurd hc hpc
  | esperaEmpty | esperaMutex | anade _ | sueltaMutex | sueltaFill => simp [productor, hc] at hidle

/-- What is left when neither process can move. -/
structure Terminados (s : Pipeline) : Prop where
  comprobador : s.pcComprobador = .salido
  monitor : s.pcMonitor = .salido

/-- Both processes wait for a message, and every message so far has its line. -/
structure EnEspera (s : Pipeline) : Prop where
  comprobador : s.pcComprobador = .recibe
  monitor : s.pcMonitor = .esperaFill
  cola : s.cola = []
  sinFin : ∀ b ∈ s.enviados, b.fin = false
  impresos : s.impresos = s.enviados.map linea

/-- **Where neither process can move** both have exited, or both wait for a message. -/
theorem quietos_of_parados (h : InvAbierto s) (hring : BoundedBuffer.Inv BUFFER_SIZE s.buffer)
    (hcomp : s.pasoComprobador = none) (hmon : s.pasoMonitor = none) :
    Terminados s ∨ EnEspera s := by
  obtain ⟨hne, hcola, hprod⟩ := pasoComprobador_eq_none hcomp
  obtain ⟨hechos, hext, himp, hnofin, hfin⟩ := h.monitor
  by_cases hsal : s.pcMonitor = .salido
  · -- the monitor has met a finishing block, which the comprobador has added before
    have hmem : s.bloqueMonitor ∈ s.anadidos :=
      hring.order.subset (by simp [buffer, hext, porImprimir, hsal])
    have hfin' := hfin hsal
    refine Or.inl ⟨?_, hsal⟩
    have hinv := h.comprobador
    cases hc : s.pcComprobador with
    | salido => rfl
    | sueltaMutex | sueltaFill => simp [pasoComprobador, hc] at hcomp
    | recibe | comprueba | esperaEmpty | esperaMutex | anade _ =>
      simp only [InvRecepcion, hc] at hinv
      rw [hinv _ hmem] at hfin'
      cases hfin'
  · obtain ⟨hmira, hcons⟩ := pasoMonitor_eq_none hmon hsal
    obtain ⟨hidle, hwait, htaken⟩ := hring.quiet_of_blocked (by decide) hprod hcons
    have hespera : s.pcMonitor = .esperaFill := by
      cases hc : s.pcMonitor with
      | esperaFill => rfl
      | mira => exact absurd hc hmira
      | salido => exact absurd hc hsal
      | esperaMutex | extrae _ _ | sueltaMutex | sueltaEmpty =>
        simp [buffer, consumidor, hc] at hwait
    have hanad : s.anadidos = hechos := by
      change s.extraidos = s.anadidos at htaken
      rw [← htaken, hext, porImprimir, hespera, List.append_nil]
    -- the monitor has not met a finishing block, so none was added
    rcases h.ocioso hne hidle with ⟨-, b, hb, hbfin⟩ | ⟨hrecibe, -⟩
    · rw [hnofin b (hanad ▸ hb)] at hbfin
      cases hbfin
    · obtain ⟨recibidos, henv, hjuz⟩ := h.flujo
      have hcola' := hcola hrecibe
      rw [hcola', List.append_nil] at henv
      rw [juzgado, hrecibe, List.append_nil, hanad, ← henv] at hjuz
      refine Or.inr ⟨hrecibe, hespera, hcola', fun b hb => ?_, ?_⟩
      · rw [← comprobar_fin]
        exact hnofin _ (hjuz ▸ List.mem_map_of_mem hb)
      · rw [himp, ← hjuz, List.map_map]
        rfl

/-- **The ring is at rest at the end**: it is empty, and every token is back. -/
theorem reposo_of_terminados (h : InvAbierto s)
    (hring : BoundedBuffer.Inv BUFFER_SIZE s.buffer) (ht : Terminados s) :
    s.extraidos = s.anadidos ∧ s.semFill = 0 ∧ s.semEmpty = BUFFER_SIZE ∧ s.semMutex = 1 := by
  have hcomp := h.comprobador
  simp only [InvRecepcion, ht.comprobador] at hcomp
  obtain ⟨previos, hanad, hprev, hfin⟩ := hcomp
  obtain ⟨hechos, hext, -, hnofin, hfin'⟩ := h.monitor
  simp only [porImprimir, ht.monitor] at hext
  -- both lists end at the first finishing block
  have hlast : hechos ++ [s.bloqueMonitor] <+: s.anadidos := hext ▸ hring.order
  have hprevios : hechos = previos := by
    rw [← EndMarker.before_eq (p := Dato.fin) hlast hnofin (hfin' ht.monitor),
      EndMarker.before_eq (p := Dato.fin) (hanad ▸ List.prefix_rfl) hprev hfin]
  have hlen : s.extraidos.length = s.anadidos.length := by
    rw [hext, hanad, hprevios]
    simp
  have hmutex := hring.mutex
  have hempty := hring.empty
  have hfill := hring.fill
  simp only [buffer, ht.comprobador, ht.monitor, productor, consumidor, Producer.locked,
    Producer.claimed, Producer.owed, Consumer.locked, Consumer.claimed,
    Consumer.owed] at hmutex hempty hfill
  exact ⟨hring.order.eq_of_length hlen, by omega, by omega, by omega⟩

/-! ### The work that is left -/

/-- Messages the comprobador has received. -/
def recibidos (s : Pipeline) : ℕ := s.anadidos.length + s.juzgado.length

/-- Steps of the two processes that are left, at most, where `K` messages are sent. -/
def trabajo (K : ℕ) (s : Pipeline) : ℕ :=
  budget copiaAnadir copiaExtraer K s.buffer + (K - s.recibidos) + (K - s.impresos.length) +
    porSalir s.pcMonitor

/-- Only messages received are inserted into the ring. -/
theorem started_le_recibidos (s : Pipeline) : s.buffer.started ≤ s.recibidos := by
  cases hpc : s.pcComprobador <;>
    simp [Buffer.started, buffer, productor, Producer.picked, recibidos, juzgado, hpc]

/-- A step of the comprobador receives a message, or is a step of the producer. -/
theorem cases_pasoComprobador (h : s.pasoComprobador = some t) :
    (t.buffer = s.buffer ∧ t.recibidos = s.recibidos + 1) ∨
      (∃ e, ring.next s.buffer e = some t.buffer) ∧ t.recibidos = s.recibidos := by
  have hstep := buffer_pasoComprobador h
  cases hpc : s.pcComprobador with
  | salido => simp [pasoComprobador, hpc] at h
  | recibe =>
    left
    simp only [pasoComprobador, hpc] at h
    split at h <;> cases h
    simp [buffer, productor, recibidos, juzgado, hpc]
  | comprueba | sueltaMutex =>
    right
    simp only [pasoComprobador, hpc] at h
    cases h
    refine ⟨hstep.resolve_left fun heq => ?_, ?_⟩
    · simpa [buffer, productor, hpc] using congrArg Buffer.prod heq
    · simp [recibidos, juzgado, hpc]
  | esperaEmpty | esperaMutex =>
    right
    simp only [pasoComprobador, hpc] at h
    split at h <;> cases h
    refine ⟨hstep.resolve_left fun heq => ?_, ?_⟩
    · simpa [buffer, productor, hpc] using congrArg Buffer.prod heq
    · simp [recibidos, juzgado, hpc]
  | anade campos =>
    right
    cases campos
    all_goals
      simp only [pasoComprobador, hpc] at h
      cases h
      refine ⟨hstep.resolve_left fun heq => ?_, ?_⟩
      · simpa [buffer, productor, hpc] using congrArg Buffer.prod heq
      · simp [recibidos, juzgado, hpc]
  | sueltaFill =>
    right
    simp only [pasoComprobador, hpc] at h
    cases h
    refine ⟨hstep.resolve_left fun heq => ?_, ?_⟩
    · simpa [buffer] using congrArg Buffer.fill heq
    · split <;> simp [recibidos, juzgado, hpc]

/-- A step of the monitor looks at a block, or is a step of the consumer. -/
theorem cases_pasoMonitor (h : s.pasoMonitor = some t) :
    (t.buffer = s.buffer ∧ s.pcMonitor = .mira ∧
        (t.impresos = s.impresos ∧ t.pcMonitor = .salido ∨
          t.impresos.length = s.impresos.length + 1 ∧ t.pcMonitor = .esperaFill)) ∨
      (∃ e, ring.next s.buffer e = some t.buffer) ∧ t.impresos = s.impresos ∧
        porSalir t.pcMonitor = porSalir s.pcMonitor := by
  have hstep := buffer_pasoMonitor h
  cases hpc : s.pcMonitor with
  | salido => simp [pasoMonitor, hpc] at h
  | mira =>
    left
    simp only [pasoMonitor, hpc] at h
    split at h <;> cases h
    · exact ⟨by simp [buffer, consumidor, hpc], rfl, Or.inl ⟨rfl, rfl⟩⟩
    · exact ⟨by simp [buffer, consumidor, hpc], rfl, Or.inr ⟨by simp, rfl⟩⟩
  | esperaFill | esperaMutex =>
    right
    simp only [pasoMonitor, hpc] at h
    split at h <;> cases h
    refine ⟨hstep.resolve_left fun heq => ?_, rfl, rfl⟩
    simpa [buffer, consumidor, hpc] using congrArg Buffer.cons heq
  | extrae ret campos =>
    right
    cases campos
    all_goals
      simp only [pasoMonitor, hpc] at h
      cases h
      refine ⟨hstep.resolve_left fun heq => ?_, rfl, rfl⟩
      simpa [buffer, consumidor, hpc] using congrArg Buffer.cons heq
  | sueltaMutex | sueltaEmpty =>
    right
    simp only [pasoMonitor, hpc] at h
    cases h
    refine ⟨hstep.resolve_left fun heq => ?_, rfl, rfl⟩
    simpa [buffer, consumidor, hpc] using congrArg Buffer.cons heq

/-- Every step of the comprobador uses up some of the work. -/
theorem trabajo_pasoComprobador (hring : BoundedBuffer.Inv BUFFER_SIZE s.buffer)
    (h : s.pasoComprobador = some t) (hK : t.recibidos ≤ K) : trabajo K t < trabajo K s := by
  have himp : t.impresos = s.impresos := by rw [frame_pasoComprobador h]
  have hmon : t.pcMonitor = s.pcMonitor := by rw [frame_pasoComprobador h]
  unfold trabajo
  rw [himp, hmon]
  rcases cases_pasoComprobador h with ⟨hbuf, hrec⟩ | ⟨⟨e, he⟩, hrec⟩
  · rw [hbuf]
    omega
  · have hbudget := budget_next hring he ((started_le_recibidos t).trans hK)
    omega

/-- Every step of the monitor uses up some of the work. -/
theorem trabajo_pasoMonitor (hinv : InvAbierto s)
    (hring : BoundedBuffer.Inv BUFFER_SIZE s.buffer) (h : s.pasoMonitor = some t)
    (hK : s.recibidos ≤ K) : trabajo K t < trabajo K s := by
  have hrec : t.recibidos = s.recibidos := by
    rw [frame_pasoMonitor h]
    rfl
  unfold trabajo
  rw [hrec]
  rcases cases_pasoMonitor h with ⟨hbuf, hmira, hend⟩ | ⟨⟨e, he⟩, himp, hsal⟩
  · rw [hbuf, hmira]
    rcases hend with ⟨himp, hpc⟩ | ⟨himp, hpc⟩
    · rw [himp, hpc]
      simp only [porSalir]
      omega
    · -- the block looked at is one of those received
      have hlt : s.impresos.length < K := by
        obtain ⟨hechos, hext, hlin, -⟩ := hinv.monitor
        have hlen := hring.order.length_le
        simp only [buffer, hext, porImprimir, hmira, List.length_append,
          List.length_singleton] at hlen
        rw [hlin, List.length_map]
        unfold recibidos at hK
        omega
      rw [himp, hpc]
      simp only [porSalir]
      omega
  · have hbudget := budget_next hring he ((started_le_recibidos t).trans (hrec ▸ hK))
    rw [himp, hsal]
    omega

end Pipeline

end Soper.P3
