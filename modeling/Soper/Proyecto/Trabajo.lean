import Soper.Library.BufferProgress
import Soper.Library.EndMarker
import Soper.Proyecto.Historia

/-!
# The work of comprobador and monitor

How the two processes of `proyecto/monitor.c` come to rest when no SIGINT reaches the comprobador
and `mq_receive` does not fail. The comprobador goes on until it has inserted a finishing block
(`InvComprobador`); where neither process can move, both have exited, or both wait, the
comprobador for a message and the monitor for a block (`reposo_of_parados`). Every step of the
two uses up part of the work that is left (`trabajo_llega`, `trabajo_pasoComprobador`,
`trabajo_pasoMonitor`).
-/

namespace Soper.Proyecto.Anillo

open BoundedBuffer

variable {s t : Anillo} {K : ℕ}

/-! ### The finishing block -/

/-- The comprobador goes on until it has added a finishing block. -/
def InvComprobador (s : Anillo) : Prop :=
  match s.pc with
  | .recibe | .mira => ∀ b ∈ s.anadidos, b.fin = false
  | .esperaEmpty m | .esperaMutex m | .anade m _ => m = .normal ∧ ∀ b ∈ s.anadidos, b.fin = false
  | .sueltaMutex m | .sueltaFill m =>
    m = .normal ∧
      ∃ previos, s.anadidos = previos ++ [s.bloqueMq] ∧ ∀ b ∈ previos, b.fin = false
  | .espera m =>
    m = .normal ∧ ∃ previos, s.anadidos = previos ++ [s.bloqueMq] ∧
      (∀ b ∈ previos, b.fin = false) ∧ s.bloqueMq.fin = true
  | .salido codigo =>
    codigo = 0 ∧ s.pcMonitor = .salido ∧
      ∃ previos, s.anadidos = previos ++ [s.bloqueMq] ∧ (∀ b ∈ previos, b.fin = false) ∧
        s.bloqueMq.fin = true

theorem invComprobador_llega {b : Bloque} (h : InvComprobador s)
    (hn : next s (.llega b) = some t) : InvComprobador t := by
  simp only [next] at hn
  split at hn <;> cases hn
  rename_i hpc
  simp only [InvComprobador, hpc] at h
  exact h

theorem invComprobador_pasoComprobador (hsint : s.sint = false) (h : InvComprobador s)
    (hn : pasoComprobador s = some t) : InvComprobador t := by
  cases hpc : s.pc with
  | recibe | salido _ => simp [pasoComprobador, hpc] at hn
  | mira =>
    simp only [InvComprobador, hpc] at h
    simp only [pasoComprobador, hpc, hsint, Bool.false_eq_true, if_false] at hn
    cases hn
    exact ⟨rfl, h⟩
  | esperaEmpty m | esperaMutex m =>
    simp only [InvComprobador, hpc] at h
    simp only [pasoComprobador, hpc] at hn
    split at hn <;> cases hn
    exact h
  | anade m campos =>
    simp only [InvComprobador, hpc] at h
    cases campos with
    | nil =>
      simp only [pasoComprobador, hpc] at hn
      cases hn
      exact ⟨h.1, s.anadidos, rfl, h.2⟩
    | cons f fs =>
      simp only [pasoComprobador, hpc] at hn
      cases hn
      exact h
  | sueltaMutex m =>
    simp only [InvComprobador, hpc] at h
    simp only [pasoComprobador, hpc] at hn
    cases hn
    exact h
  | sueltaFill m =>
    simp only [InvComprobador, hpc] at h
    obtain ⟨rfl, previos, hanad, hprev⟩ := h
    simp only [pasoComprobador, hpc] at hn
    cases hn
    by_cases hfin : s.bloqueMq.fin = true
    · simp only [InvComprobador, trasInsertar, if_pos hfin]
      exact ⟨trivial, previos, hanad, hprev, hfin⟩
    · simp only [InvComprobador, trasInsertar, if_neg hfin]
      have hno : s.bloqueMq.fin = false := Bool.eq_false_iff.mpr hfin
      rw [hanad]
      exact List.forall_mem_append.mpr ⟨hprev, List.forall_mem_singleton.mpr hno⟩
  | espera m =>
    simp only [InvComprobador, hpc] at h
    obtain ⟨rfl, hfin⟩ := h
    simp only [pasoComprobador, hpc] at hn
    cases hmon : s.pcMonitor with
    | salido =>
      simp only [hmon] at hn
      cases hn
      exact ⟨rfl, rfl, hfin⟩
    | esperaFill | esperaMutex | extrae _ _ | sueltaMutex | sueltaEmpty | mira => simp [hmon] at hn

theorem invComprobador_pasoMonitor (h : InvComprobador s) (hn : pasoMonitor s = some t) :
    InvComprobador t := by
  obtain ⟨hpc, hmq, -, hanad⟩ := comprobador_pasoMonitor hn
  unfold InvComprobador at h ⊢
  rw [hpc, hmq, hanad]
  cases hpc' : s.pc with
  | salido codigo =>
    rw [hpc'] at h
    simp [pasoMonitor, h.2.1] at hn
  | recibe | mira | esperaEmpty _ | esperaMutex _ | anade _ _ | sueltaMutex _ | sueltaFill _
  | espera _ =>
    rw [hpc'] at h
    exact h

/-! ### Where neither process can move -/

/-- Outside `mq_receive` a comprobador that cannot move has exited, waits for its child, or is
blocked in the ring. -/
theorem pasoComprobador_eq_none (h : pasoComprobador s = none) :
    s.pc ≠ .mira ∧ (∀ m, s.pc = .espera m → s.pcMonitor ≠ .salido) ∧
      nextProduce BUFFER_SIZE copiaAnadir (buffer s) = none := by
  cases hpc : s.pc with
  | recibe | salido _ =>
    exact ⟨by rintro ⟨⟩, by rintro _ ⟨⟩, by simp [nextProduce, buffer, productor, hpc]⟩
  | espera m =>
    refine ⟨by rintro ⟨⟩, fun _ _ hsal => ?_, by simp [nextProduce, buffer, productor, hpc]⟩
    simp [pasoComprobador, hpc, hsal] at h
  | esperaEmpty m | esperaMutex m =>
    simp only [pasoComprobador, hpc, ite_eq_right_iff, reduceCtorEq, imp_false] at h
    exact ⟨by rintro ⟨⟩, by rintro _ ⟨⟩, by simp [nextProduce, buffer, productor, hpc, h]⟩
  | anade m campos => cases campos <;> simp [pasoComprobador, hpc] at h
  | mira =>
    simp only [pasoComprobador, hpc] at h
    split at h <;> cases h
  | sueltaMutex m | sueltaFill m => simp [pasoComprobador, hpc] at h

/-- A monitor that cannot move and has not exited is blocked in the ring. -/
theorem pasoMonitor_eq_none (h : pasoMonitor s = none) (hsal : s.pcMonitor ≠ .salido) :
    s.pcMonitor ≠ .mira ∧
      nextConsume BUFFER_SIZE copiaExtraer (buffer s) s.bloqueMonitor = none := by
  cases hpc : s.pcMonitor with
  | salido => exact absurd hpc hsal
  | esperaFill | esperaMutex =>
    simp only [pasoMonitor, hpc, ite_eq_right_iff, reduceCtorEq, imp_false] at h
    exact ⟨by rintro ⟨⟩, by simp [nextConsume, buffer, consumidor, hpc, h]⟩
  | extrae ret campos => cases campos <;> simp [pasoMonitor, hpc] at h
  | sueltaMutex | sueltaEmpty => simp [pasoMonitor, hpc] at h
  | mira =>
    simp only [pasoMonitor, hpc] at h
    split at h <;> cases h

/-- Both processes have exited after a finishing block. -/
structure Terminados (s : Anillo) : Prop where
  comprobador : s.pc = .salido 0
  monitor : s.pcMonitor = .salido
  /-- The block after the last one printed is the finishing block. -/
  impresos : ∃ b, s.anadidos = s.impresos ++ [b] ∧ b.fin = true

/-- The comprobador waits for a message and the monitor for a block. -/
structure EnEspera (s : Anillo) : Prop where
  comprobador : s.pc = .recibe
  monitor : s.pcMonitor = .esperaFill
  /-- Everything that was added has been printed. -/
  impresos : s.anadidos = s.impresos
  sinFin : ∀ b ∈ s.anadidos, b.fin = false

/-- The monitor has exited only after the comprobador has inserted a finishing block, and has
printed all blocks before it. -/
theorem impresos_of_salido (himp : Impresion s)
    (hring : BoundedBuffer.Inv BUFFER_SIZE (buffer s)) (hsal : s.pcMonitor = .salido) :
    s.impresos ++ [s.bloqueMonitor] <+: s.anadidos := by
  have hext := himp.reparto
  rw [porImprimir, hsal] at hext
  rw [← hext]
  exact hring.order

/-- Where the last block added is the first finishing block, the monitor has printed the others. -/
theorem impresos_eq_of_salido {previos : List Bloque} {b : Bloque} (himp : Impresion s)
    (hring : BoundedBuffer.Inv BUFFER_SIZE (buffer s)) (hsal : s.pcMonitor = .salido)
    (hanad : s.anadidos = previos ++ [b]) (hprev : ∀ c ∈ previos, c.fin = false)
    (hb : b.fin = true) : s.impresos = previos := by
  rw [← EndMarker.before_eq (p := Bloque.fin) (impresos_of_salido himp hring hsal) himp.sinFin
      (himp.final hsal),
    EndMarker.before_eq (p := Bloque.fin) (hanad ▸ List.prefix_rfl) hprev hb]

/-- A monitor that is blocked with the comprobador, and has not exited, waits for a block and has
printed everything that was added. -/
theorem esperaFill_of_parados (himp : Impresion s)
    (hring : BoundedBuffer.Inv BUFFER_SIZE (buffer s)) (hcomp : pasoComprobador s = none)
    (hmon : pasoMonitor s = none) (hsal : s.pcMonitor ≠ .salido) :
    productor s.bloqueMq s.pc = .idle ∧ s.pcMonitor = .esperaFill ∧ s.anadidos = s.impresos := by
  obtain ⟨-, -, hprod⟩ := pasoComprobador_eq_none hcomp
  obtain ⟨hmira, hcons⟩ := pasoMonitor_eq_none hmon hsal
  obtain ⟨hidle, hwait, htaken⟩ := hring.quiet_of_blocked (by decide) hprod hcons
  have hfill : s.pcMonitor = .esperaFill := by
    cases hc : s.pcMonitor with
    | esperaFill => rfl
    | mira => exact absurd hc hmira
    | salido => exact absurd hc hsal
    | esperaMutex | extrae _ _ | sueltaMutex | sueltaEmpty =>
      simp [buffer, consumidor, hc] at hwait
  have hext := himp.reparto
  rw [porImprimir, hfill, List.append_nil] at hext
  refine ⟨hidle, hfill, ?_⟩
  rw [← hext]
  exact htaken.symm

/-- **Where neither process can move** both have exited, or both wait. -/
theorem reposo_of_parados (h : InvComprobador s) (himp : Impresion s)
    (hring : BoundedBuffer.Inv BUFFER_SIZE (buffer s)) (hcomp : pasoComprobador s = none)
    (hmon : pasoMonitor s = none) : Terminados s ∨ EnEspera s := by
  obtain ⟨hmira, hespera, -⟩ := pasoComprobador_eq_none hcomp
  by_cases hsal : s.pcMonitor = .salido
  · have hpre := impresos_of_salido himp hring hsal
    have hmem : s.bloqueMonitor ∈ s.anadidos := hpre.subset (by simp)
    have hfin := himp.final hsal
    left
    cases hpc : s.pc with
    | salido codigo =>
      rw [InvComprobador, hpc] at h
      obtain ⟨rfl, -, previos, hanad, hprev, hbfin⟩ := h
      have hprevios : s.impresos = previos :=
        impresos_eq_of_salido himp hring hsal hanad hprev hbfin
      exact ⟨hpc, hsal, s.bloqueMq, by rw [hprevios, hanad], hbfin⟩
    | espera m => exact absurd hsal (hespera m hpc)
    | mira => exact absurd hpc hmira
    | sueltaMutex _ | sueltaFill _ => simp [pasoComprobador, hpc] at hcomp
    | recibe | esperaEmpty _ | esperaMutex _ | anade _ _ =>
      rw [InvComprobador, hpc] at h
      simp_all
  · obtain ⟨hidle, hfill, hanad⟩ := esperaFill_of_parados himp hring hcomp hmon hsal
    -- the monitor has printed everything, so no finishing block was added
    have hno : ∀ b ∈ s.anadidos, b.fin = false := hanad ▸ himp.sinFin
    right
    refine ⟨?_, hfill, hanad, hno⟩
    cases hpc : s.pc with
    | recibe => rfl
    | mira => exact absurd hpc hmira
    | salido codigo =>
      rw [InvComprobador, hpc] at h
      exact absurd h.2.1 hsal
    | espera m =>
      rw [InvComprobador, hpc] at h
      obtain ⟨-, previos, hlast, -, hbfin⟩ := h
      rw [hno s.bloqueMq (by simp [hlast])] at hbfin
      cases hbfin
    | esperaEmpty _ | esperaMutex _ | anade _ _ | sueltaMutex _ | sueltaFill _ =>
      simp [productor, hpc] at hidle

/-! ### The work that is left -/

/-- Messages the comprobador has received. -/
def recibidos (s : Anillo) : ℕ := s.anadidos.length + (enMano s).length

/-- The exit of the comprobador is still to come. -/
def porSalirComprobador : PcComprobador → ℕ
  | .salido _ => 0
  | _ => 1

/-- The exit of the monitor is still to come. -/
def porSalirMonitor : PcMonitor → ℕ
  | .salido => 0
  | _ => 1

/-- Steps of the two processes that are left, at most, where `K` messages are sent. -/
def trabajo (K : ℕ) (s : Anillo) : ℕ :=
  budget copiaAnadir copiaExtraer K (buffer s) + (K - recibidos s) + (K - s.impresos.length) +
    porSalirComprobador s.pc + porSalirMonitor s.pcMonitor

/-- More messages are more work. -/
theorem trabajo_mono {K' : ℕ} (h : K ≤ K') : trabajo K s ≤ trabajo K' s := by
  have hbudget : budget copiaAnadir copiaExtraer K (buffer s) ≤
      budget copiaAnadir copiaExtraer K' (buffer s) := budget_mono h
  unfold trabajo
  omega

/-- Only messages received are inserted into the ring. -/
theorem started_le_recibidos (s : Anillo) : (buffer s).started ≤ recibidos s := by
  cases hpc : s.pc <;>
    simp [Buffer.started, buffer, productor, Producer.picked, recibidos, enMano, hpc]

theorem recibidos_llega {b : Bloque} (hpc : s.pc = .recibe) :
    recibidos { s with bloqueMq := b, pc := .mira } = recibidos s + 1 := by
  simp [recibidos, enMano, hpc]

theorem recibidos_recepcionFallida (hpc : s.pc = .recibe) :
    recibidos (recepcionFallida s) = recibidos s + 1 := by
  simp [recibidos, enMano, recepcionFallida, hpc]

/-- A message received is work that goes from the queue into the ring. -/
theorem trabajo_llega {b : Bloque} (h : next s (.llega b) = some t) (hK : recibidos s < K) :
    trabajo K t < trabajo K s := by
  simp only [next] at h
  split at h <;> cases h
  rename_i hpc
  have hbuf : buffer { s with bloqueMq := b, pc := .mira } = buffer s := by
    simp [buffer, productor, hpc]
  simp only [trabajo, hbuf, recibidos_llega hpc, hpc, porSalirComprobador]
  omega

/-- A failed reception is work that goes into the ring too: a finishing block is inserted. -/
theorem trabajo_recepcionFallida (hring : BoundedBuffer.Inv BUFFER_SIZE (buffer s))
    (hpc : s.pc = .recibe) (hK : recibidos s < K) :
    trabajo K (recepcionFallida s) < trabajo K s := by
  have hstep : BoundedBuffer.next BUFFER_SIZE copiaAnadir copiaExtraer (buffer s)
      (.start { s.bloqueMq with fin := true }) = some (buffer (recepcionFallida s)) := by
    simp [BoundedBuffer.next, buffer, recepcionFallida, productor, hpc]
  have hrec := recibidos_recepcionFallida hpc
  have hbudget := budget_next hring hstep ((started_le_recibidos _).trans (hrec.le.trans hK))
  have hsal : porSalirComprobador (recepcionFallida s).pc = porSalirComprobador s.pc := by
    rw [hpc]
    rfl
  have himp : (recepcionFallida s).impresos = s.impresos := rfl
  have hmon : (recepcionFallida s).pcMonitor = s.pcMonitor := rfl
  unfold trabajo
  rw [hrec, hsal, himp, hmon]
  omega

/-- A step of the comprobador is a step of the producer, or its exit. -/
theorem cases_pasoComprobador (h : pasoComprobador s = some t) :
    recibidos t = recibidos s ∧
      ((∃ e, BoundedBuffer.next BUFFER_SIZE copiaAnadir copiaExtraer (buffer s) e =
          some (buffer t)) ∧ porSalirComprobador t.pc = porSalirComprobador s.pc ∨
        buffer t = buffer s ∧ porSalirComprobador t.pc < porSalirComprobador s.pc) := by
  have hstep := buffer_pasoComprobador h
  cases hpc : s.pc with
  | recibe | salido _ => simp [pasoComprobador, hpc] at h
  | mira =>
    simp only [pasoComprobador, hpc] at h
    split at h <;> cases h
    all_goals
      refine ⟨by simp [recibidos, enMano, hpc], Or.inl ⟨hstep.resolve_left fun heq => ?_, rfl⟩⟩
      simpa [buffer, productor, hpc] using congrArg Buffer.prod heq
  | esperaEmpty m | esperaMutex m =>
    simp only [pasoComprobador, hpc] at h
    split at h <;> cases h
    refine ⟨by simp [recibidos, enMano, hpc], Or.inl ⟨hstep.resolve_left fun heq => ?_, rfl⟩⟩
    simpa [buffer, productor, hpc] using congrArg Buffer.prod heq
  | anade m campos =>
    cases campos
    all_goals
      simp only [pasoComprobador, hpc] at h
      cases h
      refine ⟨by simp [recibidos, enMano, hpc], Or.inl ⟨hstep.resolve_left fun heq => ?_, rfl⟩⟩
      simpa [buffer, productor, hpc] using congrArg Buffer.prod heq
  | sueltaMutex m =>
    simp only [pasoComprobador, hpc] at h
    cases h
    refine ⟨by simp [recibidos, enMano, hpc], Or.inl ⟨hstep.resolve_left fun heq => ?_, rfl⟩⟩
    simpa [buffer, productor, hpc] using congrArg Buffer.prod heq
  | sueltaFill m =>
    simp only [pasoComprobador, hpc] at h
    cases h
    have hsal : porSalirComprobador (trasInsertar m s.bloqueMq) = 1 := by
      rcases trasInsertar_cases m s.bloqueMq with htras | htras <;> rw [htras] <;> rfl
    refine ⟨?_, Or.inl ⟨hstep.resolve_left fun heq => ?_, hsal⟩⟩
    · rcases trasInsertar_cases m s.bloqueMq with htras | htras <;>
        simp [recibidos, enMano, hpc, htras]
    · simpa [buffer] using congrArg Buffer.fill heq
  | espera m =>
    simp only [pasoComprobador, hpc] at h
    split at h <;> cases h
    refine ⟨by simp [recibidos, enMano, hpc], Or.inr ⟨by simp [buffer, productor, hpc], ?_⟩⟩
    exact Nat.zero_lt_one

/-- Every step of the comprobador uses up some of the work. -/
theorem trabajo_pasoComprobador (hring : BoundedBuffer.Inv BUFFER_SIZE (buffer s))
    (h : pasoComprobador s = some t) (hK : recibidos s ≤ K) : trabajo K t < trabajo K s := by
  obtain ⟨hmon, -, -, himp⟩ := monitor_pasoComprobador h
  obtain ⟨hrec, hcase⟩ := cases_pasoComprobador h
  unfold trabajo
  rw [himp, hmon, hrec]
  rcases hcase with ⟨⟨e, he⟩, hsal⟩ | ⟨hbuf, hsal⟩
  · have hbudget := budget_next hring he ((started_le_recibidos t).trans (hrec ▸ hK))
    omega
  · rw [hbuf]
    omega

/-- A step of the monitor looks at a block, or is a step of the consumer. -/
theorem cases_pasoMonitor (h : pasoMonitor s = some t) :
    (buffer t = buffer s ∧ s.pcMonitor = .mira ∧
        (t.impresos = s.impresos ∧ t.pcMonitor = .salido ∨
          t.impresos.length = s.impresos.length + 1 ∧ t.pcMonitor = .esperaFill)) ∨
      (∃ e, BoundedBuffer.next BUFFER_SIZE copiaAnadir copiaExtraer (buffer s) e =
        some (buffer t)) ∧ t.impresos = s.impresos ∧
          porSalirMonitor t.pcMonitor = porSalirMonitor s.pcMonitor := by
  have hstep := buffer_pasoMonitor h
  cases hpc : s.pcMonitor with
  | salido => simp [pasoMonitor, hpc] at h
  | mira =>
    left
    simp only [pasoMonitor, hpc] at h
    split at h <;> cases h
    · exact ⟨by simp [buffer, consumidor, hpc], rfl, Or.inl ⟨rfl, rfl⟩⟩
    · exact ⟨by simp [buffer, consumidor, hpc], rfl, Or.inr ⟨by simp, rfl⟩⟩
  | esperaFill | esperaMutex =>
    right
    simp only [pasoMonitor, hpc] at h
    split at h <;> cases h
    refine ⟨hstep.resolve_left fun heq => ?_, rfl, rfl⟩
    simpa [buffer, consumidor, hpc] using congrArg Buffer.cons heq
  | extrae ret campos =>
    right
    cases campos
    all_goals
      simp only [pasoMonitor, hpc] at h
      cases h
      refine ⟨hstep.resolve_left fun heq => ?_, rfl, rfl⟩
      simpa [buffer, consumidor, hpc] using congrArg Buffer.cons heq
  | sueltaMutex | sueltaEmpty =>
    right
    simp only [pasoMonitor, hpc] at h
    cases h
    refine ⟨hstep.resolve_left fun heq => ?_, rfl, rfl⟩
    simpa [buffer, consumidor, hpc] using congrArg Buffer.cons heq

/-- Every step of the monitor uses up some of the work. -/
theorem trabajo_pasoMonitor (himp : Impresion s)
    (hring : BoundedBuffer.Inv BUFFER_SIZE (buffer s)) (h : pasoMonitor s = some t)
    (hK : recibidos s ≤ K) : trabajo K t < trabajo K s := by
  obtain ⟨hpc, hmq, -, hanad⟩ := comprobador_pasoMonitor h
  have hrec : recibidos t = recibidos s := by simp only [recibidos, enMano, hpc, hmq, hanad]
  unfold trabajo
  rw [hrec, hpc]
  rcases cases_pasoMonitor h with ⟨hbuf, hmira, hend⟩ | ⟨⟨e, he⟩, himp', hsal⟩
  · rw [hbuf, hmira]
    rcases hend with ⟨himp', hmon⟩ | ⟨himp', hmon⟩
    · rw [himp', hmon]
      simp only [porSalirMonitor]
      omega
    · -- the block looked at is one of those received
      have hlt : s.impresos.length < K := by
        have hlen : s.extraidos.length ≤ s.anadidos.length := hring.order.length_le
        rw [himp.reparto, porImprimir, hmira, List.length_append, List.length_singleton] at hlen
        unfold recibidos at hK
        omega
      rw [himp', hmon]
      simp only [porSalirMonitor]
      omega
  · have hbudget := budget_next hring he ((started_le_recibidos t).trans (hrec ▸ hK))
    rw [himp', hsal]
    omega

end Soper.Proyecto.Anillo
