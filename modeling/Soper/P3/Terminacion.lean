import Soper.P3.Cadena
import Soper.P3.Receptores

/-!
# The pipeline finishes

The three processes of the third practice together, for any number of rounds. As in `Pipeline`
the monitor starts after the comprobador has initialised the segment, the semaphores work across
the two processes and stay valid until their last use, no call fails and no signal comes. The
source itself does not see to the semaphores: `sem_init` makes them for the threads of one process
only, and `sem_destroy` does not wait for the other process (`UsoVivo`).

Seen from behind the queue, the miner is one of the senders of `Receptores`
(`invAbierto_sistema`). Its own loop has a measure (`Minero.medida`), comprobador and monitor use
up their work (`trabajo`), so no interleaving goes on for ever; and a state in which nobody can
move is one in which all three have exited, with every line printed, the queue empty and the ring
at rest (`termina_pipeline`).
-/

namespace Soper.P3.Pipeline

variable {nCycles : ℕ} {s t : Pipeline}

/-! ### Comprobador and monitor within the pipeline -/

/-- The miner only adds messages to the queue. -/
theorem invAbierto_pasoMinero (h : InvAbierto s) (hn : s.pasoMinero nCycles = some t) :
    InvAbierto t := by
  have hframe := frame_pasoMinero hn
  obtain ⟨nuevos, henv, hcola⟩ := nuevos_pasoMinero hn
  obtain ⟨recibidos, hflujo, hjuz⟩ := h.flujo
  refine ⟨⟨recibidos, ?_, ?_⟩, ?_, ?_⟩
  · rw [henv, hcola, hflujo, List.append_assoc]
  · rw [hframe]
    exact hjuz
  · rw [hframe]
    exact h.comprobador
  · rw [hframe]
    exact h.monitor

/-- Where every message is, in the pipeline. -/
theorem invAbierto_sistema (h : (sistema nCycles).Reachable s) : InvAbierto s := by
  refine h.induct ?_ fun s a t hs hn => ?_
  · rintro _ ⟨bloque, mq, mon, rfl⟩
    exact invAbierto_inicial bloque mq mon
  · cases a with
    | minero => exact invAbierto_pasoMinero hs hn
    | comprobador => exact invAbierto_next (a := .comprobador) hs hn
    | monitor => exact invAbierto_next (a := .monitor) hs hn

/-- The messages received are among those sent. -/
theorem InvAbierto.recibidos_le (h : InvAbierto s) :
    s.recibidos + s.cola.length = s.enviados.length := by
  obtain ⟨recibidos, henv, hjuz⟩ := h.flujo
  have hlen := congrArg List.length hjuz
  rw [List.length_map, List.length_append] at hlen
  rw [henv, List.length_append, hlen]
  rfl

/-- The miner sends one block for each round, and the finishing block. -/
theorem enviados_le (h : (sistema nCycles).Reachable s) : s.enviados.length ≤ nCycles + 1 := by
  have hminero := Minero.inv_reachable (minero_reachable h)
  rcases hminero.enviados with henv | henv
  · have hle := hminero.ronda
    simp only [minero] at henv hle
    simp only [henv, bloques, List.length_map, List.length_range]
    omega
  · simp only [minero] at henv
    simp [henv, bloques]

/-! ### No run goes on for ever -/

/-- Steps of the three processes that are left, at most. -/
def medida (nCycles : ℕ) (s : Pipeline) : ℕ :=
  Minero.medida nCycles s.minero + trabajo (nCycles + 1) s

/-- **Every step is a step nearer to the end.** -/
theorem medida_next {a : Turno} (h : (sistema nCycles).Reachable s)
    (hn : next nCycles s a = some t) : medida nCycles t < medida nCycles s := by
  have hring := inv_buffer h
  have hrec : ∀ u, (sistema nCycles).Reachable u → u.recibidos ≤ nCycles + 1 := fun u hu =>
    (Nat.le_add_right _ _).trans ((invAbierto_sistema hu).recibidos_le.trans_le (enviados_le hu))
  unfold medida
  cases a with
  | minero =>
    have hminero := Minero.medida_next (Minero.inv_reachable (minero_reachable h))
      (minero_pasoMinero hn)
    have hsame : trabajo (nCycles + 1) t = trabajo (nCycles + 1) s := by
      rw [frame_pasoMinero hn]
      rfl
    omega
  | comprobador =>
    have hsame : t.minero = s.minero := by
      rw [frame_pasoComprobador hn]
      rfl
    have hless := trabajo_pasoComprobador hring hn (hrec t (h.step (a := .comprobador) hn))
    rw [hsame]
    omega
  | monitor =>
    have hsame : t.minero = s.minero := by
      rw [frame_pasoMonitor hn]
      rfl
    have hless := trabajo_pasoMonitor (invAbierto_sistema h) hring hn (hrec s h)
    rw [hsame]
    omega

/-! ### Where it ends -/

/-- A miner that cannot move has exited, or the queue is full. -/
theorem pasoMinero_eq_none (h : s.pasoMinero nCycles = none) :
    (∃ codigo, s.pc = .salido codigo) ∨ MAX_MSG ≤ s.cola.length := by
  match hpc : s.pc with
  | .salido codigo => exact Or.inl ⟨codigo, rfl⟩
  | .bucle => simp [pasoMinero, hpc] at h
  | .busca =>
    simp only [pasoMinero, hpc] at h
    split at h <;> cases h
  | .envia | .enviaFin =>
    simp only [pasoMinero, hpc, ite_eq_right_iff, reduceCtorEq, imp_false, not_lt] at h
    exact Or.inr h

/-- A miner that has exited has sent its finishing block. -/
theorem enviados_of_salido (h : (sistema nCycles).Reachable s) {codigo : ℤ}
    (hpc : s.pc = .salido codigo) :
    codigo = EXIT_SUCCESS ∧ s.enviados = bloques nCycles ++ [fin] := by
  have hinv := (Minero.inv_reachable (minero_reachable h)).pc
  simp only [Minero.InvPc, minero, hpc] at hinv
  rcases hinv with ⟨hcod, henv, -⟩ | ⟨-, hmen⟩
  · exact ⟨hcod, henv⟩
  · split at hmen <;> cases hmen

/-- The end of the three processes. -/
structure Terminado (nCycles : ℕ) (s : Pipeline) : Prop where
  minero : s.pc = .salido EXIT_SUCCESS
  comprobador : s.pcComprobador = .salido
  monitor : s.pcMonitor = .salido
  /-- One line for each round, each one accepted. -/
  impresos : s.impresos = (List.range nCycles).map fun j => ⟨true, cadena j, cadena (j + 1)⟩
  /-- No message is left in the queue. -/
  cola : s.cola = []
  /-- The ring is at rest. -/
  reposo : s.semFill = 0 ∧ s.semEmpty = BUFFER_SIZE ∧ s.semMutex = 1

/-- After the finishing block of the miner there is no other message. -/
theorem cola_of_terminados (h : (sistema nCycles).Reachable s) (ht : Terminados s)
    (henv : s.enviados = bloques nCycles ++ [fin]) : s.cola = [] := by
  have hinv := invAbierto_sistema h
  have hcomp := hinv.comprobador
  simp only [InvRecepcion, ht.comprobador] at hcomp
  obtain ⟨previos, hanad, hnofin, hfin⟩ := hcomp
  -- the messages received end at a finishing block, and there is only one
  have hpre : previos ++ [s.bloqueMq] <+: (bloques nCycles).map comprobar ++ [comprobar fin] := by
    rw [← hanad]
    simpa [henv] using hinv.anadidos_isPrefix
  have hbloques : ∀ b ∈ (bloques nCycles).map comprobar, b.fin = false := by
    intro b hb
    obtain ⟨c, hc, rfl⟩ := List.mem_map.mp hb
    rw [comprobar_fin]
    exact (comprobar_bloques hc).1
  have hprevios : previos = (bloques nCycles).map comprobar := by
    rw [← EndMarker.before_eq (p := Dato.fin) hpre hnofin hfin,
      EndMarker.before_eq (p := Dato.fin) List.prefix_rfl hbloques (comprobar_fin fin)]
  have hlen := hinv.recibidos_le
  rw [recibidos, hanad, hprevios, henv] at hlen
  simp only [juzgado, ht.comprobador, List.length_append, List.length_map, List.length_singleton,
    List.length_nil] at hlen
  exact List.eq_nil_of_length_eq_zero (by omega)

/-- **The pipeline finishes**, for any number of rounds and any interleaving, as long as its
semaphores are shared and valid, no call fails and no signal comes. -/
theorem termina_pipeline (nCycles : ℕ) : (sistema nCycles).Ensures (Terminado nCycles) := by
  refine System.ensures_of_measure (medida nCycles) (fun s a t hs hn => medida_next hs hn) ?_
  intro s h hstuck
  have hinv := invAbierto_sistema h
  have hring := inv_buffer h
  rcases quietos_of_parados hinv hring (hstuck .comprobador) (hstuck .monitor) with ht | hesp
  · -- the finishing block that ended the two processes is the miner's
    have hprint := imprimeHastaFin_of_inv hinv hring
    obtain ⟨⟨b, hb, hbfin⟩, -⟩ := hprint.final ht.monitor
    have hsal : s.pc = .salido EXIT_SUCCESS ∧ s.enviados = bloques nCycles ++ [fin] := by
      rcases (Minero.inv_reachable (minero_reachable h)).enviados_mensaje with
        ⟨henv, -⟩ | ⟨hpc, henv, -⟩
      · have hmem : b ∈ bloques s.i := by
          rw [← show s.enviados = bloques s.i from henv]
          exact hb
        have hno := (comprobar_bloques hmem).1
        rw [hbfin] at hno
        cases hno
      · exact ⟨hpc, henv⟩
    obtain ⟨k, -, hk, himp⟩ := impresos_cadena h
    obtain ⟨-, hreposo⟩ := reposo_of_terminados hinv hring ht
    exact ⟨hsal.1, ht.comprobador, ht.monitor, hk ht.monitor ▸ himp,
      cola_of_terminados h ht hsal.2, hreposo⟩
  · -- the queue is empty, so the miner has exited, and its finishing block is still to be met
    rcases pasoMinero_eq_none (hstuck .minero) with ⟨codigo, hpc⟩ | hfull
    · have henv := (enviados_of_salido h hpc).2
      have hno := hesp.sinFin fin (by simp [henv])
      cases hno
    · rw [hesp.cola] at hfull
      exact absurd hfull (by decide)

end Soper.P3.Pipeline
