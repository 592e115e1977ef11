import Soper.Proyecto.Cierre
import Soper.Proyecto.Trabajo

/-!
# After the signal

What becomes of the four processes of the final project once SIGINT or SIGALRM has reached the
miner, in whatever state it finds them. The pipe to the Registrador has a capacity, as in `Cierre`,
and more signals may come at any time, also while the miner is blocked in `write` or in
`wait(NULL)`; no call fails otherwise, and the other processes receive no signal.

The processes take only finitely many further steps. Where they cannot go on, the Registrador has
exited and every block sent has been printed. The miner has exited with every block in the log, or
with `EXIT_FAILURE` and every block but the one whose `write` was cut short. Comprobador and monitor
have exited if the finishing block was sent. Otherwise they wait for ever, because the queue was
full when the miner looked, or because the miner did not come to look (`termina_trasSenal`).
-/

namespace Soper.Proyecto

namespace Sistema

open Anillo (limpiar enMano)

variable {pid : ℤ} {s t : Sistema}

/-! ### The ends of the channels -/

/-- The finishing block is the last message, unless the miner has found the queue full. -/
def InvMandados (s : Sistema) : Prop :=
  match s.pc with
  | .bucle | .mina | .escribe | .consulta | .envia | .traspasa | .consultaFin | .enviaFin =>
    ∀ b ∈ s.mandados, b.fin = false
  | .cierra | .espera | .salido =>
    ∃ l, (∀ b ∈ l, b.fin = false) ∧
      (s.mandados = l ∧ s.mqCurmsgs = MAX_MSG ∨ s.mandados = l ++ [s.bloqueFin])

/-- The miner holds its end of the pipe. -/
def tieneExtremo : PcMinero → Bool
  | .espera | .salido => false
  | _ => true

/-- How the processes leave their channels. -/
structure InvExtremos (s : Sistema) : Prop where
  mandados : InvMandados s
  cola : s.cola.length ≤ MAX_MSG
  registrador : s.pcRegistrador = .salido → s.tuberia = [] ∧ s.extremoEscritura = false
  comprobador : Anillo.InvComprobador s.anillo

/-- While the miner holds its end of the pipe, the Registrador has not exited. -/
theorem InvExtremos.registrador_vivo (h : InvExtremos s)
    (hext : s.extremoEscritura = tieneExtremo s.pc) (hpc : tieneExtremo s.pc = true) :
    s.pcRegistrador ≠ .salido := by
  intro hsal
  have hextremo := (h.registrador hsal).2
  rw [hext, hpc] at hextremo
  cases hextremo

/-- The miner opens no end of the pipe, and closes its own before it waits. -/
theorem extremo_pasoMinero {v : ℤ} (hext : s.extremoEscritura = tieneExtremo s.pc)
    (h : pasoMinero pid v s = some t) : t.extremoEscritura = tieneExtremo t.pc := by
  match hpc : s.pc with
  | .salido => simp [pasoMinero, hpc] at h
  | .bucle | .consulta | .consultaFin =>
    simp only [pasoMinero, hpc] at h
    rw [hpc] at hext
    cases h
    split <;> exact hext
  | .mina | .escribe | .traspasa =>
    simp only [pasoMinero, hpc] at h
    rw [hpc] at hext
    cases h
    exact hext
  | .envia | .enviaFin | .espera =>
    simp only [pasoMinero, hpc] at h
    rw [hpc] at hext
    split at h <;> cases h
    exact hext
  | .cierra =>
    simp only [pasoMinero, hpc] at h
    cases h
    rfl

theorem invExtremos_pasoMinero {v : ℤ} (hi : Inv s) (he : InvExtremos s)
    (hext : s.extremoEscritura = tieneExtremo s.pc) (h : pasoMinero pid v s = some t) :
    InvExtremos t := by
  have hvivo := he.registrador_vivo hext
  have hanillo := anillo_pasoMinero h
  obtain ⟨hman, hcola, hreg, hcomp⟩ := he
  rw [← hanillo] at hcomp
  match hpc : s.pc with
  | .salido => simp [pasoMinero, hpc] at h
  | .bucle | .consulta =>
    replace hvivo := hvivo (by rw [hpc]; rfl)
    simp only [InvMandados, hpc] at hman
    simp only [pasoMinero, hpc] at h
    cases h
    split <;> exact ⟨hman, hcola, fun hsal => absurd hsal hvivo, hcomp⟩
  | .mina | .escribe | .traspasa =>
    replace hvivo := hvivo (by rw [hpc]; rfl)
    simp only [InvMandados, hpc] at hman
    simp only [pasoMinero, hpc] at h
    cases h
    exact ⟨hman, hcola, fun hsal => absurd hsal hvivo, hcomp⟩
  | .envia =>
    replace hvivo := hvivo (by rw [hpc]; rfl)
    simp only [InvMandados, hpc] at hman
    obtain ⟨hechos, hhechos, -⟩ := hi.canales.envio
    -- the block sent was mined, so it is not a finishing block
    have haux : s.auxiliar.fin = false :=
      (hi.minero.minados s.auxiliar (by rw [hhechos]; simp [porEnviar, hpc])).1
    simp only [pasoMinero, hpc] at h
    split at h <;> cases h
    rename_i hroom
    refine ⟨?_, ?_, fun hsal => absurd hsal hvivo, hcomp⟩
    · exact List.forall_mem_append.mpr ⟨hman, List.forall_mem_singleton.mpr haux⟩
    · rw [List.length_append]
      exact hroom
  | .consultaFin =>
    replace hvivo := hvivo (by rw [hpc]; rfl)
    simp only [InvMandados, hpc] at hman
    simp only [pasoMinero, hpc] at h
    cases h
    split
    · exact ⟨hman, hcola, fun hsal => absurd hsal hvivo, hcomp⟩
    · rename_i hfull
      have hlen : s.cola.length = MAX_MSG := le_antisymm hcola (not_lt.mp hfull)
      exact ⟨⟨s.mandados, hman, Or.inl ⟨rfl, hlen⟩⟩, hcola, fun hsal => absurd hsal hvivo, hcomp⟩
  | .enviaFin =>
    replace hvivo := hvivo (by rw [hpc]; rfl)
    simp only [InvMandados, hpc] at hman
    simp only [pasoMinero, hpc] at h
    split at h <;> cases h
    rename_i hroom
    refine ⟨⟨s.mandados, hman, Or.inr rfl⟩, ?_, fun hsal => absurd hsal hvivo, hcomp⟩
    rw [List.length_append]
    exact hroom
  | .cierra =>
    replace hvivo := hvivo (by rw [hpc]; rfl)
    simp only [InvMandados, hpc] at hman
    simp only [pasoMinero, hpc] at h
    cases h
    exact ⟨hman, hcola, fun hsal => absurd hsal hvivo, hcomp⟩
  | .espera =>
    simp only [InvMandados, hpc] at hman
    simp only [pasoMinero, hpc] at h
    split at h <;> cases h
    exact ⟨hman, hcola, hreg, hcomp⟩

theorem invExtremos_pasoRegistrador (he : InvExtremos s) (h : pasoRegistrador s = some t) :
    InvExtremos t := by
  have hanillo := anillo_pasoRegistrador h
  obtain ⟨hman, hcola, hreg, hcomp⟩ := he
  rw [← hanillo] at hcomp
  cases hpc : s.pcRegistrador with
  | salido => simp [pasoRegistrador, hpc] at h
  | anota =>
    simp only [pasoRegistrador, hpc] at h
    cases h
    exact ⟨hman, hcola, by rintro ⟨⟩, hcomp⟩
  | lee =>
    cases htub : s.tuberia with
    | cons b resto =>
      simp only [pasoRegistrador, hpc, htub] at h
      cases h
      exact ⟨hman, hcola, by rintro ⟨⟩, hcomp⟩
    | nil =>
      simp only [pasoRegistrador, hpc, htub] at h
      split at h <;> cases h
      rename_i hcerrado
      exact ⟨hman, hcola, fun _ => ⟨rfl, Bool.eq_false_iff.mpr hcerrado⟩, hcomp⟩

/-- **Step lemma.** The miner needs its end of the pipe. -/
theorem invExtremos_next {a : Turno} (hi : Inv s) (he : InvExtremos s)
    (hext : ∀ v, a = .minero v → s.extremoEscritura = tieneExtremo s.pc)
    (h : next pid s a = some t) : InvExtremos t := by
  cases a with
  | minero v => exact invExtremos_pasoMinero hi he (hext v rfl) h
  | sigint | sigalrm =>
    cases h
    exact ⟨he.mandados, he.cola, he.registrador, he.comprobador⟩
  | registrador => exact invExtremos_pasoRegistrador he h
  | recibe =>
    have hlen := he.cola
    cases hcola : s.cola with
    | nil => simp [next, hcola] at h
    | cons b resto =>
      rw [hcola, List.length_cons] at hlen
      simp only [next, hcola, Option.map_eq_some_iff] at h
      obtain ⟨a, ha, rfl⟩ := h
      exact ⟨he.mandados, Nat.le_of_succ_le hlen, he.registrador,
        Anillo.invComprobador_llega he.comprobador ha⟩
  | comprobador =>
    simp only [next, Option.map_eq_some_iff] at h
    obtain ⟨a, ha, rfl⟩ := h
    exact ⟨he.mandados, he.cola, he.registrador,
      Anillo.invComprobador_pasoComprobador hi.anillo.sint he.comprobador ha⟩
  | monitor =>
    simp only [next, Option.map_eq_some_iff] at h
    obtain ⟨a, ha, rfl⟩ := h
    exact ⟨he.mandados, he.cola, he.registrador,
      Anillo.invComprobador_pasoMonitor he.comprobador ha⟩

theorem invExtremos_inicial (h : Inicial pid s) :
    InvExtremos s ∧ s.extremoEscritura = tieneExtremo s.pc := by
  obtain ⟨bloque, mq, mon, hanillo⟩ := h.anillo
  refine ⟨⟨?_, ?_, ?_, ?_⟩, ?_⟩
  · simp [InvMandados, h.pc, h.mandados]
  · simp [h.cola]
  · simp [h.pcRegistrador]
  · simp [hanillo, Anillo.InvComprobador, Anillo.inicial]
  · rw [h.extremoEscritura, h.pc]
    rfl

/-- A Registrador that has exited has logged everything, if the miner has nothing to write. -/
theorem registro_of_salido (hi : Inv s) (he : InvExtremos s) (hsal : s.pcRegistrador = .salido) :
    s.minados = s.registro.map Prod.fst ++ porEscribir s := by
  rw [hi.canales.registro, porAnotar, hsal, (he.registrador hsal).1, List.append_nil,
    List.append_nil]

/-! ### The work of miner and Registrador -/

/-- Steps of the miner that are left after the signal; a `write` also gives work to the
Registrador. -/
def porHacer : PcMinero → ℕ
  | .mina => 12
  | .escribe => 11
  | .consulta => 8
  | .envia => 7
  | .traspasa => 6
  | .bucle => 5
  | .consultaFin => 4
  | .enviaFin => 3
  | .cierra => 2
  | .espera => 1
  | .salido => 0

/-- Messages the miner may still send after the signal. -/
def porMandar : PcMinero → ℕ
  | .mina | .escribe | .consulta | .envia => 2
  | .traspasa | .bucle | .consultaFin | .enviaFin => 1
  | .cierra | .espera | .salido => 0

/-- Steps of the Registrador that are left, with the blocks in the pipe. -/
def porRegistrar (s : Sistema) : ℕ :=
  2 * s.tuberia.length +
    match s.pcRegistrador with
    | .anota => 2
    | .lee => 1
    | .salido => 0

/-- The messages sent are those received and those in the queue. -/
theorem recibidos_add_cola (hi : Inv s) :
    Anillo.recibidos s.anillo + s.cola.length = s.mandados.length := by
  have hlen := congrArg List.length hi.canales.flujo
  simpa [Anillo.recibidos, Nat.add_assoc] using hlen

/-- A step of the miner is a step nearer to its end, and it does not send more than it might. -/
theorem medida_pasoMinero {v : ℤ} (hflag : s.sint = true ∨ s.salarm = true)
    (h : pasoMinero pid v s = some t) :
    porHacer t.pc + porRegistrar t < porHacer s.pc + porRegistrar s ∧
      t.mandados.length + porMandar t.pc ≤ s.mandados.length + porMandar s.pc := by
  match hpc : s.pc with
  | .salido => simp [pasoMinero, hpc] at h
  | .bucle =>
    have hfuera : ¬ (s.sint ≠ true ∧ s.salarm ≠ true) := by
      rintro ⟨h₁, h₂⟩
      exact hflag.elim h₁ h₂
    simp only [pasoMinero, hpc, if_neg hfuera] at h
    cases h
    simp [porHacer, porRegistrar, porMandar]
  | .mina | .traspasa | .cierra =>
    simp only [pasoMinero, hpc] at h
    cases h
    simp [porHacer, porRegistrar, porMandar]
  | .escribe =>
    simp only [pasoMinero, hpc] at h
    cases h
    -- the block is now in the pipe
    simp [porHacer, porRegistrar, porMandar]
    omega
  | .consulta | .consultaFin =>
    simp only [pasoMinero, hpc] at h
    cases h
    split <;> simp [porHacer, porRegistrar, porMandar]
  | .envia | .enviaFin | .espera =>
    simp only [pasoMinero, hpc] at h
    split at h <;> cases h
    simp [porHacer, porRegistrar, porMandar]

theorem porRegistrar_pasoRegistrador (h : pasoRegistrador s = some t) :
    porRegistrar t < porRegistrar s := by
  cases hpc : s.pcRegistrador with
  | salido => simp [pasoRegistrador, hpc] at h
  | anota =>
    simp only [pasoRegistrador, hpc] at h
    cases h
    simp [porRegistrar, hpc]
  | lee =>
    cases htub : s.tuberia with
    | cons b resto =>
      simp only [pasoRegistrador, hpc, htub] at h
      cases h
      simp only [porRegistrar, hpc, htub, List.length_cons]
      omega
    | nil =>
      simp only [pasoRegistrador, hpc, htub] at h
      split at h <;> cases h
      simp [porRegistrar, hpc, htub]

/-- No process clears a flag of the miner. -/
theorem senales_next {a : Turno} (h : next pid s a = some t) :
    (s.sint = true → t.sint = true) ∧ (s.salarm = true → t.salarm = true) := by
  cases a with
  | minero v =>
    rw [frame_pasoMinero h]
    exact ⟨id, id⟩
  | sigint =>
    cases h
    exact ⟨fun _ => rfl, id⟩
  | sigalrm =>
    cases h
    exact ⟨id, fun _ => rfl⟩
  | registrador =>
    rw [frame_pasoRegistrador h]
    exact ⟨id, id⟩
  | recibe =>
    simp only [next] at h
    split at h
    · obtain ⟨a, -, rfl⟩ := Option.map_eq_some_iff.mp h
      exact ⟨id, id⟩
    · cases h
  | comprobador | monitor =>
    obtain ⟨a, -, rfl⟩ := Option.map_eq_some_iff.mp h
    exact ⟨id, id⟩

/-- **A step of the other processes** is a signal, or uses up some of their work and leaves the
miner alone. -/
theorem trabajo_next {a : Turno} {K : ℕ} (ha : ∀ v, a ≠ .minero v) (hi : Inv s)
    (hring : BoundedBuffer.Inv BUFFER_SIZE (Anillo.buffer s.anillo))
    (hK : Anillo.recibidos s.anillo + s.cola.length ≤ K) (h : next pid s a = some t) :
    a = .sigint ∧ t = { s with sint := true } ∨ a = .sigalrm ∧ t = { s with salarm := true } ∨
      t.pc = s.pc ∧ t.mandados = s.mandados ∧ t.sint = s.sint ∧ t.salarm = s.salarm ∧
        porRegistrar t + Anillo.trabajo K t.anillo <
          porRegistrar s + Anillo.trabajo K s.anillo := by
  have hrec : Anillo.recibidos s.anillo ≤ K := (Nat.le_add_right _ _).trans hK
  cases a with
  | minero v => exact absurd rfl (ha v)
  | sigint =>
    cases h
    exact Or.inl ⟨rfl, rfl⟩
  | sigalrm =>
    cases h
    exact Or.inr (Or.inl ⟨rfl, rfl⟩)
  | registrador =>
    have hless := porRegistrar_pasoRegistrador h
    have hframe : t.pc = s.pc ∧ t.mandados = s.mandados ∧ t.sint = s.sint ∧
        t.salarm = s.salarm := by
      rw [frame_pasoRegistrador h]
      exact ⟨rfl, rfl, rfl, rfl⟩
    obtain ⟨hpc, hman, hsint, hsalarm⟩ := hframe
    rw [anillo_pasoRegistrador h]
    exact Or.inr (Or.inr ⟨hpc, hman, hsint, hsalarm, Nat.add_lt_add_right hless _⟩)
  | recibe =>
    cases hcola : s.cola with
    | nil => simp [next, hcola] at h
    | cons b resto =>
      simp only [next, hcola, Option.map_eq_some_iff] at h
      obtain ⟨a, ha, rfl⟩ := h
      have hlt : Anillo.recibidos s.anillo < K := by
        rw [hcola, List.length_cons] at hK
        omega
      exact Or.inr (Or.inr ⟨rfl, rfl, rfl, rfl,
        Nat.add_lt_add_left (Anillo.trabajo_llega ha hlt) _⟩)
  | comprobador =>
    obtain ⟨a, ha, rfl⟩ := Option.map_eq_some_iff.mp h
    exact Or.inr (Or.inr ⟨rfl, rfl, rfl, rfl,
      Nat.add_lt_add_left (Anillo.trabajo_pasoComprobador hring ha hrec) _⟩)
  | monitor =>
    obtain ⟨a, ha, rfl⟩ := Option.map_eq_some_iff.mp h
    exact Or.inr (Or.inr ⟨rfl, rfl, rfl, rfl,
      Nat.add_lt_add_left (Anillo.trabajo_pasoMonitor hi.anillo.impresion hring ha hrec) _⟩)

/-! ### Where they stop -/

/-- Where the miner cannot move, it has exited or waits for the Registrador. -/
theorem pasoMinero_eq_none (hi : Inv s) (h : pasoMinero pid (-1) s = none) :
    s.pc = .salido ∨ s.pc = .espera ∧ s.pcRegistrador ≠ .salido := by
  match hpc : s.pc with
  | .salido => exact Or.inl rfl
  | .bucle | .mina | .escribe | .consulta | .traspasa | .consultaFin | .cierra =>
    simp [pasoMinero, hpc] at h
  | .envia | .enviaFin =>
    have hroom := hi.canales.hueco (by simp [hpc])
    simp [pasoMinero, hpc, hroom] at h
  | .espera =>
    refine Or.inr ⟨rfl, fun hsal => ?_⟩
    simp [pasoMinero, hpc, hsal] at h

/-- A Registrador that cannot move has exited, or the miner still holds its end of the pipe. -/
theorem pasoRegistrador_eq_none (h : pasoRegistrador s = none) :
    s.pcRegistrador = .salido ∨ s.extremoEscritura = true := by
  cases hpc : s.pcRegistrador with
  | salido => exact Or.inl rfl
  | anota => simp [pasoRegistrador, hpc] at h
  | lee =>
    cases htub : s.tuberia with
    | cons b resto => simp [pasoRegistrador, hpc, htub] at h
    | nil =>
      right
      simpa [pasoRegistrador, hpc, htub] using h

/-- What was added, cleaned of the verdicts, is what was sent and received. -/
theorem limpiar_anadidos (hi : Inv s) (hmano : enMano s.anillo = []) :
    s.anillo.anadidos.map limpiar ++ s.cola = s.mandados := by
  have hflujo := hi.canales.flujo
  rwa [hmano, List.append_nil] at hflujo

end Sistema

namespace Cierre

open Sistema (InvExtremos InvMandados tieneExtremo porHacer porMandar porRegistrar porEscribir)
open Anillo (limpiar enMano)

variable {pid : ℤ} {capacidad : ℕ} {c d : Cierre}

/-! ### Runs with interrupted calls -/

/-- How the processes leave their channels, when the miner may also leave them after a failed
`write`. -/
structure Extremos (c : Cierre) : Prop where
  sistema : Sistema.Inv c.sistema
  extremos : InvExtremos c.sistema
  extremo : c.sistema.extremoEscritura = (tieneExtremo c.sistema.pc && decide (c.fallida = .no))
  fallida : c.fallida ≠ .no → c.sistema.pc = .escribe

/-- A miner that has not failed holds its end of the pipe as long as its place says. -/
theorem Extremos.de_no (h : Extremos c) (hno : c.fallida = .no) :
    c.sistema.extremoEscritura = tieneExtremo c.sistema.pc := by
  rw [h.extremo, hno, decide_eq_true rfl, Bool.and_true]

/-- A miner that has failed has closed its end of the pipe. -/
theorem Extremos.de_fallida (h : Extremos c) (hfallida : c.fallida ≠ .no) :
    c.sistema.extremoEscritura = false := by
  rw [h.extremo, decide_eq_false hfallida, Bool.and_false]

/-- The flags and ends of a system do not enter its invariant. -/
theorem inv_cierraExtremo {s : Sistema} (hi : Sistema.Inv s) :
    Sistema.Inv { s with extremoEscritura := false } :=
  ⟨⟨hi.minero.copia, hi.minero.idActual, hi.minero.limpio, hi.minero.ids, hi.minero.minados,
      hi.minero.bloqueFin⟩,
    ⟨hi.canales.registro, hi.canales.flujo, hi.canales.limpios, hi.canales.envio,
      hi.canales.hueco⟩,
    ⟨hi.anillo.sint, hi.anillo.impresion, hi.anillo.juzgados⟩⟩

/-- A miner that leaves `wait(NULL)` has nothing left to write or to send. -/
theorem inv_salido {s : Sistema} (hi : Sistema.Inv s) (hpc : s.pc = .espera) :
    Sistema.Inv { s with pc := .salido } := by
  obtain ⟨hm, ⟨hreg, hflujo, hlim, ⟨hechos, hmin, hsub⟩, -⟩, ha⟩ := hi
  simp only [porEscribir, Sistema.porEnviar, hpc] at hreg hmin
  exact ⟨.of_fuera rfl rfl hm.ids hm.minados hm.bloqueFin,
    ⟨hreg, hflujo, hlim, ⟨hechos, hmin, hsub⟩, by simp⟩, ⟨ha.sint, ha.impresion, ha.juzgados⟩⟩

/-- **What a step can do**: a process goes on, the miner only if it has not failed, or a flag is
set; a signal cuts a blocked `write` or the last `wait(NULL)` short; or a miner that has failed
exits. -/
theorem next_cases {a : PasoCierre} (h : next pid capacidad c a = some d) :
    (∃ b, a = .turno b ∧ Sistema.next pid c.sistema b = some d.sistema ∧ d.fallida = c.fallida ∧
        ∀ v, b = .minero v → c.fallida = .no) ∨
      c.fallida = .no ∧ BloqueadoEnWrite capacidad c ∧
        d = ⟨{ c.sistema with extremoEscritura := false }, .espera⟩ ∨
      c.fallida = .no ∧ c.sistema.pc = .espera ∧ d = ⟨{ c.sistema with pc := .salido }, .no⟩ ∨
      c.fallida = .espera ∧ d = ⟨c.sistema, .salido⟩ := by
  cases a with
  | interrumpe =>
    simp only [next, interrumpido] at h
    split at h
    · rename_i hno
      split at h
      · rename_i hblock
        cases h
        exact Or.inr (Or.inl ⟨hno, hblock, rfl⟩)
      · split at h <;> cases h
        rename_i hespera
        exact Or.inr (Or.inr (Or.inl ⟨hno, hespera.1, by rw [hno]⟩))
    · rename_i hespera
      split at h <;> cases h
      exact Or.inr (Or.inr (Or.inr ⟨hespera, rfl⟩))
    · cases h
  | turno a =>
    by_cases ha : ∃ v, a = .minero v
    · obtain ⟨v, rfl⟩ := ha
      simp only [next, pasoMinero] at h
      split at h
      · rename_i hno
        split at h
        · cases h
        · obtain ⟨s, hs, rfl⟩ := Option.map_eq_some_iff.mp h
          exact Or.inl ⟨.minero v, rfl, hs, rfl, fun _ _ => hno⟩
      · rename_i hespera
        split at h <;> cases h
        exact Or.inr (Or.inr (Or.inr ⟨hespera, rfl⟩))
      · cases h
    · rw [not_exists] at ha
      rw [next_turno ha] at h
      obtain ⟨s, hs, rfl⟩ := Option.map_eq_some_iff.mp h
      exact Or.inl ⟨a, rfl, hs, rfl, fun v hv => absurd hv (ha v)⟩

/-- **Step lemma.** -/
theorem extremos_next {a : PasoCierre} (h : Extremos c) (hn : next pid capacidad c a = some d) :
    Extremos d := by
  rcases next_cases hn with ⟨b, rfl, hs, hfallida, hminero⟩ | ⟨-, hblock, rfl⟩ |
    ⟨hno, hespera, rfl⟩ | ⟨hfallida, rfl⟩
  · have hextremos := Sistema.invExtremos_next h.sistema h.extremos
      (fun v hv => h.de_no (hminero v hv)) hs
    by_cases hb : ∃ v, b = .minero v
    · obtain ⟨v, rfl⟩ := hb
      have hno : d.fallida = .no := hfallida.trans (hminero v rfl)
      refine ⟨Sistema.inv_next h.sistema hs, hextremos, ?_, fun hne => absurd hno hne⟩
      rw [hno, decide_eq_true rfl, Bool.and_true]
      exact Sistema.extremo_pasoMinero (h.de_no (hminero v rfl)) hs
    · have hframe : d.sistema.pc = c.sistema.pc ∧
          d.sistema.extremoEscritura = c.sistema.extremoEscritura := by
        rw [Sistema.frame_next (not_exists.mp hb) hs]
        exact ⟨rfl, rfl⟩
      obtain ⟨hpc, hext⟩ := hframe
      refine ⟨Sistema.inv_next h.sistema hs, hextremos, ?_, fun hne => ?_⟩
      · rw [hext, hpc, hfallida, h.extremo]
      · exact hpc.trans (h.fallida (hfallida ▸ hne))
  · refine ⟨inv_cierraExtremo h.sistema, ⟨h.extremos.mandados, h.extremos.cola,
      fun hsal => ⟨(h.extremos.registrador hsal).1, rfl⟩, h.extremos.comprobador⟩, ?_,
      fun _ => hblock.1⟩
    rw [decide_eq_false nofun, Bool.and_false]
  · have hext := h.de_no hno
    have hman := h.extremos.mandados
    rw [hespera] at hext
    simp only [InvMandados, hespera] at hman
    exact ⟨inv_salido h.sistema hespera,
      ⟨hman, h.extremos.cola, h.extremos.registrador, h.extremos.comprobador⟩, hext,
      fun hne => absurd rfl hne⟩
  · have hne : c.fallida ≠ .no := by rw [hfallida]; nofun
    refine ⟨h.sistema, h.extremos, ?_, fun _ => h.fallida hne⟩
    rw [h.de_fallida hne, decide_eq_false nofun, Bool.and_false]

/-- **Run lemma.** -/
theorem extremos_reachable (h : (procesos pid capacidad).Reachable c) : Extremos c := by
  refine h.induct ?_ fun _ _ _ hs hn => extremos_next hs hn
  rintro c ⟨hini, hfallida⟩
  obtain ⟨he, hext⟩ := Sistema.invExtremos_inicial hini
  refine ⟨Sistema.inv_inicial hini, he, ?_, fun hne => absurd hfallida hne⟩
  rw [hext, decide_eq_true hfallida, Bool.and_true]

/-- A step of the processes is a step of the ring without SIGINT, or leaves the ring alone. -/
theorem anillo_next {a : PasoCierre} (hn : next pid capacidad c a = some d) :
    d.sistema.anillo = c.sistema.anillo ∨
      ∃ e, Anillo.SinEsperaInterrumpida c.sistema.anillo e ∧
        Anillo.next c.sistema.anillo e = some d.sistema.anillo := by
  rcases next_cases hn with ⟨b, -, hs, -⟩ | ⟨-, -, rfl⟩ | ⟨-, -, rfl⟩ | ⟨-, rfl⟩
  · exact Sistema.anillo_next hs
  · exact Or.inl rfl
  · exact Or.inl rfl
  · exact Or.inl rfl

/-- The ring keeps the invariant of the bounded buffer. -/
theorem ring_reachable (h : (procesos pid capacidad).Reachable c) :
    BoundedBuffer.Inv BUFFER_SIZE (Anillo.buffer c.sistema.anillo) := by
  have hreach : Anillo.sistema.ReachableBy Anillo.SinEsperaInterrumpida c.sistema.anillo :=
    h.map (f := fun c => c.sistema.anillo) (fun _ hs => hs.1.anillo) fun _ _ _ _ _ hn =>
      anillo_next hn
  exact Anillo.inv_buffer hreach

/-! ### The processes after the signal -/

/-- A signal has reached the miner. -/
def Senalado (c : Cierre) : Prop :=
  c.sistema.sint = true ∨ c.sistema.salarm = true ∨ c.fallida ≠ .no

/-- The processes from any reachable state after the signal. A signal whose flag is set already
does nothing but cut a blocked call short, which is a step of its own. -/
def trasSenal (pid : ℤ) (capacidad : ℕ) : System Cierre PasoCierre where
  Init c := (procesos pid capacidad).Reachable c ∧ Senalado c
  next c
    | .turno .sigint =>
      if c.sistema.sint = true then none else next pid capacidad c (.turno .sigint)
    | .turno .sigalrm =>
      if c.sistema.salarm = true then none else next pid capacidad c (.turno .sigalrm)
    | a => next pid capacidad c a

/-- The steps of the processes; the signals come when they like. -/
def Propio : PasoCierre → Prop
  | .turno .sigint | .turno .sigalrm | .interrumpe => False
  | .turno (.minero _) | .turno .registrador | .turno .recibe | .turno .comprobador
  | .turno .monitor => True

/-- A step after the signal is a step of the processes, and a signal sets a new flag. -/
theorem next_of_trasSenal {a : PasoCierre} (hn : (trasSenal pid capacidad).next c a = some d) :
    next pid capacidad c a = some d ∧ (a = .turno .sigint → c.sistema.sint = false) ∧
      (a = .turno .sigalrm → c.sistema.salarm = false) := by
  cases a with
  | interrumpe => exact ⟨hn, nofun, nofun⟩
  | turno a =>
    cases a with
    | sigint =>
      simp only [trasSenal] at hn
      split at hn
      · cases hn
      · rename_i hsint
        exact ⟨hn, fun _ => Bool.eq_false_iff.mpr hsint, nofun⟩
    | sigalrm =>
      simp only [trasSenal] at hn
      split at hn
      · cases hn
      · rename_i hsalarm
        exact ⟨hn, nofun, fun _ => Bool.eq_false_iff.mpr hsalarm⟩
    | minero _ | registrador | recibe | comprobador | monitor => exact ⟨hn, nofun, nofun⟩

theorem senalado_next {a : PasoCierre} (h : Senalado c) (hn : next pid capacidad c a = some d) :
    Senalado d := by
  rcases next_cases hn with ⟨b, -, hs, hfallida, -⟩ | ⟨-, -, rfl⟩ | ⟨hno, -, rfl⟩ | ⟨-, rfl⟩
  · obtain ⟨hsint, hsalarm⟩ := Sistema.senales_next hs
    rw [Senalado, hfallida]
    exact h.imp hsint (Or.imp hsalarm id)
  · exact Or.inr (Or.inr nofun)
  · exact h.imp_right (Or.imp_right fun hne => absurd hno hne)
  · exact Or.inr (Or.inr nofun)

theorem reachable_of_trasSenal (h : (trasSenal pid capacidad).Reachable c) :
    (procesos pid capacidad).Reachable c ∧ Senalado c := by
  refine h.induct (I := fun c => (procesos pid capacidad).Reachable c ∧ Senalado c)
    (fun _ hs => hs) ?_
  rintro c a d ⟨hc, hsen⟩ hn
  have hstep := (next_of_trasSenal hn).1
  exact ⟨hc.step hstep, senalado_next hsen hstep⟩

/-! ### No run goes on for ever -/

/-- Steps of the miner that are left after the signal. -/
def porSalir (c : Cierre) : ℕ :=
  match c.fallida with
  | .no => porHacer c.sistema.pc
  | .espera => 1
  | .salido => 0

/-- Messages sent by the end, at most. -/
def mensajes (c : Cierre) : ℕ :=
  c.sistema.mandados.length +
    match c.fallida with
    | .no => porMandar c.sistema.pc
    | .espera | .salido => 0

/-- Flags still to be set. -/
def porSenalar (c : Cierre) : ℕ := (!c.sistema.sint).toNat + (!c.sistema.salarm).toNat

/-- Steps that are left after the signal, at most. -/
def medida (c : Cierre) : ℕ :=
  porSalir c + porRegistrar c.sistema + Anillo.trabajo (mensajes c) c.sistema.anillo + porSenalar c

/-- What the miner does not send, the comprobador does not receive. -/
theorem trabajo_le (hanillo : d.sistema.anillo = c.sistema.anillo)
    (hmen : mensajes d ≤ mensajes c) : Anillo.trabajo (mensajes d) d.sistema.anillo ≤
      Anillo.trabajo (mensajes c) c.sistema.anillo := by
  rw [hanillo]
  exact Anillo.trabajo_mono hmen

/-- A step of the miner is a step nearer to its end. -/
theorem medida_minero {v : ℤ} {s : Sistema} (hno : c.fallida = .no) (hsen : Senalado c)
    (hs : Sistema.pasoMinero pid v c.sistema = some s) : medida ⟨s, .no⟩ < medida c := by
  have hflag : c.sistema.sint = true ∨ c.sistema.salarm = true := by
    rcases hsen with h | h | h
    · exact Or.inl h
    · exact Or.inr h
    · exact absurd hno h
  obtain ⟨hless, hmen⟩ := Sistema.medida_pasoMinero hflag hs
  have hsenales : s.sint = c.sistema.sint ∧ s.salarm = c.sistema.salarm := by
    rw [Sistema.frame_pasoMinero hs]
    exact ⟨rfl, rfl⟩
  obtain ⟨hsint, hsalarm⟩ := hsenales
  have hwork := trabajo_le (c := c) (d := ⟨s, .no⟩) (Sistema.anillo_pasoMinero hs)
    (by simpa only [mensajes, hno] using hmen)
  simp only [medida, porSalir, porSenalar, hno, hsint, hsalarm] at hwork ⊢
  omega

/-- A signal that sets a new flag, or a step of another process, is a step nearer to the end. -/
theorem medida_otro {b : Turno} {s : Sistema} (hc : (procesos pid capacidad).Reachable c)
    (hb : ∀ v, b ≠ .minero v) (hsint : b = .sigint → c.sistema.sint = false)
    (hsalarm : b = .sigalrm → c.sistema.salarm = false)
    (hs : Sistema.next pid c.sistema b = some s) :
    medida { c with sistema := s } < medida c := by
  have hinv := (extremos_reachable hc).sistema
  have hle : Anillo.recibidos c.sistema.anillo + c.sistema.cola.length ≤ mensajes c :=
    (Sistema.recibidos_add_cola hinv).trans_le (Nat.le_add_right _ _)
  rcases Sistema.trabajo_next hb hinv (ring_reachable hc) hle hs with
    ⟨rfl, rfl⟩ | ⟨rfl, rfl⟩ | ⟨hpc, hman, hsint', hsalarm', hless⟩
  · have hflag := hsint rfl
    simp only [medida, porSalir, mensajes, porSenalar, porRegistrar, hflag, Bool.not_true,
      Bool.not_false, Bool.toNat_true, Bool.toNat_false]
    omega
  · have hflag := hsalarm rfl
    simp only [medida, porSalir, mensajes, porSenalar, porRegistrar, hflag, Bool.not_true,
      Bool.not_false, Bool.toNat_true, Bool.toNat_false]
    omega
  · have hmen : mensajes { c with sistema := s } = mensajes c := by
      simp only [mensajes, hpc, hman]
    simp only [medida, porSalir, porSenalar, hmen, hpc, hsint', hsalarm']
    omega

/-- **Every step is a step nearer to the end.** -/
theorem medida_next {a : PasoCierre} (hc : (procesos pid capacidad).Reachable c)
    (hsen : Senalado c) (hn : (trasSenal pid capacidad).next c a = some d) :
    medida d < medida c := by
  obtain ⟨hstep, hsint, hsalarm⟩ := next_of_trasSenal hn
  rcases next_cases hstep with ⟨b, rfl, hs, hfallida, hminero⟩ | ⟨hno, hblock, rfl⟩ |
    ⟨hno, hespera, rfl⟩ | ⟨hfallida, rfl⟩
  · obtain ⟨s, f⟩ := d
    obtain rfl : f = c.fallida := hfallida
    by_cases hb : ∃ v, b = .minero v
    · obtain ⟨v, rfl⟩ := hb
      have hno := hminero v rfl
      rw [hno]
      exact medida_minero hno hsen hs
    · exact medida_otro hc (not_exists.mp hb) (fun h => hsint (congrArg _ h))
        (fun h => hsalarm (congrArg _ h)) hs
  · -- the miner sends nothing more
    have hwork := trabajo_le (c := c)
      (d := ⟨{ c.sistema with extremoEscritura := false }, .espera⟩) rfl (by simp [mensajes])
    simp only [medida, porSalir, porSenalar, hno, hblock.1, porHacer] at hwork ⊢
    simp only [porRegistrar]
    omega
  · have hwork := trabajo_le (c := c) (d := ⟨{ c.sistema with pc := .salido }, .no⟩) rfl
      (by simp [mensajes, porMandar])
    simp only [medida, porSalir, porSenalar, hno, hespera, porHacer] at hwork ⊢
    simp only [porRegistrar]
    omega
  · simp only [medida, porSalir, mensajes, porSenalar, hfallida]
    omega

/-! ### Where it ends -/

/-- How the miner has ended. -/
inductive FinMinero (c : Cierre) : Prop
  /-- It has exited with every block in the log. -/
  | salido (hfallida : c.fallida = .no) (hpc : c.sistema.pc = .salido)
      (hregistro : c.sistema.registro.map Prod.fst = c.sistema.minados)
  /-- A signal has cut a `write` short: it has exited with `EXIT_FAILURE`, and every block but
  this one is in the log. -/
  | fallido (hfallida : c.fallida = .salido)
      (hregistro : c.sistema.registro.map Prod.fst ++ [c.sistema.auxiliar] = c.sistema.minados)

/-- The end of the four processes after the signal. -/
structure Cerrado (c : Cierre) : Prop where
  minero : FinMinero c
  registrador : c.sistema.pcRegistrador = .salido
  cola : c.sistema.cola = []
  /-- The monitor has printed every block sent. -/
  impresos : c.sistema.anillo.impresos.map limpiar = c.sistema.mandados.filter fun b => !b.fin
  /-- The finishing block was sent and met. Or it was not sent, because the queue was full when
  the miner looked or because the miner has failed, and comprobador and monitor wait for ever. -/
  final : (c.sistema.bloqueFin ∈ c.sistema.mandados ∧ c.sistema.anillo.pc = .salido 0 ∧
      c.sistema.anillo.pcMonitor = .salido) ∨
    ((c.sistema.mqCurmsgs = MAX_MSG ∨ c.fallida = .salido) ∧
      (∀ b ∈ c.sistema.mandados, b.fin = false) ∧ c.sistema.anillo.pc = .recibe ∧
      c.sistema.anillo.pcMonitor = .esperaFill)

/-- **Miner and Registrador do not wait for each other**: where neither of them can move, the
Registrador has emptied the pipe and exited, and so has the miner. -/
theorem salidos_of_parados (hcap : 0 < capacidad) (h : Extremos c)
    (hmin : pasoMinero pid (-1) capacidad c = none)
    (hreg : Sistema.pasoRegistrador c.sistema = none) :
    c.sistema.pcRegistrador = .salido ∧
      (c.fallida = .no ∧ c.sistema.pc = .salido ∨ c.fallida = .salido) := by
  have hparado := Sistema.pasoRegistrador_eq_none hreg
  cases hfallida : c.fallida with
  | no =>
    have hext := h.de_no hfallida
    simp only [pasoMinero, hfallida] at hmin
    split at hmin
    · -- the pipe is full, so the Registrador can read
      rename_i hblock
      have hne : c.sistema.tuberia ≠ [] := by
        intro htub
        have hle := hblock.2
        rw [htub, List.length_nil] at hle
        exact absurd hcap (not_lt.mpr hle)
      have hvivo : c.sistema.pcRegistrador ≠ .salido := fun hsal =>
        hne (h.extremos.registrador hsal).1
      cases hpc : c.sistema.pcRegistrador with
      | salido => exact absurd hpc hvivo
      | anota => simp [Sistema.pasoRegistrador, hpc] at hreg
      | lee =>
        obtain ⟨b, resto, htub⟩ := List.exists_cons_of_ne_nil hne
        simp [Sistema.pasoRegistrador, hpc, htub] at hreg
    · rw [Option.map_eq_none_iff] at hmin
      rcases Sistema.pasoMinero_eq_none h.sistema hmin with hpc | ⟨hpc, -⟩ <;>
        rw [hpc] at hext
      · have hsal := hparado.resolve_right (by rw [hext]; exact Bool.false_ne_true)
        exact ⟨hsal, Or.inl ⟨rfl, hpc⟩⟩
      · -- the miner has closed its end before it waits
        have hsal := hparado.resolve_right (by rw [hext]; exact Bool.false_ne_true)
        simp [Sistema.pasoMinero, hpc, hsal] at hmin
  | espera =>
    have hextremo := h.de_fallida (by rw [hfallida]; decide)
    have hsal := hparado.resolve_right (by rw [hextremo]; exact Bool.false_ne_true)
    simp [pasoMinero, hfallida, HijoVivo, hsal] at hmin
  | salido =>
    have hextremo := h.de_fallida (by rw [hfallida]; decide)
    exact ⟨hparado.resolve_right (by rw [hextremo]; exact Bool.false_ne_true), Or.inr rfl⟩

/-- What was sent by a miner that has ended. -/
theorem mandados_of_salido (h : Extremos c)
    (hsal : c.fallida = .no ∧ c.sistema.pc = .salido ∨ c.fallida = .salido) :
    ∃ l, (∀ b ∈ l, b.fin = false) ∧
      (c.sistema.mandados = l ∧ (c.sistema.mqCurmsgs = MAX_MSG ∨ c.fallida = .salido) ∨
        c.sistema.mandados = l ++ [c.sistema.bloqueFin]) := by
  have hman := h.extremos.mandados
  rcases hsal with ⟨-, hpc⟩ | hfallida
  · simp only [InvMandados, hpc] at hman
    obtain ⟨l, hl, ⟨hmandados, hfull⟩ | hmandados⟩ := hman
    · exact ⟨l, hl, Or.inl ⟨hmandados, Or.inl hfull⟩⟩
    · exact ⟨l, hl, Or.inr hmandados⟩
  · have hpc := h.fallida (by rw [hfallida]; nofun)
    simp only [InvMandados, hpc] at hman
    exact ⟨c.sistema.mandados, hman, Or.inl ⟨rfl, Or.inr hfallida⟩⟩

/-- Where comprobador and monitor have exited, they have met the finishing block of the miner. -/
theorem cerrado_of_terminados {l : List Bloque} (h : Extremos c) (hl : ∀ b ∈ l, b.fin = false)
    (hmandados : c.sistema.mandados = l ∨ c.sistema.mandados = l ++ [c.sistema.bloqueFin])
    (ht : Anillo.Terminados c.sistema.anillo) :
    c.sistema.cola = [] ∧
      (c.sistema.anillo.impresos.map limpiar = c.sistema.mandados.filter fun b => !b.fin) ∧
      c.sistema.bloqueFin ∈ c.sistema.mandados := by
  have hi := h.sistema
  obtain ⟨b, hanad, hfin⟩ := ht.impresos
  have hlimpio : (limpiar b).fin = true := hfin
  have hflujo := Sistema.limpiar_anadidos hi (by simp [enMano, ht.comprobador])
  rw [hanad, List.map_append, List.map_singleton] at hflujo
  have hnofin : ∀ c' ∈ c.sistema.anillo.impresos.map limpiar, c'.fin = false := by
    intro c' hc
    obtain ⟨d, hd, rfl⟩ := List.mem_map.mp hc
    exact hi.anillo.impresion.sinFin d hd
  rcases hmandados with hmandados | hmandados
  · -- a finishing block was met, so one was sent
    have hmem : limpiar b ∈ l := by
      rw [← hmandados, ← hflujo]
      simp
    rw [hl _ hmem] at hlimpio
    cases hlimpio
  · have hantes : c.sistema.anillo.impresos.map limpiar = l := by
      rw [← EndMarker.before_eq (p := Bloque.fin) (hflujo ▸ List.prefix_append _ _) hnofin hlimpio,
        hmandados,
        EndMarker.before_eq (p := Bloque.fin) List.prefix_rfl hl hi.minero.bloqueFin.1]
    rw [hantes, hmandados] at hflujo
    have hlen := congrArg List.length hflujo
    simp only [List.length_append, List.length_singleton] at hlen
    refine ⟨List.eq_nil_of_length_eq_zero (by omega), ?_, by simp [hmandados]⟩
    have hself : (l.filter fun b => !b.fin) = l :=
      List.filter_eq_self.mpr fun c hc => by simp [hl c hc]
    rw [hantes, hmandados, List.filter_append, hself]
    simp [hi.minero.bloqueFin.1]

/-- **Where the processes cannot go on**, they have come to their end. -/
theorem cerrado_of_parados (hcap : 0 < capacidad) (hc : (procesos pid capacidad).Reachable c)
    (hparados : ∀ a, Propio a → (trasSenal pid capacidad).next c a = none) : Cerrado c := by
  have h := extremos_reachable hc
  have hi := h.sistema
  have hring := ring_reachable hc
  obtain ⟨hreg, hsal⟩ := salidos_of_parados hcap h (hparados (.turno (.minero (-1))) trivial)
    (Option.map_eq_none_iff.mp (hparados (.turno .registrador) trivial))
  have hregistro := Sistema.registro_of_salido hi h.extremos hreg
  have hminero : FinMinero c := by
    rcases hsal with ⟨hno, hpc⟩ | hfallida
    · refine .salido hno hpc ?_
      rw [hregistro, porEscribir, hpc, List.append_nil]
    · refine .fallido hfallida ?_
      rw [hregistro, porEscribir, h.fallida (by rw [hfallida]; decide)]
  obtain ⟨l, hl, hmandados⟩ := mandados_of_salido h hsal
  have hcomp : Anillo.pasoComprobador c.sistema.anillo = none :=
    Option.map_eq_none_iff.mp (Option.map_eq_none_iff.mp (hparados (.turno .comprobador) trivial))
  have hmon : Anillo.pasoMonitor c.sistema.anillo = none :=
    Option.map_eq_none_iff.mp (Option.map_eq_none_iff.mp (hparados (.turno .monitor) trivial))
  rcases Anillo.reposo_of_parados h.extremos.comprobador hi.anillo.impresion hring hcomp hmon with
    ht | hw
  · obtain ⟨hcola, himp, hfin⟩ :=
      cerrado_of_terminados h hl (hmandados.imp_left And.left) ht
    exact ⟨hminero, hreg, hcola, himp, Or.inl ⟨hfin, ht.comprobador, ht.monitor⟩⟩
  · -- the comprobador could receive a message
    have hcola : c.sistema.cola = [] := by
      have hrecibe := Option.map_eq_none_iff.mp (hparados (.turno .recibe) trivial)
      cases hcola : c.sistema.cola with
      | nil => rfl
      | cons b resto =>
        simp [Sistema.next, hcola, Anillo.next, hw.comprobador] at hrecibe
    have hflujo := Sistema.limpiar_anadidos hi (by simp [enMano, hw.comprobador])
    rw [hcola, List.append_nil] at hflujo
    have hnofin : ∀ b ∈ c.sistema.mandados, b.fin = false := by
      intro b hb
      rw [← hflujo] at hb
      obtain ⟨c, hc, rfl⟩ := List.mem_map.mp hb
      exact hw.sinFin c hc
    have hpor : c.sistema.mqCurmsgs = MAX_MSG ∨ c.fallida = .salido := by
      rcases hmandados with ⟨-, hpor⟩ | hmandados
      · exact hpor
      · have hno := hnofin c.sistema.bloqueFin (by simp [hmandados])
        rw [hi.minero.bloqueFin.1] at hno
        cases hno
    refine ⟨hminero, hreg, hcola, ?_, Or.inr ⟨hpor, hnofin, hw.comprobador, hw.monitor⟩⟩
    rw [← hw.impresos, hflujo]
    exact (List.filter_eq_self.mpr fun b hb => by simp [hnofin b hb]).symm

/-- **After the signal** no run goes on for ever, whatever signals follow; and where the processes
cannot go on, everything written to the pipe is logged, everything sent is printed, and who waits
for ever does so because the finishing block was not sent. -/
theorem termina_trasSenal (pid : ℤ) (hcap : 0 < capacidad) :
    (trasSenal pid capacidad).EnsuresBy Propio Cerrado := by
  refine System.ensuresBy_of_measure medida (fun c a d hc hn => ?_) fun c hc hparados => ?_
  · obtain ⟨hreach, hsen⟩ := reachable_of_trasSenal hc
    exact medida_next hreach hsen hn
  · exact cerrado_of_parados hcap (reachable_of_trasSenal hc).1 hparados

/-- An instance: a pipe for one block, and a signal that cuts the second `write` short. -/
theorem termina_trasSenal_un_bloque :
    (∃ c, (trasSenal 1000 1).Init c ∧ c.fallida = .espera ∧ c.sistema.minados.length = 2) ∧
      (trasSenal 1000 1).EnsuresBy Propio Cerrado := by
  refine ⟨?_, termina_trasSenal 1000 Nat.one_pos⟩
  obtain ⟨c, hc, hfacts⟩ : ∃ c, (procesos 1000 1).run (inicio 1000) (minero 8 ++ [.interrumpe]) =
      some c ∧ (c.fallida, c.sistema.minados.length) = (.espera, 2) :=
    Option.map_eq_some_iff.mp (by decide +kernel)
  simp only [Prod.mk.injEq] at hfacts
  refine ⟨c, ⟨System.Reachable.run (.init (init_inicio 1000 1)) hc, ?_⟩, hfacts⟩
  exact Or.inr (Or.inr (by rw [hfacts.1]; nofun))

end Cierre

end Soper.Proyecto
