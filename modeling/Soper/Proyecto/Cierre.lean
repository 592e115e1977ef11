import Soper.Proyecto.Sistema

/-!
# The end of mining

How the miner of the final project comes to its end, and whether the comprobador learns of it.
Over the system of the four processes this module adds what matters at that point: the pipe to
the Registrador has a capacity, `write` blocks where it is full, and the handler of SIGINT or
SIGALRM, installed without `SA_RESTART`, may run while the miner is blocked. A `write` cut short
makes the miner exit with `EXIT_FAILURE`, a `wait(NULL)` cut short ends it early.

The finishing block is sent only if the queue has room at the one `mq_getattr` after the loop. In
runs where it has, and where no blocked `write` is cut short, the comprobador always receives
the end of mining (`finEntregado_reachableBy`). A slow comprobador is enough to break it: with
ten messages in the queue the miner exits with `EXIT_SUCCESS` and without a word
(`not_finEntregado_lleno`).
-/

namespace Soper.Proyecto

/-- How far the exit of the miner after a failed `write` is. -/
inductive SalidaFallida
  /-- No `write` has failed. -/
  | no
  /-- The pipe is closed; `wait(NULL)`. -/
  | espera
  /-- The process has exited with `EXIT_FAILURE`. -/
  | salido
  deriving DecidableEq

/-- The four processes, and the exit of the miner after a failed `write`. -/
structure Cierre where
  sistema : Sistema
  fallida : SalidaFallida

/-- What may happen next. -/
inductive PasoCierre
  /-- A process goes on, or a signal arrives while the miner is not blocked. -/
  | turno (a : Turno)
  /-- A handler runs while the miner is blocked, and the call returns. -/
  | interrumpe

namespace Cierre

/-- The miner is blocked in `write`: the pipe is full. -/
def BloqueadoEnWrite (capacidad : ℕ) (c : Cierre) : Prop :=
  c.sistema.pc = .escribe ∧ capacidad ≤ c.sistema.tuberia.length

/-- A child has not exited yet. -/
def HijoVivo (c : Cierre) : Prop := c.sistema.pcRegistrador ≠ .salido

instance (capacidad : ℕ) (c : Cierre) : Decidable (BloqueadoEnWrite capacidad c) :=
  inferInstanceAs (Decidable (_ ∧ _))

instance (c : Cierre) : Decidable (HijoVivo c) := inferInstanceAs (Decidable (_ ≠ _))

/-- One step of the miner. -/
def pasoMinero (pid v : ℤ) (capacidad : ℕ) (c : Cierre) : Option Cierre :=
  match c.fallida with
  | .no =>
    if BloqueadoEnWrite capacidad c then none
    else (Sistema.pasoMinero pid v c.sistema).map fun s => { c with sistema := s }
  | .espera => if HijoVivo c then none else some { c with fallida := .salido }
  | .salido => none

/-- A handler runs while the miner is blocked. The flag it sets is not tested any more. -/
def interrumpido (capacidad : ℕ) (c : Cierre) : Option Cierre :=
  match c.fallida with
  | .no =>
    if BloqueadoEnWrite capacidad c then
      some { sistema := { c.sistema with extremoEscritura := false }, fallida := .espera }
    else if c.sistema.pc = .espera ∧ HijoVivo c then
      some { c with sistema := { c.sistema with pc := .salido } }
    else none
  | .espera => if HijoVivo c then some { c with fallida := .salido } else none
  | .salido => none

/-- One step. -/
def next (pid : ℤ) (capacidad : ℕ) (c : Cierre) : PasoCierre → Option Cierre
  | .turno (.minero v) => pasoMinero pid v capacidad c
  | .turno a => (Sistema.next pid c.sistema a).map fun s => { c with sistema := s }
  | .interrumpe => interrumpido capacidad c

/-- The four processes with a pipe of the given capacity. -/
def procesos (pid : ℤ) (capacidad : ℕ) : System Cierre PasoCierre where
  Init c := Sistema.Inicial pid c.sistema ∧ c.fallida = .no
  next := next pid capacidad

/-! ### The end of mining -/

/-- The miner has exited. -/
def MineroSalido (c : Cierre) : Prop := c.sistema.pc = .salido ∨ c.fallida = .salido

/-- The comprobador is left behind: the miner has exited without sending a finishing block, and
the comprobador waits at the empty queue. -/
structure Huerfano (c : Cierre) : Prop where
  salido : MineroSalido c
  vacia : c.sistema.cola = []
  sinFin : ∀ b ∈ c.sistema.mandados, b.fin = false
  bloqueado : c.sistema.anillo.pc = .recibe

/-- The end of mining reaches the comprobador: a miner that has exited with `EXIT_SUCCESS` has
sent the finishing block, and the comprobador is never left behind. -/
structure FinEntregado (c : Cierre) : Prop where
  enviado : c.sistema.pc = .salido → c.sistema.bloqueFin ∈ c.sistema.mandados
  noHuerfano : ¬ Huerfano c

/-- At the `mq_getattr` after the loop the queue has room, and no handler runs while the miner is
blocked in `write`. -/
def ConHueco (capacidad : ℕ) (c : Cierre) : PasoCierre → Prop
  | .turno (.minero _) => c.sistema.pc = .consultaFin → c.sistema.cola.length < MAX_MSG
  | .turno _ => True
  | .interrumpe => ¬ BloqueadoEnWrite capacidad c

instance (capacidad : ℕ) (c : Cierre) (a : PasoCierre) : Decidable (ConHueco capacidad c a) :=
  match a with
  | .turno (.minero _) => inferInstanceAs (Decidable (_ → _))
  | .turno .sigint | .turno .sigalrm | .turno .registrador | .turno .recibe
  | .turno .comprobador | .turno .monitor => inferInstanceAs (Decidable True)
  | .interrumpe => inferInstanceAs (Decidable (¬ _))

/-- The miner has passed the `mq_send` of the finishing block. -/
def trasFin : PcMinero → Bool
  | .cierra | .espera | .salido => true
  | _ => false

/-- What such runs keep. -/
structure Inv (c : Cierre) : Prop where
  fallida : c.fallida = .no
  bloqueFin : c.sistema.bloqueFin.fin = true
  enviado : trasFin c.sistema.pc = true → c.sistema.bloqueFin ∈ c.sistema.mandados

variable {pid : ℤ} {capacidad : ℕ} {c d : Cierre} {s t : Sistema}

/-- A step of the miner leaves the finishing block as it is, and passes its `mq_send` only with
the block sent, unless the queue was full at the `mq_getattr` before. -/
theorem enviado_pasoMinero {v : ℤ} (h : Sistema.pasoMinero pid v s = some t)
    (hhueco : s.pc = .consultaFin → s.cola.length < MAX_MSG)
    (henv : trasFin s.pc = true → s.bloqueFin ∈ s.mandados) :
    t.bloqueFin = s.bloqueFin ∧ (trasFin t.pc = true → t.bloqueFin ∈ t.mandados) := by
  match hpc : s.pc with
  | .salido => simp [Sistema.pasoMinero, hpc] at h
  | .bucle | .consulta =>
    simp only [Sistema.pasoMinero, hpc] at h
    cases h
    refine ⟨rfl, fun htras => ?_⟩
    dsimp only at htras
    split at htras <;> cases htras
  | .mina | .escribe | .traspasa =>
    simp only [Sistema.pasoMinero, hpc] at h
    cases h
    exact ⟨rfl, by rintro ⟨⟩⟩
  | .envia =>
    simp only [Sistema.pasoMinero, hpc] at h
    split at h <;> cases h
    exact ⟨rfl, by rintro ⟨⟩⟩
  -- the queue has room, so the finishing block is not skipped
  | .consultaFin =>
    simp only [Sistema.pasoMinero, hpc, hhueco hpc, if_true] at h
    cases h
    exact ⟨rfl, by rintro ⟨⟩⟩
  | .enviaFin =>
    simp only [Sistema.pasoMinero, hpc] at h
    split at h <;> cases h
    exact ⟨rfl, fun _ => by simp⟩
  | .cierra =>
    simp only [Sistema.pasoMinero, hpc] at h
    cases h
    exact ⟨rfl, fun _ => henv (by rw [hpc]; rfl)⟩
  | .espera =>
    simp only [Sistema.pasoMinero, hpc] at h
    split at h <;> cases h
    exact ⟨rfl, fun _ => henv (by rw [hpc]; rfl)⟩

/-- The steps of the other processes are steps of the system. -/
theorem next_turno {a : Turno} (ha : ∀ v, a ≠ .minero v) :
    next pid capacidad c (.turno a) =
      (Sistema.next pid c.sistema a).map fun s => { c with sistema := s } := by
  cases a with
  | minero v => exact absurd rfl (ha v)
  | sigint | sigalrm | registrador | recibe | comprobador | monitor => rfl

/-- **Step lemma.** -/
theorem inv_next {a : PasoCierre} (hi : Inv c) (hok : ConHueco capacidad c a)
    (h : next pid capacidad c a = some d) : Inv d := by
  obtain ⟨hfallida, hfin, henv⟩ := hi
  cases a with
  | turno a =>
    by_cases ha : ∃ v, a = .minero v
    · obtain ⟨v, rfl⟩ := ha
      simp only [next, pasoMinero, hfallida] at h
      split at h
      · cases h
      · obtain ⟨t, ht, rfl⟩ := Option.map_eq_some_iff.mp h
        obtain ⟨hbloque, henv'⟩ := enviado_pasoMinero ht hok henv
        exact ⟨rfl, by rw [hbloque, hfin], henv'⟩
    · rw [not_exists] at ha
      rw [next_turno ha] at h
      obtain ⟨t, ht, rfl⟩ := Option.map_eq_some_iff.mp h
      rw [Sistema.frame_next ha ht]
      exact ⟨hfallida, hfin, henv⟩
  | interrumpe =>
    -- only `wait(NULL)` can be cut short, which comes after the finishing block
    have hlibre : ¬ BloqueadoEnWrite capacidad c := hok
    simp only [next, interrumpido, hfallida, if_neg hlibre] at h
    split at h <;> cases h
    rename_i hespera
    exact ⟨rfl, hfin, fun _ => henv (by rw [hespera.1]; rfl)⟩

/-- **Run lemma.** -/
theorem inv_reachableBy (h : (procesos pid capacidad).ReachableBy (ConHueco capacidad) c) :
    Inv c := by
  refine h.induct ?_ fun _ _ _ hi hok hn => inv_next hi hok hn
  rintro c ⟨hini, hfallida⟩
  obtain ⟨carteras, hfin⟩ := hini.bloqueFin
  refine ⟨hfallida, by rw [hfin]; rfl, fun htras => ?_⟩
  rw [hini.pc] at htras
  cases htras

/-- **The end of mining is delivered** in every run in which the queue has room at the
`mq_getattr` after the loop and no blocked `write` is cut short. -/
theorem finEntregado_reachableBy
    (h : (procesos pid capacidad).ReachableBy (ConHueco capacidad) c) : FinEntregado c := by
  obtain ⟨hfallida, hfin, henv⟩ := inv_reachableBy h
  have henviado : c.sistema.pc = .salido → c.sistema.bloqueFin ∈ c.sistema.mandados :=
    fun hpc => henv (by rw [hpc]; rfl)
  refine ⟨henviado, fun hhuerfano => ?_⟩
  have hpc : c.sistema.pc = .salido :=
    hhuerfano.salido.resolve_right fun hsal => by rw [hfallida] at hsal; cases hsal
  have hno := hhuerfano.sinFin _ (henviado hpc)
  rw [hfin] at hno
  cases hno

/-! ### Runs -/

/-- A start in which every uninitialised variable is zero. -/
def inicio (pid : ℤ) : Cierre := ⟨Sistema.inicio pid, .no⟩

theorem init_inicio (pid : ℤ) (capacidad : ℕ) : (procesos pid capacidad).Init (inicio pid) :=
  ⟨Sistema.inicial_inicio pid, rfl⟩

/-- The miner goes on for `k` steps. -/
def minero (k : ℕ) : List PasoCierre := List.replicate k (.turno (.minero (-1)))

/-- The comprobador receives one block and inserts it, and the monitor extracts and prints it. -/
def unBloque : List PasoCierre :=
  .turno .recibe ::
    (List.replicate 15 (.turno .comprobador) ++ List.replicate 15 (.turno .monitor))

/-- The Registrador logs `k` blocks and sees the end of the pipe. -/
def registra (k : ℕ) : List PasoCierre := List.replicate (2 * k + 1) (.turno .registrador)

/-- An instance: one round, SIGINT, and a comprobador that has not received anything yet. -/
theorem finEntregado_one_round :
    ∃ c : Cierre, (c.sistema.pc, c.sistema.mandados.length) = (.salido, 2) ∧ FinEntregado c := by
  let pasos := minero 6 ++ [.turno .sigint] ++ minero 4 ++ registra 1 ++ minero 1
  obtain ⟨c, hc, hfacts⟩ : ∃ c, (procesos 1000 100).runBy (ConHueco 100) (inicio 1000) pasos =
      some c ∧ (c.sistema.pc, c.sistema.mandados.length) = (.salido, 2) :=
    Option.map_eq_some_iff.mp (by decide +kernel)
  have hinit : (procesos 1000 100).ReachableBy (ConHueco 100) (inicio 1000) :=
    .init (init_inicio 1000 100)
  exact ⟨c, hfacts, finEntregado_reachableBy (hinit.runBy hc)⟩

/-- What a run leaves, as far as the end of mining is concerned. -/
def resumen (c : Cierre) : PcMinero × List Bloque × List Bool × Bool :=
  (c.sistema.pc, c.sistema.cola, c.sistema.mandados.map Bloque.fin,
    match c.sistema.anillo.pc with
    | .recibe => true
    | _ => false)

/-- Ten rounds before the comprobador receives anything: the queue is full when SIGINT ends the
loop, and the miner exits with `EXIT_SUCCESS`. Comprobador and monitor work off the ten blocks;
then the comprobador waits for ever. -/
theorem not_finEntregado_lleno :
    ∃ c : Cierre, (procesos 1000 100).Reachable c ∧ c.sistema.pc = .salido ∧
      c.sistema.bloqueFin ∉ c.sistema.mandados ∧ Huerfano c := by
  let pasos := minero 60 ++ [.turno .sigint] ++ minero 3 ++ registra 10 ++ minero 1 ++
    (List.replicate 10 unBloque).flatten
  obtain ⟨c, hc, hfacts⟩ : ∃ c, (procesos 1000 100).run (inicio 1000) pasos = some c ∧
      (resumen c, c.sistema.bloqueFin.fin) =
        ((.salido, [], List.replicate 10 false, true), true) :=
    Option.map_eq_some_iff.mp (by decide +kernel)
  simp only [resumen, Prod.mk.injEq] at hfacts
  obtain ⟨⟨hpc, hcola, hmandados, hanillo⟩, hfin⟩ := hfacts
  -- none of the blocks sent is a finishing block
  have hsinFin : ∀ b ∈ c.sistema.mandados, b.fin = false := by
    intro b hb
    have hmem := List.mem_map_of_mem (f := Bloque.fin) hb
    rw [hmandados] at hmem
    exact List.eq_of_mem_replicate hmem
  refine ⟨c, System.Reachable.run (.init (init_inicio 1000 100)) hc, hpc, fun hmem => ?_,
    Or.inl hpc, hcola, hsinFin, ?_⟩
  · have := hsinFin _ hmem
    rw [hfin] at this
    cases this
  · split at hanillo
    · assumption
    · cases hanillo

end Cierre

end Soper.Proyecto
