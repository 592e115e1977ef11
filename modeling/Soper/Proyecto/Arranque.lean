import Soper.Proyecto.Historia

/-!
# The comprobador from its first call to its last

`comprobador` of `proyecto/monitor.c` installs its handler, maps the segment, opens the message
queue, unlinks its name and enters the loop of `Anillo`. Its child, the monitor, runs all the
time. Until the handler is installed SIGINT kills the process; from then on it is only noted.

In the loop every exit hands over a finishing block first, however its calls fail and wherever
SIGINT arrives (`fin_anadido`). The exits before the loop do not: where `mmap` or `mq_open`
fails, or SIGINT comes too early, the monitor waits for ever (`not_sinHuerfano_abreCola`). In
the runs in between, the monitor is never orphaned (`sinHuerfano_reachableBy`).
-/

namespace Soper.Proyecto

/-- Where the comprobador stands. -/
inductive PcArranque
  /-- `sigaction`. -/
  | instala
  /-- `mmap`, then `front` and `rear` are set to zero. -/
  | mapea
  /-- `mq_open`. -/
  | abreCola
  /-- `mq_unlink`. -/
  | desenlaza
  /-- The loop, until the process exits from it. -/
  | bucle
  /-- The process has exited before the loop, with this status. -/
  | salido (codigo : ℤ)
  /-- SIGINT has killed the process. -/
  | muerto
  deriving DecidableEq

/-- The comprobador, and what it shares with the monitor. -/
structure Arranque where
  pc : PcArranque
  anillo : Anillo

/-- What may happen next. -/
inductive PasoArranque
  /-- The next call before the loop, and whether it succeeds. -/
  | llama (exito : Bool)
  /-- A step of the loop, of the monitor, or the arrival of SIGINT. -/
  | accion (a : Accion)

namespace Arranque

/-- The next call before the loop. `sigaction` does not fail, and the result of `mq_unlink` is
not tested. -/
def llamada (exito : Bool) (c : Arranque) : Option Arranque :=
  match c.pc with
  | .instala => some { c with pc := .mapea }
  | .mapea =>
    if exito = true then
      some { pc := .abreCola, anillo := { c.anillo with front := 0, rear := 0 } }
    else some { c with pc := .salido EXIT_FAILURE }
  | .abreCola =>
    if exito = true then some { c with pc := .desenlaza }
    else some { c with pc := .salido EXIT_FAILURE }
  | .desenlaza => some { c with pc := .bucle }
  | .bucle | .salido _ | .muerto => none

/-- The handler of SIGINT, where the comprobador is not blocked. -/
def sigint (c : Arranque) : Option Arranque :=
  match c.pc with
  | .instala => some { c with pc := .muerto }
  | .mapea | .abreCola | .desenlaza | .bucle =>
    some { c with anillo := { c.anillo with sint := true } }
  | .salido _ | .muerto => none

/-- One step. -/
def next (c : Arranque) : PasoArranque → Option Arranque
  | .llama exito => llamada exito c
  | .accion .sigint => sigint c
  | .accion .monitor => (Anillo.next c.anillo .monitor).map fun a => { c with anillo := a }
  | .accion a =>
    if c.pc = .bucle then (Anillo.next c.anillo a).map fun a => { c with anillo := a } else none

/-- Comprobador and monitor, from the `fork` on. -/
def procesos : System Arranque PasoArranque where
  Init c := c.pc = .instala ∧ ∃ bloque mq mon, c.anillo = Anillo.inicial bloque mq mon
  next := next

end Arranque

/-! ### The exits of the loop -/

namespace Anillo

variable {s t : Anillo}

/-- Where the comprobador is about to leave the loop, it has added a finishing block, or holds
one that it is about to add. -/
def Anuncia (s : Anillo) : Prop :=
  match s.pc with
  | .recibe | .mira => True
  | .esperaEmpty m | .esperaMutex m | .anade m _ => m ≠ .normal → s.bloqueMq.fin = true
  | .sueltaMutex m | .sueltaFill m =>
    (m ≠ .normal → s.bloqueMq.fin = true) ∧ s.bloqueMq ∈ s.anadidos
  | .espera _ | .salido _ => ∃ b ∈ s.anadidos, b.fin = true

/-- After an insertion the loop is left only if the block inserted was a finishing block. -/
theorem anuncia_trasInsertar {m : Motivo} (hpc : s.pc = trasInsertar m s.bloqueMq)
    (hfin : m ≠ .normal → s.bloqueMq.fin = true) (hmem : s.bloqueMq ∈ s.anadidos) :
    Anuncia s := by
  cases m with
  | normal =>
    simp only [trasInsertar] at hpc
    split at hpc
    · rename_i hb
      simp only [Anuncia, hpc]
      exact ⟨_, hmem, hb⟩
    · simp only [Anuncia, hpc]
  | errorRecepcion | interrupcion =>
    simp only [trasInsertar] at hpc
    simp only [Anuncia, hpc]
    exact ⟨_, hmem, hfin nofun⟩

/-- The steps of the comprobador announce its exits. -/
theorem anuncia_pasoComprobador (hi : Anuncia s) (h : pasoComprobador s = some t) :
    Anuncia t := by
  match hpc : s.pc with
  | .recibe | .salido _ => simp [pasoComprobador, hpc] at h
  | .mira =>
    simp only [pasoComprobador, hpc] at h
    split at h <;> cases h
    · exact fun _ => rfl
    · exact fun hm => absurd rfl hm
  | .esperaEmpty m | .esperaMutex m =>
    simp only [Anuncia, hpc] at hi
    simp only [pasoComprobador, hpc] at h
    split at h <;> cases h
    exact hi
  | .anade m (f :: fs) =>
    simp only [Anuncia, hpc] at hi
    simp only [pasoComprobador, hpc] at h
    cases h
    exact hi
  | .anade m [] =>
    simp only [Anuncia, hpc] at hi
    simp only [pasoComprobador, hpc] at h
    cases h
    exact ⟨hi, by simp⟩
  | .sueltaMutex m =>
    simp only [Anuncia, hpc] at hi
    simp only [pasoComprobador, hpc] at h
    cases h
    exact hi
  -- the loop is left after this insertion, or goes on
  | .sueltaFill m =>
    simp only [Anuncia, hpc] at hi
    simp only [pasoComprobador, hpc] at h
    cases h
    exact anuncia_trasInsertar rfl hi.1 hi.2
  | .espera m =>
    simp only [Anuncia, hpc] at hi
    simp only [pasoComprobador, hpc] at h
    split at h <;> cases h
    exact hi

/-- A call that SIGINT cuts short leads where its success would have led, or to an insertion of
the finishing block. -/
theorem anuncia_interrumpida (hi : Anuncia s) (h : interrumpida s = some t) : Anuncia t := by
  match hpc : s.pc with
  | .recibe =>
    simp only [interrumpida, hpc] at h
    cases h
    exact fun _ => rfl
  | .esperaEmpty m | .esperaMutex m =>
    simp only [Anuncia, hpc] at hi
    simp only [interrumpida, hpc] at h
    split at h <;> cases h
    exact hi
  | .espera m =>
    simp only [Anuncia, hpc] at hi
    simp only [interrumpida, hpc] at h
    cases h
    exact hi
  | .mira | .anade _ _ | .sueltaMutex _ | .sueltaFill _ | .salido _ =>
    simp [interrumpida, hpc] at h

/-- **Step lemma.** -/
theorem anuncia_next {a : Accion} (hi : Anuncia s) (h : next s a = some t) : Anuncia t := by
  cases a with
  | llega b =>
    simp only [next] at h
    split at h <;> cases h
    trivial
  | falla =>
    simp only [next] at h
    split at h <;> cases h
    exact fun _ => rfl
  | comprobador => exact anuncia_pasoComprobador hi h
  | sigint =>
    cases h
    exact hi
  | interrumpe => exact anuncia_interrumpida hi h
  | monitor =>
    obtain ⟨hpc, hmq, -, hanad⟩ := comprobador_pasoMonitor h
    simpa only [Anuncia, hpc, hmq, hanad] using hi

/-- **Every exit of the loop is announced**: a comprobador that has left its loop, after whatever
failures and signals, has added a finishing block to the ring. -/
theorem fin_anadido (h : sistema.Reachable s) {codigo : ℤ} (hpc : s.pc = .salido codigo) :
    ∃ b ∈ s.anadidos, b.fin = true := by
  have hi : Anuncia s := by
    refine h.induct ?_ fun _ _ _ => anuncia_next
    rintro _ ⟨bloque, mq, mon, rfl⟩
    trivial
  simpa only [Anuncia, hpc] using hi

end Anillo

/-! ### The whole run -/

namespace Arranque

variable {c d : Arranque}

/-- The comprobador process has ended, before its loop or in it. -/
def Terminado (c : Arranque) : Prop :=
  match c.pc with
  | .salido _ | .muerto => True
  | .bucle => ∃ codigo, c.anillo.pc = .salido codigo
  | .instala | .mapea | .abreCola | .desenlaza => False

/-- The monitor is never orphaned: when the comprobador has ended, a finishing block has been
added to the ring, and the monitor does not wait at an empty ring for one that never comes. -/
structure SinHuerfano (c : Arranque) : Prop where
  fin : Terminado c → ∃ b ∈ c.anillo.anadidos, b.fin = true
  espera : ¬ (Terminado c ∧ (∀ b ∈ c.anillo.anadidos, b.fin = false) ∧
    c.anillo.pcMonitor = .esperaFill ∧ c.anillo.semFill = 0)

/-- The calls before the loop succeed, and SIGINT does not arrive before its handler is
installed. -/
def EntraEnBucle (c : Arranque) : PasoArranque → Prop
  | .llama exito => c.pc = .mapea ∨ c.pc = .abreCola → exito = true
  | .accion .sigint => c.pc ≠ .instala
  | .accion _ => True

/-- Before the loop nothing has been posted, so the monitor has not moved. -/
structure Previo (a : Anillo) : Prop where
  front : a.front = 0
  rear : a.rear = 0
  semFill : a.semFill = 0
  pcMonitor : a.pcMonitor = .esperaFill

/-- A monitor that has not moved cannot move. -/
theorem Previo.monitor {a : Anillo} (h : Previo a) : Anillo.next a .monitor = none := by
  simp [Anillo.next, Anillo.pasoMonitor, h.pcMonitor, h.semFill]

/-- The assignments after `mmap` change nothing: the segment was created with zeros. -/
theorem Previo.inicia {a : Anillo} (h : Previo a) : { a with front := 0, rear := 0 } = a := by
  obtain ⟨hfront, hrear, -, -⟩ := h
  cases a
  cases hfront
  cases hrear
  rfl

/-- A call before the loop leaves the ring as it is, and fails only where it may. -/
theorem llamada_cases {exito : Bool} (hprev : c.pc ≠ .bucle → Previo c.anillo)
    (h : llamada exito c = some d) :
    c.pc ≠ .bucle ∧ d.anillo = c.anillo ∧ d.pc ≠ .muerto ∧
      ((c.pc = .mapea ∨ c.pc = .abreCola → exito = true) → ∀ codigo, d.pc ≠ .salido codigo) := by
  match hpc : c.pc with
  | .bucle | .salido _ | .muerto => simp [llamada, hpc] at h
  | .instala | .desenlaza =>
    simp only [llamada, hpc] at h
    cases h
    exact ⟨nofun, rfl, nofun, fun _ => nofun⟩
  | .mapea =>
    simp only [llamada, hpc] at h
    split at h <;> cases h
    · exact ⟨nofun, (hprev (by rw [hpc]; nofun)).inicia, nofun, fun _ => nofun⟩
    -- `mmap` has failed
    · rename_i hfalla
      exact ⟨nofun, rfl, nofun, fun hok => absurd (hok (Or.inl rfl)) hfalla⟩
  | .abreCola =>
    simp only [llamada, hpc] at h
    split at h <;> cases h
    · exact ⟨nofun, rfl, nofun, fun _ => nofun⟩
    -- `mq_open` has failed
    · rename_i hfalla
      exact ⟨nofun, rfl, nofun, fun hok => absurd (hok (Or.inr rfl)) hfalla⟩

/-- SIGINT kills a process without a handler, and is noted otherwise. -/
theorem sigint_cases (h : sigint c = some d) :
    (c.pc = .instala ∧ d = { c with pc := .muerto }) ∨
      d = { c with anillo := { c.anillo with sint := true } } := by
  match hpc : c.pc with
  | .salido _ | .muerto => simp [sigint, hpc] at h
  | .instala =>
    simp only [sigint, hpc] at h
    exact Or.inl ⟨rfl, (Option.some.inj h).symm⟩
  | .mapea | .abreCola | .desenlaza | .bucle =>
    simp only [sigint, hpc] at h
    cases h
    exact Or.inr rfl

/-- What a step can do: a call before the loop, the arrival of SIGINT, or a step of the ring,
which before the loop is one of the monitor. -/
theorem next_cases {a : PasoArranque} (h : next c a = some d) :
    (∃ exito, a = .llama exito ∧ llamada exito c = some d) ∨
      (a = .accion .sigint ∧ sigint c = some d) ∨
      (∃ b s, a = .accion b ∧ (c.pc ≠ .bucle → b = .monitor) ∧
        Anillo.next c.anillo b = some s ∧ d = { c with anillo := s }) := by
  cases a with
  | llama exito => exact Or.inl ⟨exito, rfl, h⟩
  | accion b =>
    cases b with
    | sigint => exact Or.inr (Or.inl ⟨rfl, h⟩)
    | monitor =>
      obtain ⟨s, hs, rfl⟩ := Option.map_eq_some_iff.mp h
      exact Or.inr (Or.inr ⟨_, s, rfl, fun _ => rfl, hs, rfl⟩)
    | llega _ | falla | comprobador | interrumpe =>
      simp only [next] at h
      split at h
      · rename_i hpc
        obtain ⟨s, hs, rfl⟩ := Option.map_eq_some_iff.mp h
        exact Or.inr (Or.inr ⟨_, s, rfl, fun hne => absurd hpc hne, hs, rfl⟩)
      · cases h

/-- Until the loop begins, the ring is as it was. -/
theorem previo_reachable (h : procesos.Reachable c) : c.pc ≠ .bucle → Previo c.anillo := by
  induction h with
  | init hs =>
    obtain ⟨-, bloque, mq, mon, hanillo⟩ := hs
    intro _
    rw [hanillo]
    exact ⟨rfl, rfl, rfl, rfl⟩
  | step _ _ hn ih =>
    intro hpc
    rcases next_cases hn with ⟨exito, -, hd⟩ | ⟨-, hd⟩ | ⟨b, s, -, hb, hs, rfl⟩
    · obtain ⟨hpc', hanillo, -, -⟩ := llamada_cases ih hd
      rw [hanillo]
      exact ih hpc'
    · rcases sigint_cases hd with ⟨hins, rfl⟩ | rfl
      · exact ih (by rw [hins]; nofun)
      · obtain ⟨hfront, hrear, hfill, hmon⟩ := ih hpc
        exact ⟨hfront, hrear, hfill, hmon⟩
    · -- before the loop there is nothing to extract
      rw [hb hpc, (ih hpc).monitor] at hs
      cases hs

/-- The ring is a ring of `Anillo`, in every run. -/
theorem anillo_reachable (h : procesos.Reachable c) : Anillo.sistema.Reachable c.anillo := by
  refine h.map (fun c hc => hc.2) ?_
  intro c a d hc _ hn
  rcases next_cases hn with ⟨exito, -, hd⟩ | ⟨-, hd⟩ | ⟨b, s, -, -, hs, rfl⟩
  · exact Or.inl (llamada_cases (previo_reachable hc) hd).2.1
  · rcases sigint_cases hd with ⟨-, rfl⟩ | rfl
    · exact Or.inl rfl
    · exact Or.inr ⟨.sigint, trivial, rfl⟩
  · exact Or.inr ⟨b, trivial, hs⟩

/-- In runs that enter the loop the process ends nowhere else. -/
theorem bucle_of_terminado (h : procesos.ReachableBy EntraEnBucle c) (hterm : Terminado c) :
    c.pc = .bucle := by
  have hpc : c.pc ≠ .muerto ∧ ∀ codigo, c.pc ≠ .salido codigo := by
    clear hterm
    induction h with
    | init hs =>
      rw [hs.1]
      exact ⟨nofun, nofun⟩
    | step hs hok hn ih =>
      rcases next_cases hn with ⟨exito, rfl, hd⟩ | ⟨rfl, hd⟩ | ⟨b, s, -, -, -, rfl⟩
      -- the calls before the loop succeed
      · obtain ⟨-, -, hmuerto, hsalido⟩ := llamada_cases (previo_reachable hs.reachable) hd
        exact ⟨hmuerto, hsalido hok⟩
      -- SIGINT finds its handler
      · rcases sigint_cases hd with ⟨hins, -⟩ | rfl
        · exact absurd hins hok
        · exact ih
      · exact ih
  simp only [Terminado] at hterm
  split at hterm
  · rename_i hsalido
    exact absurd hsalido (hpc.2 _)
  · rename_i hmuerto
    exact absurd hmuerto hpc.1
  · assumption
  all_goals cases hterm

/-- **The monitor is never orphaned** in the runs in which the comprobador enters its loop:
whichever receptions fail there, and wherever SIGINT arrives. -/
theorem sinHuerfano_reachableBy (h : procesos.ReachableBy EntraEnBucle c) : SinHuerfano c := by
  have hfin : Terminado c → ∃ b ∈ c.anillo.anadidos, b.fin = true := by
    intro hterm
    have hpc := bucle_of_terminado h hterm
    obtain ⟨codigo, hsalido⟩ : ∃ codigo, c.anillo.pc = .salido codigo := by
      simpa only [Terminado, hpc] using hterm
    exact Anillo.fin_anadido (anillo_reachable h.reachable) hsalido
  refine ⟨hfin, ?_⟩
  rintro ⟨hterm, hnone, -, -⟩
  obtain ⟨b, hb, hbfin⟩ := hfin hterm
  rw [hnone b hb] at hbfin
  cases hbfin

/-! ### Runs -/

instance (c : Arranque) (a : PasoArranque) : Decidable (EntraEnBucle c a) :=
  match a with
  | .llama _ => inferInstanceAs (Decidable (_ → _))
  | .accion .sigint => inferInstanceAs (Decidable (_ ≠ _))
  | .accion (.llega _) | .accion .falla | .accion .comprobador | .accion .interrumpe
  | .accion .monitor => inferInstanceAs (Decidable True)

/-- A start in which every uninitialised variable is zero. -/
def inicio : Arranque :=
  ⟨.instala, Anillo.inicial (fun _ => bloqueCero) bloqueCero bloqueCero⟩

theorem init_inicio : procesos.Init inicio := ⟨rfl, _, _, _, rfl⟩

/-- An instance: the calls before the loop succeed, the first `mq_receive` fails, and the
comprobador exits with `EXIT_FAILURE` once the monitor has seen the finishing block. -/
theorem sinHuerfano_falla :
    ∃ c : Arranque, (c.anillo.anadidos.length, c.anillo.extraidos.length) = (1, 1) ∧
      Terminado c ∧ SinHuerfano c := by
  let pasos : List PasoArranque := List.replicate 4 (.llama true) ++ [.accion .falla] ++
    List.replicate 14 (.accion .comprobador) ++ List.replicate 15 (.accion .monitor) ++
    [.accion .comprobador]
  obtain ⟨c, hc, hfacts⟩ : ∃ c, procesos.runBy EntraEnBucle inicio pasos = some c ∧
      (c.pc, c.anillo.anadidos.length, c.anillo.extraidos.length,
        match c.anillo.pc with
        | .salido _ => true
        | _ => false) = (.bucle, 1, 1, true) :=
    Option.map_eq_some_iff.mp (by decide +kernel)
  simp only [Prod.mk.injEq] at hfacts
  obtain ⟨hpc, hanad, hext, hsalido⟩ := hfacts
  have hreach : procesos.ReachableBy EntraEnBucle c :=
    System.ReachableBy.runBy (.init init_inicio) hc
  refine ⟨c, by rw [hanad, hext], ?_, sinHuerfano_reachableBy hreach⟩
  simp only [Terminado, hpc]
  split at hsalido
  · exact ⟨_, by assumption⟩
  · cases hsalido

/-- There is no miner, so `mq_open` fails: the comprobador exits, and the monitor waits for
ever. -/
theorem not_sinHuerfano_abreCola :
    ∃ c : Arranque, procesos.Reachable c ∧ Terminado c ∧ c.anillo.anadidos = [] ∧
      c.anillo.pcMonitor = .esperaFill ∧ c.anillo.semFill = 0 ∧ ¬ SinHuerfano c := by
  let c : Arranque := ⟨.salido EXIT_FAILURE, inicio.anillo⟩
  have hrun : procesos.run inicio [.llama true, .llama true, .llama false] = some c := rfl
  refine ⟨c, System.Reachable.run (.init init_inicio) hrun, trivial, rfl, rfl, rfl, fun h => ?_⟩
  obtain ⟨b, hb, -⟩ := h.fin trivial
  cases hb

end Arranque

end Soper.Proyecto
