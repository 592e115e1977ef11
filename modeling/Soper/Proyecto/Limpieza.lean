import Soper.Proyecto.Nombres

/-!
# What a failed process leaves behind

The two `main`s of the final project as far as names are concerned: each call that may fail, and
the unlinks written out before each of the exits. A process that has failed should leave none of
the names it has created, since all of them are created with `O_EXCL`.

Once the miner has created the queue, no failing exit of its set-up or of its loop unlinks it
(`limpia_minero_iff`). The monitor unlinks its segment at once and its semaphores after the third
`sem_open`, so only a failing second or third `sem_open` leaves something
(`limpia_monitor_iff`).
-/

namespace Soper.Proyecto

/-- The names that exist, and those this process has created. -/
structure Proceso where
  tabla : Tabla
  creados : Tabla

/-- The state of the names at the end of a process, and its exit status. -/
structure Final where
  proceso : Proceso
  codigo : ℤ

/-- Why a creation fails. -/
inductive FalloCrear
  | eexist
  | otro

namespace Proceso

/-- The process has created nothing. -/
def inicio (t : Tabla) : Proceso := ⟨t, fun _ => false⟩

/-- Exclusive creation, which may also fail for another reason. -/
def crea (x : Nombre) (exito : Bool) (p : Proceso) : Except FalloCrear Proceso :=
  match crear x p.tabla with
  | none => .error .eexist
  | some t =>
    if exito = true then .ok { tabla := t, creados := Function.update p.creados x true }
    else .error .otro

def desenlaza (x : Nombre) (p : Proceso) : Proceso := { p with tabla := desenlazar x p.tabla }

/-- The process ends. -/
def sale (p : Proceso) (codigo : ℤ) : Final := ⟨p, codigo⟩

end Proceso

/-! ### The miner -/

/-- The calls of one round. -/
structure LlamadasRonda where
  write : Bool
  mqGetattr : Bool
  /-- `attr.mq_curmsgs < MAX_MSG`. -/
  sitio : Bool
  mqSend : Envio

/-- The calls of the miner that may fail. -/
structure LlamadasMinero where
  mqOpen : Bool
  shmOpen : Bool
  ftruncate : Bool
  rondas : List LlamadasRonda
  /-- The calls after the loop. -/
  mqGetattr : Bool
  sitio : Bool
  mqSend : Envio

/-- One round: the status with which the miner exits in it, if it does. -/
def salidaRonda (r : LlamadasRonda) : Option ℤ :=
  if r.write = false then some EXIT_FAILURE
  else if r.mqGetattr = false then some EXIT_FAILURE
  else if r.sitio = true ∧ r.mqSend = .error then some EXIT_FAILURE
  else none

/-- `main` of the miner from its loop on. -/
def mainBucle (o : LlamadasMinero) (p : Proceso) : Final :=
  match o.rondas.findSome? salidaRonda with
  | some codigo => p.sale codigo
  | none =>
    if o.mqGetattr = false then p.sale EXIT_FAILURE
    else if o.sitio = true ∧ o.mqSend = .error then p.sale EXIT_FAILURE
    else ((p.desenlaza .shmMinero).desenlaza .mqName).sale 0

/-- `main` of the miner from `shm_open` on. -/
def mainSegmento (o : LlamadasMinero) (p : Proceso) : Final :=
  match p.crea .shmMinero o.shmOpen with
  | .error .eexist => (p.desenlaza .shmMinero).sale EXIT_FAILURE
  | .error .otro => p.sale EXIT_FAILURE
  | .ok p =>
    if o.ftruncate = false then (p.desenlaza .shmMinero).sale EXIT_FAILURE else mainBucle o p

/-- `main` of the miner. -/
def mainMinero (t : Tabla) (o : LlamadasMinero) : Final :=
  match (Proceso.inicio t).crea .mqName o.mqOpen with
  | .error .eexist => ((Proceso.inicio t).desenlaza .mqName).sale EXIT_FAILURE
  | .error .otro => (Proceso.inicio t).sale EXIT_FAILURE
  | .ok p => mainSegmento o p

/-! ### The monitor -/

/-- The calls of the monitor that may fail, and the status with which the rest of the program,
which creates no names, exits. -/
structure LlamadasMonitor where
  shmOpen : Bool
  ftruncate : Bool
  semFill : Bool
  semEmpty : Bool
  semMutex : Bool
  fork : Bool
  resto : ℤ

/-- `main` of the monitor from the first `sem_open` on. -/
def mainSemaforos (o : LlamadasMonitor) (p : Proceso) : Final :=
  match p.crea .semFill o.semFill with
  | .error _ => p.sale EXIT_FAILURE
  | .ok p =>
    match p.crea .semEmpty o.semEmpty with
    | .error _ => p.sale EXIT_FAILURE
    | .ok p =>
      match p.crea .semMutex o.semMutex with
      | .error _ => p.sale EXIT_FAILURE
      | .ok p =>
        let p := ((p.desenlaza .semFill).desenlaza .semEmpty).desenlaza .semMutex
        if o.fork = false then p.sale EXIT_FAILURE else p.sale o.resto

/-- `main` of the monitor. -/
def mainMonitor (t : Tabla) (o : LlamadasMonitor) : Final :=
  match (Proceso.inicio t).crea .shmMonitor o.shmOpen with
  | .error .eexist => ((Proceso.inicio t).desenlaza .shmMonitor).sale EXIT_FAILURE
  | .error .otro => (Proceso.inicio t).sale EXIT_FAILURE
  | .ok p =>
    let p := p.desenlaza .shmMonitor
    if o.ftruncate = false then p.sale EXIT_FAILURE else mainSemaforos o p

/-! ### Names left behind -/

/-- A process that has failed has left none of the names it has created, so none of them keeps
a later start from creating it. -/
def Limpia (f : Final) : Prop :=
  f.codigo = EXIT_FAILURE → ∀ x, f.proceso.creados x = true → f.proceso.tabla x = false

namespace Proceso

variable {p q : Proceso} {x y : Nombre} {exito : Bool}

/-- The creation succeeds exactly where the name is new and nothing else fails. -/
theorem crea_cases (x : Nombre) (exito : Bool) (p : Proceso) :
    (∃ e, p.crea x exito = .error e ∧ (p.tabla x = true ∨ exito = false)) ∨
      (p.tabla x = false ∧ exito = true ∧ p.crea x exito =
        .ok ⟨Function.update p.tabla x true, Function.update p.creados x true⟩) := by
  unfold crea crear
  cases htabla : p.tabla x with
  | true => exact Or.inl ⟨.eexist, rfl, Or.inl rfl⟩
  | false =>
    cases exito with
    | false => exact Or.inl ⟨.otro, rfl, Or.inr rfl⟩
    | true => exact Or.inr ⟨rfl, rfl, rfl⟩

/-- The names the process has created and would leave behind if it ended now: what is left to
unlink. -/
def Pendientes (l : List Nombre) (p : Proceso) : Prop :=
  ∀ x, x ∈ l ↔ p.creados x = true ∧ p.tabla x = true

theorem pendientes_inicio (t : Tabla) : Pendientes [] (inicio t) :=
  fun _ => iff_of_false (List.not_mem_nil) fun h => nomatch h.1

/-- A new name has to be unlinked later. -/
theorem Pendientes.crea {l : List Nombre} (h : Pendientes l p) (y : Nombre) :
    Pendientes (y :: l) ⟨Function.update p.tabla y true, Function.update p.creados y true⟩ := by
  intro x
  by_cases hne : x = y
  · simp [hne]
  · simp [hne, h x]

/-- Unlinking a name, whoever has created it. -/
theorem Pendientes.desenlaza {l : List Nombre} (h : Pendientes l p) (y : Nombre) :
    Pendientes (l.filter (· ≠ y)) (p.desenlaza y) := by
  intro x
  by_cases hne : x = y
  · simp [hne, Proceso.desenlaza, desenlazar]
  · simp [hne, Proceso.desenlaza, desenlazar, h x]

/-- A failing exit is clean exactly if nothing is left to unlink. -/
theorem Pendientes.limpia_iff {l : List Nombre} (h : Pendientes l p) :
    Limpia (p.sale EXIT_FAILURE) ↔ l = [] := by
  rw [List.eq_nil_iff_forall_not_mem]
  constructor
  · intro hlimpia x hx
    obtain ⟨hcreado, hexiste⟩ := (h x).mp hx
    have hno : p.tabla x = false := hlimpia rfl x hcreado
    rw [hexiste] at hno
    cases hno
  · intro hnada _ x hcreado
    refine Bool.eq_false_iff.mpr fun hexiste => hnada x ?_
    exact (h x).mpr ⟨hcreado, hexiste⟩

/-- With nothing left to unlink every exit is clean. -/
theorem Pendientes.limpia (h : Pendientes [] p) (codigo : ℤ) : Limpia (p.sale codigo) :=
  fun _ => h.limpia_iff.mpr rfl rfl

end Proceso

open Proceso

/-! ### The miner -/

/-- No call of the round fails; a full queue is no failure. -/
structure LlamadasRonda.Pasa (r : LlamadasRonda) : Prop where
  write : r.write = true
  mqGetattr : r.mqGetattr = true
  mqSend : ¬ (r.sitio = true ∧ r.mqSend = .error)

/-- No call of the loop, or after it, fails. -/
structure LlamadasMinero.PasaBucle (o : LlamadasMinero) : Prop where
  rondas : ∀ r ∈ o.rondas, r.Pasa
  mqGetattr : o.mqGetattr = true
  mqSend : ¬ (o.sitio = true ∧ o.mqSend = .error)

/-- The segment is new, and no call after the creation of the queue fails. -/
structure LlamadasMinero.Pasa (t : Tabla) (o : LlamadasMinero) : Prop where
  shmNuevo : t .shmMinero = false
  shmOpen : o.shmOpen = true
  ftruncate : o.ftruncate = true
  bucle : o.PasaBucle

theorem salidaRonda_eq_none {r : LlamadasRonda} : salidaRonda r = none ↔ r.Pasa := by
  constructor
  · intro h
    unfold salidaRonda at h
    split_ifs at h with hwrite hgetattr hsend
    exact ⟨by simpa using hwrite, by simpa using hgetattr, hsend⟩
  · rintro ⟨hwrite, hgetattr, hsend⟩
    simp [salidaRonda, hwrite, hgetattr, hsend]

/-- A round ends the miner with `EXIT_FAILURE` only. -/
theorem codigo_salidaRonda {r : LlamadasRonda} {codigo : ℤ} (h : salidaRonda r = some codigo) :
    codigo = EXIT_FAILURE := by
  unfold salidaRonda at h
  split_ifs at h <;> exact (Option.some.inj h).symm

/-- Every failing exit of the loop leaves what there is to unlink. -/
theorem limpia_bucle_iff {o : LlamadasMinero} {p : Proceso} {x : Nombre} {l : List Nombre}
    (h : Pendientes (x :: l) p) : Limpia (mainBucle o p) ↔ o.PasaBucle := by
  have hfalla : ¬ Limpia (p.sale EXIT_FAILURE) := h.limpia_iff.not.mpr (List.cons_ne_nil x l)
  unfold mainBucle
  split
  · rename_i codigo hronda
    obtain ⟨r, hr, hsale⟩ := List.exists_of_findSome?_eq_some hronda
    -- some round ends the miner: the names stay
    rw [codigo_salidaRonda hsale]
    refine iff_of_false hfalla fun hpasa => ?_
    rw [salidaRonda_eq_none.mpr (hpasa.rondas r hr)] at hsale
    cases hsale
  · rename_i hrondas
    rw [List.findSome?_eq_none_iff] at hrondas
    split_ifs with hgetattr hsend
    · refine iff_of_false hfalla fun hpasa => ?_
      simp [hpasa.mqGetattr] at hgetattr
    · exact iff_of_false hfalla fun hpasa => hpasa.mqSend hsend
    · -- the regular exit
      refine iff_of_true (fun hcodigo => nomatch hcodigo)
        ⟨fun r hr => salidaRonda_eq_none.mp (hrondas r hr), by simpa using hgetattr, hsend⟩

/-- From `shm_open` on the queue is left to unlink, and only the regular exit does it. -/
theorem limpia_segmento_iff {o : LlamadasMinero} {p : Proceso} (h : Pendientes [.mqName] p) :
    Limpia (mainSegmento o p) ↔ o.Pasa p.tabla := by
  rcases crea_cases .shmMinero o.shmOpen p with ⟨e, hcrea, hor⟩ | ⟨hnuevo, hopen, hcrea⟩
  · refine iff_of_false ?_ fun hpasa => ?_
    · cases e <;> simp only [mainSegmento, hcrea]
      · exact (h.desenlaza .shmMinero).limpia_iff.not.mpr nofun
      · exact h.limpia_iff.not.mpr nofun
    · rw [hpasa.shmNuevo, hpasa.shmOpen] at hor
      simp at hor
  · have hcreados := h.crea .shmMinero
    simp only [mainSegmento, hcrea]
    split_ifs with htrunc
    · refine iff_of_false ((hcreados.desenlaza .shmMinero).limpia_iff.not.mpr nofun) ?_
      intro hpasa
      simp [hpasa.ftruncate] at htrunc
    · rw [limpia_bucle_iff hcreados]
      exact ⟨fun hbucle => ⟨hnuevo, hopen, by simpa using htrunc, hbucle⟩, fun hpasa => hpasa.bucle⟩

/-- **The miner cleans up exactly** if it has not created the queue, or fails nowhere after
that. -/
theorem limpia_minero_iff (t : Tabla) (o : LlamadasMinero) :
    Limpia (mainMinero t o) ↔ t .mqName = true ∨ o.mqOpen = false ∨ o.Pasa t := by
  have hinicio := pendientes_inicio t
  rcases crea_cases .mqName o.mqOpen (inicio t) with ⟨e, hcrea, hor⟩ | ⟨hnueva, hopen, hcrea⟩
  · refine iff_of_true ?_ (hor.imp_right Or.inl)
    cases e <;> simp only [mainMinero, hcrea]
    · exact (hinicio.desenlaza .mqName).limpia _
    · exact hinicio.limpia _
  · have hnueva' : t .mqName = false := hnueva
    rw [or_iff_right (by simp [hnueva']), or_iff_right (by simp [hopen])]
    simp only [mainMinero, hcrea]
    rw [limpia_segmento_iff (hinicio.crea .mqName)]
    -- the name of the segment is as it was
    exact ⟨fun h => ⟨h.shmNuevo, h.shmOpen, h.ftruncate, h.bucle⟩,
      fun h => ⟨h.shmNuevo, h.shmOpen, h.ftruncate, h.bucle⟩⟩

/-- The calls of one miner that runs alone. -/
def solo : ℕ → Tabla × PcInstancia → Tabla × PcInstancia
  | 0, r => r
  | k + 1, r =>
    match Instancias.pasoMinero r.1 r.2 with
    | some r' => solo k r'
    | none => r

/-- All calls succeed, and the loop ends at once. -/
def sinFallos : LlamadasMinero := ⟨true, true, true, [], true, true, .enviado⟩

/-- Where no call fails, `main` does with the names what a miner of `Instancias` does that runs
alone. -/
theorem solo_eq_mainMinero (t : Tabla) :
    solo 6 (t, .abreCola) = ((mainMinero t sinFallos).proceso.tabla, .salido) := by
  cases hcola : t .mqName with
  | true =>
    simp [solo, Instancias.pasoMinero, mainMinero, crea, crear, inicio, desenlaza, sale, hcola]
  | false =>
    cases hshm : t .shmMinero with
    | true =>
      simp [solo, Instancias.pasoMinero, mainMinero, mainSegmento, crea, crear, inicio, desenlaza,
        sale, sinFallos, hcola, hshm]
    | false =>
      simp [solo, Instancias.pasoMinero, mainMinero, mainSegmento, mainBucle, crea, crear, inicio,
        desenlaza, sale, sinFallos, hcola, hshm]

/-! ### The monitor -/

/-- The first semaphore is created, and the second or the third is not. -/
structure LlamadasMonitor.DejaSemaforo (t : Tabla) (o : LlamadasMonitor) : Prop where
  semFill : t .semFill = false ∧ o.semFill = true
  otro : (t .semEmpty = true ∨ o.semEmpty = false) ∨ t .semMutex = true ∨ o.semMutex = false

/-- The semaphores are unlinked together, after the last `sem_open`. -/
theorem limpia_semaforos_iff {o : LlamadasMonitor} {p : Proceso} (h : Pendientes [] p) :
    Limpia (mainSemaforos o p) ↔ ¬ o.DejaSemaforo p.tabla := by
  unfold mainSemaforos
  rcases crea_cases .semFill o.semFill p with ⟨e, hfill, hor⟩ | ⟨hfill₁, hfill₂, hfill⟩
  · simp only [hfill]
    refine iff_of_true (h.limpia _) fun hdeja => ?_
    rw [hdeja.semFill.1, hdeja.semFill.2] at hor
    simp at hor
  -- from here on `SEM_FILL` has to be unlinked
  have h₁ := h.crea .semFill
  set p₁ : Proceso :=
    ⟨Function.update p.tabla .semFill true, Function.update p.creados .semFill true⟩
  rcases crea_cases .semEmpty o.semEmpty p₁ with ⟨e, hempty, hor⟩ | ⟨hempty₁, hempty₂, hempty⟩
  · simp only [hfill, hempty]
    refine iff_of_false (h₁.limpia_iff.not.mpr nofun) (not_not.mpr ⟨⟨hfill₁, hfill₂⟩, Or.inl hor⟩)
  have h₂ := h₁.crea .semEmpty
  set p₂ : Proceso :=
    ⟨Function.update p₁.tabla .semEmpty true, Function.update p₁.creados .semEmpty true⟩
  rcases crea_cases .semMutex o.semMutex p₂ with ⟨e, hmutex, hor⟩ | ⟨hmutex₁, hmutex₂, hmutex⟩
  · simp only [hfill, hempty, hmutex]
    refine iff_of_false (h₂.limpia_iff.not.mpr nofun) (not_not.mpr ⟨⟨hfill₁, hfill₂⟩, Or.inr hor⟩)
  -- all three are unlinked, so nothing is left
  have h₃ := (((h₂.crea .semMutex).desenlaza .semFill).desenlaza .semEmpty).desenlaza .semMutex
  simp only [hfill, hempty, hmutex]
  refine iff_of_true ?_ fun hdeja => ?_
  · split_ifs <;> exact h₃.limpia _
  · have hotro := hdeja.otro
    rw [show p.tabla .semEmpty = false from hempty₁, hempty₂,
      show p.tabla .semMutex = false from hmutex₁, hmutex₂] at hotro
    simp at hotro

/-- **The monitor cleans up exactly** if it does not fail between the first and the last
`sem_open`. -/
theorem limpia_monitor_iff (t : Tabla) (o : LlamadasMonitor) :
    Limpia (mainMonitor t o) ↔
      ¬ (t .shmMonitor = false ∧ o.shmOpen = true ∧ o.ftruncate = true ∧ o.DejaSemaforo t) := by
  have hinicio := pendientes_inicio t
  rcases crea_cases .shmMonitor o.shmOpen (inicio t) with ⟨e, hcrea, hor⟩ | ⟨hnuevo, hopen, hcrea⟩
  · refine iff_of_true ?_ ?_
    · cases e <;> simp only [mainMonitor, hcrea]
      · exact (hinicio.desenlaza .shmMonitor).limpia _
      · exact hinicio.limpia _
    · rintro ⟨hshm, hshm', -⟩
      rw [show (inicio t).tabla .shmMonitor = false from hshm, hshm'] at hor
      simp at hor
  · -- the segment is unlinked at once
    have hcreado := (hinicio.crea .shmMonitor).desenlaza .shmMonitor
    have hnuevo' : t .shmMonitor = false := hnuevo
    simp only [mainMonitor, hcrea]
    split_ifs with htrunc
    · refine iff_of_true (hcreado.limpia _) ?_
      rintro ⟨-, -, htrunc', -⟩
      simp [htrunc'] at htrunc
    · rw [limpia_semaforos_iff hcreado, and_iff_right hnuevo', and_iff_right hopen,
        and_iff_right (by simpa using htrunc)]
      -- the names of the semaphores are as they were
      exact not_congr ⟨fun h => ⟨h.semFill, h.otro⟩, fun h => ⟨h.semFill, h.otro⟩⟩

/-! ### Both programs -/

/-- Whichever of their calls fail, both programs leave nothing behind. -/
structure DejanLimpio (t : Tabla) (o : LlamadasMinero) (m : LlamadasMonitor) : Prop where
  minero : Limpia (mainMinero t o)
  monitor : Limpia (mainMonitor t m)

/-- **Nothing is left behind exactly** if the miner does not fail after it has created the queue,
and the monitor does not fail between the first and the last `sem_open`. -/
theorem dejanLimpio_iff (t : Tabla) (o : LlamadasMinero) (m : LlamadasMonitor) :
    DejanLimpio t o m ↔
      (t .mqName = true ∨ o.mqOpen = false ∨ o.Pasa t) ∧
        ¬ (t .shmMonitor = false ∧ m.shmOpen = true ∧ m.ftruncate = true ∧ m.DejaSemaforo t) := by
  rw [← limpia_minero_iff, ← limpia_monitor_iff]
  exact ⟨fun h => ⟨h.minero, h.monitor⟩, fun h => ⟨h.1, h.2⟩⟩

/-- A segment is left from an earlier run: the miner unlinks that one, and leaves its own queue.
A semaphore is left: the monitor leaves the other one. -/
theorem not_limpia_eexist :
    ¬ Limpia (mainMinero (fun x => x = .shmMinero)
        ⟨true, true, true, [], true, true, .enviado⟩) ∧
      ¬ Limpia (mainMonitor (fun x => x = .semEmpty) ⟨true, true, true, true, true, true, 0⟩) := by
  rw [limpia_minero_iff, limpia_monitor_iff]
  refine ⟨?_, not_not.mpr ⟨rfl, rfl, rfl, ⟨rfl, rfl⟩, Or.inl (Or.inl rfl)⟩⟩
  rintro (hcola | hopen | hpasa)
  · exact absurd hcola (by decide)
  · cases hopen
  · exact absurd hpasa.shmNuevo (by decide)

end Soper.Proyecto
