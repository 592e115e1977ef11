import Soper.Library.LockFile
import Soper.Proyecto.Minero

/-!
# The names of the final project

Miner and monitor find each other by names: a message queue, two shared segments and three
semaphores. Each is created with `O_CREAT | O_EXCL`, which fails where the name exists, and is
unlinked by whoever knows the name.

The names of the miner are also its lock: a miner that creates both goes on to mine, believing
itself the only one, and one that finds the shared segment present gives up. But a start that
gives up unlinks the name it has found, which is that of the running miner, so that the next
start succeeds: two miners mine (`not_unSoloMinero`). In runs in which no start that gives up
finds the segment of another still there, at most one does (`unSoloMinero_reachableBy`).
-/

namespace Soper.Proyecto

/-- The names of `common.h`. -/
inductive Nombre
  | mqName
  | shmMinero
  | shmMonitor
  | semFill
  | semEmpty
  | semMutex
  deriving DecidableEq

/-- Which names exist. -/
abbrev Tabla := Nombre → Bool

/-- Creation with `O_CREAT | O_EXCL`: it fails with `EEXIST` where the name exists. -/
def crear (x : Nombre) (t : Tabla) : Option Tabla :=
  if t x = true then none else some (Function.update t x true)

/-- `mq_unlink`, `shm_unlink` or `sem_unlink`. -/
def desenlazar (x : Nombre) (t : Tabla) : Tabla := Function.update t x false

/-- The next call of a miner, as far as names are concerned. -/
inductive PcInstancia
  /-- `mq_open` of the queue. -/
  | abreCola
  /-- `mq_unlink` after `EEXIST`. -/
  | desenlazaCola
  /-- `shm_open` of the segment. -/
  | abreShm
  /-- `shm_unlink` after `EEXIST`. -/
  | desenlazaShm
  /-- `ftruncate`, `mmap` and the first block. -/
  | prepara
  /-- The mining loop. -/
  | mina
  /-- `shm_unlink` after the loop. -/
  | cierraShm
  /-- `mq_unlink` after the loop. -/
  | cierraCola
  | salido
  deriving DecidableEq

/-- The next call of a comprobador, as far as names are concerned. -/
inductive PcLector
  /-- `mq_open`, which fails where there is no queue. -/
  | abreCola
  /-- `mq_unlink`. -/
  | desenlazaCola
  /-- The name is not used any more. -/
  | sigue
  deriving DecidableEq

/-- The names, and any number of miners and comprobadores. -/
structure Instancias (ι κ : Type) where
  tabla : Tabla
  minero : ι → PcInstancia
  lector : κ → PcLector

/-- Who makes its next call. -/
inductive PasoInstancia (ι κ : Type)
  | minero (i : ι)
  | lector (k : κ)

namespace Instancias

variable {ι κ : Type}

/-- One call of a miner; all calls succeed that can. -/
def pasoMinero (t : Tabla) : PcInstancia → Option (Tabla × PcInstancia)
  | .abreCola =>
    match crear .mqName t with
    | some t' => some (t', .abreShm)
    | none => some (t, .desenlazaCola)
  | .desenlazaCola => some (desenlazar .mqName t, .salido)
  | .abreShm =>
    match crear .shmMinero t with
    | some t' => some (t', .prepara)
    | none => some (t, .desenlazaShm)
  | .desenlazaShm => some (desenlazar .shmMinero t, .salido)
  | .prepara => some (t, .mina)
  | .mina => some (t, .cierraShm)
  | .cierraShm => some (desenlazar .shmMinero t, .cierraCola)
  | .cierraCola => some (desenlazar .mqName t, .salido)
  | .salido => none

/-- One call of a comprobador. -/
def pasoLector (t : Tabla) : PcLector → Option (Tabla × PcLector)
  | .abreCola => some (t, if t .mqName = true then .desenlazaCola else .sigue)
  | .desenlazaCola => some (desenlazar .mqName t, .sigue)
  | .sigue => none

variable [DecidableEq ι] [DecidableEq κ]

/-- One step. -/
def next (s : Instancias ι κ) : PasoInstancia ι κ → Option (Instancias ι κ)
  | .minero i =>
    (pasoMinero s.tabla (s.minero i)).map fun r =>
      { s with tabla := r.1, minero := Function.update s.minero i r.2 }
  | .lector k =>
    (pasoLector s.tabla (s.lector k)).map fun r =>
      { s with tabla := r.1, lector := Function.update s.lector k r.2 }

/-- No name exists, and nobody has made a call. -/
def inicio : Instancias ι κ := ⟨fun _ => false, fun _ => .abreCola, fun _ => .abreCola⟩

/-- Miners and comprobadores that start whenever they like. -/
def procesos (ι κ : Type) [DecidableEq ι] [DecidableEq κ] :
    System (Instancias ι κ) (PasoInstancia ι κ) where
  Init s := s = inicio
  next := next

/-- At most one miner is in its mining loop. -/
def UnSoloMinero (s : Instancias ι κ) : Prop :=
  ∀ i j, s.minero i = .mina → s.minero j = .mina → i = j

/-- A start that gives up finds the name of the segment gone when it unlinks it. -/
def SinRobo (s : Instancias ι κ) : PasoInstancia ι κ → Prop
  | .minero i => s.minero i = .desenlazaShm → s.tabla .shmMinero = false
  | .lector _ => True

/-! ### The segment as a lock -/

/-- The miner has created the segment and not yet unlinked it. -/
def tieneShm : PcInstancia → Bool
  | .prepara | .mina | .cierraShm => true
  | .abreCola | .desenlazaCola | .abreShm | .desenlazaShm | .cierraCola | .salido => false

/-- The lock behind the name of the segment. -/
def cerrojo (s : Instancias ι κ) : LockFile ι :=
  ⟨s.tabla .shmMinero, fun i => tieneShm (s.minero i)⟩

variable {s t : Instancias ι κ}

/-- What a call of a miner does to the name of the segment: it creates it, unlinks its own or
that of another, or leaves it alone. -/
theorem pasoMinero_cases {tabla : Tabla} {pc : PcInstancia} {r : Tabla × PcInstancia}
    (h : pasoMinero tabla pc = some r) :
    (tabla .shmMinero = false ∧ r.1 .shmMinero = true ∧ tieneShm r.2 = true) ∨
      (tieneShm pc = true ∧ r.1 .shmMinero = false ∧ tieneShm r.2 = false) ∨
      (pc = .desenlazaShm ∧ r.1 .shmMinero = false ∧ tieneShm r.2 = tieneShm pc) ∨
      (r.1 .shmMinero = tabla .shmMinero ∧ tieneShm r.2 = tieneShm pc) := by
  cases pc with
  | salido => cases h
  | abreCola =>
    simp only [pasoMinero, crear] at h
    split at h <;> cases h
    · rename_i hcrea
      split at hcrea <;> cases hcrea
      exact Or.inr (Or.inr (Or.inr ⟨rfl, rfl⟩))
    · exact Or.inr (Or.inr (Or.inr ⟨rfl, rfl⟩))
  | abreShm =>
    simp only [pasoMinero, crear] at h
    split at h <;> cases h
    · rename_i hcrea
      split at hcrea <;> cases hcrea
      rename_i habsent
      exact Or.inl ⟨by simpa using habsent, by simp, rfl⟩
    · exact Or.inr (Or.inr (Or.inr ⟨rfl, rfl⟩))
  | desenlazaCola =>
    cases h
    exact Or.inr (Or.inr (Or.inr ⟨rfl, rfl⟩))
  | desenlazaShm =>
    cases h
    exact Or.inr (Or.inr (Or.inl ⟨rfl, rfl, rfl⟩))
  | prepara | mina =>
    cases h
    exact Or.inr (Or.inr (Or.inr ⟨rfl, rfl⟩))
  | cierraShm =>
    cases h
    exact Or.inr (Or.inl ⟨rfl, rfl, rfl⟩)
  | cierraCola =>
    cases h
    exact Or.inr (Or.inr (Or.inr ⟨rfl, rfl⟩))

/-- A comprobador leaves the name of the segment alone. -/
theorem pasoLector_shm {tabla : Tabla} {pc : PcLector} {r : Tabla × PcLector}
    (h : pasoLector tabla pc = some r) : r.1 .shmMinero = tabla .shmMinero := by
  cases pc with
  | abreCola | desenlazaCola =>
    cases h
    rfl
  | sigue => cases h

/-- **Simulation.** Every step in which no segment is stolen is a guarded step of the lock, or
leaves it alone. -/
theorem cerrojo_next {a : PasoInstancia ι κ} (hok : SinRobo s a) (h : next s a = some t) :
    cerrojo t = cerrojo s ∨
      ∃ b, LockFile.Guarded (cerrojo s) b ∧ LockFile.next (cerrojo s) b = some (cerrojo t) := by
  cases a with
  | lector k =>
    obtain ⟨r, hr, rfl⟩ := Option.map_eq_some_iff.mp h
    left
    simp only [cerrojo, pasoLector_shm hr]
  | minero i =>
    obtain ⟨r, hr, rfl⟩ := Option.map_eq_some_iff.mp h
    have hholds : (fun j => tieneShm (Function.update s.minero i r.2 j)) =
        Function.update (fun j => tieneShm (s.minero j)) i (tieneShm r.2) := by
      funext j
      exact Function.apply_update (fun _ => tieneShm) s.minero i r.2 j
    rcases pasoMinero_cases hr with ⟨habsent, hshm, htiene⟩ | ⟨htenia, hshm, htiene⟩ |
      ⟨hpc, hshm, htiene⟩ | ⟨hshm, htiene⟩
    -- the miner has created the segment
    · refine Or.inr ⟨.create i, trivial, ?_⟩
      simp [LockFile.next, cerrojo, habsent, hshm, hholds, htiene]
    -- it unlinks its own segment
    · refine Or.inr ⟨.release i, trivial, ?_⟩
      simp [LockFile.next, cerrojo, htenia, hshm, hholds, htiene]
    -- it has given up and unlinks a name, which the guard says is gone
    · refine Or.inr ⟨.remove, hok hpc, ?_⟩
      simp [LockFile.next, cerrojo, hshm, hholds, htiene]
    · left
      simp [cerrojo, hshm, hholds, htiene]

/-- **One miner mines** in every run in which no start that gives up unlinks the segment of
another miner. -/
theorem unSoloMinero_reachableBy (h : (procesos ι κ).ReachableBy SinRobo s) : UnSoloMinero s := by
  have hreach : (LockFile.system (ι := ι)).ReachableBy LockFile.Guarded (cerrojo s) := by
    refine h.map ?_ fun s a t _ hok hn => cerrojo_next hok hn
    rintro _ rfl
    rfl
  intro i j hi hj
  exact LockFile.exclusive hreach (by simp [cerrojo, hi, tieneShm])
    (by simp [cerrojo, hj, tieneShm])

/-! ### Runs -/

instance (s : Instancias ι κ) (a : PasoInstancia ι κ) : Decidable (SinRobo s a) :=
  match a with
  | .minero _ => inferInstanceAs (Decidable (_ → _))
  | .lector _ => inferInstanceAs (Decidable True)

/-- A miner makes `k` calls. -/
def llamadas (i k : ℕ) : List (PasoInstancia ℕ ℕ) := List.replicate k (.minero i)

/-- An instance: a comprobador has unlinked the queue of a running miner, a second start finds
the segment present, and gives up after the first miner has exited. A third one mines. -/
theorem unSoloMinero_three :
    ∃ s : Instancias ℕ ℕ, (s.minero 0, s.minero 1, s.minero 2) = (.salido, .salido, .mina) ∧
      UnSoloMinero s := by
  let pasos := llamadas 0 3 ++ [.lector 0, .lector 0] ++ llamadas 1 2 ++ llamadas 0 3 ++
    llamadas 1 1 ++ llamadas 2 3
  obtain ⟨s, hs, hfacts⟩ : ∃ s, (procesos ℕ ℕ).runBy SinRobo inicio pasos = some s ∧
      (s.minero 0, s.minero 1, s.minero 2) = (.salido, .salido, .mina) :=
    Option.map_eq_some_iff.mp (by decide +kernel)
  have hinit : (procesos ℕ ℕ).ReachableBy SinRobo inicio := .init rfl
  exact ⟨s, hfacts, unSoloMinero_reachableBy (hinit.runBy hs)⟩

/-- Five starts: the first one mines, the second unlinks its queue, the third creates a queue and
unlinks the segment, the fourth unlinks that queue, and the fifth finds no name and mines too. -/
theorem not_unSoloMinero :
    ¬ ∀ s : Instancias ℕ ℕ, (procesos ℕ ℕ).Reachable s → UnSoloMinero s := by
  intro hall
  let pasos := llamadas 0 3 ++ llamadas 1 2 ++ llamadas 2 3 ++ llamadas 3 2 ++ llamadas 4 3
  obtain ⟨s, hs, hfacts⟩ : ∃ s, (procesos ℕ ℕ).run inicio pasos = some s ∧
      (s.minero 0, s.minero 4) = (.mina, .mina) :=
    Option.map_eq_some_iff.mp (by decide +kernel)
  obtain ⟨h₀, h₄⟩ := Prod.mk.inj hfacts
  have hinit : (procesos ℕ ℕ).Reachable inicio := .init rfl
  exact absurd (hall s (hinit.run hs) 0 4 h₀ h₄) (by decide)

end Instancias

end Soper.Proyecto
