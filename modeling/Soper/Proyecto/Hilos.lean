import Soper.Library.Total
import Soper.Library.Transition
import Soper.P3.Dato
import Soper.Proyecto.Minero
import Soper.Proyecto.Rangos

/-!
# The threads of the final project

`manage_threads` of `proyecto/minero.c`: it allocates the array of threads, gives the `i`-th
thread of `target_search` its range, joins the threads in order and returns the solution one of
them has stored, or `-1`. Where `calloc`, a `pthread_create` or a `pthread_join` fails it
returns `EXIT_FAILURE` at once, and threads already created run on.

Here `target_found` is local to each thread, so no thread stops before it has met a hit or the
end of its range, and what it stores depends on its range alone (`informe`). Every call ends
(`ensures_devuelto`): with the error value if one of its calls fails, and otherwise with the
joined reports of the threads (`valor`).

Two results follow. The search is complete except for one target and the four thread counts
whose ranges miss the last nonce (`ensures_encontrado_iff`). And the error value passes for a
solution, as in the first pipe program (`sound_iff`).
-/

namespace Soper.Proyecto

open Scan (Outcomes)

/-- `Busqueda`: what a thread is to do, and what it has found. -/
structure Busqueda where
  min : ℤ
  max : ℤ
  objetivo : ℤ
  solucion : ℤ

/-- Where a thread of `target_search` stands. -/
inductive PcHilo
  /-- Not yet created. -/
  | ausente
  /-- The loop test, then `if (target_found == FOUND)`. -/
  | prueba (i : ℤ)
  /-- `result = pow_hash(i)`, its comparison with the target, and `target_found = FOUND`. -/
  | calcula (i : ℤ)
  /-- `obj->solucion = i`. -/
  | guarda (i : ℤ)
  | salido

/-- A thread, its local `target_found` and its element of the array `busqueda`. -/
structure Hilo where
  pc : PcHilo
  targetFound : Bool
  busqueda : Busqueda

/-- Where `manage_threads` stands. -/
inductive PcHilos
  /-- `calloc`. -/
  | reserva
  /-- The body of the first loop, with `pthread_create`. -/
  | crea (i : ℕ)
  /-- The body of the second loop, with `pthread_join`. -/
  | une (i : ℕ)
  | devuelto (v : ℤ)

/-- One call of `manage_threads` with `n` threads. -/
structure Hilos (n : ℕ) where
  pc : PcHilos
  solucion : ℤ
  hilo : Fin n → Hilo

/-- The value `manage_threads` has returned. -/
def Hilos.devuelto {n : ℕ} (s : Hilos n) : Option ℤ :=
  match s.pc with
  | .devuelto v => some v
  | .reserva | .crea _ | .une _ => none

/-- Who moves. -/
inductive PasoHilos (n : ℕ)
  | manage
  | hilo (j : Fin n)

namespace Hilos

variable {n : ℕ}

/-- The call begins: no thread exists, and the array `busqueda` is not initialised. -/
def entra (basura : Fin n → Busqueda) : Hilos n where
  pc := .reserva
  solucion := -1
  hilo j := { pc := .ausente, targetFound := false, busqueda := basura j }

/-- What the `i`-th thread is given. -/
def encargo (n i : ℕ) (objetivo : ℤ) : Busqueda where
  min := rangoMin n i
  max := rangoMax n i
  objetivo := objetivo
  solucion := -1

/-- The `i`-th thread when it is created. -/
def creado (n i : ℕ) (objetivo : ℤ) : Hilo where
  pc := .prueba (rangoMin n i)
  targetFound := false
  busqueda := encargo n i objetivo

/-- One step of `manage_threads`. -/
def manageThreads (o : Outcomes) (objetivo : ℤ) (s : Hilos n) : Option (Hilos n) :=
  match s.pc with
  | .reserva =>
    if o.alloc = true then some { s with pc := .crea 0 }
    else some { s with pc := .devuelto EXIT_FAILURE }
  | .crea i =>
    if h : i < n then
      if o.create i = true then
        some { s with
          hilo := Function.update s.hilo ⟨i, h⟩ (creado n i objetivo), pc := .crea (i + 1) }
      else some { s with pc := .devuelto EXIT_FAILURE }
    else some { s with pc := .une 0 }
  | .une i =>
    if h : i < n then
      if o.join i = true then
        match (s.hilo ⟨i, h⟩).pc with
        | .salido =>
          some { s with
            solucion := if (s.hilo ⟨i, h⟩).busqueda.solucion ≠ -1 then
              (s.hilo ⟨i, h⟩).busqueda.solucion else s.solucion
            pc := .une (i + 1) }
        | _ => none
      else some { s with pc := .devuelto EXIT_FAILURE }
    else some { s with pc := .devuelto s.solucion }
  | .devuelto _ => none

/-- One step of `target_search`. -/
def targetSearch (h : Hilo) : Option Hilo :=
  match h.pc with
  | .ausente => none
  | .prueba i =>
    if i ≤ h.busqueda.max ∧ h.targetFound = false then some { h with pc := .calcula i }
    else some { h with pc := .salido }
  | .calcula i =>
    if toInt (powHash i) = h.busqueda.objetivo then
      some { h with pc := .guarda i, targetFound := true }
    else some { h with pc := .prueba (i + 1) }
  | .guarda i => some { h with pc := .salido, busqueda := { h.busqueda with solucion := i } }
  | .salido => none

/-- One step of the call or of one of its threads. -/
def next (o : Outcomes) (objetivo : ℤ) (s : Hilos n) : PasoHilos n → Option (Hilos n)
  | .manage => s.manageThreads o objetivo
  | .hilo j =>
    (targetSearch (s.hilo j)).map fun h => { s with hilo := Function.update s.hilo j h }

/-- A call of `manage_threads` with `n` threads, where the calls it makes succeed as `o` says. -/
def sistema (n : ℕ) (o : Outcomes) (objetivo : ℤ) : System (Hilos n) (PasoHilos n) where
  Init s := ∃ basura, s = entra basura
  next := next o objetivo

/-! ### What the threads report -/

/-- The number of nonces of the `j`-th range. -/
def largo (n j : ℕ) : ℕ := (rangoMax n j + 1 - rangoMin n j).toNat

/-- What the `j`-th thread stores: the first hit of its range, or `-1`. -/
def informe (n : ℕ) (objetivo : ℤ) (j : ℕ) : ℤ :=
  Scan.scan (fun x => powHash x = objetivo) (largo n j) (rangoMin n j)

/-- The reports of all threads, joined in order. -/
def valor (n : ℕ) (objetivo : ℤ) : ℤ := Scan.join (informe n objetivo) n

/-- The rest of the `j`-th range, from `i` on, has what the thread will report. -/
def Queda (n j : ℕ) (objetivo i : ℤ) : Prop :=
  Scan.scan (fun x => powHash x = objetivo) (rangoMax n j + 1 - i).toNat i = informe n objetivo j

/-- What holds of the `j`-th thread at each program point. -/
def InvHilo (n j : ℕ) (objetivo : ℤ) (h : Hilo) : Prop :=
  match h.pc with
  | .ausente => True
  | .prueba i =>
    h.busqueda = encargo n j objetivo ∧ h.targetFound = false ∧ Queda n j objetivo i
  | .calcula i =>
    h.busqueda = encargo n j objetivo ∧ h.targetFound = false ∧ Queda n j objetivo i ∧
      i ≤ rangoMax n j
  | .guarda i => i = informe n objetivo j
  | .salido => h.busqueda.solucion = informe n objetivo j

/-- The loop test: the range has been searched, and the report is `-1`. -/
theorem Queda.of_lt {j : ℕ} {objetivo i : ℤ} (h : Queda n j objetivo i) (hi : rangoMax n j < i) :
    informe n objetivo j = -1 := by
  rw [← h, Int.toNat_of_nonpos (by omega)]
  rfl

/-- The comparison: the report is `i`, or what the rest after `i` has. -/
theorem Queda.step {j : ℕ} {objetivo i : ℤ} (h : Queda n j objetivo i) (hi : i ≤ rangoMax n j) :
    (powHash i = objetivo → i = informe n objetivo j) ∧
      (powHash i ≠ objetivo → Queda n j objetivo (i + 1)) := by
  have hlen : (rangoMax n j + 1 - i).toNat = (rangoMax n j + 1 - (i + 1)).toNat + 1 := by omega
  rw [Queda, hlen, Scan.scan] at h
  constructor
  · intro heq
    rwa [if_pos heq] at h
  · intro hne
    rwa [if_neg hne] at h

/-- A step of a thread keeps what holds of it, and does not undo its creation. -/
theorem invHilo_targetSearch {j : ℕ} {objetivo : ℤ} {h h' : Hilo} (hinv : InvHilo n j objetivo h)
    (hn : targetSearch h = some h') :
    InvHilo n j objetivo h' ∧ h.pc ≠ .ausente ∧ h'.pc ≠ .ausente := by
  match hpc : h.pc with
  | .ausente | .salido => simp [targetSearch, hpc] at hn
  | .prueba i =>
    simp only [InvHilo, hpc] at hinv
    obtain ⟨hbus, hfound, hqueda⟩ := hinv
    simp only [targetSearch, hpc, hfound, and_true] at hn
    split at hn <;> cases hn
    · rename_i hle
      have hle' : i ≤ rangoMax n j := by rwa [hbus] at hle
      exact ⟨⟨hbus, rfl, hqueda, hle'⟩, nofun, nofun⟩
    · rename_i hgt
      have hgt' : rangoMax n j < i := by simpa [hbus, encargo] using hgt
      -- the end of the range: nothing was stored, and there is nothing to report
      refine ⟨?_, nofun, nofun⟩
      simp only [InvHilo, hbus, hqueda.of_lt hgt', encargo]
  | .calcula i =>
    simp only [InvHilo, hpc] at hinv
    obtain ⟨hbus, hfound, hqueda, hle⟩ := hinv
    have hobj : h.busqueda.objetivo = objetivo := by rw [hbus]; rfl
    simp only [targetSearch, hpc, toInt_powHash, hobj] at hn
    split at hn <;> cases hn
    · rename_i heq
      exact ⟨(hqueda.step hle).1 heq, nofun, nofun⟩
    · rename_i hne
      exact ⟨⟨hbus, hfound, (hqueda.step hle).2 hne⟩, nofun, nofun⟩
  | .guarda i =>
    simp only [InvHilo, hpc] at hinv
    simp only [targetSearch, hpc] at hn
    cases hn
    exact ⟨hinv, nofun, nofun⟩

/-! ### The invariant of the call -/

/-- What `manage_threads` knows at each of its program points: which calls have succeeded, which
threads exist, and the reports it has joined. -/
def InvManage (o : Outcomes) (objetivo : ℤ) (s : Hilos n) : Prop :=
  match s.pc with
  | .reserva => s.solucion = -1 ∧ ∀ j, (s.hilo j).pc = .ausente
  | .crea i =>
    i ≤ n ∧ o.alloc = true ∧ (∀ j < i, o.create j = true) ∧ s.solucion = -1 ∧
      ∀ j, (s.hilo j).pc = .ausente ↔ i ≤ (j : ℕ)
  | .une i =>
    i ≤ n ∧ o.alloc = true ∧ (∀ j < n, o.create j = true) ∧ (∀ j < i, o.join j = true) ∧
      s.solucion = Scan.join (informe n objetivo) i ∧ ∀ j, (s.hilo j).pc ≠ .ausente
  | .devuelto v =>
    (¬ o.AllSucceed n ∧ v = EXIT_FAILURE) ∨ (o.AllSucceed n ∧ v = valor n objetivo)

/-- What holds between any two steps. -/
structure Inv (o : Outcomes) (objetivo : ℤ) (s : Hilos n) : Prop where
  hilos : ∀ j : Fin n, InvHilo n j objetivo (s.hilo j)
  manage : InvManage o objetivo s

variable {o : Outcomes} {objetivo : ℤ} {s t : Hilos n}

theorem inv_entra (basura : Fin n → Busqueda) : Inv o objetivo (entra basura) where
  hilos _ := trivial
  manage := ⟨rfl, fun _ => rfl⟩

/-- Nothing is left to scan before a range begins. -/
theorem invHilo_creado (j : ℕ) (objetivo : ℤ) : InvHilo n j objetivo (creado n j objetivo) :=
  ⟨rfl, rfl, rfl⟩

/-- What `manage_threads` knows does not depend on how far the threads are. -/
theorem InvManage.congr (h : InvManage o objetivo s) (hpc : t.pc = s.pc)
    (hsol : t.solucion = s.solucion)
    (haus : ∀ j, (t.hilo j).pc = .ausente ↔ (s.hilo j).pc = .ausente) :
    InvManage o objetivo t := by
  simpa only [InvManage, hpc, hsol, haus, ne_eq] using h

/-- What a step of `manage_threads` can do: the call at this point succeeds, or there is none, and
it goes on, or a call fails and the error value is returned. -/
theorem manageThreads_cases (hn : s.manageThreads o objetivo = some t) :
    (s.pc = .reserva ∧ o.alloc = true ∧ t = { s with pc := .crea 0 }) ∨
      (∃ i : Fin n, s.pc = .crea i ∧ o.create i = true ∧ t = { s with
        hilo := Function.update s.hilo i (creado n i objetivo), pc := .crea (i + 1) }) ∨
      (∃ i, n ≤ i ∧ s.pc = .crea i ∧ t = { s with pc := .une 0 }) ∨
      (∃ i : Fin n, s.pc = .une i ∧ o.join i = true ∧ (s.hilo i).pc = .salido ∧ t = { s with
        solucion := if (s.hilo i).busqueda.solucion ≠ -1 then (s.hilo i).busqueda.solucion
          else s.solucion
        pc := .une (i + 1) }) ∨
      (∃ i, n ≤ i ∧ s.pc = .une i ∧ t = { s with pc := .devuelto s.solucion }) ∨
      (¬ o.AllSucceed n ∧ (s.pc = .reserva ∨ ∃ i < n, s.pc = .crea i ∨ s.pc = .une i) ∧
        t = { s with pc := .devuelto EXIT_FAILURE }) := by
  match hpc : s.pc with
  | .devuelto v => simp [manageThreads, hpc] at hn
  | .reserva =>
    simp only [manageThreads, hpc] at hn
    split at hn <;> cases hn
    · rename_i halloc
      exact Or.inl ⟨rfl, halloc, rfl⟩
    · rename_i halloc
      iterate 5 right
      exact ⟨fun hall => halloc hall.alloc, Or.inl rfl, rfl⟩
  | .crea i =>
    simp only [manageThreads, hpc] at hn
    split at hn
    · rename_i hi
      split at hn <;> cases hn
      · rename_i hok
        exact Or.inr (Or.inl ⟨⟨i, hi⟩, rfl, hok, rfl⟩)
      · rename_i hfail
        iterate 5 right
        exact ⟨fun hall => hfail (hall.create i hi), Or.inr ⟨i, hi, Or.inl rfl⟩, rfl⟩
    · rename_i hi
      cases hn
      exact Or.inr (Or.inr (Or.inl ⟨i, not_lt.mp hi, rfl, rfl⟩))
  | .une i =>
    simp only [manageThreads, hpc] at hn
    split at hn
    · rename_i hi
      split at hn
      · rename_i hok
        split at hn <;> cases hn
        rename_i hexit
        exact Or.inr (Or.inr (Or.inr (Or.inl ⟨⟨i, hi⟩, rfl, hok, hexit, rfl⟩)))
      · rename_i hfail
        cases hn
        iterate 5 right
        exact ⟨fun hall => hfail (hall.join i hi), Or.inr ⟨i, hi, Or.inr rfl⟩, rfl⟩
    · rename_i hi
      cases hn
      exact Or.inr (Or.inr (Or.inr (Or.inr (Or.inl ⟨i, not_lt.mp hi, rfl, rfl⟩))))

/-- The creation of a thread, which has its whole range before it. -/
theorem inv_crea (h : Inv o objetivo s) {i : Fin n} (hpc : s.pc = .crea i)
    (hok : o.create i = true) : Inv o objetivo { s with
      hilo := Function.update s.hilo i (creado n i objetivo), pc := .crea (i + 1) } := by
  obtain ⟨hhilos, hmanage⟩ := h
  simp only [InvManage, hpc] at hmanage
  obtain ⟨-, halloc, hcreate, hsol, haus⟩ := hmanage
  refine ⟨?_, i.isLt, halloc, Nat.forall_lt_succ_right.mpr ⟨hcreate, hok⟩, hsol, fun j => ?_⟩
  · exact (Function.forall_update_iff s.hilo fun j : Fin n => InvHilo n j objetivo).mpr
      ⟨invHilo_creado i objetivo, fun j _ => hhilos j⟩
  -- the threads up to the `i`-th exist now
  · have hcreados : ∀ j, (s.hilo j).pc ≠ .ausente ↔ (j : ℕ) < i := fun j => by
      rw [Ne, haus j, not_le]
    rw [← not_iff_not, not_le]
    exact Family.created_update_succ (fun h : Hilo => h.pc ≠ .ausente) hcreados
      (by simp [creado]) j

/-- The steps of `manage_threads` keep the invariant. -/
theorem inv_manageThreads (h : Inv o objetivo s) (hn : s.manageThreads o objetivo = some t) :
    Inv o objetivo t := by
  have hmanage := h.manage
  rcases manageThreads_cases hn with ⟨hpc, halloc, rfl⟩ | ⟨i, hpc, hok, rfl⟩ | ⟨i, hi, hpc, rfl⟩ |
    ⟨i, hpc, hok, hexit, rfl⟩ | ⟨i, hi, hpc, rfl⟩ | ⟨hfail, -, rfl⟩
  · simp only [InvManage, hpc] at hmanage
    obtain ⟨hsol, haus⟩ := hmanage
    refine ⟨h.hilos, Nat.zero_le n, halloc, fun j hj => absurd hj (Nat.not_lt_zero j), hsol, ?_⟩
    exact fun j => iff_of_true (haus j) (Nat.zero_le _)
  · exact inv_crea h hpc hok
  · -- every thread exists
    simp only [InvManage, hpc] at hmanage
    obtain ⟨hle, halloc, hcreate, hsol, haus⟩ := hmanage
    obtain rfl : i = n := le_antisymm hle hi
    refine ⟨h.hilos, Nat.zero_le i, halloc, hcreate, fun j hj => absurd hj (Nat.not_lt_zero j),
      hsol, fun j hj => ?_⟩
    exact absurd ((haus j).mp hj) (not_le.mpr j.isLt)
  · -- the joined thread has ended, so it has stored its report
    simp only [InvManage, hpc] at hmanage
    obtain ⟨-, halloc, hcreate, hjoin, hsol, haus⟩ := hmanage
    have hinforme := h.hilos i
    simp only [InvHilo, hexit] at hinforme
    refine ⟨h.hilos, i.isLt, halloc, hcreate, Nat.forall_lt_succ_right.mpr ⟨hjoin, hok⟩, ?_, haus⟩
    simp only [hinforme, hsol, Scan.join]
  · simp only [InvManage, hpc] at hmanage
    obtain ⟨hle, halloc, hcreate, hjoin, hsol, -⟩ := hmanage
    obtain rfl : i = n := le_antisymm hle hi
    exact ⟨h.hilos, Or.inr ⟨⟨halloc, hcreate, hjoin⟩, hsol⟩⟩
  · exact ⟨h.hilos, Or.inl ⟨hfail, rfl⟩⟩

/-- **Step lemma.** -/
theorem inv_next {a : PasoHilos n} (h : Inv o objetivo s) (hn : next o objetivo s a = some t) :
    Inv o objetivo t := by
  cases a with
  | manage => exact inv_manageThreads h hn
  | hilo j =>
    obtain ⟨h', hh', rfl⟩ := Option.map_eq_some_iff.mp hn
    obtain ⟨hinv, hpc, hpc'⟩ := invHilo_targetSearch (h.hilos j) hh'
    refine ⟨?_, h.manage.congr rfl rfl fun k => ?_⟩
    · exact (Function.forall_update_iff s.hilo fun k : Fin n => InvHilo n k objetivo).mpr
        ⟨hinv, fun k _ => h.hilos k⟩
    · by_cases hk : k = j
      · subst hk
        simp only [Function.update_self, hpc, hpc']
      · simp only [Function.update_of_ne hk]

/-- **Run lemma.** -/
theorem inv_reachable (h : (sistema n o objetivo).Reachable s) : Inv o objetivo s := by
  refine h.induct ?_ fun _ _ _ hs hn => inv_next hs hn
  rintro _ ⟨basura, rfl⟩
  exact inv_entra basura

/-! ### Every call returns -/

/-- Only a thread that has ended, or not begun, cannot move. -/
theorem targetSearch_eq_none {h : Hilo} (hn : targetSearch h = none) :
    h.pc = .ausente ∨ h.pc = .salido := by
  match hpc : h.pc with
  | .ausente => exact Or.inl rfl
  | .salido => exact Or.inr rfl
  | .guarda i => simp [targetSearch, hpc] at hn
  | .prueba i | .calcula i =>
    simp only [targetSearch, hpc] at hn
    split at hn <;> cases hn

theorem devuelto_eq_some {v : ℤ} : s.devuelto = some v ↔ s.pc = .devuelto v := by
  match hpc : s.pc with
  | .devuelto w => simp [devuelto, hpc]
  | .reserva | .crea _ | .une _ => simp [devuelto, hpc]

/-- A value that was returned is the error value, or the joined reports. -/
theorem Inv.valor_devuelto (h : Inv o objetivo s) {v : ℤ} (hv : s.devuelto = some v) :
    (¬ o.AllSucceed n ∧ v = EXIT_FAILURE) ∨ (o.AllSucceed n ∧ v = valor n objetivo) := by
  have hmanage := h.manage
  simpa only [InvManage, devuelto_eq_some.mp hv] using hmanage

/-- Where nothing can move, the call has returned. -/
theorem devuelto_of_stuck (h : Inv o objetivo s) (hstuck : (sistema n o objetivo).Stuck s) :
    ∃ v, s.devuelto = some v := by
  simp only [devuelto_eq_some]
  have hmanage : s.manageThreads o objetivo = none := hstuck .manage
  have hhilo : ∀ j, targetSearch (s.hilo j) = none := fun j =>
    Option.map_eq_none_iff.mp (hstuck (.hilo j))
  match hpc : s.pc with
  | .devuelto v => exact ⟨v, rfl⟩
  | .reserva =>
    simp only [manageThreads, hpc] at hmanage
    split at hmanage <;> cases hmanage
  | .crea i =>
    simp only [manageThreads, hpc] at hmanage
    split at hmanage
    · split at hmanage <;> cases hmanage
    · cases hmanage
  | .une i =>
    simp only [manageThreads, hpc] at hmanage
    split at hmanage
    · rename_i hlt
      split at hmanage
      · -- the joined thread exists, and it cannot move
        have haus := h.manage
        simp only [InvManage, hpc] at haus
        have hexit := (targetSearch_eq_none (hhilo ⟨i, hlt⟩)).resolve_left
          (haus.2.2.2.2.2 ⟨i, hlt⟩)
        simp [hexit] at hmanage
      · cases hmanage
    · cases hmanage

/-- Steps a thread still has to take, at most. A thread that does not exist yet will take no more
than the longest range needs. -/
def rangoHilo (n : ℕ) (h : Hilo) : ℕ :=
  match h.pc with
  | .ausente => 2 * (∑ j : Fin n, largo n j) + 3
  | .prueba i => 2 * (h.busqueda.max + 1 - i).toNat + 3
  | .calcula i => 2 * (h.busqueda.max + 1 - i).toNat + 2
  | .guarda _ => 1
  | .salido => 0

/-- Steps `manage_threads` still has to take, at most. -/
def rangoManage (n : ℕ) : PcHilos → ℕ
  | .reserva => 2 * n + 4
  | .crea i => 2 * n + 3 - i
  | .une i => n + 1 - i
  | .devuelto _ => 0

/-- Steps that are left, at most. -/
def medida (s : Hilos n) : ℕ := Family.total (rangoHilo n) s.hilo + rangoManage n s.pc

/-- A thread's step uses up one of its steps. -/
theorem rangoHilo_targetSearch {j : ℕ} {h h' : Hilo} (hinv : InvHilo n j objetivo h)
    (hn : targetSearch h = some h') : rangoHilo n h' < rangoHilo n h := by
  match hpc : h.pc with
  | .ausente | .salido => simp [targetSearch, hpc] at hn
  | .prueba i =>
    simp only [targetSearch, hpc] at hn
    split at hn <;> cases hn <;> simp only [rangoHilo, hpc] <;> omega
  | .calcula i =>
    simp only [InvHilo, hpc] at hinv
    have hle : i ≤ h.busqueda.max := by
      rw [hinv.1]
      exact hinv.2.2.2
    simp only [targetSearch, hpc] at hn
    split at hn <;> cases hn <;> simp only [rangoHilo, hpc] <;> omega
  | .guarda i =>
    simp only [targetSearch, hpc] at hn
    cases hn
    simp only [rangoHilo, hpc]
    omega

/-- A thread that is created has no more steps to take than were counted for it. -/
theorem rangoHilo_creado (j : Fin n) (objetivo : ℤ) {h : Hilo} (hpc : h.pc = .ausente) :
    rangoHilo n (creado n j objetivo) ≤ rangoHilo n h := by
  have hle : largo n j ≤ ∑ k : Fin n, largo n k :=
    Finset.single_le_sum (f := fun k : Fin n => largo n k) (fun _ _ => Nat.zero_le _)
      (Finset.mem_univ j)
  have hlargo : (rangoMax n j + 1 - rangoMin n j).toNat = largo n j := rfl
  simp only [rangoHilo, hpc, creado, encargo]
  omega

/-- **Termination.** Every step makes the measure smaller. -/
theorem medida_next {a : PasoHilos n} (h : Inv o objetivo s)
    (hn : next o objetivo s a = some t) : t.medida < s.medida := by
  cases a with
  | hilo j =>
    obtain ⟨h', hh', rfl⟩ := Option.map_eq_some_iff.mp hn
    have hlt := Family.total_update_lt (rangoHilo_targetSearch (h.hilos j) hh')
    simp only [medida]
    omega
  | manage =>
    have hmanage := h.manage
    rcases manageThreads_cases hn with ⟨hpc, -, rfl⟩ | ⟨i, hpc, -, rfl⟩ | ⟨i, hi, hpc, rfl⟩ |
      ⟨i, hpc, -, -, rfl⟩ | ⟨i, hi, hpc, rfl⟩ | ⟨-, hpc, rfl⟩
    · simp only [medida, hpc, rangoManage]
      omega
    · simp only [InvManage, hpc] at hmanage
      obtain ⟨hi, -, -, -, haus⟩ := hmanage
      have hcreado := rangoHilo_creado i objetivo ((haus i).mpr le_rfl)
      have htotal := Family.total_update (rangoHilo n) s.hilo i (creado n i objetivo)
      simp only [medida, hpc, rangoManage] at htotal hcreado ⊢
      omega
    · simp only [InvManage, hpc] at hmanage
      have hle := hmanage.1
      simp only [medida, hpc, rangoManage]
      omega
    · have hlt := i.isLt
      simp only [medida, hpc, rangoManage]
      omega
    · simp only [InvManage, hpc] at hmanage
      have hle := hmanage.1
      simp only [medida, hpc, rangoManage]
      omega
    · -- a failed call leaves `manage_threads` nothing to do
      rcases hpc with hpc | ⟨i, hi, hpc | hpc⟩ <;> simp only [medida, hpc, rangoManage] <;> omega

/-- **Every call ends and returns**: the error value if one of its calls failed, otherwise the
joined reports of its threads. -/
theorem ensures_devuelto (n : ℕ) (o : Outcomes) (objetivo : ℤ) :
    (sistema n o objetivo).Ensures fun s => ∃ v, s.devuelto = some v ∧
      ((¬ o.AllSucceed n ∧ v = EXIT_FAILURE) ∨ (o.AllSucceed n ∧ v = valor n objetivo)) := by
  refine System.ensures_of_measure medida (fun s a t hs hn => ?_) fun s hs hstuck => ?_
  · exact medida_next (inv_reachable hs) hn
  · have hinv := inv_reachable hs
    obtain ⟨v, hv⟩ := devuelto_of_stuck hinv hstuck
    exact ⟨v, hv, hinv.valor_devuelto hv⟩

/-! ### Completeness -/

/-- Each range ends where the next one begins. -/
theorem rangoMin_add_largo {j : ℕ} (hj : j < n) (hn : (n : ℤ) ≤ POW_LIMIT) :
    rangoMin n j + largo n j = rangoMin n (j + 1) := by
  have hle := rangoMin_mono (Nat.one_le_of_lt hj) hn (Nat.le_add_right j 1)
  have hmax := rangoMax_eq hj hn
  rw [largo, Int.toNat_of_nonneg (by omega)]
  omega

/-- The joined reports are the nonce of the target, or `-1` where no range holds it. -/
theorem valor_cases (hn : 1 ≤ n) (hn' : (n : ℤ) ≤ POW_LIMIT) (objetivo : ℤ) :
    (0 ≤ valor n objetivo ∧ valor n objetivo < rangoMin n n ∧
        powHash (valor n objetivo) = objetivo) ∨
      (valor n objetivo = -1 ∧ ∀ x, 0 ≤ x → x < rangoMin n n → powHash x ≠ objetivo) := by
  have hnonneg := rangoMin_nonneg hn hn'
  rcases Scan.join_scan_cases (p := fun x => powHash x = objetivo) (largo n) n
    fun j _ => hnonneg j with ⟨j, hj, hlow, hhigh, hhash⟩ | ⟨hnone, hall⟩
  · rw [rangoMin_add_largo hj hn'] at hhigh
    exact Or.inl ⟨(hnonneg j).trans hlow, hhigh.trans_le (rangoMin_mono hn hn' hj), hhash⟩
  · refine Or.inr ⟨hnone, fun x hx hx' => ?_⟩
    obtain ⟨j, hj, hlow, hhigh⟩ := exists_rango hn' hx hx'
    have hmax := rangoMax_eq hj hn'
    refine hall j hj x hlow ?_
    rw [rangoMin_add_largo hj hn']
    omega

/-- The call has returned the nonce of its target, as the sequential search of the third practice
does. -/
structure Encontrado (objetivo : ℤ) (v : ℤ) : Prop where
  nonneg : 0 ≤ v
  lt_limit : v < POW_LIMIT
  hash : powHash v = objetivo
  secuencial : v = P3.targetSearch objetivo

/-- The nonces below `POW_LIMIT` that no thread is given. -/
theorem rangoMin_self_le {x : ℤ} (hn : 1 ≤ n) (hn' : n ≤ MAX_THREADS) (hx' : x < POW_LIMIT) :
    rangoMin n n ≤ x ↔ n ∈ cuentasCortas ∧ x = POW_LIMIT - 1 := by
  rw [rangoMin_self hn hn']
  split
  · rename_i hcorta
    rw [and_iff_right hcorta]
    omega
  · rename_i hcorta
    exact iff_of_false (by omega) fun h => hcorta h.1

/-- The joined reports are right exactly if some thread is given the nonce of the target. -/
theorem encontrado_valor_iff (hn : 1 ≤ n) (hn' : n ≤ MAX_THREADS) (h : 0 ≤ objetivo)
    (h' : objetivo < POW_LIMIT) :
    Encontrado objetivo (valor n objetivo) ↔
      ¬ (n ∈ cuentasCortas ∧ objetivo = powHash (POW_LIMIT - 1)) := by
  have hlast : nonce objetivo = POW_LIMIT - 1 ↔ objetivo = powHash (POW_LIMIT - 1) := by
    constructor
    · intro heq
      rw [← heq, powHash_nonce h h']
    · rintro rfl
      exact (eq_nonce (by decide) (by decide) rfl).symm
  rw [← hlast, ← rangoMin_self_le hn hn' (nonce_lt objetivo), not_le]
  rcases valor_cases hn (le_limit_of_le_maxThreads hn') objetivo with
    ⟨hnonneg, hlt, hhash⟩ | ⟨hmiss, hnone⟩
  -- the ranges end below `POW_LIMIT`, so a report is the nonce itself
  · have hlimit : valor n objetivo < POW_LIMIT := by
      by_contra hge
      have hself := rangoMin_self hn hn'
      split at hself <;> omega
    refine iff_of_true ⟨hnonneg, hlimit, hhash, ?_⟩ ?_
    · exact (P3.targetSearch_eq hnonneg hlimit hhash).symm
    · rwa [← eq_nonce hnonneg hlimit hhash]
  -- no report: the nonce of the target lies beyond the ranges
  · refine iff_of_false (fun hfound => ?_) fun hlt => ?_
    · have := hfound.nonneg
      omega
    · exact hnone _ (nonce_nonneg objetivo) hlt (powHash_nonce h h')

/-- **Completeness.** Where no call fails, every run of `manage_threads` ends with the nonce of
its target, except for the last nonce and the four thread counts whose ranges miss it. -/
theorem ensures_encontrado_iff {n : ℕ} {o : Outcomes} {objetivo : ℤ} (hn : 1 ≤ n)
    (hn' : n ≤ MAX_THREADS) (h : 0 ≤ objetivo) (h' : objetivo < POW_LIMIT)
    (ho : o.AllSucceed n) :
    ((sistema n o objetivo).Ensures fun s => ∃ v, s.devuelto = some v ∧ Encontrado objetivo v) ↔
      ¬ (n ∈ cuentasCortas ∧ objetivo = powHash (POW_LIMIT - 1)) := by
  rw [← encontrado_valor_iff hn hn' h h']
  constructor
  · intro hens
    have hinit : (sistema n o objetivo).Reachable (entra fun _ => ⟨0, 0, 0, 0⟩) :=
      .init ⟨_, rfl⟩
    obtain ⟨s, hs, -, v, hv, hfound⟩ := hens.exists_stuck hinit
    rcases (inv_reachable hs).valor_devuelto hv with ⟨hnot, -⟩ | ⟨-, rfl⟩
    · exact absurd ho hnot
    · exact hfound
  · intro hfound
    refine (ensures_devuelto n o objetivo).mono fun s _ _ hs => ?_
    obtain ⟨v, hv, ⟨hnot, -⟩ | ⟨-, rfl⟩⟩ := hs
    · exact absurd ho hnot
    · exact ⟨_, hv, hfound⟩

/-- All calls succeed. -/
def sinFallos : Outcomes := ⟨true, fun _ => true, fun _ => true⟩

theorem allSucceed_sinFallos (n : ℕ) : sinFallos.AllSucceed n :=
  ⟨rfl, fun _ _ => rfl, fun _ _ => rfl⟩

/-- An instance: three threads find the nonce `1` of its target. -/
theorem ensures_encontrado_three :
    (sistema 3 sinFallos 35693286).Ensures fun s =>
      ∃ v, s.devuelto = some v ∧ Encontrado 35693286 v :=
  (ensures_encontrado_iff (by decide) (by decide) (by decide) (by decide)
    (allSucceed_sinFallos 3)).mpr (by decide)

/-- With 37 threads the last nonce belongs to none of them: its target is not found. -/
theorem not_ensures_encontrado_37 :
    1 ≤ 37 ∧ 37 ≤ MAX_THREADS ∧ (0 : ℤ) ≤ 64312683 ∧ 64312683 < POW_LIMIT ∧
      sinFallos.AllSucceed 37 ∧
      ¬ (sistema 37 sinFallos 64312683).Ensures fun s =>
        ∃ v, s.devuelto = some v ∧ Encontrado 64312683 v := by
  refine ⟨by decide, by decide, by decide, by decide, allSucceed_sinFallos 37, fun hens => ?_⟩
  have hinit : (sistema 37 sinFallos 64312683).Reachable (entra fun _ => ⟨0, 0, 0, 0⟩) :=
    .init ⟨_, rfl⟩
  obtain ⟨s, hs, -, v, hv, hfound⟩ := hens.exists_stuck hinit
  rcases (inv_reachable hs).valor_devuelto hv with ⟨hnot, -⟩ | ⟨-, rfl⟩
  · exact hnot (allSucceed_sinFallos 37)
  · exact (encontrado_valor_iff (by decide) (by decide) (by decide) (by decide)).mp hfound
      (by decide)

/-! ### Solutions and errors -/

/-- A value other than `-1` is a solution, also for the caller: the block `main` records it in
has a right proof of work. -/
structure EsSolucion (objetivo v : ℤ) : Prop where
  hash : v ≠ -1 → powHash v = objetivo
  grabada : ∀ (pid : ℤ) (b : Bloque), b.objetivo = objetivo → v ≠ -1 → Valido (minar pid v b)

/-- The caller adds nothing: it records the value it was given. -/
theorem esSolucion_iff {v : ℤ} : EsSolucion objetivo v ↔ (v ≠ -1 → powHash v = objetivo) := by
  refine ⟨EsSolucion.hash, fun h => ⟨h, fun pid b hobj hv => ?_⟩⟩
  rw [minar_valido, hobj]
  exact h hv

/-- Every value returned, in any run, is a solution or `-1`. -/
def Sound (n : ℕ) (o : Outcomes) (objetivo : ℤ) : Prop :=
  ∀ s, (sistema n o objetivo).Reachable s → ∀ v, s.devuelto = some v → EsSolucion objetivo v

/-- The joined reports never lie: a report other than `-1` is a hit. -/
theorem esSolucion_valor (n : ℕ) (objetivo : ℤ) : EsSolucion objetivo (valor n objetivo) := by
  rw [esSolucion_iff]
  intro hne
  rcases Scan.join_cases (informe n objetivo) n with ⟨j, -, heq, hrep⟩ | ⟨hmiss, -⟩
  · rcases Scan.scan_cases (p := fun x => powHash x = objetivo) (largo n j) (rangoMin n j) with
      ⟨-, -, hhash⟩ | ⟨hmiss, -⟩
    · rw [valor, heq]
      exact hhash
    · exact absurd hmiss hrep
  · exact absurd hmiss hne

/-- **Errors pass for solutions exactly where calls fail**, unless the target is the hash of the
error value. -/
theorem sound_iff {n : ℕ} {o : Outcomes} {objetivo : ℤ} :
    Sound n o objetivo ↔ o.AllSucceed n ∨ powHash EXIT_FAILURE = objetivo := by
  have herr : EsSolucion objetivo EXIT_FAILURE ↔ powHash EXIT_FAILURE = objetivo := by
    rw [esSolucion_iff, imp_iff_right (by decide)]
  rw [← herr]
  refine System.Ensures.returned_good_iff ?_ ⟨entra fun _ => ⟨0, 0, 0, 0⟩, _, rfl⟩ ?_
  · exact (ensures_devuelto n o objetivo).mono fun s _ _ ⟨v, hv, _⟩ => ⟨v, hv⟩
  · intro s hs v hv
    refine ((inv_reachable hs).valor_devuelto hv).imp_right ?_
    rintro ⟨hall, rfl⟩
    exact ⟨hall, esSolucion_valor n objetivo⟩

end Hilos

end Soper.Proyecto
