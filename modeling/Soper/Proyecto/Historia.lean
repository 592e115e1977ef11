import Soper.Proyecto.Monitor

/-!
# What comprobador and monitor have seen

Facts about the histories of `Anillo` that hold in whatever environment the two processes run:
the monitor has printed what it extracted, up to the block in its hand and without the
finishing block (`Impresion`), and, while no SIGINT is pending, the comprobador adds the blocks
it received in the order it received them (`flujo_pasoComprobador`) with the verdict of their
proof of work (`Juzgados`).
-/

namespace Soper.Proyecto.Anillo

variable {s t : Anillo}

/-! ### The monitor -/

/-- The block the monitor has extracted and not printed. After its end this is the finishing
block. -/
def porImprimir (s : Anillo) : List Bloque :=
  match s.pcMonitor with
  | .sueltaMutex | .sueltaEmpty | .mira | .salido => [s.bloqueMonitor]
  | .esperaFill | .esperaMutex | .extrae _ _ => []

/-- The monitor prints what it extracts, except the finishing block, at which it ends. -/
structure Impresion (s : Anillo) : Prop where
  reparto : s.extraidos = s.impresos ++ porImprimir s
  sinFin : ∀ b ∈ s.impresos, b.fin = false
  final : s.pcMonitor = .salido → s.bloqueMonitor.fin = true

theorem impresion_inicial (bloque : ℕ → Bloque) (mq mon : Bloque) :
    Impresion (inicial bloque mq mon) where
  reparto := rfl
  sinFin _ hb := nomatch hb
  final h := nomatch h

/-- A step that leaves the monitor alone keeps what it has printed. -/
theorem Impresion.of_eq (h : Impresion s) (hpc : t.pcMonitor = s.pcMonitor)
    (hmon : t.bloqueMonitor = s.bloqueMonitor) (hext : t.extraidos = s.extraidos)
    (himp : t.impresos = s.impresos) : Impresion t where
  reparto := by
    have hpor : porImprimir t = porImprimir s := by simp only [porImprimir, hpc, hmon]
    rw [hext, himp, hpor]
    exact h.reparto
  sinFin := himp ▸ h.sinFin
  final := by
    rw [hpc, hmon]
    exact h.final

/-- The comprobador does not touch the monitor. -/
theorem monitor_pasoComprobador (h : pasoComprobador s = some t) :
    t.pcMonitor = s.pcMonitor ∧ t.bloqueMonitor = s.bloqueMonitor ∧
      t.extraidos = s.extraidos ∧ t.impresos = s.impresos := by
  match hpc : s.pc with
  | .recibe | .salido _ => simp [pasoComprobador, hpc] at h
  | .mira | .esperaEmpty _ | .esperaMutex _ | .espera _ =>
    simp only [pasoComprobador, hpc] at h
    split at h <;> cases h <;> exact ⟨rfl, rfl, rfl, rfl⟩
  | .anade _ (_ :: _) | .anade _ [] | .sueltaMutex _ | .sueltaFill _ =>
    simp only [pasoComprobador, hpc] at h
    cases h
    exact ⟨rfl, rfl, rfl, rfl⟩

/-- The monitor's steps keep `Impresion`. -/
theorem impresion_pasoMonitor (h : Impresion s) (hn : pasoMonitor s = some t) : Impresion t := by
  have hrep := h.reparto
  match hpc : s.pcMonitor with
  | .salido => simp [pasoMonitor, hpc] at hn
  | .esperaFill | .esperaMutex =>
    simp only [pasoMonitor, hpc] at hn
    simp only [porImprimir, hpc] at hrep
    split at hn <;> cases hn
    exact ⟨hrep, h.sinFin, by rintro ⟨⟩⟩
  | .extrae ret (f :: fs) =>
    simp only [pasoMonitor, hpc] at hn
    simp only [porImprimir, hpc] at hrep
    cases hn
    exact ⟨hrep, h.sinFin, by rintro ⟨⟩⟩
  | .extrae ret [] =>
    simp only [pasoMonitor, hpc] at hn
    simp only [porImprimir, hpc, List.append_nil] at hrep
    cases hn
    exact ⟨congrArg (· ++ [ret]) hrep, h.sinFin, by rintro ⟨⟩⟩
  | .sueltaMutex | .sueltaEmpty =>
    simp only [pasoMonitor, hpc] at hn
    simp only [porImprimir, hpc] at hrep
    cases hn
    exact ⟨hrep, h.sinFin, by rintro ⟨⟩⟩
  | .mira =>
    simp only [pasoMonitor, hpc] at hn
    simp only [porImprimir, hpc] at hrep
    split at hn <;> cases hn
    · rename_i hfin
      exact ⟨hrep, h.sinFin, fun _ => hfin⟩
    -- any other block is printed
    · rename_i hfin
      have hno : s.bloqueMonitor.fin = false := Bool.eq_false_iff.mpr hfin
      refine ⟨by simpa [porImprimir] using hrep, ?_, by rintro ⟨⟩⟩
      exact List.forall_mem_append.mpr ⟨h.sinFin, List.forall_mem_singleton.mpr hno⟩

/-- Nothing is printed once a finishing block has been extracted. -/
theorem impresos_pasoMonitor_of_fin (h : Impresion s) {b : Bloque} (hb : b ∈ s.extraidos)
    (hfin : b.fin = true) (hn : pasoMonitor s = some t) : t.impresos = s.impresos := by
  have hmem : b ∈ porImprimir s := by
    rw [h.reparto] at hb
    refine (List.mem_append.mp hb).resolve_left fun himp => ?_
    rw [h.sinFin b himp] at hfin
    cases hfin
  match hpc : s.pcMonitor with
  | .salido => simp [pasoMonitor, hpc] at hn
  | .esperaFill | .esperaMutex | .extrae _ _ => simp [porImprimir, hpc] at hmem
  | .sueltaMutex | .sueltaEmpty =>
    simp only [pasoMonitor, hpc] at hn
    cases hn
    rfl
  | .mira =>
    simp only [porImprimir, hpc, List.mem_singleton] at hmem
    subst hmem
    simp only [pasoMonitor, hpc, hfin, if_true] at hn
    cases hn
    rfl

/-- Extracted blocks stay extracted. -/
theorem extraidos_pasoMonitor (hn : pasoMonitor s = some t) : s.extraidos <+: t.extraidos := by
  match hpc : s.pcMonitor with
  | .salido => simp [pasoMonitor, hpc] at hn
  | .esperaFill | .esperaMutex | .mira =>
    simp only [pasoMonitor, hpc] at hn
    split at hn <;> cases hn <;> exact List.prefix_rfl
  | .extrae ret [] =>
    simp only [pasoMonitor, hpc] at hn
    cases hn
    exact List.prefix_append _ _
  | .extrae _ (_ :: _) | .sueltaMutex | .sueltaEmpty =>
    simp only [pasoMonitor, hpc] at hn
    cases hn
    exact List.prefix_rfl

/-! ### The comprobador -/

/-- The block the comprobador has received and not yet added. -/
def enMano (s : Anillo) : List Bloque :=
  match s.pc with
  | .mira | .esperaEmpty _ | .esperaMutex _ | .anade _ _ => [s.bloqueMq]
  | .recibe | .sueltaMutex _ | .sueltaFill _ | .espera _ | .salido _ => []

/-- The received block has been judged and is being inserted. -/
def insertando : PcComprobador → Bool
  | .esperaEmpty _ | .esperaMutex _ | .anade _ _ => true
  | _ => false

/-- A block without its verdict. -/
def limpiar (b : Bloque) : Bloque := { b with correcto := false }

/-- The verdict of every block added, and of the one being inserted, is that of its proof of
work. -/
structure Juzgados (s : Anillo) : Prop where
  anadidos : ∀ b ∈ s.anadidos, b.correcto = true ↔ Valido b
  mano : insertando s.pc = true → (s.bloqueMq.correcto = true ↔ Valido s.bloqueMq)

theorem juzgados_inicial (bloque : ℕ → Bloque) (mq mon : Bloque) :
    Juzgados (inicial bloque mq mon) where
  anadidos _ hb := nomatch hb
  mano h := nomatch h

/-- **Nothing is lost in the hand of the comprobador.** Up to the verdict, the blocks added and
the one in hand are the blocks received, as long as no SIGINT is pending. -/
theorem flujo_pasoComprobador (hsint : s.sint = false) (h : pasoComprobador s = some t) :
    (t.anadidos ++ enMano t).map limpiar = (s.anadidos ++ enMano s).map limpiar ∧
      t.sint = false := by
  match hpc : s.pc with
  | .recibe | .salido _ => simp [pasoComprobador, hpc] at h
  | .mira =>
    simp only [pasoComprobador, hpc, hsint, Bool.false_eq_true, if_false] at h
    cases h
    exact ⟨by simp [enMano, hpc, comprobar_eq, limpiar], rfl⟩
  | .esperaEmpty _ | .esperaMutex _ | .espera _ =>
    simp only [pasoComprobador, hpc] at h
    split at h <;> cases h
    exact ⟨by simp [enMano, hpc], hsint⟩
  | .anade _ (_ :: _) | .anade _ [] | .sueltaMutex _ =>
    simp only [pasoComprobador, hpc] at h
    cases h
    exact ⟨by simp [enMano, hpc], hsint⟩
  | .sueltaFill m =>
    simp only [pasoComprobador, hpc] at h
    cases h
    refine ⟨?_, hsint⟩
    rcases trasInsertar_cases m s.bloqueMq with htras | htras <;> simp [enMano, hpc, htras]

/-- The comprobador's steps keep the verdicts, as long as no SIGINT is pending. -/
theorem juzgados_pasoComprobador (hsint : s.sint = false) (hj : Juzgados s)
    (h : pasoComprobador s = some t) : Juzgados t := by
  match hpc : s.pc with
  | .recibe | .salido _ => simp [pasoComprobador, hpc] at h
  | .mira =>
    simp only [pasoComprobador, hpc, hsint, Bool.false_eq_true, if_false] at h
    cases h
    refine ⟨hj.anadidos, fun _ => ?_⟩
    rw [comprobar_correcto, comprobar_eq]
    rfl
  | .esperaEmpty _ | .esperaMutex _ =>
    simp only [pasoComprobador, hpc] at h
    split at h <;> cases h
    exact ⟨hj.anadidos, fun _ => hj.mano (by rw [hpc]; rfl)⟩
  | .espera _ =>
    simp only [pasoComprobador, hpc] at h
    split at h <;> cases h
    exact ⟨hj.anadidos, by rintro ⟨⟩⟩
  | .anade _ (_ :: _) =>
    simp only [pasoComprobador, hpc] at h
    cases h
    exact ⟨hj.anadidos, fun _ => hj.mano (by rw [hpc]; rfl)⟩
  | .anade _ [] =>
    simp only [pasoComprobador, hpc] at h
    cases h
    have hmano := hj.mano (by rw [hpc]; rfl)
    refine ⟨?_, by rintro ⟨⟩⟩
    exact List.forall_mem_append.mpr ⟨hj.anadidos, List.forall_mem_singleton.mpr hmano⟩
  | .sueltaMutex _ =>
    simp only [pasoComprobador, hpc] at h
    cases h
    exact ⟨hj.anadidos, by rintro ⟨⟩⟩
  | .sueltaFill m =>
    simp only [pasoComprobador, hpc] at h
    cases h
    refine ⟨hj.anadidos, fun hi => ?_⟩
    rcases trasInsertar_cases m s.bloqueMq with htras | htras <;>
      simp [htras, insertando] at hi

/-- The monitor does not touch the comprobador. -/
theorem comprobador_pasoMonitor (h : pasoMonitor s = some t) :
    t.pc = s.pc ∧ t.bloqueMq = s.bloqueMq ∧ t.sint = s.sint ∧ t.anadidos = s.anadidos := by
  match hpc : s.pcMonitor with
  | .salido => simp [pasoMonitor, hpc] at h
  | .esperaFill | .esperaMutex | .mira =>
    simp only [pasoMonitor, hpc] at h
    split at h <;> cases h <;> exact ⟨rfl, rfl, rfl, rfl⟩
  | .extrae _ (_ :: _) | .extrae _ [] | .sueltaMutex | .sueltaEmpty =>
    simp only [pasoMonitor, hpc] at h
    cases h
    exact ⟨rfl, rfl, rfl, rfl⟩

end Soper.Proyecto.Anillo
