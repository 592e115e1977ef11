import Soper.P3.Ciclo
import Soper.P3.Conservacion

/-!
# Uses of the shared segment

A monitor may use the segment before it has a size, and the comprobador destroys the semaphores
on which the monitor still waits for the last block (`not_usoVivo`). In a run in order every use
is of a live object (`usoVivo_reachableBy`). The monitor's own `sem_destroy`s need no condition:
a monitor that has met the finishing block has fetched every block, and the comprobador, which
ends at that block, has left its loop (`salido_of_monitor`).
-/

namespace Soper.P3

/-! ### The last block -/

namespace Pipeline

variable {s t : Pipeline}

/-- The block the comprobador has added and not yet signalled. After its end this is the
finishing block. -/
def porAvisar (s : Pipeline) : List Dato :=
  match s.pcComprobador with
  | .sueltaMutex | .sueltaFill | .salido => [s.bloqueMq]
  | .recibe | .comprueba | .esperaEmpty | .esperaMutex | .anade _ => []

/-- What the comprobador keeps: none of the blocks it has signalled was the finishing block, at
which it ends. -/
def InvComprobador (s : Pipeline) : Prop :=
  ∃ hechos, s.anadidos = hechos ++ s.porAvisar ∧ (∀ b ∈ hechos, b.fin = false) ∧
    (s.pcComprobador = .salido → s.bloqueMq.fin = true)

theorem invComprobador_pasoComprobador (h : InvComprobador s)
    (hn : s.pasoComprobador = some t) : InvComprobador t := by
  obtain ⟨hechos, hrep, hnofin, -⟩ := h
  match hpc : s.pcComprobador with
  | .salido => simp [pasoComprobador, hpc] at hn
  | .recibe =>
    simp only [pasoComprobador, hpc] at hn
    simp only [porAvisar, hpc] at hrep
    split at hn <;> cases hn
    exact ⟨hechos, hrep, hnofin, by rintro ⟨⟩⟩
  | .esperaEmpty | .esperaMutex =>
    simp only [pasoComprobador, hpc] at hn
    simp only [porAvisar, hpc] at hrep
    split at hn <;> cases hn
    exact ⟨hechos, hrep, hnofin, by rintro ⟨⟩⟩
  | .comprueba | .anade (_ :: _) | .sueltaMutex =>
    simp only [pasoComprobador, hpc] at hn
    simp only [porAvisar, hpc] at hrep
    cases hn
    exact ⟨hechos, hrep, hnofin, by rintro ⟨⟩⟩
  | .anade [] =>
    simp only [pasoComprobador, hpc] at hn
    simp only [porAvisar, hpc, List.append_nil] at hrep
    cases hn
    exact ⟨hechos, congrArg (· ++ [s.bloqueMq]) hrep, hnofin, by rintro ⟨⟩⟩
  | .sueltaFill =>
    simp only [pasoComprobador, hpc] at hn
    simp only [porAvisar, hpc] at hrep
    cases hn
    -- only the finishing block ends the loop
    by_cases hfin : s.bloqueMq.fin = true
    · exact ⟨hechos, by simpa [porAvisar, hfin] using hrep, hnofin, fun _ => hfin⟩
    · have hno : s.bloqueMq.fin = false := Bool.eq_false_iff.mpr hfin
      refine ⟨hechos ++ [s.bloqueMq], by simpa [porAvisar, hfin] using hrep, ?_, by simp [hfin]⟩
      exact List.forall_mem_append.mpr ⟨hnofin, List.forall_mem_singleton.mpr hno⟩

/-- A monitor that has met the finishing block has fetched every block, and the comprobador has
left its loop. -/
theorem salido_of_monitor (hbuf : BoundedBuffer.Inv BUFFER_SIZE s.buffer) (hc : InvComprobador s)
    (hm : InvMonitor s) (hpc : s.pcMonitor = .salido) :
    s.pcComprobador = .salido ∧ s.semFill = 0 := by
  obtain ⟨hechos, hrep, -, -, hfin⟩ := hm
  obtain ⟨previos, hanad, hnofin, -⟩ := hc
  have hlast : s.porImprimir = [s.bloqueMonitor] := by simp only [porImprimir, hpc]
  have horden : s.extraidos <+: s.anadidos := hbuf.order
  have hnot : s.bloqueMonitor ∉ previos := by
    intro hmem
    have := hnofin _ hmem
    rw [hfin hpc] at this
    cases this
  -- the finishing block is the one the comprobador has added last
  have hmem : s.bloqueMonitor ∈ s.anadidos := horden.subset (by rw [hrep, hlast]; simp)
  rw [hrep, hlast, hanad] at horden
  rw [hanad] at hmem
  have havisar : s.bloqueMonitor ∈ s.porAvisar := (List.mem_append.mp hmem).resolve_left hnot
  have hfill : s.semFill + (productor s.bloqueMq s.pcComprobador).owed + s.extraidos.length +
      (consumidor s.pcMonitor).claimed = s.anadidos.length := hbuf.fill
  have hlen : ∀ c, s.porAvisar = [c] → s.extraidos.length = s.anadidos.length := by
    intro c hcola
    rw [hcola] at horden
    rw [hrep, hlast, hanad, hcola, eq_of_isPrefix_concat horden hnot]
    simp
  cases hpc' : s.pcComprobador with
  | salido =>
    have := hlen s.bloqueMq (by simp only [porAvisar, hpc'])
    exact ⟨rfl, by omega⟩
  | sueltaMutex | sueltaFill =>
    have := hlen s.bloqueMq (by simp only [porAvisar, hpc'])
    simp only [hpc', productor, BoundedBuffer.Producer.owed] at hfill
    omega
  | recibe | comprueba | esperaEmpty | esperaMutex | anade _ =>
    simp [porAvisar, hpc'] at havisar

/-- Once the comprobador has left its loop and every block is fetched, the monitor does not come
back to `sem_wait(sem_fill)`. -/
theorem not_esperaFill (hbuf : BoundedBuffer.Inv BUFFER_SIZE s.buffer) (hc : InvComprobador s)
    (hm : InvMonitor s) (hpc : s.pcComprobador = .salido) (hfill : s.semFill = 0) :
    s.pcMonitor ≠ .esperaFill := by
  intro hpc'
  obtain ⟨hechos, hrep, -, hnofin, -⟩ := hm
  obtain ⟨previos, hanad, -, hfin⟩ := hc
  have horden : s.extraidos <+: s.anadidos := hbuf.order
  have htokens : s.semFill + (productor s.bloqueMq s.pcComprobador).owed + s.extraidos.length +
      (consumidor s.pcMonitor).claimed = s.anadidos.length := hbuf.fill
  simp only [hpc, hpc', hfill, productor, consumidor, BoundedBuffer.Producer.owed,
    BoundedBuffer.Consumer.claimed] at htokens
  have hall : s.extraidos = s.anadidos := horden.eq_of_length (by omega)
  have hmem : s.bloqueMq ∈ hechos := by
    have : hechos = s.anadidos := by rw [← hall, hrep]; simp [porImprimir, hpc']
    rw [this, hanad]
    simp [porAvisar, hpc]
  have := hnofin _ hmem
  rw [hfin hpc] at this
  cases this

/-- The ring keeps its invariant. -/
theorem invBuffer_of_cases (h : BoundedBuffer.Inv BUFFER_SIZE s.buffer)
    (hn : t.buffer = s.buffer ∨ ∃ e, ring.next s.buffer e = some t.buffer) :
    BoundedBuffer.Inv BUFFER_SIZE t.buffer := by
  rcases hn with heq | ⟨e, he⟩
  · rwa [heq]
  · exact BoundedBuffer.inv_next h he

end Pipeline

/-! ### The invariant -/

namespace Ciclo

variable {s t : Ciclo}

/-- The loop was left at the finishing block. -/
def saleConFin : FaseComprobador → Bool
  | .munmap false | .semDestroy _ | .acabado => true
  | .shmOpen | .ftruncate | .mmap | .indices | .semInit _ | .mqOpen | .bucle | .munmap true
  | .salido => false

/-- The monitor has left its loop. -/
def haSalido : FaseMonitor → Bool
  | .munmap | .semDestroy _ | .acabado => true
  | .shmOpen | .reabre | .desenlaza | .mmap | .bucle | .muerto => false

/-- Until the third `sem_init` nothing happens in the ring. -/
structure Previo (s : Ciclo) : Prop where
  pcComprobador : s.pipeline.pcComprobador = .recibe
  pcMonitor : s.pipeline.pcMonitor = .esperaFill
  front : s.pipeline.front = 0
  rear : s.pipeline.rear = 0
  semFill : s.pipeline.semFill = 0
  semEmpty : s.comprobador = .semInit .mutex → s.pipeline.semEmpty = BUFFER_SIZE
  anadidos : s.pipeline.anadidos = []
  extraidos : s.pipeline.extraidos = []

/-- What runs in order keep. -/
structure Inv (s : Ciclo) : Prop where
  invComprobador : Pipeline.InvComprobador s.pipeline
  invMonitor : Pipeline.InvMonitor s.pipeline
  previo : preparado s.comprobador = false → Previo s
  anillo : preparado s.comprobador = true → BoundedBuffer.Inv BUFFER_SIZE s.pipeline.buffer
  comprobador : saleConFin s.comprobador = true → s.pipeline.pcComprobador = .salido
  monitor : haSalido s.monitor = true → s.pipeline.pcMonitor = .salido
  destruidos : ∀ x, Destruido s x → s.pipeline.pcComprobador = .salido ∧ ¬ EnUso s.pipeline x

/-- A prepared segment has its size. -/
theorem truncado_of_preparado {f : FaseComprobador} (h : preparado f = true) :
    truncado f = true := by
  cases f <;> first | rfl | cases h

/-- A monitor that has come past its first `sem_wait` finds everything prepared. -/
theorem Inv.preparado_of_salido (h : Inv s) (hpc : s.pipeline.pcMonitor ≠ .esperaFill) :
    preparado s.comprobador = true := by
  by_contra hno
  exact hpc (h.previo (Bool.eq_false_iff.mpr hno)).pcMonitor

/-- What the monitor does does not bring a semaphore back into use. -/
theorem EnUso.of_pasoMonitor {p q : Pipeline} {x : Semaforo} (h : EnUso q x)
    (hn : p.pasoMonitor = some q) : EnUso p x := by
  match hpc : p.pcMonitor with
  | .salido => simp [Pipeline.pasoMonitor, hpc] at hn
  | .esperaFill =>
    simp only [Pipeline.pasoMonitor, hpc] at hn
    split at hn <;> cases hn
    rename_i hfill
    cases x with
    | fill => exact hfill
    | empty | mutex => exact Or.inl hfill
  | .esperaMutex | .mira =>
    simp only [Pipeline.pasoMonitor, hpc] at hn
    split at hn <;> cases hn <;> cases x <;> simp_all [EnUso, debeMutex, debeEmpty]
  | .extrae _ (_ :: _) | .extrae _ [] | .sueltaMutex | .sueltaEmpty =>
    simp only [Pipeline.pasoMonitor, hpc] at hn
    cases hn
    cases x <;> simp_all [EnUso, debeMutex, debeEmpty]

/-- Destroying `x` adds it to the semaphores destroyed. -/
theorem mem_destruidos_siguiente {x y : Semaforo} :
    (y ∈ destruidosComprobador (match x.siguiente with
        | some z => .semDestroy z
        | none => .acabado) → y = x ∨ y ∈ x.anteriores) ∧
      (y ∈ destruidosMonitor (match x.siguiente with
        | some z => .semDestroy z
        | none => .acabado) → y = x ∨ y ∈ x.anteriores) := by
  cases x <;> cases y <;> decide

/-- What a step in the loop of the comprobador can do. -/
theorem bucle_comprobador_cases {exito : Bool} (hpc : s.comprobador = .bucle)
    (h : pasoComprobador exito s = some t) :
    (s.pipeline.pcComprobador = .salido ∧ t = { s with comprobador := .munmap false }) ∨
      t = { s with comprobador := .munmap true } ∨
      ∃ p, s.pipeline.pasoComprobador = some p ∧ t = { s with pipeline := p } := by
  simp only [pasoComprobador, hpc] at h
  split at h
  · rename_i hsal
    cases h
    exact Or.inl ⟨hsal, rfl⟩
  · split at h
    · obtain ⟨p, hp, rfl⟩ := Option.map_eq_some_iff.mp h
      exact Or.inr (Or.inr ⟨p, hp, by rw [hpc]⟩)
    · cases h
      exact Or.inr (Or.inl rfl)
  · obtain ⟨p, hp, rfl⟩ := Option.map_eq_some_iff.mp h
    exact Or.inr (Or.inr ⟨p, hp, by rw [hpc]⟩)

/-- What a step in the loop of the monitor can do. -/
theorem bucle_monitor_cases (hpc : s.monitor = .bucle) (h : pasoMonitor s = some t) :
    (truncado s.comprobador = false ∧ t = { s with monitor := .muerto }) ∨
      (s.pipeline.pcMonitor = .salido ∧ t = { s with monitor := .munmap }) ∨
      ∃ p, s.pipeline.pasoMonitor = some p ∧ t = { s with pipeline := p } := by
  simp only [pasoMonitor, hpc] at h
  split at h
  · rename_i htrunc
    cases h
    exact Or.inl ⟨htrunc, rfl⟩
  · split at h
    · rename_i hsal
      cases h
      exact Or.inr (Or.inl ⟨hsal, rfl⟩)
    · obtain ⟨p, hp, rfl⟩ := Option.map_eq_some_iff.mp h
      exact Or.inr (Or.inr ⟨p, hp, by rw [hpc]⟩)

/-- A step that leaves the loops alone and destroys nothing. -/
theorem Inv.destruidos_of_subset (hi : Inv s) (hpipe : t.pipeline = s.pipeline)
    (hsub : ∀ x, Destruido t x → Destruido s x) (x : Semaforo) (hx : Destruido t x) :
    t.pipeline.pcComprobador = .salido ∧ ¬ EnUso t.pipeline x := by
  rw [hpipe]
  exact hi.destruidos x (hsub x hx)

/-- As long as the comprobador has not left its loop, nothing is destroyed. -/
theorem Inv.destruidos_of_dentro (hi : Inv s) (hpc : s.pipeline.pcComprobador ≠ .salido)
    (hsub : ∀ x, Destruido t x → Destruido s x) (x : Semaforo) (hx : Destruido t x) :
    t.pipeline.pcComprobador = .salido ∧ ¬ EnUso t.pipeline x :=
  absurd (hi.destruidos x (hsub x hx)).1 hpc

/-- A comprobador that has prepared the segment goes on to another phase, and leaves its ring and
the semaphores as they are. -/
theorem Inv.comprobador_avanza {f : FaseComprobador} (hi : Inv s)
    (hprep : preparado s.comprobador = true) (hf : preparado f = true)
    (hsal : saleConFin f = true → s.pipeline.pcComprobador = .salido)
    (hdes : destruidosComprobador f = []) : Inv { s with comprobador := f } :=
  { hi with
    previo := fun hno => by
      rw [hf] at hno
      cases hno
    anillo := fun _ => hi.anillo hprep
    comprobador := hsal
    destruidos := hi.destruidos_of_subset rfl fun x hx => by
      refine Or.inr (hx.resolve_left ?_)
      rw [hdes]
      exact List.not_mem_nil }

/-- The monitor goes on to another phase, likewise. -/
theorem Inv.monitor_avanza {f : FaseMonitor} (hi : Inv s)
    (hsal : haSalido f = true → s.pipeline.pcMonitor = .salido)
    (hdes : destruidosMonitor f = []) : Inv { s with monitor := f } :=
  { hi with
    previo := fun hno => { hi.previo hno with }
    monitor := hsal
    destruidos := hi.destruidos_of_subset rfl fun x hx => by
      refine Or.inl (hx.resolve_right ?_)
      rw [hdes]
      exact List.not_mem_nil }

/-- The third `sem_init` makes the segment an empty ring. -/
theorem Previo.buffer_eq (h : Previo s) (hpc : s.comprobador = .semInit .mutex) :
    (semInit s.pipeline .mutex).buffer =
      BoundedBuffer.initial BUFFER_SIZE s.pipeline.bloque := by
  obtain ⟨hc, hm, hfront, hrear, hfill, hempty, hanad, hext⟩ := h
  simp only [Pipeline.buffer, semInit, hc, hm, hfront, hrear, hfill, hempty hpc, hanad, hext]
  rfl

/-- The steps of the comprobador before its loop. -/
theorem inv_preparacion {exito : Bool} (hi : Inv s) (hprep : preparado s.comprobador = false)
    (h : pasoComprobador exito s = some t) : Inv t := by
  have hprev := hi.previo hprep
  have hpc : s.pipeline.pcComprobador ≠ .salido := by rw [hprev.pcComprobador]; nofun
  match hfase : s.comprobador with
  | .mqOpen | .bucle | .munmap _ | .semDestroy _ | .acabado | .salido =>
    simp [hfase, preparado] at hprep
  | .shmOpen | .ftruncate | .mmap =>
    simp only [pasoComprobador, hfase] at h
    cases h
    exact { hi with
      previo := fun _ => { hprev with semEmpty := nofun }
      anillo := nofun
      comprobador := nofun
      destruidos := hi.destruidos_of_dentro hpc fun x hx => Or.inr (hx.resolve_left nofun) }
  | .indices =>
    simp only [pasoComprobador, hfase] at h
    cases h
    exact { hi with
      previo := fun _ => { hprev with front := rfl, rear := rfl, semEmpty := nofun }
      anillo := nofun
      comprobador := nofun
      destruidos := hi.destruidos_of_dentro hpc fun x hx => Or.inr (hx.resolve_left nofun) }
  | .semInit .fill =>
    simp only [pasoComprobador, hfase] at h
    cases h
    exact { hi with
      previo := fun _ => { hprev with semFill := rfl, semEmpty := nofun }
      anillo := nofun
      comprobador := nofun
      destruidos := hi.destruidos_of_dentro hpc fun x hx => Or.inr (hx.resolve_left nofun) }
  | .semInit .empty =>
    simp only [pasoComprobador, hfase] at h
    cases h
    exact { hi with
      previo := fun _ => { hprev with semEmpty := fun _ => rfl }
      anillo := nofun
      comprobador := nofun
      destruidos := hi.destruidos_of_dentro hpc fun x hx => Or.inr (hx.resolve_left nofun) }
  | .semInit .mutex =>
    simp only [pasoComprobador, hfase] at h
    cases h
    exact { hi with
      previo := nofun
      anillo := fun _ => by
        rw [hprev.buffer_eq hfase]
        exact BoundedBuffer.inv_initial _
      comprobador := nofun
      destruidos := hi.destruidos_of_dentro hpc fun x hx => Or.inr (hx.resolve_left nofun) }

/-- A step of the loop of the comprobador. -/
theorem inv_bucle_comprobador {p : Pipeline} (hi : Inv s) (hfase : s.comprobador = .bucle)
    (hp : s.pipeline.pasoComprobador = some p) : Inv { s with pipeline := p } := by
  have hprep : preparado s.comprobador = true := by rw [hfase]; rfl
  have hpc : s.pipeline.pcComprobador ≠ .salido := by
    intro hsal
    simp [Pipeline.pasoComprobador, hsal] at hp
  have hframe := Pipeline.frame_pasoComprobador hp
  refine ⟨Pipeline.invComprobador_pasoComprobador hi.invComprobador hp, ?_, ?_, ?_, ?_, ?_, ?_⟩
  -- the account of the monitor reads its own fields alone
  · rw [hframe]
    exact hi.invMonitor
  · intro hno
    rw [hprep] at hno
    cases hno
  · intro _
    exact Pipeline.invBuffer_of_cases (hi.anillo hprep) (Pipeline.buffer_pasoComprobador hp)
  · rw [hfase]
    rintro ⟨⟩
  · intro hsal
    rw [hframe]
    exact hi.monitor hsal
  · exact hi.destruidos_of_dentro hpc fun _ hx => hx

/-- The steps of the comprobador. -/
theorem inv_pasoComprobador {exito : Bool} (hi : Inv s)
    (hok : ∀ x, s.comprobador = .semDestroy x → ¬ EnUso s.pipeline x)
    (h : pasoComprobador exito s = some t) : Inv t := by
  match hfase : s.comprobador with
  | .shmOpen | .ftruncate | .mmap | .indices | .semInit _ =>
    exact inv_preparacion hi (by rw [hfase]; rfl) h
  | .acabado | .salido => simp [pasoComprobador, hfase] at h
  | .mqOpen =>
    simp only [pasoComprobador, hfase] at h
    cases h
    have hprep : preparado s.comprobador = true := by rw [hfase]; rfl
    cases exito <;> exact hi.comprobador_avanza hprep rfl (by rintro ⟨⟩) rfl
  | .bucle =>
    have hprep : preparado s.comprobador = true := by rw [hfase]; rfl
    rcases bucle_comprobador_cases hfase h with ⟨hsal, rfl⟩ | rfl | ⟨p, hp, rfl⟩
    · exact hi.comprobador_avanza hprep rfl (fun _ => hsal) rfl
    · exact hi.comprobador_avanza hprep rfl (by rintro ⟨⟩) rfl
    · exact inv_bucle_comprobador hi hfase hp
  | .munmap true =>
    simp only [pasoComprobador, hfase] at h
    cases h
    exact hi.comprobador_avanza (by rw [hfase]; rfl) rfl (by rintro ⟨⟩) rfl
  | .munmap false =>
    simp only [pasoComprobador, hfase] at h
    cases h
    have hsal := hi.comprobador (by rw [hfase]; rfl)
    exact hi.comprobador_avanza (by rw [hfase]; rfl) rfl (fun _ => hsal) rfl
  | .semDestroy x =>
    have hsal := hi.comprobador (by rw [hfase]; rfl)
    -- what was destroyed before stays out of use
    have hdes : ∀ y ∈ x.anteriores, ¬ EnUso s.pipeline y := fun y hy =>
      (hi.destruidos y (Or.inl (by rw [hfase]; exact hy))).2
    have hanillo := hi.anillo (by rw [hfase]; rfl)
    have hx := hok x hfase
    simp only [pasoComprobador, hfase] at h
    cases h
    refine ⟨hi.invComprobador, hi.invMonitor, ?_, fun _ => hanillo, fun _ => hsal, hi.monitor, ?_⟩
    · cases x <;> rintro ⟨⟩
    · rintro y (hy | hy)
      · rcases mem_destruidos_siguiente.1 hy with rfl | hy
        · exact ⟨hsal, hx⟩
        · exact ⟨hsal, hdes y hy⟩
      · exact hi.destruidos y (Or.inr hy)

/-- A step of the loop of the monitor. -/
theorem inv_bucle_monitor {p : Pipeline} (hi : Inv s) (hfase : s.monitor = .bucle)
    (hprep : preparado s.comprobador = true) (hp : s.pipeline.pasoMonitor = some p) :
    Inv { s with pipeline := p } := by
  have hframe := Pipeline.frame_pasoMonitor hp
  have hcomp : p.pcComprobador = s.pipeline.pcComprobador := by rw [hframe]
  refine ⟨?_, Pipeline.invMonitor_pasoMonitor hi.invMonitor hp, ?_, ?_, ?_, ?_, ?_⟩
  · rw [hframe]
    exact hi.invComprobador
  · intro hno
    rw [hprep] at hno
    cases hno
  · intro _
    exact Pipeline.invBuffer_of_cases (hi.anillo hprep) (Pipeline.buffer_pasoMonitor hp)
  · intro hsal
    exact hcomp.trans (hi.comprobador hsal)
  · rw [hfase]
    nofun
  · intro x hx
    obtain ⟨hsal, huso⟩ := hi.destruidos x hx
    exact ⟨hcomp.trans hsal, fun hq => huso (hq.of_pasoMonitor hp)⟩

/-- The steps of the monitor. -/
theorem inv_pasoMonitor (hi : Inv s)
    (hok : s.monitor = .bucle → s.pipeline.pcMonitor = .esperaFill →
      preparado s.comprobador = true)
    (h : pasoMonitor s = some t) : Inv t := by
  match hfase : s.monitor with
  | .acabado | .muerto => simp [pasoMonitor, hfase] at h
  | .shmOpen =>
    simp only [pasoMonitor, hfase] at h
    split at h <;> cases h
    exact hi.monitor_avanza nofun rfl
  | .reabre | .desenlaza | .mmap =>
    simp only [pasoMonitor, hfase] at h
    cases h
    exact hi.monitor_avanza nofun rfl
  | .bucle =>
    have hprep : preparado s.comprobador = true := by
      by_cases hpc : s.pipeline.pcMonitor = .esperaFill
      · exact hok hfase hpc
      · exact hi.preparado_of_salido hpc
    rcases bucle_monitor_cases hfase h with ⟨htrunc, rfl⟩ | ⟨hsal, rfl⟩ | ⟨p, hp, rfl⟩
    · -- the segment has its size
      rw [truncado_of_preparado hprep] at htrunc
      cases htrunc
    · exact hi.monitor_avanza (fun _ => hsal) rfl
    · exact inv_bucle_monitor hi hfase hprep hp
  | .munmap =>
    have hsal := hi.monitor (by rw [hfase]; rfl)
    simp only [pasoMonitor, hfase] at h
    cases h
    exact hi.monitor_avanza (fun _ => hsal) rfl
  | .semDestroy x =>
    have hsal := hi.monitor (by rw [hfase]; rfl)
    have hprep := hi.preparado_of_salido (by rw [hsal]; nofun)
    obtain ⟨hcomp, hfill⟩ := Pipeline.salido_of_monitor (hi.anillo hprep) hi.invComprobador
      hi.invMonitor hsal
    -- at its end the monitor uses none of them any more
    have huso : ∀ y, ¬ EnUso s.pipeline y := by
      intro y
      cases y <;> simp [EnUso, debeMutex, debeEmpty, hfill, hsal]
    simp only [pasoMonitor, hfase] at h
    cases h
    exact { hi with
      previo := fun hno => { hi.previo hno with }
      monitor := fun _ => hsal
      destruidos := fun y _ => ⟨hcomp, huso y⟩ }

/-- **Step lemma.** A step in order keeps the invariant. -/
theorem inv_next {a : PasoCiclo} (hi : Inv s) (hok : Ordenado s a) (h : next s a = some t) :
    Inv t := by
  cases a with
  | mensaje b =>
    cases h
    exact { hi with previo := fun hno => { hi.previo hno with } }
  | comprobador exito => exact inv_pasoComprobador hi hok h
  | monitor => exact inv_pasoMonitor hi hok h

/-- Both processes start with the invariant. -/
theorem inv_inicial (bloque : ℕ → Dato) (mq mon : Dato) : Inv (inicial bloque mq mon) where
  invComprobador := ⟨[], rfl, nofun, nofun⟩
  invMonitor := ⟨[], rfl, rfl, nofun, nofun⟩
  previo := fun _ => ⟨rfl, rfl, rfl, rfl, rfl, nofun, rfl, rfl⟩
  anillo := nofun
  comprobador := nofun
  monitor := nofun
  destruidos := by rintro x (hx | hx) <;> cases hx

/-- **Run lemma.** Runs in order keep the invariant. -/
theorem inv_reachableBy (h : procesos.ReachableBy Ordenado s) : Inv s := by
  refine h.induct ?_ fun _ _ _ hi hok hn => inv_next hi hok hn
  rintro _ ⟨bloque, mq, mon, rfl⟩
  exact inv_inicial bloque mq mon

/-! ### Uses of live objects -/

/-- While the comprobador is on its way through a round, nothing is destroyed. -/
theorem Inv.usoVivo_comprobador (hi : Inv s) (hfase : s.comprobador = .bucle) {o : Objeto}
    (ho : usaComprobador s.pipeline.pcComprobador = some o) : Vivo s o := by
  have hprep : preparado s.comprobador = true := by rw [hfase]; rfl
  cases o with
  | anillo => exact hprep
  | semaforo x =>
    refine ⟨hprep, fun hx => ?_⟩
    rw [(hi.destruidos x hx).1] at ho
    cases ho

/-- What the monitor uses next it has still to use. -/
theorem Inv.usoVivo_monitor (hi : Inv s) (hprep : preparado s.comprobador = true) {o : Objeto}
    (ho : usaMonitor s.pipeline.pcMonitor = some o) : Vivo s o := by
  cases o with
  | anillo => exact hprep
  | semaforo x =>
    refine ⟨hprep, fun hx => ?_⟩
    obtain ⟨hsal, huso⟩ := hi.destruidos x hx
    match hpc : s.pipeline.pcMonitor with
    | .esperaFill =>
      rw [hpc] at ho
      cases ho
      have hfill : s.pipeline.semFill = 0 := Nat.eq_zero_of_not_pos huso
      exact Pipeline.not_esperaFill (hi.anillo hprep) hi.invComprobador hi.invMonitor hsal hfill
        hpc
    | .esperaMutex | .sueltaMutex | .sueltaEmpty =>
      rw [hpc] at ho
      cases ho
      exact huso (Or.inr (by rw [hpc]; rfl))
    | .extrae _ _ | .mira | .salido =>
      rw [hpc] at ho
      cases ho

/-- **Life cycle.** In a run in order every process uses only what is alive, for any number of
blocks and any interleaving. -/
theorem usoVivo_reachableBy {a : PasoCiclo} (h : procesos.ReachableBy Ordenado s)
    (hok : Ordenado s a) : UsoVivo s a := by
  have hi := inv_reachableBy h
  cases a with
  | mensaje b => trivial
  | comprobador exito =>
    intro hfase o ho
    exact ⟨hi.usoVivo_comprobador hfase ho, by rw [hfase]; rfl⟩
  | monitor =>
    intro hfase o ho
    have hprep : preparado s.comprobador = true := by
      by_cases hpc : s.pipeline.pcMonitor = .esperaFill
      · exact hok hfase hpc
      · exact hi.preparado_of_salido hpc
    exact ⟨hi.usoVivo_monitor hprep ho, by rw [hfase]; rfl⟩

/-! ### Runs -/

/-- A start with zeros everywhere. -/
def inicio : Ciclo := inicial (fun _ => fin) fin fin

theorem init_inicio : procesos.Init inicio := ⟨_, _, _, rfl⟩

/-- The comprobador goes on for `k` steps in which no call fails. -/
def sigueComprobador (k : ℕ) : List PasoCiclo := List.replicate k (.comprobador true)

/-- The monitor goes on for `k` steps. -/
def sigueMonitor (k : ℕ) : List PasoCiclo := List.replicate k .monitor

instance (s : Ciclo) : DecidablePred (Ordenado s)
  | .mensaje _ => isTrue trivial
  | .comprobador _ =>
    match h : s.comprobador with
    | .semDestroy x =>
      decidable_of_iff (¬ EnUso s.pipeline x)
        ⟨fun hx y hy => by rw [h] at hy; cases hy; exact hx, fun hx => hx x h⟩
    | .shmOpen | .ftruncate | .mmap | .indices | .semInit _ | .mqOpen | .bucle | .munmap _
    | .acabado | .salido => isTrue fun y hy => by rw [h] at hy; cases hy
  | .monitor =>
    match h : s.pipeline.pcMonitor with
    | .esperaFill =>
      decidable_of_iff (s.monitor = .bucle → preparado s.comprobador = true)
        ⟨fun hp hm _ => hp hm, fun hp hm => hp hm h⟩
    | .esperaMutex | .extrae _ _ | .sueltaMutex | .sueltaEmpty | .mira | .salido =>
      isTrue fun _ hpc => by rw [h] at hpc; cases hpc

/-- Where both processes stand, and what the monitor uses next. -/
def resumen (s : Ciclo) : FaseComprobador × FaseMonitor × Option Objeto :=
  (s.comprobador, s.monitor, usaMonitor s.pipeline.pcMonitor)

/-- The start of both processes: comprobador to its loop, then monitor to its loop. -/
def arranque : List PasoCiclo := sigueComprobador 8 ++ sigueMonitor 4

/-- An instance: the finishing block goes through, and the comprobador has destroyed `sem_fill`
when the monitor uses `sem_empty` for the last time. -/
theorem usoVivo_un_bloque :
    ∃ s : Ciclo, resumen s = (.semDestroy .empty, .bucle, some (.semaforo .empty)) ∧
      UsoVivo s .monitor := by
  let pasos := arranque ++ [.mensaje fin] ++ sigueComprobador 13 ++ sigueMonitor 8 ++
    sigueComprobador 1
  obtain ⟨s, hs, hfacts⟩ : ∃ s, procesos.runBy Ordenado inicio pasos = some s ∧
      resumen s = (.semDestroy .empty, .bucle, some (.semaforo .empty)) :=
    Option.map_eq_some_iff.mp (by decide +kernel)
  have hinit : procesos.ReachableBy Ordenado inicio := .init init_inicio
  have hok : Ordenado s .monitor := by
    intro _ hpc
    simp [resumen, hpc, usaMonitor] at hfacts
  exact ⟨s, hfacts, usoVivo_reachableBy (hinit.runBy hs) hok⟩

/-- Both ends go wrong. At the start, the monitor comes to `sem_wait(sem_fill)` before the
comprobador has called `ftruncate`; at the end, it comes back to it for the finishing block, and
the comprobador has destroyed all semaphores. -/
theorem not_usoVivo :
    (∃ s : Ciclo, procesos.Reachable s ∧ s.comprobador = .ftruncate ∧ ¬ UsoVivo s .monitor) ∧
      ∃ s : Ciclo, procesos.Reachable s ∧ s.comprobador = .acabado ∧ ¬ UsoVivo s .monitor := by
  have hinit : procesos.Reachable inicio := .init init_inicio
  refine ⟨?_, ?_⟩
  · obtain ⟨s, hs, hfacts⟩ : ∃ s, procesos.run inicio (sigueComprobador 1 ++ sigueMonitor 4) =
        some s ∧ resumen s = (.ftruncate, .bucle, some (.semaforo .fill)) :=
      Option.map_eq_some_iff.mp (by decide +kernel)
    simp only [resumen, Prod.mk.injEq] at hfacts
    obtain ⟨hcomp, hmon, huso⟩ := hfacts
    refine ⟨s, hinit.run hs, hcomp, fun hvivo => ?_⟩
    have hprep := (hvivo hmon _ huso).1.1
    rw [hcomp] at hprep
    cases hprep
  · obtain ⟨s, hs, hfacts⟩ : ∃ s, procesos.run inicio
        (arranque ++ [.mensaje fin] ++ sigueComprobador 16) = some s ∧
          resumen s = (.acabado, .bucle, some (.semaforo .fill)) :=
      Option.map_eq_some_iff.mp (by decide +kernel)
    simp only [resumen, Prod.mk.injEq] at hfacts
    obtain ⟨hcomp, hmon, huso⟩ := hfacts
    refine ⟨s, hinit.run hs, hcomp, fun hvivo => ?_⟩
    have hno := (hvivo hmon _ huso).1.2
    exact hno (Or.inl (by rw [hcomp]; decide))

end Ciclo

end Soper.P3
