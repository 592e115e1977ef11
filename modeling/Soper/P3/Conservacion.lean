import Soper.P3.Pipeline

/-!
# Nothing is lost in the pipeline

The conservation law of the three processes. `Inv` follows every block from the miner's send to
the line of the monitor: blocks sent are those added to the ring, then the one in the hand of
the comprobador, then those in the queue; blocks extracted are those printed and the one in the
hand of the monitor. The order inside the ring comes from the bounded buffer.

The finishing block is the last one sent, so a monitor that has met it has extracted everything
(`SinPerdida.final`).
-/

namespace Soper.P3.Pipeline

variable {nCycles : ℕ} {s t : Pipeline}

/-- The block the comprobador has received and not yet added. -/
def mano (s : Pipeline) : List Dato :=
  match s.pcComprobador with
  | .comprueba | .esperaEmpty | .esperaMutex | .anade _ => [s.bloqueMq]
  | .recibe | .sueltaMutex | .sueltaFill | .salido => []

/-- The block the monitor has extracted and not printed. After its end this is the finishing
block. -/
def porImprimir (s : Pipeline) : List Dato :=
  match s.pcMonitor with
  | .sueltaMutex | .sueltaEmpty | .mira | .salido => [s.bloqueMonitor]
  | .esperaFill | .esperaMutex | .extrae _ _ => []

/-- The unread blocks, as they stand in the slots from `front` on. -/
def sinLeer (s : Pipeline) : List Dato :=
  (List.range (s.anadidos.length - s.extraidos.length)).map
    fun k => s.bloque ((s.front + k) % BUFFER_SIZE)

/-! ### The invariant -/

/-- What the miner keeps: the blocks it has sent will be confirmed, and only the last one, at
its end, is the finishing block. -/
structure InvMinero (s : Pipeline) : Prop where
  nonce : s.pc = .envia → powHash s.solution = s.target
  confirmados : ∀ b ∈ s.enviados, comprobar b = b
  enCurso : s.pc ≠ .salido EXIT_SUCCESS → ∀ b ∈ s.enviados, b.fin = false
  terminado : s.pc = .salido EXIT_SUCCESS →
    ∃ rondas, s.enviados = rondas ++ [fin] ∧ ∀ b ∈ rondas, b.fin = false

/-- What the monitor keeps: it has printed a line for every block it has extracted, up to the
one in its hand, and none of those was the finishing block. -/
def InvMonitor (s : Pipeline) : Prop :=
  ∃ hechos, s.extraidos = hechos ++ s.porImprimir ∧ s.impresos = hechos.map imprimir ∧
    (∀ b ∈ hechos, b.fin = false) ∧ (s.pcMonitor = .salido → s.bloqueMonitor.fin = true)

/-- Where every block sent is. -/
structure Inv (s : Pipeline) : Prop where
  minero : InvMinero s
  flujo : s.enviados = s.anadidos ++ s.mano ++ s.cola
  monitor : InvMonitor s

theorem inv_inicial (bloque : ℕ → Dato) (mq mon : Dato) : Inv (inicial bloque mq mon) where
  minero := ⟨nofun, fun _ hb => absurd hb List.not_mem_nil,
    fun _ _ hb => absurd hb List.not_mem_nil, nofun⟩
  flujo := rfl
  monitor := ⟨[], rfl, rfl, fun _ hb => absurd hb List.not_mem_nil, nofun⟩

/-- The block in the comprobador's hand was sent by the miner, so its verdict stands. -/
theorem Inv.comprobar_mano (h : Inv s) {b : Dato} (hb : b ∈ s.mano) : comprobar b = b := by
  refine h.minero.confirmados b ?_
  rw [h.flujo]
  exact List.mem_append_left _ (List.mem_append_right _ hb)

/-- The miner's steps keep what it promises about its blocks. -/
theorem invMinero_pasoMinero (h : InvMinero s) (hn : s.pasoMinero nCycles = some t) :
    InvMinero t := by
  match hpc : s.pc with
  | .salido _ => simp [pasoMinero, hpc] at hn
  | .bucle =>
    have hcurso := h.enCurso (by rw [hpc]; decide)
    simp only [pasoMinero, hpc] at hn
    cases hn
    refine ⟨fun hx => ?_, h.confirmados, fun _ => hcurso, fun hx => ?_⟩
    · simp only at hx
      split at hx <;> cases hx
    · simp only at hx
      split at hx <;> cases hx
  | .busca =>
    have hcurso := h.enCurso (by rw [hpc]; decide)
    simp only [pasoMinero, hpc] at hn
    split at hn <;> cases hn
    · refine ⟨by rintro ⟨⟩, h.confirmados, fun _ => hcurso, fun hx => ?_⟩
      exact absurd (PcMinero.salido.inj hx) (by decide)
    -- the search has a result
    · rename_i hne
      exact ⟨fun _ => powHash_targetSearch hne, h.confirmados, fun _ => hcurso,
        by rintro ⟨⟩⟩
  | .envia =>
    have hcurso := h.enCurso (by rw [hpc]; decide)
    have hnonce := h.nonce hpc
    simp only [pasoMinero, hpc] at hn
    split at hn <;> cases hn
    have hresultado := comprobar_resultado hnonce
    refine ⟨by rintro ⟨⟩, ?_, fun _ => ?_, by rintro ⟨⟩⟩
    · exact List.forall_mem_append.mpr ⟨h.confirmados, List.forall_mem_singleton.mpr hresultado⟩
    · exact List.forall_mem_append.mpr ⟨hcurso, List.forall_mem_singleton.mpr rfl⟩
  | .enviaFin =>
    have hcurso := h.enCurso (by rw [hpc]; decide)
    simp only [pasoMinero, hpc] at hn
    split at hn <;> cases hn
    refine ⟨by rintro ⟨⟩, ?_, fun hx => absurd rfl hx, fun _ => ⟨s.enviados, rfl, hcurso⟩⟩
    exact List.forall_mem_append.mpr
      ⟨h.confirmados, List.forall_mem_singleton.mpr comprobar_datoFin⟩

/-- A miner's step sends what it puts into the queue. -/
theorem nuevos_pasoMinero (hn : s.pasoMinero nCycles = some t) :
    ∃ nuevos, t.enviados = s.enviados ++ nuevos ∧ t.cola = s.cola ++ nuevos := by
  match hpc : s.pc with
  | .salido _ => simp [pasoMinero, hpc] at hn
  | .bucle =>
    simp only [pasoMinero, hpc] at hn
    cases hn
    exact ⟨[], by simp⟩
  | .busca =>
    simp only [pasoMinero, hpc] at hn
    split at hn <;> cases hn <;> exact ⟨[], by simp⟩
  | .envia | .enviaFin =>
    simp only [pasoMinero, hpc] at hn
    split at hn <;> cases hn
    exact ⟨_, rfl, rfl⟩

theorem inv_pasoMinero (h : Inv s) (hn : s.pasoMinero nCycles = some t) : Inv t := by
  have hframe := frame_pasoMinero hn
  obtain ⟨nuevos, henv, hcola⟩ := nuevos_pasoMinero hn
  refine ⟨invMinero_pasoMinero h.minero hn, ?_, ?_⟩
  · have hanad : t.anadidos = s.anadidos := by rw [hframe]
    have hmano : t.mano = s.mano := by
      rw [hframe]
      rfl
    rw [henv, hcola, hanad, hmano, h.flujo, List.append_assoc _ s.cola]
  · rw [hframe]
    exact h.monitor

/-- The comprobador's steps keep every block in its place. -/
theorem inv_pasoComprobador (h : Inv s) (hn : s.pasoComprobador = some t) : Inv t := by
  have hflujo := h.flujo
  cases hpc : s.pcComprobador with
  | salido => simp [pasoComprobador, hpc] at hn
  | recibe =>
    cases hcola : s.cola with
    | nil => simp [pasoComprobador, hpc, hcola] at hn
    | cons b resto =>
      simp only [pasoComprobador, hpc, hcola] at hn
      cases hn
      exact ⟨{ h.minero with }, by simpa [mano, hpc, hcola] using hflujo, h.monitor⟩
  | comprueba =>
    -- the verdict is the one the block was sent with
    have hsame : comprobar s.bloqueMq = s.bloqueMq := h.comprobar_mano (by simp [mano, hpc])
    simp only [pasoComprobador, hpc, hsame] at hn
    cases hn
    exact ⟨{ h.minero with }, by simpa [mano, hpc] using hflujo, h.monitor⟩
  | esperaEmpty | esperaMutex =>
    simp only [pasoComprobador, hpc] at hn
    split at hn <;> cases hn
    exact ⟨{ h.minero with }, by simpa [mano, hpc] using hflujo, h.monitor⟩
  | anade campos =>
    cases campos
    all_goals
      simp only [pasoComprobador, hpc] at hn
      cases hn
      exact ⟨{ h.minero with }, by simpa [mano, hpc] using hflujo, h.monitor⟩
  | sueltaMutex =>
    simp only [pasoComprobador, hpc] at hn
    cases hn
    exact ⟨{ h.minero with }, by simpa [mano, hpc] using hflujo, h.monitor⟩
  | sueltaFill =>
    simp only [pasoComprobador, hpc] at hn
    cases hn
    refine ⟨{ h.minero with }, ?_, h.monitor⟩
    by_cases hfin : s.bloqueMq.fin = true <;> simpa [mano, hpc, hfin] using hflujo

/-- The monitor's steps keep its account of lines. -/
theorem invMonitor_pasoMonitor (h : InvMonitor s) (hn : s.pasoMonitor = some t) :
    InvMonitor t := by
  obtain ⟨hechos, hrep, hlin, hnofin, hfin⟩ := h
  match hpc : s.pcMonitor with
  | .salido => simp [pasoMonitor, hpc] at hn
  | .esperaFill | .esperaMutex =>
    simp only [pasoMonitor, hpc] at hn
    simp only [porImprimir, hpc] at hrep
    split at hn <;> cases hn
    exact ⟨hechos, hrep, hlin, hnofin, by rintro ⟨⟩⟩
  | .extrae ret (_ :: _) | .sueltaMutex | .sueltaEmpty =>
    simp only [pasoMonitor, hpc] at hn
    simp only [porImprimir, hpc] at hrep
    cases hn
    exact ⟨hechos, hrep, hlin, hnofin, by rintro ⟨⟩⟩
  | .extrae ret [] =>
    simp only [pasoMonitor, hpc] at hn
    simp only [porImprimir, hpc, List.append_nil] at hrep
    cases hn
    exact ⟨hechos, congrArg (· ++ [ret]) hrep, hlin, hnofin, by rintro ⟨⟩⟩
  | .mira =>
    simp only [pasoMonitor, hpc] at hn
    simp only [porImprimir, hpc] at hrep
    split at hn <;> cases hn
    · rename_i hlast
      exact ⟨hechos, hrep, hlin, hnofin, fun _ => hlast⟩
    · rename_i hnot
      refine ⟨hechos ++ [s.bloqueMonitor], ?_, ?_, ?_, by rintro ⟨⟩⟩
      · simpa [porImprimir] using hrep
      · simp [hlin]
      · have hno : s.bloqueMonitor.fin = false := Bool.eq_false_iff.mpr hnot
        exact List.forall_mem_append.mpr ⟨hnofin, List.forall_mem_singleton.mpr hno⟩

theorem inv_pasoMonitor (h : Inv s) (hn : s.pasoMonitor = some t) : Inv t := by
  have hframe := frame_pasoMonitor hn
  refine ⟨?_, ?_, invMonitor_pasoMonitor h.monitor hn⟩
  · rw [hframe]
    exact { h.minero with }
  · rw [hframe]
    exact h.flujo

/-- **Step lemma.** Every step keeps every block in its place. -/
theorem inv_next {a : Turno} (h : Inv s) (hn : next nCycles s a = some t) : Inv t := by
  cases a with
  | minero => exact inv_pasoMinero h hn
  | comprobador => exact inv_pasoComprobador h hn
  | monitor => exact inv_pasoMonitor h hn

/-- **Run lemma.** -/
theorem inv_reachable (h : (sistema nCycles).Reachable s) : Inv s := by
  refine h.induct ?_ fun _ _ _ hs hn => inv_next hs hn
  rintro _ ⟨bloque, mq, mon, rfl⟩
  exact inv_inicial bloque mq mon

/-! ### Conservation -/

/-- If a list ends at an element that stands only at the end of a second list, of which it is a
beginning, the two lists are equal. -/
theorem eq_of_isPrefix_concat {α : Type} {xs l : List α} {b c : α}
    (h : xs ++ [b] <+: l ++ [c]) (hb : b ∉ l) : xs = l := by
  obtain ⟨rest, hrest⟩ := h
  rcases List.eq_nil_or_concat rest with rfl | ⟨init, d, rfl⟩
  · rw [List.append_nil] at hrest
    exact (List.append_inj' hrest rfl).1
  · refine absurd ?_ hb
    rw [List.concat_eq_append, ← List.append_assoc] at hrest
    rw [← (List.append_inj' hrest rfl).1]
    simp

/-- Nothing is lost, duplicated or reordered. -/
structure SinPerdida (s : Pipeline) : Prop where
  /-- The blocks sent are those extracted, those unread in the ring, the one in the hand of the
  comprobador and those in the queue. -/
  orden : s.enviados = s.extraidos ++ s.sinLeer ++ s.mano ++ s.cola
  /-- A line says `accepted` exactly when the hash is right. -/
  veredicto : ∀ l ∈ s.impresos, l.aceptada = true ↔ powHash l.solucion = l.objetivo
  /-- At any time the lines are those of the first blocks sent, none of them the last one. -/
  lineas : ∃ hechos, hechos <+: s.enviados ∧ (∀ b ∈ hechos, b.fin = false) ∧
    s.impresos = hechos.map imprimir
  /-- At the end there is one line for every block sent but the finishing one. -/
  final : s.pcMonitor = .salido →
    s.impresos = (s.enviados.filter fun b => !b.fin).map imprimir

/-- The blocks extracted are the first ones sent. -/
theorem extraidos_isPrefix (h : (sistema nCycles).Reachable s) : s.extraidos <+: s.enviados := by
  refine (inv_buffer h).order.trans ?_
  rw [(inv_reachable h).flujo, List.append_assoc]
  exact List.prefix_append _ _

/-- **Conservation.** For any number of rounds and any interleaving of the three processes,
nothing is lost, duplicated or reordered. -/
theorem sinPerdida_reachable (h : (sistema nCycles).Reachable s) : SinPerdida s := by
  have hinv := inv_reachable h
  have hbuf := inv_buffer h
  have hpre := extraidos_isPrefix h
  obtain ⟨hechos, hrep, hlin, hnofin, hfin⟩ := hinv.monitor
  have hechosPre : hechos <+: s.enviados := by
    refine List.IsPrefix.trans ?_ hpre
    rw [hrep]
    exact List.prefix_append _ _
  refine ⟨?_, ?_, ⟨hechos, hechosPre, hnofin, hlin⟩, fun hsal => ?_⟩
  · have hadded : s.anadidos = s.extraidos ++ s.sinLeer := hbuf.added_eq
    rw [hinv.flujo, ← hadded]
  · intro l hl
    rw [hlin] at hl
    obtain ⟨b, hb, rfl⟩ := List.mem_map.mp hl
    exact imprimir_aceptada (hinv.minero.confirmados b (hechosPre.subset hb))
  · have hrep' : s.extraidos = hechos ++ [s.bloqueMonitor] := by
      rw [hrep]
      simp [porImprimir, hsal]
    have hlast : s.bloqueMonitor ∈ s.enviados := hpre.subset (by rw [hrep']; simp)
    -- the finishing block is sent only at the end
    have hdone : s.pc = .salido EXIT_SUCCESS := by
      by_contra hne
      have hno := hinv.minero.enCurso hne _ hlast
      rw [hfin hsal] at hno
      cases hno
    obtain ⟨rondas, henv, hrondas⟩ := hinv.minero.terminado hdone
    have hnot : s.bloqueMonitor ∉ rondas := by
      intro hmem
      have hno := hrondas _ hmem
      rw [hfin hsal] at hno
      cases hno
    -- so the lines are those of all the rounds
    have heq : hechos = rondas := by
      rw [hrep', henv] at hpre
      exact eq_of_isPrefix_concat hpre hnot
    have hfilter : (rondas.filter fun b => !b.fin) = rondas :=
      List.filter_eq_self.mpr fun b hb => by simp [hrondas b hb]
    rw [hlin, henv, List.filter_append, hfilter, heq]
    simp [fin]

/-- An instance: one round, whose block and the finishing block go through to the end. -/
theorem sinPerdida_one_round :
    ∃ s : Pipeline, s.impresos.map Linea.aceptada = [true] ∧ s.enviados.length = 2 ∧
      SinPerdida s := by
  -- the nonce of the first target `0`
  let nonce : ℤ := (0 - BIG_Y) * bigXInv % POW_LIMIT
  have hsearch : targetSearch 0 = nonce :=
    targetSearch_eq (by decide) (by decide) (by decide)
  let s₀ : Pipeline := inicial (fun _ => fin) fin fin
  have hinit : (sistema 1).Reachable s₀ := .init ⟨_, _, _, rfl⟩
  have h₁ : (sistema 1).Reachable { s₀ with pc := .busca } := hinit.step (a := .minero) rfl
  have h₂ : (sistema 1).Reachable { s₀ with solution := nonce, pc := .envia } := by
    refine h₁.step (a := .minero) ?_
    simp only [sistema, next, pasoMinero, s₀, inicial, hsearch]
    rw [if_neg (by decide)]
  let turnos : List Turno := List.replicate 3 .minero ++ List.replicate 22 .comprobador ++
    List.replicate 20 .monitor
  obtain ⟨s, hs, hend⟩ : ∃ s, (sistema 1).run { s₀ with solution := nonce, pc := .envia }
      turnos = some s ∧ (s.impresos.map Linea.aceptada, s.enviados.length) = ([true], 2) :=
    Option.map_eq_some_iff.mp (by decide +kernel)
  simp only [Prod.mk.injEq] at hend
  exact ⟨s, hend.1, hend.2, sinPerdida_reachable (h₂.run hs)⟩

end Soper.P3.Pipeline
