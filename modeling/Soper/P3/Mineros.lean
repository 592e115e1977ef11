import Mathlib.Algebra.Order.BigOperators.Group.Finset
import Soper.Library.Merge
import Soper.P3.Terminacion

/-!
# Several miners

A miner that finds the queue already created opens it (`errno == EEXIST`), so any number of
miners may send to the one comprobador and its monitor. Here `m` miners have opened the queue
before the comprobador unlinks its name; each goes through its own number of rounds, and a send
to a full queue blocks. As in `Pipeline` the monitor starts after the comprobador has initialised
the segment, the semaphores are shared by both processes and stay valid, no call fails and no
signal comes.

Every miner ends with a finishing block of its own, but comprobador and monitor stop at the first
one they meet. `termina_mineros` says what becomes of all of them: no run goes on for ever; in
the end the monitor has printed exactly the messages before the first finishing block, a merge
of a beginning of each miner's chain with the whole chain of the miner that finished first; and
every other miner has exited, or is blocked for ever on a full queue that nobody reads any more.
`imprimeMezcla_reachable` says what has been printed before that.
-/

namespace Soper.P3

/-- The miners, the two processes behind the queue, and who has sent what. -/
structure Mineros (m : ℕ) where
  mineros : Fin m → Minero
  resto : Pipeline
  diario : List (Fin m × Dato)

/-- Which process goes on. -/
inductive TurnoMineros (m : ℕ)
  | minero (j : Fin m)
  | comprobador
  | monitor

/-- The message a miner is about to send. -/
def Minero.porEnviar (s : Minero) : Option Dato :=
  match s.pc with
  | .envia => some (resultado s.target s.solution)
  | .enviaFin => some fin
  | .bucle | .busca | .salido _ => none

namespace Mineros

open Merge

variable {m : ℕ} {ciclos : Fin m → ℕ} {s t : Mineros m}

/-- One step of the miner `j`; `ciclos j` is its argument `n_cycles`. -/
def pasoMinero (ciclos : Fin m → ℕ) (j : Fin m) (s : Mineros m) : Option (Mineros m) :=
  match (s.mineros j).porEnviar with
  | none =>
    (Minero.next (ciclos j) (s.mineros j) true).map fun u =>
      { s with mineros := Function.update s.mineros j u }
  | some b =>
    (s.resto.nextAbierto (.llega b)).bind fun resto =>
      (Minero.next (ciclos j) (s.mineros j) true).map fun u =>
        { mineros := Function.update s.mineros j u, resto := resto, diario := s.diario ++ [(j, b)] }

/-- One step of the processes. -/
def next (ciclos : Fin m → ℕ) (s : Mineros m) : TurnoMineros m → Option (Mineros m)
  | .minero j => s.pasoMinero ciclos j
  | .comprobador => s.resto.pasoComprobador.map fun resto => { s with resto := resto }
  | .monitor => s.resto.pasoMonitor.map fun resto => { s with resto := resto }

/-- The processes as a transition system. -/
def sistema (ciclos : Fin m → ℕ) : System (Mineros m) (TurnoMineros m) where
  Init s := ∃ bloque mq mon,
    s = ⟨fun _ => Minero.inicial, Pipeline.inicial bloque mq mon, []⟩
  next := next ciclos

/-! ### What a step does -/

/-- A miner works on its own, or sends its next message. -/
theorem pasoMinero_cases {j : Fin m} (h : s.pasoMinero ciclos j = some t) :
    ∃ u, Minero.next (ciclos j) (s.mineros j) true = some u ∧
      t.mineros = Function.update s.mineros j u ∧
      ((s.mineros j).porEnviar = none ∧ t.resto = s.resto ∧ t.diario = s.diario ∨
        ∃ b, (s.mineros j).porEnviar = some b ∧
          s.resto.nextAbierto (.llega b) = some t.resto ∧ t.diario = s.diario ++ [(j, b)]) := by
  cases henv : (s.mineros j).porEnviar with
  | none =>
    simp only [pasoMinero, henv, Option.map_eq_some_iff] at h
    obtain ⟨u, hu, rfl⟩ := h
    exact ⟨u, hu, rfl, Or.inl ⟨rfl, rfl, rfl⟩⟩
  | some b =>
    simp only [pasoMinero, henv, Option.bind_eq_some_iff, Option.map_eq_some_iff] at h
    obtain ⟨resto, hresto, u, hu, rfl⟩ := h
    exact ⟨u, hu, rfl, Or.inr ⟨b, rfl, hresto, rfl⟩⟩

/-- What a miner sends is what it was about to send. -/
theorem enviados_next {n : ℕ} {u v : Minero} (h : Minero.next n u true = some v) :
    v.enviados = u.enviados ++ u.porEnviar.toList := by
  match hpc : u.pc with
  | .salido _ => simp [Minero.next, hpc] at h
  | .bucle | .envia | .enviaFin =>
    simp only [Minero.next, hpc] at h
    cases h
    simp [Minero.porEnviar, hpc]
  | .busca =>
    simp only [Minero.next, hpc] at h
    split at h <;> cases h <;> simp [Minero.porEnviar, hpc]

/-! ### Projections -/

/-- **Projection.** Each miner runs as it does by itself. -/
theorem minero_reachable (h : (sistema ciclos).Reachable s) (j : Fin m) :
    (Minero.sistema (ciclos j)).ReachableBy (fun _ exito => exito = true) (s.mineros j) := by
  refine h.map (f := fun s => s.mineros j) ?_ fun s a t _ _ hn => ?_
  · rintro _ ⟨bloque, mq, mon, rfl⟩
    rfl
  · cases a with
    | minero i =>
      obtain ⟨u, hu, hmin, -⟩ := pasoMinero_cases hn
      simp only [hmin]
      by_cases hij : j = i
      · subst hij
        exact Or.inr ⟨true, rfl, by rwa [Function.update_self]⟩
      · exact Or.inl (Function.update_of_ne hij _ _)
    | comprobador | monitor =>
      obtain ⟨resto, -, rfl⟩ := Option.map_eq_some_iff.mp hn
      exact Or.inl rfl

/-- **Projection.** Comprobador and monitor run as they do in any surroundings. -/
theorem resto_reachable (h : (sistema ciclos).Reachable s) :
    Pipeline.abierto.Reachable s.resto := by
  refine h.map ?_ fun s a t _ _ hn => ?_
  · rintro _ ⟨bloque, mq, mon, rfl⟩
    exact ⟨bloque, mq, mon, rfl⟩
  · cases a with
    | minero i =>
      obtain ⟨u, -, -, ⟨-, hresto, -⟩ | ⟨b, -, hresto, -⟩⟩ := pasoMinero_cases hn
      · exact Or.inl hresto
      · exact Or.inr ⟨.llega b, trivial, hresto⟩
    | comprobador =>
      obtain ⟨resto, hresto, rfl⟩ := Option.map_eq_some_iff.mp hn
      exact Or.inr ⟨.comprobador, trivial, hresto⟩
    | monitor =>
      obtain ⟨resto, hresto, rfl⟩ := Option.map_eq_some_iff.mp hn
      exact Or.inr ⟨.monitor, trivial, hresto⟩

/-- The journal lists the messages of the queue, each with its sender. -/
structure InvDiario (s : Mineros m) : Prop where
  mensajes : s.diario.map Prod.snd = s.resto.enviados
  autores : ∀ j, sentBy j s.diario = (s.mineros j).enviados

theorem invDiario_next {a : TurnoMineros m} (h : InvDiario s)
    (hn : next ciclos s a = some t) : InvDiario t := by
  cases a with
  | minero i =>
    obtain ⟨u, hu, hmin, hcase⟩ := pasoMinero_cases hn
    have henv := enviados_next hu
    rcases hcase with ⟨hnone, hresto, hdiario⟩ | ⟨b, hsome, hresto, hdiario⟩
    · rw [hnone, Option.toList_none, List.append_nil] at henv
      refine ⟨by rw [hdiario, hresto, h.mensajes], fun j => ?_⟩
      rw [hdiario, h.autores, hmin]
      by_cases hij : j = i
      · subst hij
        rw [Function.update_self, henv]
      · rw [Function.update_of_ne hij]
    · rw [hsome, Option.toList_some] at henv
      have hmen : t.resto.enviados = s.resto.enviados ++ [b] := by
        simp only [Pipeline.nextAbierto] at hresto
        split at hresto
        · rw [← Option.some.inj hresto]
        · cases hresto
      refine ⟨by simp [hdiario, h.mensajes, hmen], fun j => ?_⟩
      rw [hdiario, sentBy_append, h.autores, hmin]
      by_cases hij : j = i
      · subst hij
        rw [Function.update_self, henv, sentBy_singleton_self]
      · rw [Function.update_of_ne hij, sentBy_singleton_of_ne (Ne.symm hij), List.append_nil]
  | comprobador =>
    obtain ⟨resto, hresto, rfl⟩ := Option.map_eq_some_iff.mp hn
    refine ⟨?_, h.autores⟩
    rw [Pipeline.frame_pasoComprobador hresto]
    exact h.mensajes
  | monitor =>
    obtain ⟨resto, hresto, rfl⟩ := Option.map_eq_some_iff.mp hn
    refine ⟨?_, h.autores⟩
    rw [Pipeline.frame_pasoMonitor hresto]
    exact h.mensajes

theorem invDiario_reachable (h : (sistema ciclos).Reachable s) : InvDiario s := by
  refine h.induct ?_ fun _ _ _ hs hn => invDiario_next hs hn
  rintro _ ⟨bloque, mq, mon, rfl⟩
  exact ⟨rfl, fun _ => rfl⟩

/-! ### What is printed -/

/-- The journal before the first finishing block. -/
def antesDelFin (l : List (Fin m × Dato)) : List (Fin m × Dato) :=
  EndMarker.before (fun e => e.2.fin) l

/-- None of a miner's messages before the first finishing block is one. -/
theorem fin_of_mem_antesDelFin {l : List (Fin m × Dato)} {j : Fin m} {b : Dato}
    (hb : b ∈ sentBy j (antesDelFin l)) : b.fin = false :=
  EndMarker.not_marker (p := fun e : Fin m × Dato => e.2.fin) (mem_sentBy_iff.mp hb)

/-- The part of a miner before the first finishing block is the beginning of its chain. -/
theorem exists_bloques (h : (sistema ciclos).Reachable s) (j : Fin m) :
    ∃ k ≤ ciclos j, sentBy j (antesDelFin s.diario) = bloques k := by
  have hpre : sentBy j (antesDelFin s.diario) <+: (s.mineros j).enviados := by
    rw [← (invDiario_reachable h).autores j]
    exact sentBy_isPrefix (EndMarker.before_isPrefix _ _) j
  have hnofin : ∀ b ∈ sentBy j (antesDelFin s.diario), b.fin = false := fun _ hb =>
    fin_of_mem_antesDelFin hb
  have hminero := Minero.inv_reachable (minero_reachable h j).reachable
  have hbloques : sentBy j (antesDelFin s.diario) <+: bloques (ciclos j) := by
    rcases hminero.enviados with henv | henv
    · rw [henv] at hpre
      exact hpre.trans (bloques_isPrefix hminero.ronda)
    · rw [henv] at hpre
      rcases List.prefix_concat_iff.mp hpre with heq | hpre'
      · have hno := hnofin fin (by simp [heq])
        cases hno
      · exact hpre'
  exact ⟨_, Pipeline.eq_bloques_of_isPrefix hbloques⟩

/-- A miner that has sent a finishing block has exited, and that block was its last one. -/
theorem salido_of_fin (h : (sistema ciclos).Reachable s) {j : Fin m} {b : Dato}
    (hb : b ∈ (s.mineros j).enviados) (hfin : b.fin = true) :
    (s.mineros j).pc = .salido EXIT_SUCCESS ∧
      (s.mineros j).enviados = bloques (ciclos j) ++ [fin] := by
  have hminero := Minero.inv_reachable (minero_reachable h j).reachable
  rcases hminero.enviados_mensaje with ⟨henv, -⟩ | ⟨hpc, henv, -⟩
  · rw [henv] at hb
    rw [(comprobar_bloques hb).1] at hfin
    cases hfin
  · exact ⟨hpc, henv⟩

/-- The miner `j` has finished first: the first finishing block of the journal is its own, and
before it there is its whole chain. -/
structure Primero (ciclos : Fin m → ℕ) (s : Mineros m) (j : Fin m) : Prop where
  fin : ∃ b despues, s.diario = antesDelFin s.diario ++ (j, b) :: despues ∧ b.fin = true
  cadena : sentBy j (antesDelFin s.diario) = bloques (ciclos j)
  pc : (s.mineros j).pc = .salido EXIT_SUCCESS

/-- Where there is a finishing block, some miner has finished first. -/
theorem exists_primero (h : (sistema ciclos).Reachable s)
    (hfin : ∃ b ∈ s.resto.enviados, b.fin = true) : ∃ j, Primero ciclos s j := by
  have hdiario := invDiario_reachable h
  obtain ⟨b, hb, hbfin⟩ := hfin
  rw [← hdiario.mensajes] at hb
  obtain ⟨e, he, rfl⟩ := List.mem_map.mp hb
  -- the journal goes on after its part before the first finishing block
  obtain ⟨⟨j, c⟩, despues, hc, hsplit⟩ :=
    EndMarker.exists_eq_append (p := fun e : Fin m × Dato => e.2.fin) ⟨e, he, hbfin⟩
  have henv : (s.mineros j).enviados =
      sentBy j (antesDelFin s.diario) ++ c :: sentBy j despues := by
    calc (s.mineros j).enviados = sentBy j (antesDelFin s.diario ++ ([(j, c)] ++ despues)) := by
          rw [← hdiario.autores j, List.singleton_append]
          exact congrArg (sentBy j) hsplit
      _ = sentBy j (antesDelFin s.diario) ++ c :: sentBy j despues := by
          rw [sentBy_append, sentBy_append, sentBy_singleton_self, List.singleton_append]
  have hmem : c ∈ (s.mineros j).enviados := by simp [henv]
  obtain ⟨hpc, hall⟩ := salido_of_fin h hmem hc
  have hpre : sentBy j (antesDelFin s.diario) ++ [c] <+: bloques (ciclos j) ++ [fin] := by
    rw [← hall, henv]
    exact ⟨sentBy j despues, by simp⟩
  refine ⟨j, ⟨c, despues, hsplit, hc⟩, ?_, hpc⟩
  rw [← EndMarker.before_eq (p := Dato.fin) hpre (fun _ hb => fin_of_mem_antesDelFin hb) hc,
    EndMarker.before_eq (p := Dato.fin) List.prefix_rfl (fun b hb => (comprobar_bloques hb).1) rfl]

/-- The lines of the monitor, against the chains of the miners. -/
structure ImprimeMezcla (ciclos : Fin m → ℕ) (s : Mineros m) : Prop where
  /-- The lines are those of the messages before the first finishing block, in their order. -/
  lineas : s.resto.impresos <+: (antesDelFin s.diario).map fun e => linea e.2
  /-- The comprobador accepts every block. -/
  aceptadas : ∀ l ∈ s.resto.impresos, l.aceptada = true
  /-- What counts of each miner is a beginning of its chain. -/
  orden : ∀ j, ∃ k ≤ ciclos j, sentBy j (antesDelFin s.diario) = bloques k
  /-- A monitor that has finished has printed all of it, among it the whole chain of the miner
  that has finished first. -/
  final : s.resto.pcMonitor = .salido →
    (s.resto.impresos = (antesDelFin s.diario).map fun e => linea e.2) ∧
      ∃ j, Primero ciclos s j

theorem map_linea_antesDelFin (h : InvDiario s) :
    (antesDelFin s.diario).map (fun e => linea e.2) = (hastaFin s.resto.enviados).map linea := by
  rw [← h.mensajes, hastaFin, ← EndMarker.map_before, List.map_map]
  rfl

/-- Each block of a chain is accepted. -/
theorem linea_bloques {k : ℕ} {b : Dato} (hb : b ∈ bloques k) : (linea b).aceptada = true := by
  have hcorrecto := (comprobar_bloques hb).2
  simp [linea, imprimir, hcorrecto]

/-- What the monitor prints up to the first finishing block, split by miner. -/
theorem imprimeMezcla_of_imprime (h : (sistema ciclos).Reachable s)
    (hprint : s.resto.ImprimeHastaFin) : ImprimeMezcla ciclos s := by
  have hdiario := invDiario_reachable h
  have hlineas : s.resto.impresos <+: (antesDelFin s.diario).map fun e => linea e.2 := by
    rw [map_linea_antesDelFin hdiario]
    exact hprint.lineas
  refine ⟨hlineas, fun l hl => ?_, exists_bloques h, fun hsal => ?_⟩
  · obtain ⟨⟨j, b⟩, he, rfl⟩ := List.mem_map.mp (hlineas.subset hl)
    obtain ⟨k, -, hk⟩ := exists_bloques h j
    exact linea_bloques (hk ▸ mem_sentBy_iff.mpr he)
  · obtain ⟨hfin, himp⟩ := hprint.final hsal
    exact ⟨by rw [himp, map_linea_antesDelFin hdiario], exists_primero h hfin⟩

/-- The pipeline behind the miners prints up to the first finishing block. -/
theorem imprimeHastaFin_resto (h : (sistema ciclos).Reachable s) : s.resto.ImprimeHastaFin :=
  Pipeline.imprimeHastaFin_of_inv (Pipeline.invAbierto_reachable (resto_reachable h))
    (Pipeline.ring_abierto (resto_reachable h))

/-! ### No run goes on for ever -/

/-- Messages the miners send, at most. -/
def mensajes (ciclos : Fin m → ℕ) : ℕ := ∑ j, (ciclos j + 1)

theorem enviados_le (h : (sistema ciclos).Reachable s) :
    s.resto.enviados.length ≤ mensajes ciclos := by
  have hdiario := invDiario_reachable h
  rw [← hdiario.mensajes, List.length_map, length_eq_sum]
  refine Finset.sum_le_sum fun j _ => ?_
  have hminero := Minero.inv_reachable (minero_reachable h j).reachable
  rw [hdiario.autores]
  rcases hminero.enviados with henv | henv
  · have hle := hminero.ronda
    simp only [henv, bloques, List.length_map, List.length_range]
    omega
  · simp [henv, bloques]

/-- Steps of the processes that are left, at most. -/
def medida (ciclos : Fin m → ℕ) (s : Mineros m) : ℕ :=
  ∑ j, Minero.medida (ciclos j) (s.mineros j) + s.resto.trabajo (mensajes ciclos)

/-- **Every step is a step nearer to the end.** -/
theorem medida_next {a : TurnoMineros m} (h : (sistema ciclos).Reachable s)
    (hn : next ciclos s a = some t) : medida ciclos t < medida ciclos s := by
  have hresto := resto_reachable h
  have hring := Pipeline.ring_abierto hresto
  have hrec : ∀ u, (sistema ciclos).Reachable u → u.resto.recibidos ≤ mensajes ciclos := fun u hu =>
    (Nat.le_add_right _ _).trans
      ((Pipeline.invAbierto_reachable (resto_reachable hu)).recibidos_le.trans_le (enviados_le hu))
  unfold medida
  cases a with
  | minero i =>
    obtain ⟨u, hu, hmin, hcase⟩ := pasoMinero_cases hn
    have hminero := Minero.inv_reachable (minero_reachable h i).reachable
    have hlt : ∑ j, Minero.medida (ciclos j) (t.mineros j) <
        ∑ j, Minero.medida (ciclos j) (s.mineros j) := by
      refine Finset.sum_lt_sum (fun j _ => ?_) ⟨i, Finset.mem_univ i, ?_⟩
      · rw [hmin]
        by_cases hij : j = i
        · subst hij
          rw [Function.update_self]
          exact (Minero.medida_next hminero hu).le
        · rw [Function.update_of_ne hij]
      · rw [hmin, Function.update_self]
        exact Minero.medida_next hminero hu
    have hsame : t.resto.trabajo (mensajes ciclos) = s.resto.trabajo (mensajes ciclos) := by
      rcases hcase with ⟨-, heq, -⟩ | ⟨b, -, heq, -⟩
      · rw [heq]
      · simp only [Pipeline.nextAbierto] at heq
        split at heq
        · rw [← Option.some.inj heq]
          rfl
        · cases heq
    omega
  | comprobador =>
    have hsig := hrec t (h.step (a := .comprobador) hn)
    obtain ⟨resto, hr, rfl⟩ := Option.map_eq_some_iff.mp hn
    exact Nat.add_lt_add_left (Pipeline.trabajo_pasoComprobador hring hr hsig) _
  | monitor =>
    obtain ⟨resto, hr, rfl⟩ := Option.map_eq_some_iff.mp hn
    have hinv := Pipeline.invAbierto_reachable hresto
    exact Nat.add_lt_add_left (Pipeline.trabajo_pasoMonitor hinv hring hr (hrec s h)) _

/-! ### Where it ends -/

/-- A miner that cannot move has exited, or has a message for a full queue. -/
theorem pasoMinero_eq_none {j : Fin m} (h : s.pasoMinero ciclos j = none) :
    (∃ codigo, (s.mineros j).pc = .salido codigo) ∨
      ((∃ b, (s.mineros j).porEnviar = some b) ∧ MAX_MSG ≤ s.resto.cola.length) := by
  cases hpc : (s.mineros j).pc with
  | salido codigo => exact Or.inl ⟨codigo, rfl⟩
  | bucle | busca =>
    have hnone : (s.mineros j).porEnviar = none := by simp [Minero.porEnviar, hpc]
    simp only [pasoMinero, hnone, Option.map_eq_none_iff, Minero.next, hpc] at h
    first
      | cases h
      | split at h <;> cases h
  | envia | enviaFin =>
    right
    cases hb : (s.mineros j).porEnviar with
    | none => simp [Minero.porEnviar, hpc] at hb
    | some b =>
      refine ⟨⟨b, rfl⟩, ?_⟩
      by_contra hroom
      simp [pasoMinero, hb, Pipeline.nextAbierto, not_le.mp hroom, Minero.next, hpc] at h

/-- A miner that has exited has sent all its blocks. -/
theorem enviados_of_salido (h : (sistema ciclos).Reachable s) {j : Fin m} {codigo : ℤ}
    (hpc : (s.mineros j).pc = .salido codigo) :
    codigo = EXIT_SUCCESS ∧ (s.mineros j).enviados = bloques (ciclos j) ++ [fin] := by
  have hreach := minero_reachable h j
  have hinv := (Minero.inv_reachable hreach.reachable).pc
  simp only [Minero.InvPc, hpc] at hinv
  rcases hinv with ⟨hcod, henv, -⟩ | ⟨-, hmen⟩
  · exact ⟨hcod, henv⟩
  · exact absurd hmen (Minero.mensaje_ne_mqSend hreach)

/-- The end of the processes. -/
structure Terminado (ciclos : Fin m → ℕ) (s : Mineros m) : Prop where
  comprobador : s.resto.pcComprobador = .salido
  monitor : s.resto.pcMonitor = .salido
  impresos : ImprimeMezcla ciclos s
  /-- A miner has sent all its blocks and exited, or has a message for a queue that stays
  full. -/
  mineros : ∀ j, ((s.mineros j).pc = .salido EXIT_SUCCESS ∧
      (s.mineros j).enviados = bloques (ciclos j) ++ [fin]) ∨
    (∃ b, (s.mineros j).porEnviar = some b) ∧ s.resto.cola.length = MAX_MSG

/-- **Where the processes cannot go on**, they have come to their end. -/
theorem terminado_of_stuck (hm : 0 < m) (h : (sistema ciclos).Reachable s)
    (hstuck : (sistema ciclos).Stuck s) : Terminado ciclos s := by
  have hresto := resto_reachable h
  have hcomp : s.resto.pasoComprobador = none := Option.map_eq_none_iff.mp (hstuck .comprobador)
  have hmon : s.resto.pasoMonitor = none := Option.map_eq_none_iff.mp (hstuck .monitor)
  rcases Pipeline.quietos_of_parados (Pipeline.invAbierto_reachable hresto)
    (Pipeline.ring_abierto hresto) hcomp hmon with ht | hesp
  · refine ⟨ht.comprobador, ht.monitor,
      imprimeMezcla_of_imprime h (imprimeHastaFin_resto h), fun j => ?_⟩
    rcases pasoMinero_eq_none (hstuck (.minero j)) with ⟨codigo, hpc⟩ | ⟨hmen, hfull⟩
    · obtain ⟨rfl, henv⟩ := enviados_of_salido h hpc
      exact Or.inl ⟨hpc, henv⟩
    · exact Or.inr ⟨hmen, le_antisymm (Pipeline.cola_le hresto) hfull⟩
  · -- the queue is empty, so the first miner has exited, and its finishing block was never met
    rcases pasoMinero_eq_none (hstuck (.minero ⟨0, hm⟩)) with ⟨codigo, hpc⟩ | ⟨-, hfull⟩
    · have henv := (enviados_of_salido h hpc).2
      have hdiario := invDiario_reachable h
      have hmem : fin ∈ s.resto.enviados := by
        rw [← hdiario.mensajes]
        refine (sentBy_sublist ⟨0, hm⟩ s.diario).subset ?_
        rw [hdiario.autores, henv]
        simp
      have hno := hesp.sinFin fin hmem
      cases hno
    · rw [hesp.cola] at hfull
      exact absurd hfull (by decide)

/-- **Several miners.** For any number of miners, any numbers of rounds and any interleaving, the
processes come to an end, as long as no call fails, no signal comes, and the semaphores are shared
and valid from the start to the end. -/
theorem termina_mineros (ciclos : Fin m → ℕ) (hm : 0 < m) :
    (sistema ciclos).Ensures (Terminado ciclos) :=
  System.ensures_of_measure (medida ciclos) (fun _ _ _ hs hn => medida_next hs hn)
    fun _ hs hstuck => terminado_of_stuck hm hs hstuck

/-- An instance: two miners, of one round and of two. -/
theorem termina_mineros_two :
    (sistema fun j : Fin 2 => (j : ℕ) + 1).Ensures (Terminado fun j : Fin 2 => (j : ℕ) + 1) :=
  termina_mineros (fun j : Fin 2 => (j : ℕ) + 1) (by decide)

end Mineros

end Soper.P3
