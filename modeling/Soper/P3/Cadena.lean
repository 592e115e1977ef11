import Soper.P3.Conservacion

/-!
# The chain of the third practice

The loop of the miner by itself, in whatever surroundings: each `mq_send` may succeed or fail.
Its searches start at the target `0` and go on with the solution of the round before. The hash
is a permutation of the nonces below `POW_LIMIT`, so every target on the way has a solution and
every solution is a target again: the miner never stops with `Error on miner process`, however
many rounds it is given, and the blocks it sends are the beginning of one fixed sequence
(`minaSinFallo`).

In the pipeline, where every `mq_send` succeeds in the end, the miner takes the same steps
(`Pipeline.minero_reachable`); so the monitor prints that sequence, every line of it `accepted`
(`Pipeline.impresos_cadena`).
-/

namespace Soper.P3

/-! ### The sequence of targets -/

/-- The targets of the rounds: each one is the solution of the one before. -/
def cadena : ℕ → ℤ
  | 0 => 0
  | k + 1 => targetSearch (cadena k)

/-- The blocks of the first `k` rounds. -/
def bloques (k : ℕ) : List Dato :=
  (List.range k).map fun j => resultado (cadena j) (cadena (j + 1))

/-- The least nonce of a target. -/
structure EsNonce (target solution : ℤ) : Prop where
  nonneg : 0 ≤ solution
  lt_limit : solution < POW_LIMIT
  hash : powHash solution = target
  menor : ∀ y, 0 ≤ y → y < solution → powHash y ≠ target

/-- **The search cannot fail** for a target below `POW_LIMIT`. -/
theorem esNonce_targetSearch {target : ℤ} (h : 0 ≤ target) (h' : target < POW_LIMIT) :
    EsNonce target (targetSearch target) := by
  have hhash := powHash_nonce h h'
  rw [targetSearch_eq (nonce_nonneg target) (nonce_lt target) hhash]
  refine ⟨nonce_nonneg target, nonce_lt target, hhash, fun y hy hlt heq => ?_⟩
  have hsame := eq_nonce hy (hlt.trans (nonce_lt target)) heq
  omega

/-- Every solution is a target again. -/
theorem cadena_bounds (k : ℕ) : 0 ≤ cadena k ∧ cadena k < POW_LIMIT := by
  induction k with
  | zero => exact ⟨le_rfl, by decide⟩
  | succ k ih =>
    have hnonce := esNonce_targetSearch ih.1 ih.2
    exact ⟨hnonce.nonneg, hnonce.lt_limit⟩

theorem esNonce_cadena (k : ℕ) : EsNonce (cadena k) (cadena (k + 1)) :=
  esNonce_targetSearch (cadena_bounds k).1 (cadena_bounds k).2

theorem bloques_succ (k : ℕ) :
    bloques (k + 1) = bloques k ++ [resultado (cadena k) (cadena (k + 1))] := by
  simp [bloques, List.range_succ]

theorem bloques_isPrefix {j k : ℕ} (h : j ≤ k) : bloques j <+: bloques k := by
  induction h with
  | refl => exact List.prefix_rfl
  | @step k _ ih =>
    rw [bloques_succ]
    exact ih.trans (List.prefix_append _ _)

/-- The comprobador accepts the blocks of the rounds. -/
theorem comprobar_bloques {k : ℕ} {b : Dato} (hb : b ∈ bloques k) :
    b.fin = false ∧ (comprobar b).correcto = true := by
  obtain ⟨j, -, rfl⟩ := List.mem_map.mp hb
  rw [comprobar_resultado (esNonce_cadena j).hash]
  exact ⟨rfl, rfl⟩

/-- The block of each round has its target and its solution. -/
theorem bloques_getElem? {k j : ℕ} {b : Dato} (hb : (bloques k)[j]? = some b) :
    b.objetivo = cadena j ∧ b.solucion = cadena (j + 1) := by
  rw [bloques, List.getElem?_map, Option.map_eq_some_iff] at hb
  obtain ⟨i, hi, rfl⟩ := hb
  obtain ⟨-, rfl⟩ := List.getElem?_eq_some_iff.mp hi
  rw [List.getElem_range]
  exact ⟨rfl, rfl⟩

/-! ### The loop of the miner -/

/-- What the miner prints last. -/
inductive Mensaje
  /-- `Error on miner process`. -/
  | errorMiner
  /-- `perror("mq_send")`. -/
  | mqSend
  /-- `Finishing`. -/
  | finishing
  deriving DecidableEq

/-- The miner, and the blocks it has sent. -/
structure Minero where
  pc : PcMinero
  i : ℕ
  target : ℤ
  solution : ℤ
  mensaje : Option Mensaje
  enviados : List Dato

namespace Minero

/-- One step of the miner; where it calls `mq_send`, the call succeeds if `exito` holds. -/
def next (nCycles : ℕ) (s : Minero) (exito : Bool) : Option Minero :=
  match s.pc with
  | .bucle => some { s with pc := if s.i < nCycles then .busca else .enviaFin }
  | .busca =>
    if targetSearch s.target = -1 then
      some { s with
        solution := -1, mensaje := some .errorMiner, pc := .salido EXIT_FAILURE }
    else some { s with solution := targetSearch s.target, pc := .envia }
  | .envia =>
    if exito = true then
      some { s with
        enviados := s.enviados ++ [resultado s.target s.solution]
        target := s.solution, i := s.i + 1, pc := .bucle }
    else some { s with mensaje := some .mqSend, pc := .salido EXIT_FAILURE }
  | .enviaFin =>
    if exito = true then
      some { s with
        enviados := s.enviados ++ [fin], solution := -1
        mensaje := some .finishing, pc := .salido EXIT_SUCCESS }
    else some { s with
      solution := -1, mensaje := some .mqSend, pc := .salido EXIT_FAILURE }
  | .salido _ => none

/-- The miner at the beginning of its loop. -/
def inicial : Minero where
  pc := .bucle
  i := 0
  target := 0
  solution := -1
  mensaje := none
  enviados := []

/-- The miner as a transition system; `nCycles` is its argument `n_cycles`. -/
def sistema (nCycles : ℕ) : System Minero Bool where
  Init s := s = inicial
  next := next nCycles

variable {nCycles : ℕ} {s t : Minero}

/-! ### The invariant -/

/-- What the miner has sent at each of its program points, and what it has printed. -/
def InvPc (nCycles : ℕ) (s : Minero) : Prop :=
  match s.pc with
  | .bucle => s.enviados = bloques s.i ∧ s.mensaje = none
  | .busca => s.i < nCycles ∧ s.enviados = bloques s.i ∧ s.mensaje = none
  | .envia =>
    s.i < nCycles ∧ s.solution = cadena (s.i + 1) ∧ s.enviados = bloques s.i ∧ s.mensaje = none
  | .enviaFin => s.i = nCycles ∧ s.enviados = bloques nCycles ∧ s.mensaje = none
  | .salido codigo =>
    (codigo = EXIT_SUCCESS ∧ s.enviados = bloques nCycles ++ [fin] ∧
        s.mensaje = some .finishing) ∨
      (s.enviados = bloques s.i ∧ s.mensaje = some .mqSend)

/-- What holds between any two steps. -/
structure Inv (nCycles : ℕ) (s : Minero) : Prop where
  ronda : s.i ≤ nCycles
  target : s.target = cadena s.i
  pc : InvPc nCycles s

theorem inv_inicial (nCycles : ℕ) : Inv nCycles inicial where
  ronda := Nat.zero_le _
  target := rfl
  pc := ⟨rfl, rfl⟩

/-- In each round the search ends with the least nonce of its target. -/
theorem Inv.esNonce (h : Inv nCycles s) : EsNonce s.target (targetSearch s.target) := by
  rw [h.target]
  exact esNonce_cadena s.i

/-- **Step lemma.** -/
theorem inv_next {exito : Bool} (h : Inv nCycles s) (hn : next nCycles s exito = some t) :
    Inv nCycles t := by
  obtain ⟨hronda, htarget, hinv⟩ := h
  match hpc : s.pc with
  | .salido _ => simp [next, hpc] at hn
  | .bucle =>
    simp only [InvPc, hpc] at hinv
    simp only [next, hpc] at hn
    cases hn
    refine ⟨hronda, htarget, ?_⟩
    by_cases hlt : s.i < nCycles
    · simp only [InvPc, if_pos hlt]
      exact ⟨hlt, hinv⟩
    · have hlast : s.i = nCycles := le_antisymm hronda (not_lt.mp hlt)
      simp only [InvPc, if_neg hlt]
      rw [← hlast]
      exact ⟨rfl, hinv⟩
  | .busca =>
    simp only [InvPc, hpc] at hinv
    have hnonce : EsNonce s.target (targetSearch s.target) := htarget ▸ esNonce_cadena s.i
    simp only [next, hpc] at hn
    split at hn <;> cases hn
    -- the error exit is not reached: there is a solution
    · rename_i hmiss
      have hnonneg := hnonce.nonneg
      omega
    · exact ⟨hronda, htarget, hinv.1, by rw [htarget, cadena], hinv.2⟩
  | .envia =>
    simp only [InvPc, hpc] at hinv
    obtain ⟨hlt, hsol, henv, hmen⟩ := hinv
    simp only [next, hpc] at hn
    split at hn <;> cases hn
    · refine ⟨hlt, hsol, ?_, hmen⟩
      rw [bloques_succ, henv, htarget, hsol]
    · exact ⟨hronda, htarget, Or.inr ⟨henv, rfl⟩⟩
  | .enviaFin =>
    simp only [InvPc, hpc] at hinv
    obtain ⟨hlast, henv, -⟩ := hinv
    simp only [next, hpc] at hn
    split at hn <;> cases hn
    · exact ⟨hronda, htarget, Or.inl ⟨rfl, by rw [henv], rfl⟩⟩
    · exact ⟨hronda, htarget, Or.inr ⟨by rw [henv, hlast], rfl⟩⟩

/-- **Run lemma.** -/
theorem inv_reachable (h : (sistema nCycles).Reachable s) : Inv nCycles s := by
  refine h.induct ?_ fun _ _ _ hs hn => inv_next hs hn
  rintro _ rfl
  exact inv_inicial nCycles

/-- What the miner has sent and printed, wherever it stands: the blocks of the rounds so far and
at most one error of `mq_send`, or all blocks with the finishing one. -/
theorem Inv.enviados_mensaje (h : Inv nCycles s) :
    (s.enviados = bloques s.i ∧ (s.mensaje = none ∨ s.mensaje = some .mqSend)) ∨
      (s.pc = .salido EXIT_SUCCESS ∧ s.enviados = bloques nCycles ++ [fin] ∧
        s.mensaje = some .finishing) := by
  have hinv := h.pc
  match hpc : s.pc with
  | .bucle =>
    simp only [InvPc, hpc] at hinv
    exact Or.inl ⟨hinv.1, Or.inl hinv.2⟩
  | .busca =>
    simp only [InvPc, hpc] at hinv
    exact Or.inl ⟨hinv.2.1, Or.inl hinv.2.2⟩
  | .envia =>
    simp only [InvPc, hpc] at hinv
    exact Or.inl ⟨hinv.2.2.1, Or.inl hinv.2.2.2⟩
  | .enviaFin =>
    simp only [InvPc, hpc] at hinv
    obtain ⟨hlast, henv, hmen⟩ := hinv
    exact Or.inl ⟨by rw [henv, hlast], Or.inl hmen⟩
  | .salido _ =>
    simp only [InvPc, hpc] at hinv
    rcases hinv with ⟨rfl, henv, hmen⟩ | ⟨henv, hmen⟩
    · exact Or.inr ⟨rfl, henv, hmen⟩
    · exact Or.inl ⟨henv, Or.inr hmen⟩

/-- The blocks sent are those of the first rounds, and after the last of them the finishing
block. -/
theorem Inv.enviados (h : Inv nCycles s) :
    s.enviados = bloques s.i ∨ s.enviados = bloques nCycles ++ [fin] :=
  h.enviados_mensaje.imp And.left fun hfin => hfin.2.1

theorem Inv.mensaje_ne (h : Inv nCycles s) : s.mensaje ≠ some .errorMiner := by
  rcases h.enviados_mensaje with ⟨-, hmen | hmen⟩ | ⟨-, -, hmen⟩ <;> simp [hmen]

/-! ### Termination -/

/-- Steps that are left, at most. -/
def medida (nCycles : ℕ) (s : Minero) : ℕ :=
  match s.pc with
  | .bucle => 3 * (nCycles - s.i) + 2
  | .busca => 3 * (nCycles - s.i) + 1
  | .envia => 3 * (nCycles - s.i)
  | .enviaFin => 1
  | .salido _ => 0

theorem medida_next {exito : Bool} (h : Inv nCycles s) (hn : next nCycles s exito = some t) :
    medida nCycles t < medida nCycles s := by
  have hinv := h.pc
  match hpc : s.pc with
  | .salido _ => simp [next, hpc] at hn
  | .bucle =>
    simp only [next, hpc] at hn
    cases hn
    by_cases hlt : s.i < nCycles
    · simp only [medida, hpc, if_pos hlt]
      omega
    · simp only [medida, hpc, if_neg hlt]
      omega
  | .busca =>
    simp only [next, hpc] at hn
    split at hn <;> cases hn <;> simp only [medida, hpc] <;> omega
  | .envia =>
    simp only [InvPc, hpc] at hinv
    have hlt := hinv.1
    simp only [next, hpc] at hn
    split at hn <;> cases hn <;> simp only [medida, hpc] <;> omega
  | .enviaFin =>
    simp only [next, hpc] at hn
    split at hn <;> cases hn <;> simp only [medida, hpc] <;> omega

/-- The miner cannot move only when it has exited. -/
theorem salido_of_stuck (hstuck : (sistema nCycles).Stuck s) : ∃ codigo, s.pc = .salido codigo := by
  have hnone : next nCycles s true = none := hstuck true
  match hpc : s.pc with
  | .salido codigo => exact ⟨codigo, rfl⟩
  | .bucle | .envia | .enviaFin => simp [next, hpc] at hnone
  | .busca =>
    simp only [next, hpc] at hnone
    split at hnone <;> cases hnone

/-- Where every `mq_send` succeeds, the miner does not report one that fails. -/
theorem mensaje_ne_mqSend
    (h : (sistema nCycles).ReachableBy (fun _ exito => exito = true) s) :
    s.mensaje ≠ some .mqSend := by
  refine h.induct (I := fun s => s.mensaje ≠ some .mqSend) ?_ ?_
  · rintro _ rfl
    exact nofun
  · rintro s exito t hs rfl hn
    simp only [sistema] at hn
    match hpc : s.pc with
    | .salido _ => simp [next, hpc] at hn
    | .bucle | .envia =>
      simp only [next, hpc] at hn
      cases hn
      exact hs
    | .busca =>
      simp only [next, hpc] at hn
      split at hn <;> cases hn
      · exact nofun
      · exact hs
    | .enviaFin =>
      simp only [next, hpc] at hn
      cases hn
      exact nofun

/-! ### Mining never fails -/

/-- What the miner does with `n_cycles` rounds to go. -/
structure MinaSinFallo (nCycles : ℕ) : Prop where
  /-- In each round the search ends with the least nonce of its target. -/
  busqueda : ∀ s, (sistema nCycles).Reachable s → s.pc = .busca →
    EsNonce s.target (targetSearch s.target)
  /-- The exit with `Error on miner process` is unreachable. -/
  sinError : ∀ s, (sistema nCycles).Reachable s → s.mensaje ≠ some .errorMiner
  /-- At any time the blocks sent are those of the first rounds; the finishing block comes after
  the last round. -/
  enviados : ∀ s, (sistema nCycles).Reachable s →
    (∃ k ≤ nCycles, s.enviados = bloques k) ∨ s.enviados = bloques nCycles ++ [fin]
  /-- The block of a round carries the target and the solution of this round. -/
  pares : ∀ s, (sistema nCycles).Reachable s → ∀ (j : ℕ) (b : Dato),
    s.enviados[j]? = some b → b.fin = false → b.objetivo = cadena j ∧ b.solucion = cadena (j + 1)
  /-- The comprobador would accept every block but the finishing one. -/
  aceptados : ∀ s, (sistema nCycles).Reachable s → ∀ b ∈ s.enviados,
    b.fin = false → (comprobar b).correcto = true
  /-- Every run ends, with all the rounds sent and one finishing block, or at an `mq_send` that
  fails. -/
  termina : (sistema nCycles).Ensures fun s =>
    (s.pc = .salido EXIT_SUCCESS ∧ s.enviados = bloques nCycles ++ [fin]) ∨
      s.mensaje = some .mqSend
  /-- It does not end there if every `mq_send` succeeds. -/
  envios : ∀ s, (sistema nCycles).ReachableBy (fun _ exito => exito = true) s →
    s.mensaje ≠ some .mqSend
  /-- The targets begin at zero, and each one is the hash of the next. -/
  cadena : cadena 0 = 0 ∧ ∀ k, EsNonce (cadena k) (cadena (k + 1))
  /-- There are as many blocks as rounds, none of them a finishing block. -/
  rondas : ∀ k, (bloques k).length = k ∧ ∀ b ∈ bloques k, b.fin = false

/-- **Mining never fails**, for any number of rounds. -/
theorem minaSinFallo (nCycles : ℕ) : MinaSinFallo nCycles where
  busqueda s hs _ := (inv_reachable hs).esNonce
  sinError s hs := (inv_reachable hs).mensaje_ne
  enviados s hs :=
    (inv_reachable hs).enviados.imp_left fun henv => ⟨s.i, (inv_reachable hs).ronda, henv⟩
  pares s hs j b hb hfin := by
    rcases (inv_reachable hs).enviados with henv | henv
    · rw [henv] at hb
      exact bloques_getElem? hb
    · rw [henv, List.getElem?_append] at hb
      split at hb
      · exact bloques_getElem? hb
      · obtain rfl := List.mem_singleton.mp (List.mem_of_getElem? hb)
        cases hfin
  aceptados s hs b hb hfin := by
    rcases (inv_reachable hs).enviados with henv | henv
    · rw [henv] at hb
      exact (comprobar_bloques hb).2
    · rw [henv] at hb
      rcases List.mem_append.mp hb with hb | hb
      · exact (comprobar_bloques hb).2
      · obtain rfl := List.mem_singleton.mp hb
        cases hfin
  termina := by
    refine System.ensures_of_measure (medida nCycles) (fun s a t hs hn => ?_) fun s hs hstuck => ?_
    · exact medida_next (inv_reachable hs) hn
    · obtain ⟨codigo, hpc⟩ := salido_of_stuck hstuck
      have hinv := (inv_reachable hs).pc
      simp only [InvPc, hpc] at hinv
      rcases hinv with ⟨rfl, henv, -⟩ | ⟨-, hmen⟩
      · exact Or.inl ⟨hpc, henv⟩
      · exact Or.inr hmen
  envios _ hs := mensaje_ne_mqSend hs
  cadena := ⟨rfl, esNonce_cadena⟩
  rondas k := ⟨by simp [bloques], fun _ hb => (comprobar_bloques hb).1⟩

end Minero

/-! ### The chain in the pipeline -/

namespace Pipeline

variable {nCycles : ℕ} {s t : Pipeline}

/-- The miner of the pipeline by itself. No `mq_send` fails there, so the exit code tells what it
has printed. -/
def minero (s : Pipeline) : Minero where
  pc := s.pc
  i := s.i
  target := s.target
  solution := s.solution
  mensaje :=
    match s.pc with
    | .salido codigo => if codigo = EXIT_SUCCESS then some .finishing else some .errorMiner
    | .bucle | .busca | .envia | .enviaFin => none
  enviados := s.enviados

/-- In the pipeline the miner takes the steps it takes by itself. -/
theorem minero_pasoMinero (h : s.pasoMinero nCycles = some t) :
    Minero.next nCycles s.minero true = some t.minero := by
  match hpc : s.pc with
  | .salido _ => simp [pasoMinero, hpc] at h
  | .bucle =>
    simp only [pasoMinero, hpc] at h
    cases h
    by_cases hlt : s.i < nCycles <;> simp [Minero.next, minero, hpc, hlt]
  | .busca =>
    simp only [pasoMinero, hpc] at h
    split at h <;> cases h
    · rename_i hmiss
      simp [Minero.next, minero, hpc, hmiss, EXIT_FAILURE, EXIT_SUCCESS]
    · rename_i hfound
      simp [Minero.next, minero, hpc, hfound]
  | .envia | .enviaFin =>
    simp only [pasoMinero, hpc] at h
    split at h <;> cases h
    simp [Minero.next, minero, hpc]

/-- **Projection.** A run of the pipeline is a run of the miner. -/
theorem minero_reachable (h : (sistema nCycles).Reachable s) :
    (Minero.sistema nCycles).Reachable s.minero := by
  refine h.map ?_ fun s a t _ _ hn => ?_
  · rintro _ ⟨bloque, mq, mon, rfl⟩
    rfl
  · cases a with
    | minero => exact Or.inr ⟨true, trivial, minero_pasoMinero hn⟩
    | comprobador =>
      left
      rw [frame_pasoComprobador hn]
      rfl
    | monitor =>
      left
      rw [frame_pasoMonitor hn]
      rfl

/-- A beginning of the sequence of blocks is the sequence of some number of rounds. -/
theorem eq_bloques_of_isPrefix {l : List Dato} {k : ℕ} (h : l <+: bloques k) :
    l.length ≤ k ∧ l = bloques l.length := by
  have hlen : l.length ≤ k := by simpa [bloques] using h.length_le
  refine ⟨hlen, (List.prefix_iff_eq_take.mp h).trans ?_⟩
  rw [bloques, ← List.map_take, List.take_range, Nat.min_eq_left hlen]
  rfl

/-- **The monitor prints the chain**: for any interleaving, its lines are those of the first
rounds, all `accepted`, and when it has finished those of all rounds. -/
theorem impresos_cadena (h : (sistema nCycles).Reachable s) :
    ∃ k ≤ nCycles, (s.pcMonitor = .salido → k = nCycles) ∧
      s.impresos = (List.range k).map fun j => ⟨true, cadena j, cadena (j + 1)⟩ := by
  have hminero := Minero.inv_reachable (minero_reachable h)
  obtain ⟨hechos, hrep, hlin, hnofin, hfin⟩ := (inv_reachable h).monitor
  have hpre : hechos ++ s.porImprimir <+: s.enviados := hrep ▸ extraidos_isPrefix h
  have hechosPre : hechos <+: s.enviados := (List.prefix_append _ _).trans hpre
  -- a monitor that has finished holds the finishing block
  have hmano : s.pcMonitor = .salido → hechos ++ [s.bloqueMonitor] <+: s.enviados := by
    intro hsal
    simpa only [porImprimir, hsal] using hpre
  -- the lines are those of the blocks before the finishing one
  have hbloques : hechos <+: bloques nCycles ∧
      (s.pcMonitor = .salido → hechos = bloques nCycles) := by
    have hno : ∀ k, s.pcMonitor = .salido → s.bloqueMonitor ∉ bloques k := by
      intro k hsal hmem
      have hfalse := (comprobar_bloques hmem).1
      rw [hfin hsal] at hfalse
      cases hfalse
    have henviados : s.enviados = bloques s.i ∨ s.enviados = bloques nCycles ++ [fin] :=
      hminero.enviados
    rcases henviados with henv | henv
    · rw [henv] at hechosPre hmano
      refine ⟨hechosPre.trans (bloques_isPrefix hminero.ronda), fun hsal => ?_⟩
      exact absurd ((hmano hsal).subset (by simp)) (hno s.i hsal)
    · rw [henv] at hechosPre hmano
      refine ⟨?_, fun hsal => eq_of_isPrefix_concat (hmano hsal) (hno nCycles hsal)⟩
      rcases List.prefix_concat_iff.mp hechosPre with heq | hpre'
      · have hfalse := hnofin fin (by simp [heq])
        cases hfalse
      · exact hpre'
  obtain ⟨hlen, heq⟩ := eq_bloques_of_isPrefix hbloques.1
  refine ⟨hechos.length, hlen, fun hsal => ?_, ?_⟩
  · rw [hbloques.2 hsal]
    simp [bloques]
  · rw [hlin, heq]
    simp [bloques, imprimir, resultado]

end Pipeline

end Soper.P3
