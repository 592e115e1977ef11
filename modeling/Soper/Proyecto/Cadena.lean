import Soper.Proyecto.Bucle
import Soper.Proyecto.Sistema

/-!
# The chain of blocks

The blocks of a run of the mining loop in which every search succeeds. The target of a round is
the solution of the round before, so the blocks written to the Registrador form a chain
(`encadenado_reachableBy`): they are numbered from one on, each carries a proof of work for the
solution of its predecessor, one vote of one, and one coin for each block so far. At the head of
the loop the current block is ready to be the next one.

The number of the next block is an `int` that nobody bounds: after `2 ^ 31 - 1` rounds it has
left its range (`not_siguiente_overflow`).

The miner of the whole project takes the same steps (`Sistema.bucle_reachableBy`), so what the
Registrador logs is a beginning of such a chain (`Sistema.registro_encadenado`).
-/

namespace Soper.Proyecto

namespace Bucle

/-- The search has returned a solution of its target. -/
def Acierta (objetivo v : ℤ) : Prop := 0 ≤ v ∧ v < POW_LIMIT ∧ powHash v = objetivo

/-- A block that continues a chain. -/
structure BienMinado (pid : ℤ) (previos : List Bloque) (b : Bloque) : Prop where
  id : b.id = previos.length + 1
  /-- The target is the solution of the block before, or `0`. -/
  objetivo : b.objetivo = (previos.getLast?.map Bloque.solucion).getD 0
  hash : powHash b.solucion = b.objetivo
  objetivo_bounds : 0 ≤ b.objetivo ∧ b.objetivo < POW_LIMIT
  solucion_bounds : 0 ≤ b.solucion ∧ b.solucion < POW_LIMIT
  votos : b.votosPositivos = 1 ∧ b.votosTotales = 1
  ganador : b.ganador = pid
  cartera : (b.carteras primera).idProceso = pid ∧ ((b.carteras primera).monedas : ℤ) = b.id
  fin : b.fin = false

/-- The blocks form a chain. -/
def Cadena (pid : ℤ) (bs : List Bloque) : Prop :=
  ∀ previos b resto, bs = previos ++ b :: resto → BienMinado pid previos b

/-- The current block at the head of the loop, but for its number: no votes, no solution, and
the last solution as its target. -/
structure Cabeza (s : Bucle) : Prop where
  votos : s.mem.blActual.votosPositivos = 0 ∧ s.mem.blActual.votosTotales = 0
  solucion : s.mem.blActual.solucion = -1
  objetivo : s.mem.blActual.objetivo =
    if s.escritos = [] then 0 else s.mem.blUltimo.solucion

/-- The number of the current block follows those of the blocks written. -/
def Siguiente (s : Bucle) : Prop := s.mem.blActual.id = s.escritos.length + 1

/-- The blocks written form a chain, and at the head of the loop the current block is ready to
continue it. -/
structure Encadenado (pid : ℤ) (s : Bucle) : Prop where
  bloques : Cadena pid s.escritos
  cabeza : s.pc = .bucle → Cabeza s

variable {pid : ℤ} {basura basuraUltimo : Bloque} {s : Bucle} {vs : List ℤ}

/-! ### Chains of solutions -/

/-- The next target is a legal one. -/
theorem getLastD_bounds (h : Encadenan Acierta 0 vs) :
    0 ≤ vs.getLastD 0 ∧ vs.getLastD 0 < POW_LIMIT := by
  rcases List.eq_nil_or_concat vs with rfl | ⟨us, v, rfl⟩
  · exact ⟨le_rfl, by decide⟩
  · rw [List.concat_eq_append] at h ⊢
    obtain ⟨hnonneg, hlt, -⟩ := ((encadenan_concat us 0).mp h).2
    simpa using ⟨hnonneg, hlt⟩

/-- The solutions of the blocks written are the values returned. -/
theorem map_solucion_enviados (pid : ℤ) (vs : List ℤ) : ∀ mem : MemoriaMinero,
    (enviados pid mem vs).map Bloque.solucion = vs := by
  induction vs with
  | nil => exact fun _ => rfl
  | cons v vs ih =>
    intro mem
    rw [enviados, List.map_cons, minar_solucion, ih]

/-- The block of a round continues the chain of the blocks before. -/
theorem bienMinado_minado {v : ℤ} (h : Encadenan Acierta 0 (vs ++ [v]))
    (hlen : vs.length + 1 < 2 ^ 31) :
    BienMinado pid (enviados pid (inicializar pid basura basuraUltimo) vs)
      (minado pid basura vs.length (vs.getLastD 0) v) := by
  obtain ⟨hvs, hnonneg, hlt, hhash⟩ := (encadenan_concat vs 0).mp h
  have hlength := enviados_length pid vs (inicializar pid basura basuraUltimo)
  have hid : toInt ((vs.length : ℤ) + 1) = vs.length + 1 :=
    toInt_eq_self (by omega) (by omega)
  refine ⟨?_, ?_, hhash, getLastD_bounds hvs, ⟨hnonneg, hlt⟩, ⟨if_pos hhash, rfl⟩, rfl,
    ⟨?_, ?_⟩, rfl⟩
  · simp only [minado, hid, hlength]
  · rw [← List.getLast?_map, map_solucion_enviados, ← List.getLastD_eq_getLast?]
    rfl
  · simp [minado, carterasTras]
  · have hmod : (vs.length + 1) % 2 ^ 32 = vs.length + 1 := Nat.mod_eq_of_lt (by omega)
    simp only [minado, carterasTras, Function.update_self, hmod, hid]
    push_cast
    rfl

/-- **The blocks of rounds whose searches succeed form a chain.** -/
theorem cadena_enviados (h : Encadenan Acierta 0 vs) (hlen : vs.length < 2 ^ 31) :
    Cadena pid (enviados pid (inicializar pid basura basuraUltimo) vs) := by
  intro previos b resto heq
  have hlength := congrArg List.length heq
  rw [enviados_length, List.length_append, List.length_cons] at hlength
  -- the rounds before this block, and its own
  obtain ⟨us, v, rest, rfl, hus⟩ : ∃ us v rest, vs = us ++ v :: rest ∧
      us.length = previos.length := by
    have hlt : previos.length < vs.length := by omega
    refine ⟨vs.take previos.length, vs[previos.length], vs.drop (previos.length + 1), ?_, ?_⟩
    · rw [List.getElem_cons_drop, List.take_append_drop]
    · rw [List.length_take, Nat.min_eq_left hlt.le]
  rw [enviados_append, enviados, minar_rondas] at heq
  obtain ⟨rfl, hcons⟩ := List.append_inj heq (by rw [enviados_length, hus])
  obtain ⟨rfl, -⟩ := List.cons_eq_cons.mp hcons
  refine bienMinado_minado ?_ (by omega)
  rw [List.append_cons] at h
  exact ((encadenan_append _ rest 0).mp h).1

/-! ### The invariant of the loop -/

/-- The current block at the head of the loop, and what has been written by then. -/
theorem Inv.cabeza {Q : ℤ → ℤ → Prop} (h : Inv pid basura basuraUltimo Q vs s)
    (hpc : s.pc = .bucle) :
    s.mem.blActual = cabeza pid basura vs.length (vs.getLastD 0) ∧
      s.escritos = enviados pid (inicializar pid basura basuraUltimo) vs ∧
      s.escritos.length = vs.length := by
  have hpunto := h.punto
  simp only [Punto, hpc] at hpunto
  obtain ⟨hmem, hesc⟩ := hpunto
  exact ⟨by rw [hmem, blActual_rondas], hesc, by rw [hesc, enviados_length]⟩

/-- What has been written is a chain. -/
theorem cadena_escritos (h : (sistema pid basura basuraUltimo).ReachableBy (Devuelve Acierta) s)
    (hlen : s.escritos.length < 2 ^ 31) : Cadena pid s.escritos := by
  obtain ⟨vs, hinv⟩ := inv_reachableBy h
  obtain ⟨-, ws, -, henc, hesc⟩ := hinv.escritos
  have hlength := enviados_length pid ws (inicializar pid basura basuraUltimo)
  rw [← hesc] at hlength
  rw [hesc]
  exact cadena_enviados henc (by omega)

/-- **The chain of blocks**: in every run whose searches all succeed, of fewer than `2 ^ 31`
rounds, the blocks written form a chain, and at the head of the loop the current block is ready
to continue it, with the next number as long as an `int` holds that. -/
theorem encadenado_reachableBy {pid : ℤ} {basura basuraUltimo : Bloque} {s : Bucle}
    (h : (sistema pid basura basuraUltimo).ReachableBy (Devuelve Acierta) s)
    (hlen : s.escritos.length < 2 ^ 31) :
    Encadenado pid s ∧
      (s.pc = .bucle → s.escritos.length + 1 < 2 ^ 31 → Siguiente s) := by
  obtain ⟨vs, hinv⟩ := inv_reachableBy h
  refine ⟨⟨cadena_escritos h hlen, fun hpc => ?_⟩, fun hpc hnext => ?_⟩
  · obtain ⟨hact, hesc, -⟩ := hinv.cabeza hpc
    refine ⟨by rw [hact]; exact ⟨rfl, rfl⟩, by rw [hact]; rfl, ?_⟩
    rw [hact, hesc, hinv.escritos.1]
    rcases List.eq_nil_or_concat vs with rfl | ⟨us, v, rfl⟩
    · rfl
    · rw [List.concat_eq_append, enviados_concat, if_neg (by simp), blUltimo_rondas]
      simp [cabeza, minado]
  · obtain ⟨hact, -, hlength⟩ := hinv.cabeza hpc
    have hid : toInt ((vs.length : ℤ) + 1) = vs.length + 1 :=
      toInt_eq_self (by omega) (by omega)
    simp only [Siguiente, hact, hlength, cabeza, hid]

/-- There are runs of any number of rounds: every search can succeed. -/
theorem exists_rondas (pid : ℤ) (basura basuraUltimo : Bloque) (k : ℕ) :
    ∃ s, (sistema pid basura basuraUltimo).ReachableBy (Devuelve Acierta) s ∧ s.pc = .bucle ∧
      s.escritos.length = k := by
  induction k with
  | zero => exact ⟨inicial pid basura basuraUltimo basura, .init ⟨_, rfl⟩, rfl, rfl⟩
  | succ k ih =>
    obtain ⟨s, hs, hpc, hlen⟩ := ih
    obtain ⟨vs, hinv⟩ := inv_reachableBy hs
    -- the target of the round is legal, so it has a nonce
    obtain ⟨hnonneg, hlt⟩ := getLastD_bounds hinv.encadenan
    have hacierta : Acierta s.mem.blActual.objetivo (nonce s.mem.blActual.objetivo) := by
      rw [(hinv.cabeza hpc).1]
      exact ⟨nonce_nonneg _, nonce_lt _, powHash_nonce hnonneg hlt⟩
    obtain ⟨t, ht, htpc, -, -, hesc⟩ := exists_ronda hs hpc hacierta
    exact ⟨t, ht, htpc, by simp [hesc, hlen]⟩

/-- An instance: after three rounds there is a chain of three blocks. -/
theorem encadenado_three_rounds :
    ∃ s : Bucle, s.escritos.length = 3 ∧ Encadenado 1000 s ∧ Siguiente s := by
  obtain ⟨s, hs, hpc, hlen⟩ := exists_rondas 1000 bloqueCero bloqueCero 3
  obtain ⟨henc, hsig⟩ := encadenado_reachableBy hs (by rw [hlen]; norm_num)
  exact ⟨s, hlen, henc, hsig hpc (by rw [hlen]; norm_num)⟩

/-- After `2 ^ 31 - 1` rounds the number of the current block has left the range of `int`. -/
theorem not_siguiente_overflow :
    ¬ ∀ s, (sistema 1000 bloqueCero bloqueCero).ReachableBy (Devuelve Acierta) s →
      s.escritos.length < 2 ^ 31 → Encadenado 1000 s ∧ (s.pc = .bucle → Siguiente s) := by
  intro hall
  obtain ⟨s, hs, hpc, hlen⟩ := exists_rondas 1000 bloqueCero bloqueCero (2 ^ 31 - 1)
  obtain ⟨vs, hinv⟩ := inv_reachableBy hs
  obtain ⟨hact, -, hlength⟩ := hinv.cabeza hpc
  have hsig := (hall s hs (by rw [hlen]; norm_num)).2 hpc
  have hvs : (vs.length : ℤ) = 2 ^ 31 - 1 := by
    rw [← hlength, hlen]
    norm_num
  have hover : toInt (2 ^ 31) = -2 ^ 31 := by decide
  simp only [Siguiente, hact, cabeza, hlength, hvs, sub_add_cancel, hover] at hsig
  norm_num at hsig

end Bucle

/-! ### The chain in the whole project -/

namespace Sistema

open Bucle (Acierta BienMinado Devuelve)

variable {pid : ℤ} {Q : ℤ → ℤ → Prop} {s t : Sistema}

/-- Where the miner of the project stands in its loop. -/
def pcBucle : PcMinero → PcBucle
  | .bucle => .bucle
  | .mina => .mina
  | .escribe => .escribe
  | .consulta => .consulta
  | .envia => .envia
  | .traspasa => .traspasa
  | .consultaFin | .enviaFin | .cierra => .fuera
  | .espera | .salido => .salido

/-- The blocks written to the Registrador: those it has logged, the one it has read, and those in
the pipe. -/
def alRegistrador (s : Sistema) : List Bloque :=
  s.registro.map Prod.fst ++ porAnotar s ++ s.tuberia

/-- The miner of the project by itself. -/
def bucle (s : Sistema) : Bucle where
  mem := s.mem
  auxiliar := s.auxiliar
  pc := pcBucle s.pc
  escritos := alRegistrador s
  completas := if trasMinar s.pc = true then s.minados.length - 1 else s.minados.length

/-- What the search of the miner returns is what `Q` allows for its target. -/
def DevuelveMinero (Q : ℤ → ℤ → Prop) (s : Sistema) (a : Turno) : Prop :=
  ∀ v, a = .minero v → s.pc = .mina → Q s.mem.blActual.objetivo v

/-- A step of the miner is a step of its loop, or leaves that alone. -/
theorem bucle_pasoMinero {v : ℤ} (hmin : s.pc = .traspasa → s.minados ≠ [])
    (hQ : s.pc = .mina → Q s.mem.blActual.objetivo v) (h : pasoMinero pid v s = some t) :
    t.bucle = s.bucle ∨ ∃ a, Devuelve Q s.bucle a ∧ Bucle.next pid s.bucle a = some t.bucle := by
  match hpc : s.pc with
  | .salido => simp [pasoMinero, hpc] at h
  | .bucle =>
    by_cases hsig : s.sint ≠ true ∧ s.salarm ≠ true
    · simp only [pasoMinero, hpc, if_pos hsig] at h
      cases h
      refine Or.inr ⟨.prueba true, by rintro _ ⟨⟩, ?_⟩
      simp [Bucle.next, bucle, hpc, pcBucle, trasMinar, alRegistrador, porAnotar]
    · simp only [pasoMinero, hpc, if_neg hsig] at h
      cases h
      refine Or.inr ⟨.prueba false, by rintro _ ⟨⟩, ?_⟩
      simp [Bucle.next, bucle, hpc, pcBucle, trasMinar, alRegistrador, porAnotar]
  | .mina =>
    simp only [pasoMinero, hpc] at h
    cases h
    refine Or.inr ⟨.busca v, ?_, ?_⟩
    · rintro _ ⟨⟩
      exact hQ hpc
    · simp [Bucle.next, bucle, hpc, pcBucle, trasMinar, alRegistrador, porAnotar]
  | .escribe =>
    simp only [pasoMinero, hpc] at h
    cases h
    refine Or.inr ⟨.escribe true, by rintro _ ⟨⟩, ?_⟩
    simp [Bucle.next, bucle, hpc, pcBucle, trasMinar, alRegistrador, porAnotar]
  | .consulta =>
    simp only [pasoMinero, hpc] at h
    cases h
    refine Or.inr ⟨.consulta (some s.cola.length), by rintro _ ⟨⟩, ?_⟩
    by_cases hlt : s.cola.length < MAX_MSG <;>
      simp [Bucle.next, bucle, hpc, pcBucle, trasMinar, hlt, alRegistrador, porAnotar]
  | .envia =>
    simp only [pasoMinero, hpc] at h
    split at h <;> cases h
    refine Or.inr ⟨.envia .enviado, by rintro _ ⟨⟩, ?_⟩
    simp [Bucle.next, bucle, hpc, pcBucle, trasMinar, alRegistrador, porAnotar]
  | .traspasa =>
    simp only [pasoMinero, hpc] at h
    cases h
    have hpos : 0 < s.minados.length := List.length_pos_iff.mpr (hmin hpc)
    refine Or.inr ⟨.traspasa, by rintro _ ⟨⟩, ?_⟩
    have hlen : s.minados.length - 1 + 1 = s.minados.length := Nat.sub_add_cancel hpos
    simp [Bucle.next, bucle, hpc, pcBucle, trasMinar, alRegistrador, porAnotar, hlen]
  | .consultaFin =>
    simp only [pasoMinero, hpc] at h
    cases h
    left
    by_cases hlt : s.cola.length < MAX_MSG <;>
      simp [bucle, hpc, pcBucle, trasMinar, hlt, alRegistrador, porAnotar]
  | .enviaFin =>
    simp only [pasoMinero, hpc] at h
    split at h <;> cases h
    left
    simp [bucle, hpc, pcBucle, trasMinar, alRegistrador, porAnotar]
  | .cierra =>
    simp only [pasoMinero, hpc] at h
    cases h
    refine Or.inr ⟨.cierra, by rintro _ ⟨⟩, ?_⟩
    simp [Bucle.next, bucle, hpc, pcBucle, trasMinar, alRegistrador, porAnotar]
  | .espera =>
    simp only [pasoMinero, hpc] at h
    split at h <;> cases h
    left
    simp [bucle, hpc, pcBucle, trasMinar, alRegistrador, porAnotar]

/-- A step of the Registrador moves blocks on, and leaves the miner alone. -/
theorem bucle_pasoRegistrador (h : pasoRegistrador s = some t) : t.bucle = s.bucle := by
  match hpc : s.pcRegistrador with
  | .salido => simp [pasoRegistrador, hpc] at h
  | .anota =>
    simp only [pasoRegistrador, hpc] at h
    cases h
    simp [bucle, alRegistrador, porAnotar, hpc]
  | .lee =>
    simp only [pasoRegistrador, hpc] at h
    split at h
    · rename_i hpipe
      cases h
      simp [bucle, alRegistrador, porAnotar, hpc, hpipe]
    · split at h <;> cases h
      simp [bucle, alRegistrador, porAnotar, hpc]

/-- The other steps leave the miner and the Registrador alone. -/
theorem bucle_next {a : Turno} (hmin : s.pc = .traspasa → s.minados ≠ [])
    (hQ : DevuelveMinero Q s a) (h : next pid s a = some t) :
    t.bucle = s.bucle ∨ ∃ b, Devuelve Q s.bucle b ∧ Bucle.next pid s.bucle b = some t.bucle := by
  cases a with
  | minero v => exact bucle_pasoMinero hmin (hQ v rfl) h
  | registrador => exact Or.inl (bucle_pasoRegistrador h)
  | sigint | sigalrm =>
    cases h
    exact Or.inl rfl
  | recibe =>
    match hcola : s.cola with
    | [] => simp [next, hcola] at h
    | b :: resto =>
      simp only [next, hcola, Option.map_eq_some_iff] at h
      obtain ⟨r, -, rfl⟩ := h
      exact Or.inl rfl
  | comprobador | monitor =>
    obtain ⟨r, -, rfl⟩ := Option.map_eq_some_iff.mp h
    exact Or.inl rfl

/-- **Projection.** A run of the project is a run of the loop, with the same searches. -/
theorem bucle_reachableBy (h : (sistema pid).ReachableBy (DevuelveMinero Q) s) :
    ∃ basura basuraUltimo,
      (Bucle.sistema pid basura basuraUltimo).ReachableBy (Devuelve Q) s.bucle := by
  induction h with
  | @init s hs =>
    obtain ⟨basura, basuraUltimo, hmem⟩ := hs.mem
    refine ⟨basura, basuraUltimo, .init ⟨s.auxiliar, ?_⟩⟩
    simp [bucle, Bucle.inicial, hmem, hs.pc, pcBucle, trasMinar, hs.minados, alRegistrador,
      porAnotar, hs.registro, hs.tuberia, hs.pcRegistrador]
  | @step s t a hs hok ht ih =>
    obtain ⟨basura, basuraUltimo, hrun⟩ := ih
    -- at the hand-over the block of the round has been written, so it was mined
    have hmin : s.pc = .traspasa → s.minados ≠ [] := by
      intro hpc hnil
      obtain ⟨vs, hinv⟩ := Bucle.inv_reachableBy hrun
      have hpunto := hinv.punto
      simp only [Bucle.Punto, bucle, hpc, pcBucle] at hpunto
      obtain ⟨v, -, -, -, hesc⟩ := hpunto
      have hreg := (inv_reachable hs.reachable).canales.registro
      rw [hnil] at hreg
      have hempty : alRegistrador s = [] := (List.append_eq_nil_iff.mp hreg.symm).1
      rw [hempty, enviados_concat] at hesc
      simp at hesc
    rcases bucle_next hmin hok ht with heq | ⟨b, hb, hnext⟩
    · exact ⟨basura, basuraUltimo, by rwa [heq]⟩
    · exact ⟨basura, basuraUltimo, hrun.step hb hnext⟩

/-- **The log is a chain**: in every run of the project whose searches all succeed, whatever the
interleaving. -/
theorem registro_encadenado (h : (sistema pid).ReachableBy (DevuelveMinero Acierta) s)
    (hlen : s.minados.length < 2 ^ 31) : Bucle.Cadena pid (s.registro.map Prod.fst) := by
  obtain ⟨basura, basuraUltimo, hrun⟩ := bucle_reachableBy h
  have hreg := (inv_reachable h.reachable).canales.registro
  have hle : s.bucle.escritos.length < 2 ^ 31 := by
    refine lt_of_le_of_lt ?_ hlen
    rw [hreg]
    simp [bucle, alRegistrador]
  have hcadena := Bucle.cadena_escritos hrun hle
  intro previos b resto heq
  refine hcadena previos b (resto ++ porAnotar s ++ s.tuberia) ?_
  simp [bucle, alRegistrador, heq]

end Sistema

end Soper.Proyecto
