import Soper.Library.Transition
import Soper.Proyecto.Minero

/-!
# The mining loop by itself

The loop of `main` in `proyecto/minero.c` in whatever surroundings: the loop test, the search,
`write`, `mq_getattr` and `mq_send` each return what the label of the step says, and the exits
after a failed call are included. The functions of a round (`minar`, `traspaso`) act on the
shared segment between those calls.

At every point the segment and the blocks written are those of the rounds so far (`Punto`,
`punto_reachableBy`): the steps refine `rondas` and `enviados`. So what holds of the loop is
read off two closed forms, the current block at the head of the loop (`blActual_rondas`) and
the block of a round (`minar_cabeza`).

The hand-over at the end of a round takes every field of the current block but the wallets:
`bl_ultimo` keeps those it was given when the segment was set up (`blUltimo_rondas`), which is
what an uninitialised local variable held (`ultimoBloque_iff`).
-/

namespace Soper.Proyecto

/-! ### The hand-over, assignment by assignment -/

/-- The assignments at the end of a round, in program order. -/
def asignacionesTraspaso : List (MemoriaMinero → MemoriaMinero) :=
  [fun m => { m with blUltimo := { m.blUltimo with id := m.blActual.id } },
   fun m => { m with blUltimo := { m.blUltimo with objetivo := m.blActual.objetivo } },
   fun m => { m with blUltimo := { m.blUltimo with solucion := m.blActual.solucion } },
   fun m => { m with blUltimo := { m.blUltimo with ganador := m.blActual.ganador } },
   fun m => { m with blUltimo := { m.blUltimo with votosTotales := m.blActual.votosTotales } },
   fun m => { m with blUltimo := { m.blUltimo with votosPositivos := m.blActual.votosPositivos } },
   fun m => { m with blUltimo := { m.blUltimo with correcto := m.blActual.correcto } },
   fun m => { m with blUltimo := { m.blUltimo with fin := m.blActual.fin } },
   fun m => { m with blActual := { m.blActual with id := toInt (m.blActual.id + 1) } },
   fun m => { m with blActual := { m.blActual with votosPositivos := 0 } },
   fun m => { m with blActual := { m.blActual with votosTotales := 0 } },
   fun m => { m with blActual := { m.blActual with ganador := -1 } },
   fun m => { m with blActual := { m.blActual with objetivo := m.blActual.solucion } },
   fun m => { m with blActual := { m.blActual with solucion := -1 } },
   fun m => { m with blActual := { m.blActual with correcto := false } },
   fun m => { m with blActual := { m.blActual with fin := false } }]

/-- In this order the next target is taken from the solution before the solution is cleared. -/
theorem foldl_asignacionesTraspaso (mem : MemoriaMinero) :
    asignacionesTraspaso.foldl (fun m f => f m) mem = traspaso mem := rfl

/-! ### The rounds of a run -/

section Rounds

variable {pid v : ℤ} {basura basuraUltimo : Bloque} {mem : MemoriaMinero} {vs ws : List ℤ}

theorem rondas_append (pid : ℤ) (vs ws : List ℤ) : ∀ mem : MemoriaMinero,
    rondas pid mem (vs ++ ws) = rondas pid (rondas pid mem vs) ws := by
  induction vs with
  | nil => exact fun _ => rfl
  | cons v vs ih => exact fun mem => ih (ronda pid mem v)

theorem enviados_append (pid : ℤ) (vs ws : List ℤ) : ∀ mem : MemoriaMinero,
    enviados pid mem (vs ++ ws) = enviados pid mem vs ++ enviados pid (rondas pid mem vs) ws := by
  induction vs with
  | nil => exact fun _ => rfl
  | cons v vs ih => exact fun mem => congrArg _ (ih (ronda pid mem v))

theorem rondas_concat : rondas pid mem (vs ++ [v]) = ronda pid (rondas pid mem vs) v :=
  rondas_append pid vs [v] mem

theorem enviados_concat : enviados pid mem (vs ++ [v]) =
    enviados pid mem vs ++ [minar pid v (rondas pid mem vs).blActual] :=
  enviados_append pid vs [v] mem

/-- The wallets after `k` rounds: the miner has a coin for each. -/
def carterasTras (pid : ℤ) (basura : Bloque) (k : ℕ) : Fin MAX_MINEROS → Cartera :=
  Function.update basura.carteras primera ⟨pid, k % 2 ^ 32⟩

/-- The current block at the head of the loop, after `k` rounds. -/
def cabeza (pid : ℤ) (basura : Bloque) (k : ℕ) (objetivo : ℤ) : Bloque where
  id := toInt (k + 1)
  objetivo := objetivo
  solucion := -1
  ganador := if k = 0 then basura.ganador else -1
  carteras := carterasTras pid basura k
  votosTotales := 0
  votosPositivos := 0
  correcto := false
  fin := false

/-- The block of the round after `k` others. -/
def minado (pid : ℤ) (basura : Bloque) (k : ℕ) (objetivo v : ℤ) : Bloque where
  id := toInt (k + 1)
  objetivo := objetivo
  solucion := v
  ganador := pid
  carteras := carterasTras pid basura (k + 1)
  votosTotales := 1
  votosPositivos := if powHash v = objetivo then 1 else 0
  correcto := false
  fin := false

/-- **The block of a round**, from the current block at the head of the loop. -/
theorem minar_cabeza (pid : ℤ) (basura : Bloque) (k : ℕ) (objetivo v : ℤ) :
    minar pid v (cabeza pid basura k objetivo) = minado pid basura k objetivo v := by
  have hcartera : Function.update (carterasTras pid basura k) primera
      { carterasTras pid basura k primera with
        monedas := incUnsigned (carterasTras pid basura k primera).monedas } =
      carterasTras pid basura (k + 1) := by
    simp [carterasTras, incUnsigned, Nat.mod_add_mod]
  have hpaga : minar pid v (cabeza pid basura k objetivo) =
      { votar pid v (cabeza pid basura k objetivo) with
        carteras := carterasTras pid basura (k + 1) } := by
    rw [minar, pagar, if_pos (quorum_votar rfl), ← hcartera]
    rfl
  rw [hpaga]
  simp [votar, cabeza, minado, incUnsigned]

/-- **The current block at the head of the loop**: its target is the last solution. -/
theorem blActual_rondas (pid : ℤ) (basura basuraUltimo : Bloque) (vs : List ℤ) :
    (rondas pid (inicializar pid basura basuraUltimo) vs).blActual =
      cabeza pid basura vs.length (vs.getLastD 0) := by
  induction vs using List.reverseRecOn with
  | nil => rfl
  | append_singleton vs v ih =>
    rw [rondas_concat, ronda, ih, minar_cabeza]
    simp [traspaso, minado, cabeza, toInt_toInt_add]

/-- The block written in the round after `vs`. -/
theorem minar_rondas (pid : ℤ) (basura basuraUltimo : Bloque) (vs : List ℤ) (v : ℤ) :
    minar pid v (rondas pid (inicializar pid basura basuraUltimo) vs).blActual =
      minado pid basura vs.length (vs.getLastD 0) v := by
  rw [blActual_rondas, minar_cabeza]

/-- The hand-over leaves the wallets of `bl_ultimo` alone. -/
theorem carteras_blUltimo_rondas (pid : ℤ) (mem : MemoriaMinero) (vs : List ℤ) :
    (rondas pid mem vs).blUltimo.carteras = mem.blUltimo.carteras := by
  induction vs using List.reverseRecOn with
  | nil => rfl
  | append_singleton vs v ih =>
    rw [rondas_concat, ← ih]
    rfl

/-- **The last block** after a round: the block of the round, but for the wallets. -/
theorem blUltimo_rondas (pid : ℤ) (basura basuraUltimo : Bloque) (vs : List ℤ) (v : ℤ) :
    (rondas pid (inicializar pid basura basuraUltimo) (vs ++ [v])).blUltimo =
      { minado pid basura vs.length (vs.getLastD 0) v with
        carteras := basuraUltimo.carteras } := by
  have hcarteras := carteras_blUltimo_rondas pid (inicializar pid basura basuraUltimo) vs
  rw [rondas_concat, ronda, minar_rondas]
  simp only [traspaso, hcarteras]
  rfl

end Rounds

/-! ### The loop -/

/-- The next call of the loop. -/
inductive PcBucle
  /-- `while (sint != 1 && salarm != 1)`. -/
  | bucle
  /-- `manage_threads`, the vote and the copy to `auxiliar`. -/
  | mina
  /-- `write` to the Registrador. -/
  | escribe
  /-- `mq_getattr` and the test of `mq_curmsgs`. -/
  | consulta
  /-- `mq_send` of the block. -/
  | envia
  /-- The current block becomes the last one. -/
  | traspasa
  /-- After the loop, up to `mem->num_mineros--`. -/
  | fuera
  /-- After that, or after `exit(EXIT_FAILURE)`. -/
  | salido
  deriving DecidableEq

/-- What the next call returns. -/
inductive PasoBucle
  /-- Whether both flags of the handlers are still clear. -/
  | prueba (sigue : Bool)
  /-- What `manage_threads` returns. -/
  | busca (v : ℤ)
  | escribe (exito : Bool)
  /-- The number of messages in the queue, unless `mq_getattr` fails. -/
  | consulta (mqCurmsgs : Option ℕ)
  | envia (r : Envio)
  | traspasa
  | cierra

/-- The miner in its loop, the blocks it has written to the Registrador, and the number of rounds
it has completed. -/
structure Bucle where
  mem : MemoriaMinero
  auxiliar : Bloque
  pc : PcBucle
  escritos : List Bloque
  completas : ℕ

namespace Bucle

/-- One step of the loop. -/
def next (pid : ℤ) (s : Bucle) (a : PasoBucle) : Option Bucle :=
  match s.pc, a with
  | .bucle, .prueba sigue => some { s with pc := if sigue = true then .mina else .fuera }
  | .mina, .busca v =>
    some { s with
      mem := { s.mem with blActual := minar pid v s.mem.blActual }
      auxiliar := minar pid v s.mem.blActual, pc := .escribe }
  | .escribe, .escribe exito =>
    if exito = true then
      some { s with escritos := s.escritos ++ [s.auxiliar], pc := .consulta }
    else some { s with pc := .salido }
  | .consulta, .consulta none => some { s with pc := .salido }
  | .consulta, .consulta (some mqCurmsgs) =>
    some { s with pc := if mqCurmsgs < MAX_MSG then .envia else .traspasa }
  | .envia, .envia r => some { s with pc := if r = .error then .salido else .traspasa }
  | .traspasa, .traspasa =>
    some { s with mem := traspaso s.mem, completas := s.completas + 1, pc := .bucle }
  | .fuera, .cierra =>
    some { s with
      mem := { s.mem with numMineros := s.mem.numMineros - 1 }, pc := .salido }
  | _, _ => none

/-- The miner at the beginning of its loop; `auxiliar` has not been used yet. -/
def inicial (pid : ℤ) (basura basuraUltimo auxiliar : Bloque) : Bucle where
  mem := inicializar pid basura basuraUltimo
  auxiliar := auxiliar
  pc := .bucle
  escritos := []
  completas := 0

/-- The loop as a transition system, for a miner with the given process id and with what its
uninitialised blocks hold. -/
def sistema (pid : ℤ) (basura basuraUltimo : Bloque) : System Bucle PasoBucle where
  Init s := ∃ auxiliar, s = inicial pid basura basuraUltimo auxiliar
  next := next pid

/-! ### The steps refine the rounds -/

/-- Each of the values `vs` may be returned by a search, by `Q`, for its target: the first one
for `t`, each later one for the value before. -/
def Encadenan (Q : ℤ → ℤ → Prop) : ℤ → List ℤ → Prop
  | _, [] => True
  | t, v :: vs => Q t v ∧ Encadenan Q v vs

/-- What a search returns is what `Q` allows for its target. -/
def Devuelve (Q : ℤ → ℤ → Prop) (s : Bucle) (a : PasoBucle) : Prop :=
  ∀ v, a = .busca v → Q s.mem.blActual.objetivo v

variable {pid : ℤ} {basura basuraUltimo : Bloque} {Q : ℤ → ℤ → Prop} {s t : Bucle}

theorem encadenan_append (vs ws : List ℤ) : ∀ t : ℤ,
    Encadenan Q t (vs ++ ws) ↔ Encadenan Q t vs ∧ Encadenan Q (vs.getLastD t) ws := by
  induction vs with
  | nil => exact fun t => by simp [Encadenan]
  | cons w vs ih =>
    intro t
    rw [List.cons_append, Encadenan, Encadenan, ih, List.getLastD_cons, and_assoc]

theorem encadenan_concat {v : ℤ} (vs : List ℤ) (t : ℤ) :
    Encadenan Q t (vs ++ [v]) ↔ Encadenan Q t vs ∧ Q (vs.getLastD t) v := by
  rw [encadenan_append, Encadenan, Encadenan, and_true]

/-- Where the loop stands after the complete rounds with the results `vs`. -/
def Punto (pid : ℤ) (basura basuraUltimo : Bloque) (Q : ℤ → ℤ → Prop) (vs : List ℤ)
    (s : Bucle) : Prop :=
  match s.pc with
  | .bucle | .mina =>
    s.mem = rondas pid (inicializar pid basura basuraUltimo) vs ∧
      s.escritos = enviados pid (inicializar pid basura basuraUltimo) vs
  | .escribe =>
    ∃ v, Q (vs.getLastD 0) v ∧ s.auxiliar = minado pid basura vs.length (vs.getLastD 0) v ∧
      s.mem = { rondas pid (inicializar pid basura basuraUltimo) vs with
        blActual := s.auxiliar } ∧
      s.escritos = enviados pid (inicializar pid basura basuraUltimo) vs
  | .consulta | .envia | .traspasa =>
    ∃ v, Q (vs.getLastD 0) v ∧ s.auxiliar = minado pid basura vs.length (vs.getLastD 0) v ∧
      s.mem = { rondas pid (inicializar pid basura basuraUltimo) vs with
        blActual := s.auxiliar } ∧
      s.escritos = enviados pid (inicializar pid basura basuraUltimo) (vs ++ [v])
  | .fuera | .salido =>
    s.mem.blUltimo = (rondas pid (inicializar pid basura basuraUltimo) vs).blUltimo ∧
      ∃ ws, vs <+: ws ∧ Encadenan Q 0 ws ∧
        s.escritos = enviados pid (inicializar pid basura basuraUltimo) ws

/-- The rounds of a run. -/
structure Inv (pid : ℤ) (basura basuraUltimo : Bloque) (Q : ℤ → ℤ → Prop) (vs : List ℤ)
    (s : Bucle) : Prop where
  completas : s.completas = vs.length
  encadenan : Encadenan Q 0 vs
  punto : Punto pid basura basuraUltimo Q vs s

theorem inv_inicial (auxiliar : Bloque) :
    Inv pid basura basuraUltimo Q [] (inicial pid basura basuraUltimo auxiliar) where
  completas := rfl
  encadenan := trivial
  punto := ⟨rfl, rfl⟩

/-- What a step can do: a call returns and the loop goes on, the hand-over completes the round, or
the miner leaves the loop, at its test or after a failed call. -/
theorem next_cases {a : PasoBucle} (hn : next pid s a = some t) :
    (s.pc = .bucle ∧ t = { s with pc := .mina }) ∨
      (∃ v, s.pc = .mina ∧ a = .busca v ∧ t = { s with
        mem := { s.mem with blActual := minar pid v s.mem.blActual }
        auxiliar := minar pid v s.mem.blActual, pc := .escribe }) ∨
      (s.pc = .escribe ∧
        t = { s with escritos := s.escritos ++ [s.auxiliar], pc := .consulta }) ∨
      (s.pc = .consulta ∧ (t = { s with pc := .envia } ∨ t = { s with pc := .traspasa })) ∨
      (s.pc = .envia ∧ t = { s with pc := .traspasa }) ∨
      (s.pc = .traspasa ∧
        t = { s with mem := traspaso s.mem, completas := s.completas + 1, pc := .bucle }) ∨
      (s.pc = .bucle ∧ t = { s with pc := .fuera }) ∨
      (s.pc = .fuera ∧ t = { s with
        mem := { s.mem with numMineros := s.mem.numMineros - 1 }, pc := .salido }) ∨
      ((s.pc = .escribe ∨ s.pc = .consulta ∨ s.pc = .envia) ∧ t = { s with pc := .salido }) := by
  unfold next at hn
  split at hn
  · rename_i sigue hpc
    cases hn
    cases sigue with
    | true => exact Or.inl ⟨hpc, rfl⟩
    | false =>
      iterate 6 right
      exact Or.inl ⟨hpc, rfl⟩
  · rename_i v hpc
    cases hn
    exact Or.inr (Or.inl ⟨v, hpc, rfl, rfl⟩)
  · rename_i exito hpc
    split at hn <;> cases hn
    · exact Or.inr (Or.inr (Or.inl ⟨hpc, rfl⟩))
    · iterate 8 right
      exact ⟨Or.inl hpc, rfl⟩
  · rename_i hpc
    cases hn
    iterate 8 right
    exact ⟨Or.inr (Or.inl hpc), rfl⟩
  · rename_i mqCurmsgs hpc
    cases hn
    iterate 3 right
    refine Or.inl ⟨hpc, ?_⟩
    split
    · exact Or.inl rfl
    · exact Or.inr rfl
  · rename_i r hpc
    cases hn
    by_cases herror : r = .error
    · rw [if_pos herror]
      iterate 8 right
      exact ⟨Or.inr (Or.inr hpc), rfl⟩
    · rw [if_neg herror]
      iterate 4 right
      exact Or.inl ⟨hpc, rfl⟩
  · rename_i hpc
    cases hn
    iterate 5 right
    exact Or.inl ⟨hpc, rfl⟩
  · rename_i hpc
    cases hn
    iterate 7 right
    exact Or.inl ⟨hpc, rfl⟩
  · cases hn

/-- What has been written, and what the last block is, at any point: what was written may include
the block of a round that is not complete. -/
theorem Inv.escritos {vs : List ℤ} (h : Inv pid basura basuraUltimo Q vs s) :
    s.mem.blUltimo = (rondas pid (inicializar pid basura basuraUltimo) vs).blUltimo ∧
      ∃ ws, vs <+: ws ∧ Encadenan Q 0 ws ∧
        s.escritos = enviados pid (inicializar pid basura basuraUltimo) ws := by
  obtain ⟨-, henc, hpunto⟩ := h
  match hpc : s.pc with
  | .bucle | .mina =>
    simp only [Punto, hpc] at hpunto
    exact ⟨by rw [hpunto.1], vs, List.prefix_rfl, henc, hpunto.2⟩
  | .escribe =>
    simp only [Punto, hpc] at hpunto
    obtain ⟨v, -, -, hmem, hesc⟩ := hpunto
    exact ⟨by rw [hmem], vs, List.prefix_rfl, henc, hesc⟩
  | .consulta | .envia | .traspasa =>
    simp only [Punto, hpc] at hpunto
    obtain ⟨v, hQ, -, hmem, hesc⟩ := hpunto
    exact ⟨by rw [hmem], vs ++ [v], List.prefix_append _ _,
      (encadenan_concat vs 0).mpr ⟨henc, hQ⟩, hesc⟩
  | .fuera | .salido =>
    simp only [Punto, hpc] at hpunto
    exact hpunto

/-- **Step lemma.** The hand-over completes a round, the other steps stay within one. -/
theorem inv_next {vs : List ℤ} {a : PasoBucle} (h : Inv pid basura basuraUltimo Q vs s)
    (hok : Devuelve Q s a) (hn : next pid s a = some t) :
    ∃ ws, Inv pid basura basuraUltimo Q ws t := by
  have hescritos := h.escritos
  obtain ⟨hlen, henc, hpunto⟩ := h
  rcases next_cases hn with ⟨hpc, rfl⟩ | ⟨v, hpc, rfl, rfl⟩ | ⟨hpc, rfl⟩ | ⟨hpc, rfl | rfl⟩ |
    ⟨hpc, rfl⟩ | ⟨hpc, rfl⟩ | ⟨hpc, rfl⟩ | ⟨hpc, rfl⟩ | ⟨hpc, rfl⟩
  · simp only [Punto, hpc] at hpunto
    exact ⟨vs, hlen, henc, hpunto⟩
  · simp only [Punto, hpc] at hpunto
    obtain ⟨hmem, hesc⟩ := hpunto
    have hQ := hok v rfl
    rw [hmem, blActual_rondas] at hQ
    refine ⟨vs, hlen, henc, v, hQ, ?_, ?_, hesc⟩
    · rw [hmem, minar_rondas]
    · rw [hmem]
  · simp only [Punto, hpc] at hpunto
    obtain ⟨v, hQ, haux, hmem, hesc⟩ := hpunto
    refine ⟨vs, hlen, henc, v, hQ, haux, hmem, ?_⟩
    rw [enviados_concat, minar_rondas, ← haux, hesc]
  · simp only [Punto, hpc] at hpunto
    exact ⟨vs, hlen, henc, hpunto⟩
  · simp only [Punto, hpc] at hpunto
    exact ⟨vs, hlen, henc, hpunto⟩
  · simp only [Punto, hpc] at hpunto
    exact ⟨vs, hlen, henc, hpunto⟩
  · simp only [Punto, hpc] at hpunto
    obtain ⟨v, hQ, haux, hmem, hesc⟩ := hpunto
    -- the segment is that of the rounds with this one
    refine ⟨vs ++ [v], by simp [hlen], (encadenan_concat vs 0).mpr ⟨henc, hQ⟩, ?_, hesc⟩
    rw [rondas_concat, ronda, minar_rondas, ← haux, hmem]
  · exact ⟨vs, hlen, henc, hescritos⟩
  · simp only [Punto, hpc] at hpunto
    exact ⟨vs, hlen, henc, hpunto⟩
  · exact ⟨vs, hlen, henc, hescritos⟩

/-- **Run lemma.** A run whose searches return what `Q` allows is a run of rounds with such
results. -/
theorem inv_reachableBy (h : (sistema pid basura basuraUltimo).ReachableBy (Devuelve Q) s) :
    ∃ vs, Inv pid basura basuraUltimo Q vs s := by
  refine h.induct (I := fun s => ∃ vs, Inv pid basura basuraUltimo Q vs s) ?_ ?_
  · rintro _ ⟨auxiliar, rfl⟩
    exact ⟨[], inv_inicial auxiliar⟩
  · rintro s a t ⟨vs, hinv⟩ hok hn
    exact inv_next hinv hok hn

/-- A round in which no call fails and no signal arrives. -/
theorem exists_ronda (h : (sistema pid basura basuraUltimo).ReachableBy (Devuelve Q) s)
    (hpc : s.pc = .bucle) {v : ℤ} (hv : Q s.mem.blActual.objetivo v) :
    ∃ t, (sistema pid basura basuraUltimo).ReachableBy (Devuelve Q) t ∧ t.pc = .bucle ∧
      t.completas = s.completas + 1 ∧ t.mem = ronda pid s.mem v ∧
      t.escritos = s.escritos ++ [minar pid v s.mem.blActual] := by
  let b := minar pid v s.mem.blActual
  let s₂ : Bucle := { s with mem := { s.mem with blActual := b }, auxiliar := b, pc := .escribe }
  let s₃ : Bucle := { s₂ with escritos := s.escritos ++ [b], pc := .consulta }
  have h₁ : (sistema pid basura basuraUltimo).ReachableBy (Devuelve Q) { s with pc := .mina } :=
    h.step (a := .prueba true) nofun (by simp [sistema, next, hpc])
  have h₂ : (sistema pid basura basuraUltimo).ReachableBy (Devuelve Q) s₂ := by
    refine h₁.step (a := .busca v) ?_ rfl
    rintro _ ⟨⟩
    exact hv
  have h₃ : (sistema pid basura basuraUltimo).ReachableBy (Devuelve Q) s₃ :=
    h₂.step (a := .escribe true) nofun rfl
  have h₄ : (sistema pid basura basuraUltimo).ReachableBy (Devuelve Q) { s₃ with pc := .envia } :=
    h₃.step (a := .consulta (some 0)) nofun rfl
  have h₅ : (sistema pid basura basuraUltimo).ReachableBy (Devuelve Q)
      { s₃ with pc := .traspasa } :=
    h₄.step (a := .envia .enviado) nofun rfl
  exact ⟨_, h₅.step (a := .traspasa) nofun rfl, rfl, rfl, rfl, rfl⟩

/-- The blocks of the complete rounds have been written. -/
theorem Inv.escritos_getElem {vs : List ℤ} {v : ℤ}
    (h : Inv pid basura basuraUltimo Q (vs ++ [v]) s) :
    s.escritos[vs.length]? = some (minado pid basura vs.length (vs.getLastD 0) v) := by
  obtain ⟨-, ws, ⟨rest, rfl⟩, -, hesc⟩ := h.escritos
  have hlen := enviados_length pid vs (inicializar pid basura basuraUltimo)
  rw [hesc, enviados_append, enviados_concat, minar_rondas, List.append_assoc,
    List.getElem?_append_right hlen.le, hlen, Nat.sub_self]
  rfl

/-! ### The last block -/

/-- The last block is the block just mined: after each complete round it is, in every field, the
block that was written in this round, and until the next hand-over nothing changes it. -/
structure UltimoBloque (pid : ℤ) (s : Bucle) : Prop where
  igual : ∀ k, s.completas = k + 1 → s.escritos[k]? = some s.mem.blUltimo
  quieto : ∀ a t, next pid s a = some t → s.pc ≠ .traspasa → t.mem.blUltimo = s.mem.blUltimo

/-- Only the hand-over changes the last block. -/
theorem blUltimo_next {a : PasoBucle} (hn : next pid s a = some t) (hpc : s.pc ≠ .traspasa) :
    t.mem.blUltimo = s.mem.blUltimo := by
  rcases next_cases hn with ⟨-, rfl⟩ | ⟨v, -, -, rfl⟩ | ⟨-, rfl⟩ | ⟨-, rfl | rfl⟩ |
    ⟨-, rfl⟩ | ⟨htras, rfl⟩ | ⟨-, rfl⟩ | ⟨-, rfl⟩ | ⟨-, rfl⟩
  · rfl
  · rfl
  · rfl
  · rfl
  · rfl
  · rfl
  · exact absurd htras hpc
  · rfl
  · rfl
  · rfl

/-- **The wallets are never handed over.** In any run, whatever the searches return, the last
block is the block just mined exactly before the first hand-over, or if the uninitialised
`b_ultimo` happened to hold the wallets of this very round. -/
theorem ultimoBloque_iff {pid : ℤ} {basura basuraUltimo : Bloque} {s : Bucle}
    (h : (sistema pid basura basuraUltimo).Reachable s) :
    UltimoBloque pid s ↔
      s.completas = 0 ∨ basuraUltimo.carteras =
        Function.update basura.carteras primera ⟨pid, s.completas % 2 ^ 32⟩ := by
  have hdev : (sistema pid basura basuraUltimo).ReachableBy (Devuelve fun _ _ => True) s :=
    h.mono fun _ _ _ _ _ => trivial
  obtain ⟨vs, hinv⟩ := inv_reachableBy hdev
  have hlen := hinv.completas
  have hult := hinv.escritos.1
  rcases List.eq_nil_or_concat vs with rfl | ⟨ws, v, rfl⟩
  · refine iff_of_true ⟨fun k hk => ?_, fun a t hn hpc => blUltimo_next hn hpc⟩ (Or.inl hlen)
    rw [hlen] at hk
    cases hk
  · rw [List.concat_eq_append] at hinv hlen hult
    have hsucc : s.completas = ws.length + 1 := by simpa using hlen
    have hesc := hinv.escritos_getElem
    rw [blUltimo_rondas] at hult
    -- block and last block agree in every other field
    have heq : s.escritos[ws.length]? = some s.mem.blUltimo ↔ basuraUltimo.carteras =
        Function.update basura.carteras primera ⟨pid, s.completas % 2 ^ 32⟩ := by
      rw [hesc, hult, hsucc, Option.some_inj]
      constructor
      · intro hb
        exact (congrArg Bloque.carteras hb).symm
      · intro hb
        rw [hb]
        simp only [minado, carterasTras]
    rw [← heq]
    constructor
    · intro hub
      exact Or.inr (hub.igual _ hsucc)
    · intro hor
      have hmem := hor.resolve_left (by omega)
      refine ⟨fun k hk => ?_, fun a t hn hpc => blUltimo_next hn hpc⟩
      obtain rfl : k = ws.length := by omega
      exact hmem

/-- An instance: after one round with process id `1000`, where `b_ultimo` held just these
wallets. -/
theorem ultimoBloque_one_round :
    ∃ basuraUltimo s, (sistema 1000 bloqueCero basuraUltimo).Reachable s ∧ s.completas = 1 ∧
      UltimoBloque 1000 s := by
  let basuraUltimo : Bloque :=
    { bloqueCero with carteras := Function.update bloqueCero.carteras primera ⟨1000, 1⟩ }
  have hinit : (sistema 1000 bloqueCero basuraUltimo).ReachableBy (Devuelve fun _ _ => True)
      (inicial 1000 bloqueCero basuraUltimo bloqueCero) := .init ⟨_, rfl⟩
  obtain ⟨s, hs, -, hcompletas, -⟩ := exists_ronda (v := -1) hinit rfl trivial
  refine ⟨basuraUltimo, s, hs.reachable, hcompletas,
    (ultimoBloque_iff hs.reachable).mpr (Or.inr ?_)⟩
  rw [hcompletas]
  rfl

/-- After a first round whose search succeeds, the block written has a coin in the miner's
wallet, and the last block has none. -/
theorem not_ultimoBloque :
    ¬ ∀ s, (sistema 1000 bloqueCero bloqueCero).ReachableBy (Devuelve PuedeDevolver) s →
      UltimoBloque 1000 s := by
  intro hall
  have hinit : (sistema 1000 bloqueCero bloqueCero).ReachableBy (Devuelve PuedeDevolver)
      (inicial 1000 bloqueCero bloqueCero bloqueCero) := .init ⟨_, rfl⟩
  have hnonce : PuedeDevolver 0 38722988 := Or.inl ⟨by decide, by decide, by decide⟩
  obtain ⟨s, hs, -, hcompletas, hmem, hesc⟩ := exists_ronda hinit rfl hnonce
  have heq := (hall s hs).igual 0 hcompletas
  have hmonedas : ((minar 1000 38722988
      (inicial 1000 bloqueCero bloqueCero bloqueCero).mem.blActual).carteras primera).monedas = 1 :=
    minar_monedas rfl
  rw [hesc, hmem] at heq
  obtain hblock := Option.some_inj.mp heq
  rw [hblock] at hmonedas
  exact absurd hmonedas (by decide)

end Bucle

end Soper.Proyecto
