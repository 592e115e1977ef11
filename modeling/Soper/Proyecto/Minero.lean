import Soper.Proyecto.Bloque

/-!
# The mining loop of the final project

One round of `main` in `proyecto/minero.c`: the value `manage_threads` returned becomes the
solution of the current block, the miner votes on it, the quorum decides about a coin, the
block is copied to `auxiliar` and sent, and the current block becomes the last one.

A block is judged three times, by three processes: the miner pays a coin and the Registrador
writes `(validated)` on the quorum of the votes, and the comprobador recomputes the hash.
The quorum of a single voter is `ceil(1 / 2) = ceil(0) = 0` votes, so it always holds, and the
three judgements agree exactly in the runs in which every search succeeded.
-/

namespace Soper.Proyecto

/-- The fields of `MemoriaMinero` the miner uses. -/
structure MemoriaMinero where
  blUltimo : Bloque
  blActual : Bloque
  numMineros : ℤ

/-- The set-up of the first miner: `b_actual` and `b_ultimo` are local variables, so the fields
nobody assigns keep what `basura` and `basuraUltimo` hold. -/
def inicializar (pid : ℤ) (basura basuraUltimo : Bloque) : MemoriaMinero where
  blUltimo := { basuraUltimo with
    votosPositivos := 0, votosTotales := 0, objetivo := -1, solucion := -1, id := -1 }
  blActual := { basura with
    votosPositivos := 0, votosTotales := 0, objetivo := 0, solucion := -1, id := 1
    carteras := Function.update basura.carteras primera ⟨pid, 0⟩
    correcto := false, fin := false }
  numMineros := 2

/-! ### One round -/

/-- The miner writes the solution and votes: `votos_positivos` only if the hash is right. -/
def votar (pid solucion : ℤ) (b : Bloque) : Bloque :=
  { b with
    solucion := solucion, ganador := pid
    votosPositivos :=
      if powHash solucion = b.objetivo then incUnsigned b.votosPositivos else b.votosPositivos
    votosTotales := incUnsigned b.votosTotales }

/-- The coin of the winner, on the quorum. -/
def pagar (b : Bloque) : Bloque :=
  if quorum b then
    { b with
      carteras := Function.update b.carteras primera
        { b.carteras primera with monedas := incUnsigned (b.carteras primera).monedas } }
  else b

/-- The block of a round, as it is copied to `auxiliar`. -/
def minar (pid solucion : ℤ) (b : Bloque) : Bloque := pagar (votar pid solucion b)

/-- The hand-over at the end of a round: the last block takes eight fields of the current one,
and the current one is reset for the next round. -/
def traspaso (mem : MemoriaMinero) : MemoriaMinero :=
  { mem with
    blUltimo := { mem.blUltimo with
      id := mem.blActual.id
      objetivo := mem.blActual.objetivo
      solucion := mem.blActual.solucion
      ganador := mem.blActual.ganador
      votosTotales := mem.blActual.votosTotales
      votosPositivos := mem.blActual.votosPositivos
      correcto := mem.blActual.correcto
      fin := mem.blActual.fin }
    blActual := { mem.blActual with
      id := toInt (mem.blActual.id + 1)
      votosPositivos := 0
      votosTotales := 0
      ganador := -1
      objetivo := mem.blActual.solucion
      solucion := -1
      correcto := false
      fin := false } }

/-- One round of the loop. -/
def ronda (pid : ℤ) (mem : MemoriaMinero) (solucion : ℤ) : MemoriaMinero :=
  traspaso { mem with blActual := minar pid solucion mem.blActual }

/-- The memory after the rounds in which `manage_threads` returned the listed values. -/
def rondas (pid : ℤ) : MemoriaMinero → List ℤ → MemoriaMinero
  | mem, [] => mem
  | mem, v :: vs => rondas pid (ronda pid mem v) vs

/-- The blocks sent to the Registrador in these rounds. -/
def enviados (pid : ℤ) : MemoriaMinero → List ℤ → List Bloque
  | _, [] => []
  | mem, v :: vs => minar pid v mem.blActual :: enviados pid (ronda pid mem v) vs

/-- The values `manage_threads` may return for a target: a solution, `-1`, or its error
value. -/
def PuedeDevolver (objetivo v : ℤ) : Prop :=
  (0 ≤ v ∧ v < POW_LIMIT ∧ powHash v = objetivo) ∨ v = -1 ∨ v = EXIT_FAILURE

/-- How `mq_send` ends: a full queue is tolerated, other errors are not. -/
inductive Envio
  | enviado
  | eagain
  | error
  deriving DecidableEq

/-! ### What a round leaves -/

section Round

variable {pid v : ℤ} {b : Bloque} {mem : MemoriaMinero}

@[simp]
theorem minar_solucion : (minar pid v b).solucion = v := by
  unfold minar pagar
  split <;> rfl

@[simp]
theorem minar_objetivo : (minar pid v b).objetivo = b.objetivo := by
  unfold minar pagar
  split <;> rfl

@[simp]
theorem minar_id : (minar pid v b).id = b.id := by
  unfold minar pagar
  split <;> rfl

@[simp]
theorem minar_fin : (minar pid v b).fin = b.fin := by
  unfold minar pagar
  split <;> rfl

@[simp]
theorem minar_correcto : (minar pid v b).correcto = b.correcto := by
  unfold minar pagar
  split <;> rfl

@[simp]
theorem minar_votosTotales : (minar pid v b).votosTotales = incUnsigned b.votosTotales := by
  unfold minar pagar
  split <;> rfl

/-- With one voter the truncated half of the votes is zero: the quorum holds whatever the miner
voted. -/
theorem quorum_of_votosTotales {b : Bloque} (h : b.votosTotales = 1) : quorum b := by
  rw [quorum_iff, h]
  exact Nat.zero_le _

theorem quorum_votar (h : b.votosTotales = 0) : quorum (votar pid v b) :=
  quorum_of_votosTotales (by simp [votar, h, incUnsigned])

theorem quorum_minar (h : b.votosTotales = 0) : quorum (minar pid v b) :=
  quorum_of_votosTotales (by simp [h, incUnsigned])

/-- Every round pays a coin. -/
theorem minar_monedas (h : b.votosTotales = 0) :
    ((minar pid v b).carteras primera).monedas = incUnsigned (b.carteras primera).monedas := by
  rw [minar, pagar, if_pos (quorum_votar h)]
  simp [votar]

theorem minar_valido : Valido (minar pid v b) ↔ powHash v = b.objetivo := by
  simp [Valido]

@[simp]
theorem ronda_votosTotales : (ronda pid mem v).blActual.votosTotales = 0 := rfl

@[simp]
theorem ronda_objetivo : (ronda pid mem v).blActual.objetivo = v := by
  simp [ronda, traspaso]

@[simp]
theorem ronda_carteras :
    (ronda pid mem v).blActual.carteras = (minar pid v mem.blActual).carteras := rfl

end Round

/-! ### Agreement of the three judgements -/

/-- The three processes judge every block of a run alike: the coins of the miner count the
blocks with a right proof of work, and the Registrador writes `(validated)` exactly on the
blocks the comprobador marks as correct. -/
def JuiciosCoinciden (pid : ℤ) (mem : MemoriaMinero) (vs : List ℤ) : Prop :=
  ((rondas pid mem vs).blActual.carteras primera).monedas =
      (enviados pid mem vs).countP (fun b => decide (Valido b)) ∧
    ∀ b ∈ enviados pid mem vs, quorum b ↔ (comprobar b).correcto = true

/-- Every search of a run succeeded: each value hashes to the target it was searched for, the
first target being `t` and each later one the value before. -/
def BusquedasAciertan : ℤ → List ℤ → Prop
  | _, [] => True
  | t, v :: vs => powHash v = t ∧ BusquedasAciertan v vs

/-- Coins paid by the rounds of a run: one each, modulo the width of the counter. -/
theorem rondas_monedas (pid : ℤ) (vs : List ℤ) : ∀ {mem : MemoriaMinero},
    mem.blActual.votosTotales = 0 → (mem.blActual.carteras primera).monedas < 2 ^ 32 →
      ((rondas pid mem vs).blActual.carteras primera).monedas =
        ((mem.blActual.carteras primera).monedas + vs.length) % 2 ^ 32 := by
  induction vs with
  | nil =>
    intro mem _ hlt
    exact (Nat.mod_eq_of_lt hlt).symm
  | cons v vs ih =>
    intro mem htot hlt
    have hcoin : ((minar pid v mem.blActual).carteras primera).monedas =
        incUnsigned (mem.blActual.carteras primera).monedas := minar_monedas htot
    have hstep : ((ronda pid mem v).blActual.carteras primera).monedas < 2 ^ 32 := by
      rw [ronda_carteras, hcoin]
      exact Nat.mod_lt _ (by norm_num)
    rw [rondas, ih ronda_votosTotales hstep, ronda_carteras, hcoin, incUnsigned,
      Nat.mod_add_mod, List.length_cons, Nat.add_assoc, Nat.add_comm 1]

theorem enviados_length (pid : ℤ) (vs : List ℤ) :
    ∀ mem : MemoriaMinero, (enviados pid mem vs).length = vs.length := by
  induction vs with
  | nil => exact fun _ => rfl
  | cons v vs ih => exact fun mem => by simp [enviados, ih]

/-- Every block of a run meets the quorum. -/
theorem quorum_of_mem_enviados (pid : ℤ) (vs : List ℤ) : ∀ {mem : MemoriaMinero},
    mem.blActual.votosTotales = 0 → ∀ b ∈ enviados pid mem vs, quorum b := by
  induction vs with
  | nil =>
    intro mem _ b hb
    cases hb
  | cons v vs ih =>
    intro mem htot b hb
    rcases List.mem_cons.mp hb with rfl | hb
    · exact quorum_minar htot
    · exact ih ronda_votosTotales b hb

/-- All blocks of a run are right exactly when all its searches succeeded. -/
theorem valido_enviados_iff (pid : ℤ) (vs : List ℤ) : ∀ {mem : MemoriaMinero},
    (∀ b ∈ enviados pid mem vs, Valido b) ↔ BusquedasAciertan mem.blActual.objetivo vs := by
  induction vs with
  | nil => exact fun {mem} => by simp [enviados, BusquedasAciertan]
  | cons v vs ih =>
    intro mem
    rw [enviados, List.forall_mem_cons, minar_valido, ih, ronda_objetivo, BusquedasAciertan]

/-- **The judgements agree exactly on runs without a failed search**, and only while the coins
fit their counter: a failed search is still paid and logged as validated. -/
theorem juiciosCoinciden_iff (pid : ℤ) (basura basuraUltimo : Bloque) (vs : List ℤ) :
    JuiciosCoinciden pid (inicializar pid basura basuraUltimo) vs ↔
      BusquedasAciertan 0 vs ∧ vs.length < 2 ^ 32 := by
  set mem := inicializar pid basura basuraUltimo with hmem
  have htot : mem.blActual.votosTotales = 0 := rfl
  have hzero : (mem.blActual.carteras primera).monedas = 0 := by
    simp [hmem, inicializar]
  have hcoins : ((rondas pid mem vs).blActual.carteras primera).monedas
      = vs.length % 2 ^ 32 := by
    rw [rondas_monedas pid vs htot (by rw [hzero]; norm_num), hzero, Nat.zero_add]
  -- the quorum always holds, so agreement with the comprobador means every block is right
  have hlog : (∀ b ∈ enviados pid mem vs, quorum b ↔ (comprobar b).correcto = true) ↔
      ∀ b ∈ enviados pid mem vs, Valido b := by
    refine forall₂_congr fun b hb => ?_
    rw [comprobar_correcto, iff_true_left (quorum_of_mem_enviados pid vs htot b hb)]
  have hcount : (∀ b ∈ enviados pid mem vs, Valido b) →
      (enviados pid mem vs).countP (fun b => decide (Valido b)) = vs.length := by
    intro h
    rw [← enviados_length pid vs mem, List.countP_eq_length]
    exact fun b hb => decide_eq_true (h b hb)
  rw [JuiciosCoinciden, hcoins, hlog, ← show mem.blActual.objetivo = 0 from rfl,
    ← valido_enviados_iff pid vs]
  constructor
  · rintro ⟨hmon, hval⟩
    refine ⟨hval, ?_⟩
    rw [hcount hval] at hmon
    rw [← hmon]
    exact Nat.mod_lt _ (by norm_num)
  · rintro ⟨hval, hlen⟩
    exact ⟨by rw [hcount hval, Nat.mod_eq_of_lt hlen], hval⟩

/-- A block whose fields are all zero, for what uninitialised variables may hold. -/
def bloqueCero : Bloque where
  id := 0
  objetivo := 0
  solucion := 0
  ganador := 0
  carteras := fun _ => ⟨0, 0⟩
  votosTotales := 0
  votosPositivos := 0
  correcto := false
  fin := false

/-- In a first round whose search fails with the error value of `manage_threads`, the miner is
paid and the Registrador validates the block, which the comprobador rejects. -/
theorem not_juiciosCoinciden_error :
    PuedeDevolver 0 EXIT_FAILURE ∧
      ¬ JuiciosCoinciden 1000 (inicializar 1000 bloqueCero bloqueCero) [EXIT_FAILURE] := by
  refine ⟨Or.inr (Or.inr rfl), fun h => ?_⟩
  have hquorum :
      quorum (minar 1000 EXIT_FAILURE (inicializar 1000 bloqueCero bloqueCero).blActual) :=
    quorum_minar rfl
  have hcorr := (h.2 _ List.mem_cons_self).mp hquorum
  rw [comprobar_correcto, minar_valido] at hcorr
  exact absurd hcorr (by decide)

end Soper.Proyecto
