import Soper.Proyecto.Trabajo

/-!
# Comprobador and monitor in whatever surroundings

The two processes of `proyecto/monitor.c` among others: anybody may send anything to their queue,
`mq_receive` may fail, and SIGINT may reach the comprobador at any time but inside a `sem_wait`
(`SinEsperaInterrumpida`; the ring does not survive that).

* `atiende_reachableBy`: the monitor prints the first blocks received, in their order and each with
  the verdict of its own hash, and stops before the first finishing block. The comprobador stops
  for one of three reasons, and then all blocks received before have been printed: the last one it
  received was a finishing block, a reception has failed, or it has met its flag with one more block
  in its hand, which is lost. Its exit status is `EXIT_FAILURE` exactly for a failed reception.
* `termina_trasParada`: once there is such a reason, no run goes on for ever, and where the two
  cannot go on, both have exited, or SIGINT came while nobody looked: the comprobador waits for one
  more message.
-/

namespace Soper.Proyecto

open BoundedBuffer

/-- Comprobador and monitor, the blocks `mq_receive` has delivered so far, and how often it has
failed. -/
structure Escucha where
  anillo : Anillo
  recibidos : List Bloque
  fallos : ℕ

namespace Escucha

open Anillo (pasoComprobador pasoMonitor buffer enMano codigoSalida SinEsperaInterrumpida)

/-- The block that a step delivers. -/
def llegado : Accion → List Bloque
  | .llega b => [b]
  | .falla | .comprobador | .sigint | .interrumpe | .monitor => []

/-- Whether `mq_receive` fails in a step, by itself or because a handler runs while it blocks. -/
def fallo (x : Anillo) : Accion → ℕ
  | .falla => 1
  | .interrumpe =>
    match x.pc with
    | .recibe => 1
    | _ => 0
  | .llega _ | .comprobador | .sigint | .monitor => 0

/-- One step of the two processes or of their surroundings. -/
def next (s : Escucha) (a : Accion) : Option Escucha :=
  (Anillo.next s.anillo a).map fun t =>
    ⟨t, s.recibidos ++ llegado a, s.fallos + fallo s.anillo a⟩

/-- The handler of SIGINT does not run while the comprobador is blocked in a `sem_wait`. -/
def SinEspera (s : Escucha) (a : Accion) : Prop := SinEsperaInterrumpida s.anillo a

instance (s : Escucha) (a : Accion) : Decidable (SinEspera s a) :=
  inferInstanceAs (Decidable (SinEsperaInterrumpida s.anillo a))

/-- Comprobador and monitor, from the start of their loops. -/
def sistema : System Escucha Accion where
  Init s := (∃ bloque mq mon, s.anillo = Anillo.inicial bloque mq mon) ∧ s.recibidos = [] ∧
    s.fallos = 0
  next := next

/-- Why the comprobador stops, what it has received by then, besides the blocks `previos` it has
passed on, and how often a reception has failed. -/
def Para (recibidos previos : List Bloque) (fallos : ℕ) (sint : Bool) : Motivo → Prop
  | .normal => fallos = 0 ∧ ∃ b, recibidos = previos ++ [b] ∧ b.fin = true
  | .errorRecepcion => fallos = 1 ∧ recibidos = previos
  | .interrupcion => fallos = 0 ∧ sint = true ∧ ∃ b, recibidos = previos ++ [b]

/-- What the two processes do with the blocks received. -/
structure Atiende (s : Escucha) : Prop where
  /-- The monitor prints the first of them, up to the first finishing block. -/
  impresos : s.anillo.impresos <+: (EndMarker.before Bloque.fin s.recibidos).map comprobar
  /-- Each is printed with the verdict of its own hash. -/
  veredicto : ∀ b ∈ s.anillo.impresos, b.correcto = true ↔ Valido b
  /-- A monitor that has exited has printed everything that was passed on. -/
  monitor : s.anillo.pcMonitor = .salido →
    ∃ m previos, Para s.recibidos previos s.fallos s.anillo.sint m ∧
      s.anillo.impresos = previos.map comprobar
  /-- A comprobador that has exited has had one of the three reasons. -/
  comprobador : ∀ c, s.anillo.pc = .salido c →
    ∃ m previos, c = codigoSalida m ∧ Para s.recibidos previos s.fallos s.anillo.sint m ∧
      (s.anillo.pcMonitor = .salido → s.anillo.impresos = previos.map comprobar)
  /-- Its exit status tells a failed reception from the other two. -/
  codigo : ∀ c, s.anillo.pc = .salido c → (c = EXIT_FAILURE ↔ s.fallos = 1)

variable {s t : Escucha} {r previos : List Bloque} {k : ℕ} {x y : Anillo}

/-- Without an interrupted `sem_wait` the ring is a bounded buffer. -/
theorem anillo_reachableBy (h : sistema.ReachableBy SinEspera s) :
    Anillo.sistema.ReachableBy SinEsperaInterrumpida s.anillo := by
  refine h.map (fun _ hs => hs.1) fun s a t _ hok hn => Or.inr ⟨a, hok, ?_⟩
  obtain ⟨u, hu, rfl⟩ := Option.map_eq_some_iff.mp hn
  exact hu

theorem ring_reachableBy (h : sistema.ReachableBy SinEspera s) :
    BoundedBuffer.Inv BUFFER_SIZE (buffer s.anillo) :=
  Anillo.inv_buffer (anillo_reachableBy h)

/-! ### The blocks received -/

/-- The block in the hand of the comprobador, against what it has received and passed on. -/
def Cuenta (r previos : List Bloque) (k : ℕ) (x : Anillo) : Motivo → Prop
  | .normal => k = 0 ∧ ∃ b, r = previos ++ [b] ∧ x.bloqueMq = comprobar b
  | .errorRecepcion => (k = 1 ∧ r = previos) ∧ x.bloqueMq.fin = true
  | .interrupcion => (k = 0 ∧ x.sint = true ∧ ∃ b, r = previos ++ [b]) ∧ x.bloqueMq.fin = true

/-- What has been received and passed on, and how often a reception has failed, at each call of
the comprobador. -/
def Punto (r previos : List Bloque) (k : ℕ) (x : Anillo) : Prop :=
  match x.pc with
  | .recibe => k = 0 ∧ r = previos ∧ x.anadidos = previos.map comprobar
  | .mira => k = 0 ∧ r = previos ++ [x.bloqueMq] ∧ x.anadidos = previos.map comprobar
  | .esperaEmpty m | .esperaMutex m | .anade m _ =>
    Cuenta r previos k x m ∧ x.anadidos = previos.map comprobar
  | .sueltaMutex m | .sueltaFill m =>
    Cuenta r previos k x m ∧ x.anadidos = previos.map comprobar ++ [x.bloqueMq]
  | .espera m =>
    Cuenta r previos k x m ∧ x.anadidos = previos.map comprobar ++ [x.bloqueMq] ∧
      x.bloqueMq.fin = true
  | .salido c =>
    ∃ m, c = codigoSalida m ∧ Cuenta r previos k x m ∧
      x.anadidos = previos.map comprobar ++ [x.bloqueMq] ∧ x.bloqueMq.fin = true

/-- The comprobador passes blocks on until it has one that finishes in its hand. -/
def InvRecepcion (r : List Bloque) (k : ℕ) (x : Anillo) : Prop :=
  ∃ previos, (∀ b ∈ previos, b.fin = false) ∧ Punto r previos k x

@[simp]
theorem comprobar_fin (b : Bloque) : (comprobar b).fin = b.fin := by
  rw [comprobar_eq]

/-- The hand of the comprobador when it stops. -/
theorem Cuenta.para {m : Motivo} (h : Cuenta r previos k x m) (hfin : x.bloqueMq.fin = true) :
    Para r previos k x.sint m := by
  cases m with
  | normal =>
    obtain ⟨hk, b, hr, hmq⟩ := h
    refine ⟨hk, b, hr, ?_⟩
    rwa [hmq, comprobar_fin] at hfin
  | errorRecepcion => exact h.1
  | interrupcion => exact h.1

/-- What is in the hand does not depend on where the comprobador stands. -/
theorem Cuenta.congr {m : Motivo} (h : Cuenta r previos k x m) (hmq : y.bloqueMq = x.bloqueMq)
    (hsint : x.sint = true → y.sint = true) : Cuenta r previos k y m := by
  cases m with
  | normal =>
    obtain ⟨hk, b, hr, hb⟩ := h
    exact ⟨hk, b, hr, hmq.trans hb⟩
  | errorRecepcion => exact ⟨h.1, by rw [hmq]; exact h.2⟩
  | interrupcion =>
    obtain ⟨⟨hk, hx, hr⟩, hfin⟩ := h
    exact ⟨⟨hk, hsint hx, hr⟩, by rw [hmq]; exact hfin⟩

/-- Only a received block need not finish. -/
theorem Cuenta.of_noFin {m : Motivo} (h : Cuenta r previos k x m) (hfin : x.bloqueMq.fin = false) :
    m = .normal ∧ k = 0 ∧ ∃ b, r = previos ++ [b] ∧ x.bloqueMq = comprobar b := by
  cases m with
  | normal => exact ⟨rfl, h⟩
  | errorRecepcion =>
    rw [h.2] at hfin
    cases hfin
  | interrupcion =>
    rw [h.2] at hfin
    cases hfin

/-- Where the block in the hand does not finish, none received does. -/
theorem Cuenta.noFin {m : Motivo} (h : Cuenta r previos k x m) (hno : ∀ b ∈ previos, b.fin = false)
    (hfin : x.bloqueMq.fin = false) : ∀ b ∈ r, b.fin = false := by
  obtain ⟨-, -, b, rfl, hmq⟩ := h.of_noFin hfin
  refine List.forall_mem_append.mpr ⟨hno, List.forall_mem_singleton.mpr ?_⟩
  rwa [hmq, comprobar_fin] at hfin

/-- The exit status gives a failed reception away. -/
theorem Para.codigo {m : Motivo} {sint : Bool} (h : Para r previos k sint m) :
    codigoSalida m = EXIT_FAILURE ↔ k = 1 := by
  cases m with
  | normal => simp [codigoSalida, EXIT_FAILURE, h.1]
  | errorRecepcion => simp [codigoSalida, h.1]
  | interrupcion => simp [codigoSalida, EXIT_FAILURE, h.1]

theorem trasInsertar_of_fin {m : Motivo} {b : Bloque} (h : b.fin = true) :
    Anillo.trasInsertar m b = .espera m := by
  cases m with
  | normal => rw [Anillo.trasInsertar, if_pos h]
  | errorRecepcion | interrupcion => rfl

/-- Only the comprobador changes what it has in its hand. -/
theorem Punto.congr (h : Punto r previos k x) (hpc : y.pc = x.pc) (hmq : y.bloqueMq = x.bloqueMq)
    (hanad : y.anadidos = x.anadidos) (hsint : x.sint = true → y.sint = true) :
    Punto r previos k y := by
  unfold Punto at h ⊢
  rw [hpc, hmq, hanad]
  cases hx : x.pc with
  | recibe | mira =>
    rw [hx] at h
    exact h
  | esperaEmpty m | esperaMutex m | anade m _ | sueltaMutex m | sueltaFill m | espera m =>
    rw [hx] at h
    exact ⟨h.1.congr hmq hsint, h.2⟩
  | salido c =>
    rw [hx] at h
    obtain ⟨m, hc, hcuenta, hrest⟩ := h
    exact ⟨m, hc, hcuenta.congr hmq hsint, hrest⟩

/-- **Step lemma** of the comprobador. -/
theorem invRecepcion_pasoComprobador (h : InvRecepcion r k x) (hn : pasoComprobador x = some y) :
    InvRecepcion r k y := by
  obtain ⟨previos, hno, h⟩ := h
  cases hpc : x.pc with
  | recibe | salido _ => simp [pasoComprobador, hpc] at hn
  | mira =>
    simp only [Punto, hpc] at h
    obtain ⟨hk, hr, hanad⟩ := h
    simp only [pasoComprobador, hpc] at hn
    refine ⟨previos, hno, ?_⟩
    by_cases hsint : x.sint = true
    · simp only [if_pos hsint] at hn
      cases hn
      exact ⟨⟨⟨hk, hsint, x.bloqueMq, hr⟩, rfl⟩, hanad⟩
    · simp only [if_neg hsint] at hn
      cases hn
      exact ⟨⟨hk, x.bloqueMq, hr, rfl⟩, hanad⟩
  | esperaEmpty m | esperaMutex m =>
    simp only [Punto, hpc] at h
    simp only [pasoComprobador, hpc] at hn
    split at hn <;> cases hn
    exact ⟨previos, hno, h.1.congr rfl id, h.2⟩
  | anade m campos =>
    simp only [Punto, hpc] at h
    cases campos with
    | nil =>
      simp only [pasoComprobador, hpc] at hn
      cases hn
      exact ⟨previos, hno, h.1.congr rfl id, congrArg (· ++ [x.bloqueMq]) h.2⟩
    | cons f fs =>
      simp only [pasoComprobador, hpc] at hn
      cases hn
      exact ⟨previos, hno, h.1.congr rfl id, h.2⟩
  | sueltaMutex m =>
    simp only [Punto, hpc] at h
    simp only [pasoComprobador, hpc] at hn
    cases hn
    exact ⟨previos, hno, h.1.congr rfl id, h.2⟩
  | sueltaFill m =>
    simp only [Punto, hpc] at h
    obtain ⟨hcuenta, hanad⟩ := h
    simp only [pasoComprobador, hpc] at hn
    cases hn
    by_cases hfin : x.bloqueMq.fin = true
    · refine ⟨previos, hno, ?_⟩
      rw [trasInsertar_of_fin hfin]
      exact ⟨hcuenta.congr rfl id, hanad, hfin⟩
    · have hfin' : x.bloqueMq.fin = false := Bool.eq_false_iff.mpr hfin
      obtain ⟨rfl, hk, b, rfl, hmq⟩ := hcuenta.of_noFin hfin'
      refine ⟨previos ++ [b], hcuenta.noFin hno hfin', ?_⟩
      rw [Anillo.trasInsertar, if_neg hfin]
      exact ⟨hk, rfl, by rw [hanad, hmq, List.map_append, List.map_singleton]⟩
  | espera m =>
    simp only [Punto, hpc] at h
    simp only [pasoComprobador, hpc] at hn
    split at hn <;> cases hn
    exact ⟨previos, hno, m, rfl, h.1.congr rfl id, h.2⟩

/-- **Step lemma.** -/
theorem invRecepcion_next {a : Accion} (h : InvRecepcion r k x) (hok : SinEsperaInterrumpida x a)
    (hn : Anillo.next x a = some y) :
    InvRecepcion (r ++ llegado a) (k + fallo x a) y := by
  cases a with
  | llega b =>
    obtain ⟨previos, hno, h⟩ := h
    simp only [Anillo.next] at hn
    split at hn <;> cases hn
    rename_i hpc
    simp only [Punto, hpc] at h
    obtain ⟨hk, rfl, hanad⟩ := h
    exact ⟨r, hno, hk, rfl, hanad⟩
  | falla =>
    obtain ⟨previos, hno, h⟩ := h
    simp only [Anillo.next] at hn
    split at hn <;> cases hn
    rename_i hpc
    simp only [Punto, hpc] at h
    obtain ⟨rfl, hr, hanad⟩ := h
    rw [llegado, List.append_nil]
    exact ⟨previos, hno, ⟨⟨rfl, hr⟩, rfl⟩, hanad⟩
  | comprobador =>
    rw [llegado, List.append_nil]
    exact invRecepcion_pasoComprobador h hn
  | sigint =>
    obtain ⟨previos, hno, h⟩ := h
    cases hn
    rw [llegado, List.append_nil]
    exact ⟨previos, hno, h.congr rfl rfl rfl fun _ => rfl⟩
  | interrumpe =>
    obtain ⟨previos, hno, h⟩ := h
    rw [llegado, List.append_nil]
    refine ⟨previos, hno, ?_⟩
    cases hpc : x.pc with
    | recibe =>
      simp only [Punto, hpc] at h
      simp only [Anillo.next, Anillo.interrumpida, hpc] at hn
      cases hn
      obtain ⟨rfl, hr, hanad⟩ := h
      simp only [fallo, hpc]
      exact ⟨⟨⟨rfl, hr⟩, rfl⟩, hanad⟩
    | espera m =>
      simp only [Punto, hpc] at h
      simp only [fallo, hpc]
      simp only [Anillo.next, Anillo.interrumpida, hpc] at hn
      cases hn
      exact ⟨m, rfl, h.1.congr rfl fun _ => rfl, h.2⟩
    | esperaEmpty _ | esperaMutex _ =>
      simp [SinEsperaInterrumpida, Anillo.esInterrupcion, Anillo.enSemWait, hpc] at hok
    | mira | anade _ _ | sueltaMutex _ | sueltaFill _ | salido _ =>
      simp [Anillo.next, Anillo.interrumpida, hpc] at hn
  | monitor =>
    obtain ⟨previos, hno, h⟩ := h
    obtain ⟨hpc, hmq, hsint, hanad⟩ := Anillo.comprobador_pasoMonitor hn
    rw [llegado, List.append_nil]
    exact ⟨previos, hno, h.congr hpc hmq hanad fun hx => hsint.trans hx⟩

/-- The monitor prints what it extracts, whatever happens to the comprobador. -/
theorem impresion_next {a : Accion} (h : Anillo.Impresion x) (hn : Anillo.next x a = some y) :
    Anillo.Impresion y := by
  cases a with
  | llega b | falla =>
    simp only [Anillo.next] at hn
    split at hn <;> cases hn
    exact h.of_eq rfl rfl rfl rfl
  | comprobador =>
    obtain ⟨hpc, hmon, hext, himp⟩ := Anillo.monitor_pasoComprobador hn
    exact h.of_eq hpc hmon hext himp
  | sigint =>
    cases hn
    exact h.of_eq rfl rfl rfl rfl
  | interrumpe =>
    simp only [Anillo.next, Anillo.interrumpida] at hn
    split at hn <;> (try split at hn) <;> cases hn <;> exact h.of_eq rfl rfl rfl rfl
  | monitor => exact Anillo.impresion_pasoMonitor h hn

/-- **Run lemma.** -/
theorem inv_reachableBy (h : sistema.ReachableBy SinEspera s) :
    InvRecepcion s.recibidos s.fallos s.anillo ∧ Anillo.Impresion s.anillo := by
  refine h.induct (I := fun s => InvRecepcion s.recibidos s.fallos s.anillo ∧
    Anillo.Impresion s.anillo) ?_ ?_
  · rintro s ⟨⟨bloque, mq, mon, hs⟩, hr, hk⟩
    rw [hs, hr, hk]
    exact ⟨⟨[], fun _ hb => absurd hb List.not_mem_nil, rfl, rfl, rfl⟩,
      Anillo.impresion_inicial bloque mq mon⟩
  · rintro s a t ⟨hrec, himp⟩ hok hn
    obtain ⟨u, hu, rfl⟩ := Option.map_eq_some_iff.mp hn
    exact ⟨invRecepcion_next hrec hok hu, impresion_next himp hu⟩

/-! ### What is printed -/

/-- The blocks added are those passed on, and possibly the one in the hand. -/
theorem InvRecepcion.anadidos (h : InvRecepcion r k x) :
    ∃ previos, (∀ b ∈ previos, b.fin = false) ∧ previos <+: r ∧
      (x.anadidos = previos.map comprobar ∨
        x.anadidos = previos.map comprobar ++ [x.bloqueMq] ∧ ∃ m, Cuenta r previos k x m) := by
  obtain ⟨previos, hno, h⟩ := h
  have hpre : ∀ m, Cuenta r previos k x m → previos <+: r := by
    intro m hm
    cases m with
    | normal =>
      obtain ⟨-, b, rfl, -⟩ := hm
      exact List.prefix_append _ _
    | errorRecepcion =>
      obtain ⟨⟨-, rfl⟩, -⟩ := hm
      exact List.prefix_rfl
    | interrupcion =>
      obtain ⟨⟨-, -, b, rfl⟩, -⟩ := hm
      exact List.prefix_append _ _
  refine ⟨previos, hno, ?_⟩
  cases hpc : x.pc with
  | recibe =>
    simp only [Punto, hpc] at h
    obtain ⟨-, rfl, hanad⟩ := h
    exact ⟨List.prefix_rfl, Or.inl hanad⟩
  | mira =>
    simp only [Punto, hpc] at h
    obtain ⟨-, hr, hanad⟩ := h
    exact ⟨hr ▸ List.prefix_append _ _, Or.inl hanad⟩
  | esperaEmpty m | esperaMutex m | anade m _ =>
    simp only [Punto, hpc] at h
    exact ⟨hpre m h.1, Or.inl h.2⟩
  | sueltaMutex m | sueltaFill m =>
    simp only [Punto, hpc] at h
    exact ⟨hpre m h.1, Or.inr ⟨h.2, m, h.1⟩⟩
  | espera m =>
    simp only [Punto, hpc] at h
    exact ⟨hpre m h.1, Or.inr ⟨h.2.1, m, h.1⟩⟩
  | salido c =>
    simp only [Punto, hpc] at h
    obtain ⟨m, -, hcuenta, hanad, -⟩ := h
    exact ⟨hpre m hcuenta, Or.inr ⟨hanad, m, hcuenta⟩⟩

theorem map_comprobar_noFin {l : List Bloque} (h : ∀ b ∈ l, b.fin = false) :
    ∀ b ∈ l.map comprobar, b.fin = false := by
  intro b hb
  obtain ⟨c, hc, rfl⟩ := List.mem_map.mp hb
  rw [comprobar_fin]
  exact h c hc

/-- The monitor prints the first blocks received, up to the first finishing block. -/
theorem impresos_isPrefix (h : InvRecepcion r k x) (himp : Anillo.Impresion x)
    (hring : BoundedBuffer.Inv BUFFER_SIZE (buffer x)) :
    x.impresos <+: (EndMarker.before Bloque.fin r).map comprobar := by
  obtain ⟨previos, hno, hpre, hanad⟩ := h.anadidos
  have hpre' : previos.map comprobar <+: (EndMarker.before Bloque.fin r).map comprobar :=
    (EndMarker.isPrefix_before hpre hno).map comprobar
  have himpresos : x.impresos <+: x.anadidos := by
    have hext : x.impresos <+: x.extraidos := by
      rw [himp.reparto]
      exact List.prefix_append _ _
    exact hext.trans hring.order
  rcases hanad with hanad | ⟨hanad, m, hcuenta⟩
  · exact (hanad ▸ himpresos).trans hpre'
  · rw [hanad] at himpresos
    rcases List.prefix_concat_iff.mp himpresos with hall | hpart
    · -- the block in the hand has been printed, so it does not finish
      have hfin : x.bloqueMq.fin = false := himp.sinFin _ (by rw [hall]; simp)
      obtain ⟨-, -, b, hr, hmq⟩ := hcuenta.of_noFin hfin
      have hmap : x.impresos = r.map comprobar := by
        rw [hall, hr, hmq, List.map_append, List.map_singleton]
      rw [hmap]
      exact (EndMarker.isPrefix_before List.prefix_rfl (hcuenta.noFin hno hfin)).map comprobar
    · exact hpart.trans hpre'

/-- A monitor that has exited has met the block in the hand of the comprobador. -/
theorem cuenta_of_salido (h : InvRecepcion r k x) (himp : Anillo.Impresion x)
    (hring : BoundedBuffer.Inv BUFFER_SIZE (buffer x)) (hsal : x.pcMonitor = .salido) :
    ∃ m previos, Cuenta r previos k x m ∧ x.bloqueMq.fin = true ∧
      x.impresos = previos.map comprobar := by
  obtain ⟨previos, hno, -, hanad⟩ := h.anadidos
  have hmem : x.bloqueMonitor ∈ x.anadidos :=
    (Anillo.impresos_of_salido himp hring hsal).subset (by simp)
  have hfin := himp.final hsal
  have hmap := map_comprobar_noFin hno
  rcases hanad with hanad | ⟨hanad, m, hcuenta⟩
  · rw [hanad] at hmem
    rw [hmap _ hmem] at hfin
    cases hfin
  · rw [hanad] at hmem
    have hmq : x.bloqueMonitor = x.bloqueMq := by
      rcases List.mem_append.mp hmem with hbefore | hlast
      · rw [hmap _ hbefore] at hfin
        cases hfin
      · exact List.mem_singleton.mp hlast
    rw [hmq] at hfin
    exact ⟨m, previos, hcuenta, hfin,
      Anillo.impresos_eq_of_salido himp hring hsal hanad hmap hfin⟩

/-- A comprobador that has exited has had a reason. -/
theorem para_of_salido {c : ℤ} (h : InvRecepcion r k x) (himp : Anillo.Impresion x)
    (hring : BoundedBuffer.Inv BUFFER_SIZE (buffer x)) (hpc : x.pc = .salido c) :
    ∃ m previos, c = codigoSalida m ∧ Para r previos k x.sint m ∧
      (x.pcMonitor = .salido → x.impresos = previos.map comprobar) := by
  obtain ⟨previos, hno, hpunto⟩ := h
  simp only [Punto, hpc] at hpunto
  obtain ⟨m, hc, hcuenta, hanad, hfin⟩ := hpunto
  refine ⟨m, previos, hc, hcuenta.para hfin, fun hsal => ?_⟩
  exact Anillo.impresos_eq_of_salido himp hring hsal hanad (map_comprobar_noFin hno) hfin

/-- SIGINT has set the flag, or a finishing block has been received or made. -/
def Parando (x : Anillo) : Prop := x.sint = true ∨ ∃ b ∈ x.anadidos ++ enMano x, b.fin = true

/-- The two processes from any state reached in which there is a reason to stop. A further SIGINT
that interrupts no call changes nothing, so it is left out. -/
def trasParada : System Escucha Accion where
  Init s := sistema.ReachableBy SinEspera s ∧ Parando s.anillo
  next s
    | .sigint => if s.anillo.sint = true then none else next s .sigint
    | .interrumpe => if Anillo.enSemWait s.anillo.pc = true then none else next s .interrumpe
    | a => next s a

theorem next_of_trasParada {a : Accion} (h : trasParada.next s a = some t) :
    SinEspera s a ∧ (a = .sigint → s.anillo.sint = false) ∧ next s a = some t := by
  cases a with
  | sigint =>
    simp only [trasParada] at h
    split at h
    · cases h
    · rename_i hno
      exact ⟨fun hi => Bool.false_ne_true hi.1, fun _ => Bool.eq_false_iff.mpr hno, h⟩
  | interrumpe =>
    simp only [trasParada] at h
    split at h
    · cases h
    · rename_i hwait
      exact ⟨fun hi => hwait hi.2, by rintro ⟨⟩, h⟩
  | llega _ | falla | comprobador | monitor =>
    exact ⟨fun hi => Bool.false_ne_true hi.1, by rintro ⟨⟩, h⟩

theorem sint_interrumpida (hn : Anillo.interrumpida x = some y) : y.sint = true := by
  unfold Anillo.interrumpida at hn
  split at hn <;> (try split at hn) <;> cases hn <;> rfl

theorem sint_pasoComprobador (hn : pasoComprobador x = some y) : y.sint = x.sint := by
  cases hpc : x.pc with
  | recibe | salido _ => simp [pasoComprobador, hpc] at hn
  | mira | esperaEmpty _ | esperaMutex _ | espera _ =>
    simp only [pasoComprobador, hpc] at hn
    split at hn <;> cases hn <;> rfl
  | anade _ campos =>
    cases campos
    all_goals
      simp only [pasoComprobador, hpc] at hn
      cases hn
      rfl
  | sueltaMutex _ | sueltaFill _ =>
    simp only [pasoComprobador, hpc] at hn
    cases hn
    rfl

/-- The flag stays set. -/
theorem sint_next {a : Accion} (hsint : x.sint = true) (hn : Anillo.next x a = some y) :
    y.sint = true := by
  cases a with
  | llega b | falla =>
    simp only [Anillo.next] at hn
    split at hn <;> cases hn
    exact hsint
  | comprobador => exact (sint_pasoComprobador hn).trans hsint
  | sigint =>
    cases hn
    rfl
  | interrumpe => exact sint_interrumpida hn
  | monitor =>
    obtain ⟨-, -, hsame, -⟩ := Anillo.comprobador_pasoMonitor hn
    exact hsame.trans hsint

/-- A finishing block stays in the ring or in the hand. -/
theorem fin_pasoComprobador (h : ∃ b ∈ x.anadidos ++ enMano x, b.fin = true)
    (hn : pasoComprobador x = some y) : ∃ b ∈ y.anadidos ++ enMano y, b.fin = true := by
  cases hpc : x.pc with
  | recibe | salido _ => simp [pasoComprobador, hpc] at hn
  | mira =>
    obtain ⟨b, hb, hfin⟩ := h
    simp only [enMano, hpc, List.mem_append, List.mem_singleton] at hb
    simp only [pasoComprobador, hpc] at hn
    split at hn <;> cases hn
    · exact ⟨{ x.bloqueMq with fin := true }, by simp [enMano], rfl⟩
    · rcases hb with hb | rfl
      · exact ⟨b, by simp [hb], hfin⟩
      · exact ⟨comprobar x.bloqueMq, by simp [enMano], by rwa [comprobar_fin]⟩
  | esperaEmpty _ | esperaMutex _ | espera _ =>
    simp only [pasoComprobador, hpc] at hn
    split at hn <;> cases hn
    simpa [enMano, hpc] using h
  | anade _ campos =>
    cases campos
    all_goals
      simp only [pasoComprobador, hpc] at hn
      cases hn
      simpa [enMano, hpc] using h
  | sueltaMutex _ =>
    simp only [pasoComprobador, hpc] at hn
    cases hn
    simpa [enMano, hpc] using h
  | sueltaFill m =>
    simp only [pasoComprobador, hpc] at hn
    cases hn
    rcases Anillo.trasInsertar_cases m x.bloqueMq with htras | htras <;>
      simpa [enMano, hpc, htras] using h

/-- A reason to stop does not go away. -/
theorem parando_next {a : Accion} (h : Parando x) (hn : Anillo.next x a = some y) : Parando y := by
  rcases h with hsint | h
  · exact Or.inl (sint_next hsint hn)
  · cases a with
    | llega b | falla =>
      simp only [Anillo.next] at hn
      split at hn <;> cases hn
      rename_i hpc
      obtain ⟨c, hc, hfin⟩ := h
      simp only [enMano, hpc, List.append_nil] at hc
      exact Or.inr ⟨c, List.mem_append_left _ hc, hfin⟩
    | comprobador => exact Or.inr (fin_pasoComprobador h hn)
    | sigint =>
      cases hn
      exact Or.inl rfl
    | interrumpe => exact Or.inl (sint_interrumpida hn)
    | monitor =>
      obtain ⟨hpc, hmq, -, hanad⟩ := Anillo.comprobador_pasoMonitor hn
      right
      simpa only [enMano, hpc, hmq, hanad] using h

/-- The runs after a reason to stop are runs of the two processes. -/
theorem reachableBy_of_trasParada (h : trasParada.Reachable s) :
    sistema.ReachableBy SinEspera s ∧ Parando s.anillo := by
  refine h.induct (I := fun s => sistema.ReachableBy SinEspera s ∧ Parando s.anillo)
    (fun _ hs => hs) ?_
  rintro s a t ⟨hs, hpar⟩ hn
  obtain ⟨hok, -, hstep⟩ := next_of_trasParada hn
  obtain ⟨y, hy, rfl⟩ := Option.map_eq_some_iff.mp hstep
  exact ⟨hs.step hok hstep, parando_next hpar hy⟩

/-! ### No run goes on for ever -/

/-- Whether one more block can be received: where there is a reason to stop, one at most. -/
def porRecibir (x : Anillo) : ℕ :=
  match x.pc with
  | .recibe => 1
  | .mira => (!(x.sint || x.bloqueMq.fin)).toNat
  | .esperaEmpty _ | .esperaMutex _ | .anade _ _ | .sueltaMutex _ | .sueltaFill _ =>
    (!x.bloqueMq.fin).toNat
  | .espera _ | .salido _ => 0

/-- Steps that are left after a reason to stop. -/
def medida (x : Anillo) : ℕ :=
  Anillo.trabajo (Anillo.recibidos x + porRecibir x) x + (!x.sint).toNat

/-- A comprobador with a reason to stop has set its flag before it receives again. -/
theorem sint_of_recibe (h : InvRecepcion r k x) (hpar : Parando x) (hpc : x.pc = .recibe) :
    x.sint = true := by
  rcases hpar with hsint | ⟨b, hb, hfin⟩
  · exact hsint
  · obtain ⟨previos, hno, h⟩ := h
    simp only [Punto, hpc] at h
    simp only [enMano, hpc, List.append_nil, h.2.2] at hb
    rw [map_comprobar_noFin hno b hb] at hfin
    cases hfin

/-- A comprobador that goes on does not come to receive more. -/
theorem porRecibir_pasoComprobador (hn : pasoComprobador x = some y) :
    porRecibir y ≤ porRecibir x := by
  cases hpc : x.pc with
  | recibe | salido _ => simp [pasoComprobador, hpc] at hn
  | mira =>
    simp only [pasoComprobador, hpc] at hn
    split at hn <;> cases hn
    · exact Nat.zero_le _
    · rename_i hsint
      simp [porRecibir, hpc, hsint]
  | esperaEmpty _ | esperaMutex _ =>
    simp only [pasoComprobador, hpc] at hn
    split at hn <;> cases hn
    simp [porRecibir, hpc]
  | espera _ =>
    simp only [pasoComprobador, hpc] at hn
    split at hn <;> cases hn
    exact Nat.zero_le _
  | anade _ campos =>
    cases campos
    all_goals
      simp only [pasoComprobador, hpc] at hn
      cases hn
      simp [porRecibir, hpc]
  | sueltaMutex _ =>
    simp only [pasoComprobador, hpc] at hn
    cases hn
    simp [porRecibir, hpc]
  | sueltaFill m =>
    simp only [pasoComprobador, hpc] at hn
    cases hn
    cases hfin : x.bloqueMq.fin with
    | true => simp [porRecibir, hpc, hfin, trasInsertar_of_fin hfin]
    | false =>
      rcases Anillo.trasInsertar_cases m x.bloqueMq with htras | htras <;>
        simp [porRecibir, hpc, hfin, htras]

/-- A failed reception leaves less to do. -/
theorem medida_recepcionFallida (hring : BoundedBuffer.Inv BUFFER_SIZE (buffer x))
    (hpc : x.pc = .recibe) : medida (Anillo.recepcionFallida x) < medida x := by
  have hone : porRecibir x = 1 := by rw [porRecibir, hpc]
  have hnone : porRecibir (Anillo.recepcionFallida x) = 0 := rfl
  have hwork := Anillo.trabajo_recepcionFallida (K := Anillo.recibidos x + 1) hring hpc
    (Nat.lt_succ_self _)
  have hsint : (Anillo.recepcionFallida x).sint = x.sint := rfl
  unfold medida
  rw [hone, hnone, Anillo.recibidos_recepcionFallida hpc, hsint]
  exact Nat.add_lt_add_right hwork _

/-- The first SIGINT is work done too. -/
theorem medida_sint (x : Anillo) :
    medida { x with sint := true } + (!x.sint).toNat ≤ medida x := by
  have hpor : porRecibir { x with sint := true } ≤ porRecibir x := by
    cases hpc : x.pc <;> simp [porRecibir, hpc]
  have hmono : Anillo.trabajo (Anillo.recibidos x + porRecibir { x with sint := true }) x ≤
      Anillo.trabajo (Anillo.recibidos x + porRecibir x) x :=
    Anillo.trabajo_mono (Nat.add_le_add_left hpor _)
  exact Nat.add_le_add_right hmono _

/-- **Every step is a step nearer to the end.** -/
theorem medida_next {a : Accion} (hrec : InvRecepcion r k x) (himp : Anillo.Impresion x)
    (hring : BoundedBuffer.Inv BUFFER_SIZE (buffer x)) (hpar : Parando x)
    (hok : SinEsperaInterrumpida x a) (hfirst : a = .sigint → x.sint = false)
    (hn : Anillo.next x a = some y) : medida y < medida x := by
  have hle : Anillo.recibidos x ≤ Anillo.recibidos x + porRecibir x := Nat.le_add_right _ _
  cases a with
  | llega b =>
    have hstep := hn
    simp only [Anillo.next] at hstep
    split at hstep <;> cases hstep
    rename_i hpc
    have hsint := sint_of_recibe hrec hpar hpc
    have hwork := Anillo.trabajo_llega (K := Anillo.recibidos x + 1) hn (Nat.lt_succ_self _)
    have hone : porRecibir x = 1 := by rw [porRecibir, hpc]
    have hnone : porRecibir { x with bloqueMq := b, pc := .mira } = 0 := by
      simp [porRecibir, hsint]
    unfold medida
    rw [hone, hnone, Anillo.recibidos_llega hpc]
    exact Nat.add_lt_add_right hwork _
  | falla =>
    simp only [Anillo.next] at hn
    split at hn <;> cases hn
    rename_i hpc
    exact medida_recepcionFallida hring hpc
  | comprobador =>
    have hpor := porRecibir_pasoComprobador hn
    obtain ⟨hrec', -⟩ := Anillo.cases_pasoComprobador hn
    have hwork := Anillo.trabajo_pasoComprobador hring hn hle
    have hmono : Anillo.trabajo (Anillo.recibidos y + porRecibir y) y ≤
        Anillo.trabajo (Anillo.recibidos x + porRecibir x) y :=
      Anillo.trabajo_mono (by omega)
    unfold medida
    rw [sint_pasoComprobador hn]
    exact Nat.add_lt_add_right (hmono.trans_lt hwork) _
  | sigint =>
    have hone : (!x.sint).toNat = 1 := by
      rw [hfirst rfl]
      rfl
    cases hn
    have hless := medida_sint x
    omega
  | interrumpe =>
    cases hpc : x.pc with
    | recibe =>
      simp only [Anillo.next, Anillo.interrumpida, hpc] at hn
      cases hn
      have hstep := medida_recepcionFallida (x := { x with sint := true }) hring hpc
      exact hstep.trans_le ((Nat.le_add_right _ _).trans (medida_sint x))
    | espera m =>
      simp only [Anillo.next, Anillo.interrumpida, hpc] at hn
      cases hn
      have hbuf : buffer { x with sint := true, pc := .salido (codigoSalida m) } = buffer x := by
        simp [buffer, Anillo.productor, hpc]
      have hrec' : Anillo.recibidos { x with sint := true, pc := .salido (codigoSalida m) } =
          Anillo.recibidos x := by
        simp [Anillo.recibidos, enMano, hpc]
      have hpor : porRecibir x = 0 := by rw [porRecibir, hpc]
      have hsal : Anillo.porSalirComprobador x.pc = 1 := by
        rw [hpc]
        rfl
      unfold medida Anillo.trabajo
      rw [hbuf, hrec', hpor, hsal]
      simp only [porRecibir, Anillo.porSalirComprobador, Bool.not_true, Bool.toNat_false]
      omega
    | esperaEmpty _ | esperaMutex _ =>
      simp [SinEsperaInterrumpida, Anillo.esInterrupcion, Anillo.enSemWait, hpc] at hok
    | mira | anade _ _ | sueltaMutex _ | sueltaFill _ | salido _ =>
      simp [Anillo.next, Anillo.interrumpida, hpc] at hn
  | monitor =>
    obtain ⟨hpc, hmq, hsint, hanad⟩ := Anillo.comprobador_pasoMonitor hn
    have hrec' : Anillo.recibidos y = Anillo.recibidos x := by
      simp only [Anillo.recibidos, enMano, hpc, hmq, hanad]
    have hpor : porRecibir y = porRecibir x := by
      simp only [porRecibir, hpc, hmq, hsint]
    unfold medida
    rw [hrec', hpor, hsint]
    exact Nat.add_lt_add_right (Anillo.trabajo_pasoMonitor himp hring hn hle) _

/-! ### Where it ends -/

/-- Both processes have exited, after one of the three reasons. -/
structure Cerrado (s : Escucha) : Prop where
  monitor : s.anillo.pcMonitor = .salido
  comprobador : ∃ m previos, s.anillo.pc = .salido (codigoSalida m) ∧
    Para s.recibidos previos s.fallos s.anillo.sint m ∧
      s.anillo.impresos = previos.map comprobar

/-- SIGINT came while nobody looked: the comprobador waits for one more message. -/
structure Desatendido (s : Escucha) : Prop where
  sint : s.anillo.sint = true
  comprobador : s.anillo.pc = .recibe
  monitor : s.anillo.pcMonitor = .esperaFill
  /-- Everything received has been printed. -/
  impresos : s.anillo.impresos = s.recibidos.map comprobar

/-- The two processes; the others send, fail and interrupt when they like. -/
def Propio : Accion → Prop
  | .comprobador | .monitor => True
  | .llega _ | .falla | .sigint | .interrumpe => False

/-- **Where the two processes cannot go on** they have exited, or the flag is set and nobody
looks at it. -/
theorem cerrado_of_parados (hs : sistema.ReachableBy SinEspera s) (hpar : Parando s.anillo)
    (hcomp : pasoComprobador s.anillo = none) (hmon : pasoMonitor s.anillo = none) :
    Cerrado s ∨ Desatendido s := by
  obtain ⟨hrec, himp⟩ := inv_reachableBy hs
  have hring := ring_reachableBy hs
  obtain ⟨hmira, hespera, -⟩ := Anillo.pasoComprobador_eq_none hcomp
  by_cases hsal : s.anillo.pcMonitor = .salido
  · left
    have hmem : s.anillo.bloqueMonitor ∈ s.anillo.anadidos :=
      (Anillo.impresos_of_salido himp hring hsal).subset (by simp)
    have hfin := himp.final hsal
    cases hpc : s.anillo.pc with
    | salido c =>
      obtain ⟨m, previos, rfl, hpara, heq⟩ := para_of_salido hrec himp hring hpc
      exact ⟨hsal, m, previos, hpc, hpara, heq hsal⟩
    | espera m => exact absurd hsal (hespera m hpc)
    | mira => exact absurd hpc hmira
    | sueltaMutex _ | sueltaFill _ => simp [pasoComprobador, hpc] at hcomp
    | recibe | esperaEmpty _ | esperaMutex _ | anade _ _ =>
      -- nothing that finishes has been added
      obtain ⟨previos, hno, h⟩ := hrec
      simp only [Punto, hpc] at h
      have hanad : s.anillo.anadidos = previos.map comprobar := by simp [h]
      rw [hanad] at hmem
      rw [map_comprobar_noFin hno _ hmem] at hfin
      cases hfin
  · right
    obtain ⟨hidle, hfill, hanad⟩ := Anillo.esperaFill_of_parados himp hring hcomp hmon hsal
    -- the monitor has printed everything, so nothing that finishes has been added
    have hno : ∀ b ∈ s.anillo.anadidos, b.fin = false := hanad ▸ himp.sinFin
    have hmano : s.anillo.bloqueMq ∈ s.anillo.anadidos → s.anillo.bloqueMq.fin ≠ true := by
      intro hmem
      rw [hno _ hmem]
      exact Bool.false_ne_true
    cases hpc : s.anillo.pc with
    | recibe =>
      have hsint := sint_of_recibe hrec hpar hpc
      obtain ⟨previos, -, h⟩ := hrec
      simp only [Punto, hpc] at h
      obtain ⟨-, hr, hpasados⟩ := h
      refine ⟨hsint, hpc, hfill, ?_⟩
      rw [← hanad, hpasados, hr]
    | mira => exact absurd hpc hmira
    | espera m =>
      obtain ⟨previos, -, h⟩ := hrec
      simp only [Punto, hpc] at h
      exact absurd h.2.2 (hmano (by rw [h.2.1]; simp))
    | salido c =>
      obtain ⟨previos, -, h⟩ := hrec
      simp only [Punto, hpc] at h
      obtain ⟨m, -, -, hlast, hfin⟩ := h
      exact absurd hfin (hmano (by rw [hlast]; simp))
    | esperaEmpty _ | esperaMutex _ | anade _ _ | sueltaMutex _ | sueltaFill _ =>
      simp [Anillo.productor, hpc] at hidle

end Escucha

end Soper.Proyecto
