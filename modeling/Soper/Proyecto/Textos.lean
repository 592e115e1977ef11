import Soper.Library.TextFormat
import Soper.Proyecto.Terminacion

/-!
# What can be read in the two texts

The Registrador writes every block to a log file with `dprintf`, the monitor prints every block
it extracts with `imprimir_bloque`. Both texts have the same shape, a `Plantilla`, with other
labels and widths; the monitor prints its counters of votes as `int`, and leaves out the bracket
in front of `rejected)`.

A block takes more than fifty calls, and the other processes go on between them. So `Textos` adds
to the four processes of `Cierre` the two texts as they are written, one call at a time: what this
Registrador appends to its file, and what the monitor, without the comprobador, puts on its
standard output. At any time both can be read. What comes back are the numbers and the verdicts of
the blocks written to their end, and what is left over is the part of the block under way that has
been written. So the two texts by themselves are enough to audit the run (`auditoria_reachable`):
entries with the same number agree, each verdict follows from the numbers printed beside it, and
once the Registrador has exited the entries of the monitor are found in the log, in the same order.
-/

namespace Soper.Proyecto

open Library

/-! ### The source -/

/-- The `dprintf`s of the Registrador for one block, call by call. -/
def anotaBloque (b : Bloque) : List (List Char) :=
  ["id:\t".toList ++ signedText 0 b.id ++ "\nWinner:\t".toList ++ signedText 0 b.ganador ++
      "\nTarget:\t".toList ++ signedText 0 b.objetivo ++
      "\nSolution:\t".toList ++ signedText 0 b.solucion ++ "\t".toList,
    if quorum b then "(validated)\n".toList else "(rejected)\n".toList,
    "Votes:\t".toList ++ unsignedText 0 b.votosPositivos ++ "/".toList ++
      unsignedText 0 b.votosTotales ++ "\nWallets:\t".toList] ++
  (List.ofFn fun i => signedText 0 (b.carteras i).idProceso ++ ":".toList ++
    unsignedText 0 (b.carteras i).monedas ++ " ".toList) ++
  ["\n\n".toList]

/-- `%d` of an `unsigned int`. -/
def comoInt (n : ℕ) : ℤ := toInt n

/-- The `printf`s of `imprimir_bloque`, call by call. -/
def imprimirBloque (b : Bloque) : List (List Char) :=
  ["Id:\t\t".toList ++ signedText 4 b.id ++ "\n".toList,
    "Winner:\t".toList ++ signedText 0 b.ganador ++ "\n".toList,
    "Target:\t".toList ++ signedText 0 b.objetivo ++ "\n".toList,
    "Solution:\t".toList ++ signedText 0 b.solucion ++ " ".toList,
    if b.correcto = true then "(validated)\n".toList else "rejected)\n".toList,
    "Votes:\t".toList ++ signedText 0 (comoInt b.votosPositivos) ++ "/".toList ++
      signedText 0 (comoInt b.votosTotales) ++ "\n".toList,
    "Wallets:\t".toList] ++
  (List.ofFn fun i => signedText 0 (b.carteras i).idProceso ++ ":".toList ++
    unsignedText 2 (b.carteras i).monedas ++ "\t".toList) ++
  ["\n\n".toList]

/-- Every call writes something. -/
theorem anotaBloque_ne_nil {b : Bloque} {c : List Char} (h : c ∈ anotaBloque b) : c ≠ [] := by
  simp only [anotaBloque, List.mem_append, List.mem_cons, List.mem_ofFn, List.not_mem_nil,
    or_false] at h
  obtain ((rfl | rfl | rfl) | ⟨i, rfl⟩) | rfl := h
  case inr => decide
  case inl.inl.inr.inl => split <;> decide
  all_goals exact List.append_ne_nil_of_right_ne_nil _ (by decide)

theorem imprimirBloque_ne_nil {b : Bloque} {c : List Char} (h : c ∈ imprimirBloque b) :
    c ≠ [] := by
  simp only [imprimirBloque, List.mem_append, List.mem_cons, List.mem_ofFn, List.not_mem_nil,
    or_false] at h
  obtain ((rfl | rfl | rfl | rfl | rfl | rfl | rfl) | ⟨i, rfl⟩) | rfl := h
  case inr => decide
  case inl.inl.inr.inr.inr.inr.inl => split <;> decide
  case inl.inl.inr.inr.inr.inr.inr.inr => decide
  all_goals exact List.append_ne_nil_of_right_ne_nil _ (by decide)

/-! ### The shape of both texts -/

/-- The numbers printed for a block; `V` is how its votes are printed. -/
structure Datos (V : Type) where
  id : ℤ
  ganador : ℤ
  objetivo : ℤ
  solucion : ℤ
  votosPositivos : V
  votosTotales : V
  carteras : Fin MAX_MINEROS → Cartera

/-- The numbers of a block, its votes printed as `v`. -/
def Bloque.datos {V : Type} (v : ℕ → V) (b : Bloque) : Datos V where
  id := b.id
  ganador := b.ganador
  objetivo := b.objetivo
  solucion := b.solucion
  votosPositivos := v b.votosPositivos
  votosTotales := v b.votosTotales
  carteras := b.carteras

/-- The same numbers, with the votes printed in another way. -/
def Datos.map {V W : Type} (f : V → W) (d : Datos V) : Datos W where
  id := d.id
  ganador := d.ganador
  objetivo := d.objetivo
  solucion := d.solucion
  votosPositivos := f d.votosPositivos
  votosTotales := f d.votosTotales
  carteras := d.carteras

/-- What the two texts do differently. -/
structure Plantilla (V : Type) where
  cabecera : List Char
  anchoId : ℕ
  trasSolucion : List Char
  rechazado : List Char
  votos : Numeral V
  anchoMonedas : ℕ
  trasMonedas : List Char
  cierraSolucion : Closes trasSolucion
  cierraMonedas : Closes trasMonedas
  distinto : ¬ "(validated)\n".toList <+: rechazado
  distinto' : ¬ rechazado <+: "(validated)\n".toList

/-- A wallet. -/
def formatoCartera (w : ℕ) (s : List Char) (hs : Closes s) : TextFormat Cartera :=
  (((signed 0).before ":".toList (by decide)).pair ((unsigned w).before s hs)).imap
    (fun p => ⟨p.1, p.2⟩) (fun c => (c.idProceso, c.monedas)) fun _ => rfl

/-- The numbers of a block and its verdict. -/
def Plantilla.formato {V : Type} (p : Plantilla V) : TextFormat (Datos V × Bool) :=
  TextFormat.imap
    ((((signed p.anchoId).before "\nWinner:\t".toList (by decide)).labelled p.cabecera).pair <|
      ((signed 0).before "\nTarget:\t".toList (by decide)).pair <|
      ((signed 0).before "\nSolution:\t".toList (by decide)).pair <|
      ((signed 0).before p.trasSolucion p.cierraSolucion).pair <|
      (TextFormat.choice "(validated)\n".toList p.rechazado p.distinto p.distinto').pair <|
      ((p.votos.before "/".toList (by decide)).labelled "Votes:\t".toList).pair <|
      (p.votos.before "\nWallets:\t".toList (by decide)).pair <|
      ((formatoCartera p.anchoMonedas p.trasMonedas p.cierraMonedas).times MAX_MINEROS).ended
        "\n\n".toList)
    (fun (i, g, o, s, v, vp, vt, c) => (⟨i, g, o, s, vp, vt, c⟩, v))
    (fun (d, v) => (d.id, d.ganador, d.objetivo, d.solucion, v, d.votosPositivos, d.votosTotales,
      d.carteras))
    fun _ => rfl

/-- The log file. -/
def registrador : Plantilla ℕ where
  cabecera := "id:\t".toList
  anchoId := 0
  trasSolucion := "\t".toList
  rechazado := "(rejected)\n".toList
  votos := unsigned 0
  anchoMonedas := 0
  trasMonedas := " ".toList
  cierraSolucion := by decide
  cierraMonedas := by decide
  distinto := by decide
  distinto' := by decide

/-- The standard output of the monitor. -/
def monitor : Plantilla ℤ where
  cabecera := "Id:\t\t".toList
  anchoId := 4
  trasSolucion := " ".toList
  rechazado := "rejected)\n".toList
  votos := signed 0
  anchoMonedas := 2
  trasMonedas := "\t".toList
  cierraSolucion := by decide
  cierraMonedas := by decide
  distinto := by decide
  distinto' := by decide

/-- What a template prints. -/
theorem Plantilla.print_formato {V : Type} (p : Plantilla V) (d : Datos V) (v : Bool) :
    p.formato.print (d, v) =
      (p.cabecera ++ (signedText p.anchoId d.id ++ "\nWinner:\t".toList)) ++
      ((signedText 0 d.ganador ++ "\nTarget:\t".toList) ++
      ((signedText 0 d.objetivo ++ "\nSolution:\t".toList) ++
      ((signedText 0 d.solucion ++ p.trasSolucion) ++
      ((if v = true then "(validated)\n".toList else p.rechazado) ++
      (("Votes:\t".toList ++ (p.votos.print d.votosPositivos ++ "/".toList)) ++
      ((p.votos.print d.votosTotales ++ "\nWallets:\t".toList) ++
      ((List.ofFn fun i => (signedText 0 (d.carteras i).idProceso ++ ":".toList) ++
        (unsignedText p.anchoMonedas (d.carteras i).monedas ++ p.trasMonedas)).flatten ++
      "\n\n".toList))))))) := rfl

theorem Plantilla.print_ne_nil {V : Type} (p : Plantilla V) (a : Datos V × Bool) :
    p.formato.print a ≠ [] := by
  obtain ⟨d, v⟩ := a
  rw [Plantilla.print_formato]
  exact List.append_ne_nil_of_left_ne_nil
    (List.append_ne_nil_of_right_ne_nil _ (List.append_ne_nil_of_right_ne_nil _ (by decide))) _

/-- The Registrador writes by its template. -/
theorem print_registrador (b : Bloque) :
    registrador.formato.print (b.datos id, decide (quorum b)) = (anotaBloque b).flatten := by
  refine (Plantilla.print_formato _ _ _).trans ?_
  unfold anotaBloque registrador Bloque.datos unsigned
  dsimp only
  by_cases hq : quorum b <;>
    simp only [hq, decide_true, decide_false, Bool.false_eq_true, if_true, if_false, id_eq,
      List.flatten_append, List.flatten_cons, List.flatten_nil, List.append_nil, List.append_assoc]

/-- The monitor prints by its template. -/
theorem print_monitor (b : Bloque) :
    monitor.formato.print (b.datos comoInt, b.correcto) = (imprimirBloque b).flatten := by
  -- the labels that the template joins
  have hganador : "\nWinner:\t".toList = "\n".toList ++ "Winner:\t".toList := rfl
  have hobjetivo : "\nTarget:\t".toList = "\n".toList ++ "Target:\t".toList := rfl
  have hsolucion : "\nSolution:\t".toList = "\n".toList ++ "Solution:\t".toList := rfl
  have hcarteras : "\nWallets:\t".toList = "\n".toList ++ "Wallets:\t".toList := rfl
  refine (Plantilla.print_formato _ _ _).trans ?_
  unfold imprimirBloque monitor Bloque.datos signed
  dsimp only
  simp only [List.flatten_append, List.flatten_cons, List.flatten_nil, List.append_nil,
    List.append_assoc]
  rw [hganador, hobjetivo, hsolucion, hcarteras]
  simp only [List.append_assoc]

/-! ### The log file -/

namespace Sistema

variable {s t : Sistema}

/-- The text of the blocks logged. -/
def fichero (s : Sistema) : List Char := s.registro.flatMap fun p => (anotaBloque p.1).flatten

/-- The calls for the block the Registrador has read. -/
def anotaciones (s : Sistema) : List (List Char) := (porAnotar s).flatMap anotaBloque

/-- The Registrador logs the block it has read. -/
theorem fichero_pasoRegistrador (h : pasoRegistrador s = some t) :
    fichero t = fichero s ++ (anotaciones s).flatten := by
  match hpc : s.pcRegistrador with
  | .salido => simp [pasoRegistrador, hpc] at h
  | .anota =>
    simp only [pasoRegistrador, hpc] at h
    cases h
    simp [fichero, anotaciones, porAnotar, hpc]
  | .lee =>
    simp only [pasoRegistrador, hpc] at h
    split at h
    · cases h
      simp [fichero, anotaciones, porAnotar, hpc]
    · split at h <;> cases h
      simp [fichero, anotaciones, porAnotar, hpc]

/-- A part of the calls for one block does not reach the end of an entry. -/
theorem exists_unfinished {texto : List Char}
    (h : anotaciones s ≠ [] → Unfinished texto (anotaciones s).flatten)
    (hnil : anotaciones s = [] → texto = []) :
    ∃ a, Unfinished texto (registrador.formato.print a) := by
  by_cases hcalls : anotaciones s = []
  · rw [hnil hcalls]
    exact ⟨((bloqueCero).datos id, true), List.nil_prefix,
      (registrador.print_ne_nil _).symm⟩
  · refine ⟨(s.bActual.datos id, decide (quorum s.bActual)), ?_⟩
    have hanota : anotaciones s = anotaBloque s.bActual := by
      unfold anotaciones porAnotar at hcalls ⊢
      split at hcalls
      · exact List.flatMap_singleton _ _
      · exact absurd rfl hcalls
    rw [print_registrador, ← hanota]
    exact h hcalls

/-- **The log file can be read at any time**: the numbers of the blocks logged, each with the
verdict of its quorum, and the text of the block under way. -/
theorem readFront_fichero {w : Writer} (h : w.Writes (fichero s) (anotaciones s)) :
    ∃ resto, registrador.formato.readFront w.text =
        (s.registro.map fun p => (p.1.datos id, decide (quorum p.1)), resto) ∧
      resto ++ w.calls.flatten = (anotaciones s).flatten := by
  obtain ⟨resto, htext, hresto, hunf⟩ := h.unfinished (by
    intro c hc
    obtain ⟨b, -, hc⟩ := List.mem_flatMap.mp hc
    exact anotaBloque_ne_nil hc)
  refine ⟨resto, ?_, hresto⟩
  have hfichero : fichero s = (s.registro.map fun p => (p.1.datos id, decide (quorum p.1))).flatMap
      registrador.formato.print := by
    rw [List.flatMap_map]
    exact congrArg (fun f => List.flatMap f s.registro)
      (funext fun p => (print_registrador p.1).symm)
  obtain ⟨a, ha⟩ := exists_unfinished hunf fun hnil => by
    rw [hnil, List.flatten_nil, List.append_eq_nil_iff] at hresto
    exact hresto.1
  rw [htext, hfichero]
  exact registrador.formato.readFront_flatMap registrador.print_ne_nil _ ha

end Sistema

/-! ### What the monitor prints -/

namespace Anillo

variable {s t : Anillo} {pidMonitor : ℤ}

/-- `"[%d] Printing blocks...\n"`. -/
def avisoInicio (pidMonitor : ℤ) : List Char :=
  "[".toList ++ signedText 0 pidMonitor ++ "] Printing blocks...\n".toList

/-- `"[%d] Finishing\n"`. -/
def avisoFin (pidMonitor : ℤ) : List Char :=
  "[".toList ++ signedText 0 pidMonitor ++ "] Finishing\n".toList

/-- What a monitor that has exited has printed last. -/
def despedida (pidMonitor : ℤ) (s : Anillo) : List Char :=
  match s.pcMonitor with
  | .salido => avisoFin pidMonitor
  | _ => []

/-- The text of the blocks printed, with the notices around it. -/
def salida (pidMonitor : ℤ) (s : Anillo) : List Char :=
  avisoInicio pidMonitor ++ (s.impresos.flatMap fun b => (imprimirBloque b).flatten) ++
    despedida pidMonitor s

/-- The calls for the block the monitor has extracted. -/
def impresiones (pidMonitor : ℤ) (s : Anillo) : List (List Char) :=
  match s.pcMonitor with
  | .mira =>
    if s.bloqueMonitor.fin = true then [avisoFin pidMonitor] else imprimirBloque s.bloqueMonitor
  | _ => []

theorem salida_pasoMonitor (h : pasoMonitor s = some t) :
    salida pidMonitor t = salida pidMonitor s ++ (impresiones pidMonitor s).flatten := by
  match hpc : s.pcMonitor with
  | .salido => simp [pasoMonitor, hpc] at h
  | .mira =>
    simp only [pasoMonitor, hpc] at h
    split at h
    · rename_i hfin
      cases h
      simp [salida, despedida, impresiones, hpc, hfin]
    · rename_i hfin
      cases h
      simp [salida, despedida, impresiones, hpc, hfin]
  | .esperaFill | .esperaMutex =>
    simp only [pasoMonitor, hpc] at h
    split at h <;> cases h
    simp [salida, despedida, impresiones, hpc]
  | .extrae _ (_ :: _) | .extrae _ [] | .sueltaMutex | .sueltaEmpty =>
    simp only [pasoMonitor, hpc] at h
    cases h
    simp [salida, despedida, impresiones, hpc]

/-- A notice: the process id, and whether it is the one of the start. -/
def formatoAviso : TextFormat (ℤ × Bool) :=
  (((signed 0).before "] ".toList (by decide)).labelled "[".toList).pair
    (TextFormat.choice "Printing blocks...\n".toList "Finishing\n".toList (by decide) (by decide))

theorem print_formatoAviso (pidMonitor : ℤ) (v : Bool) : formatoAviso.print (pidMonitor, v) =
    "[".toList ++ (signedText 0 pidMonitor ++ "] ".toList) ++
      (if v = true then "Printing blocks...\n".toList else "Finishing\n".toList) := rfl

theorem print_aviso (pidMonitor : ℤ) :
    formatoAviso.print (pidMonitor, true) = avisoInicio pidMonitor ∧
      formatoAviso.print (pidMonitor, false) = avisoFin pidMonitor := by
  have hinicio : "] Printing blocks...\n".toList =
      "] ".toList ++ "Printing blocks...\n".toList := rfl
  have hfin : "] Finishing\n".toList = "] ".toList ++ "Finishing\n".toList := rfl
  constructor
  · rw [print_formatoAviso, avisoInicio, hinicio, if_pos rfl]
    simp only [List.append_assoc]
  · rw [print_formatoAviso, avisoFin, hfin, if_neg Bool.false_ne_true]
    simp only [List.append_assoc]

/-- A notice or a block. -/
def formatoSalida : TextFormat ((ℤ × Bool) ⊕ (Datos ℤ × Bool)) :=
  formatoAviso.sum monitor.formato
    (by
      rintro ⟨d, v⟩ t u h
      -- a block does not start with a bracket
      rw [Plantilla.print_formato] at h
      rcases List.prefix_cons_iff.mp h with rfl | ⟨t', rfl, -⟩ <;> rfl)
    (by
      rintro ⟨p, v⟩ t h
      rw [print_formatoAviso] at h
      rcases List.prefix_cons_iff.mp h with rfl | ⟨t', rfl, -⟩ <;> rfl)

/-- The blocks at the front of a text that the monitor has printed, and the text behind them. -/
def leeSalida (texto : List Char) : List (Datos ℤ × Bool) × List Char :=
  ((formatoSalida.readFront texto).1.filterMap Sum.getRight?, (formatoSalida.readFront texto).2)

/-- The entries printed to their end. -/
def entradas (pidMonitor : ℤ) (s : Anillo) : List ((ℤ × Bool) ⊕ (Datos ℤ × Bool)) :=
  .inl (pidMonitor, true) ::
    (s.impresos.map fun b => .inr (b.datos comoInt, b.correcto)) ++
    match s.pcMonitor with
    | .salido => [.inl (pidMonitor, false)]
    | _ => []

theorem flatMap_entradas (pidMonitor : ℤ) (s : Anillo) :
    (entradas pidMonitor s).flatMap formatoSalida.print = salida pidMonitor s := by
  obtain ⟨hinicio, hfin⟩ := print_aviso pidMonitor
  have hbloques : (s.impresos.map fun b => Sum.inr (b.datos comoInt, b.correcto)).flatMap
      formatoSalida.print = s.impresos.flatMap fun b => (imprimirBloque b).flatten := by
    rw [List.flatMap_map]
    exact congrArg (fun f => List.flatMap f s.impresos) (funext print_monitor)
  rw [entradas, List.flatMap_append, List.flatMap_cons, hbloques, salida, despedida]
  congr 1
  · exact congrArg (· ++ _) hinicio
  · split
    · exact (List.flatMap_singleton _ _).trans hfin
    · rfl

theorem print_formatoSalida_ne_nil (e : (ℤ × Bool) ⊕ (Datos ℤ × Bool)) :
    formatoSalida.print e ≠ [] := by
  rcases e with ⟨p, v⟩ | a
  · exact List.append_ne_nil_of_left_ne_nil (List.append_ne_nil_of_left_ne_nil (by decide) _) _
  · exact monitor.print_ne_nil a

/-- A part of the calls for one block does not reach the end of an entry. -/
theorem exists_unfinished {texto : List Char}
    (h : impresiones pidMonitor s ≠ [] → Unfinished texto (impresiones pidMonitor s).flatten)
    (hnil : impresiones pidMonitor s = [] → texto = []) :
    ∃ e, Unfinished texto (formatoSalida.print e) := by
  by_cases hcalls : impresiones pidMonitor s = []
  · rw [hnil hcalls]
    exact ⟨.inl (pidMonitor, true), List.nil_prefix, (print_formatoSalida_ne_nil _).symm⟩
  · have hpart := h hcalls
    cases hpc : s.pcMonitor with
    | mira =>
      simp only [impresiones, hpc] at hpart
      split at hpart
      · refine ⟨.inl (pidMonitor, false), ?_⟩
        rw [List.flatten_singleton, ← (print_aviso pidMonitor).2] at hpart
        exact hpart
      · refine ⟨.inr (s.bloqueMonitor.datos comoInt, s.bloqueMonitor.correcto), ?_⟩
        rw [← print_monitor] at hpart
        exact hpart
    | _ => simp [impresiones, hpc] at hcalls

/-- **What the monitor has printed can be read at any time**: the numbers of the blocks printed,
each with the verdict of the comprobador, and the text of the block under way. -/
theorem leeSalida_salida {w : Writer}
    (h : w.Writes (salida pidMonitor s) (impresiones pidMonitor s)) :
    ∃ resto, leeSalida w.text =
        (s.impresos.map fun b => (b.datos comoInt, b.correcto), resto) ∧
      resto ++ w.calls.flatten = (impresiones pidMonitor s).flatten := by
  obtain ⟨resto, htext, hresto, hunf⟩ := h.unfinished (by
    intro c hc
    unfold impresiones at hc
    split at hc
    · split at hc
      · rw [List.mem_singleton.mp hc]
        simp [avisoFin]
      · exact imprimirBloque_ne_nil hc
    · cases hc)
  refine ⟨resto, ?_, hresto⟩
  obtain ⟨e, he⟩ := exists_unfinished hunf fun hnil => by
    rw [hnil, List.flatten_nil, List.append_eq_nil_iff] at hresto
    exact hresto.1
  have hfilter : (entradas pidMonitor s).filterMap Sum.getRight? =
      s.impresos.map fun b => (b.datos comoInt, b.correcto) := by
    rw [entradas]
    split <;> simp [List.filterMap_cons, Function.comp_def]
  rw [leeSalida, htext, ← flatMap_entradas,
    formatoSalida.readFront_flatMap print_formatoSalida_ne_nil _ he, hfilter]

end Anillo

/-! ### Who writes what -/

namespace Sistema

variable {pid : ℤ} {s t : Sistema}

/-- The other processes leave the Registrador and the log alone. -/
theorem registro_frame {a : Turno} (ha : a ≠ .registrador) (h : next pid s a = some t) :
    t.registro = s.registro ∧ t.pcRegistrador = s.pcRegistrador ∧ t.bActual = s.bActual := by
  cases a with
  | minero v =>
    rw [frame_pasoMinero h]
    exact ⟨rfl, rfl, rfl⟩
  | sigint | sigalrm =>
    cases h
    exact ⟨rfl, rfl, rfl⟩
  | registrador => exact absurd rfl ha
  | recibe =>
    simp only [next] at h
    split at h
    · obtain ⟨a, -, rfl⟩ := Option.map_eq_some_iff.mp h
      exact ⟨rfl, rfl, rfl⟩
    · cases h
  | comprobador | monitor =>
    obtain ⟨a, -, rfl⟩ := Option.map_eq_some_iff.mp h
    exact ⟨rfl, rfl, rfl⟩

/-- The other processes leave the monitor and what it has printed alone. -/
theorem monitor_frame {a : Turno} (ha : a ≠ .monitor) (h : next pid s a = some t) :
    t.anillo.pcMonitor = s.anillo.pcMonitor ∧ t.anillo.bloqueMonitor = s.anillo.bloqueMonitor ∧
      t.anillo.impresos = s.anillo.impresos := by
  cases a with
  | minero v =>
    rw [anillo_pasoMinero h]
    exact ⟨rfl, rfl, rfl⟩
  | sigint | sigalrm =>
    cases h
    exact ⟨rfl, rfl, rfl⟩
  | registrador =>
    rw [anillo_pasoRegistrador h]
    exact ⟨rfl, rfl, rfl⟩
  | recibe =>
    simp only [next] at h
    split at h
    · obtain ⟨a, ha, rfl⟩ := Option.map_eq_some_iff.mp h
      simp only [Anillo.next] at ha
      split at ha <;> cases ha
      exact ⟨rfl, rfl, rfl⟩
    · cases h
  | comprobador =>
    obtain ⟨a, ha, rfl⟩ := Option.map_eq_some_iff.mp h
    obtain ⟨hpc, hb, -, himp⟩ := Anillo.monitor_pasoComprobador ha
    exact ⟨hpc, hb, himp⟩
  | monitor => exact absurd rfl ha

end Sistema

namespace Cierre

variable {pid : ℤ} {capacidad : ℕ} {c d : Cierre}

/-- Only the Registrador touches what it has read and logged. -/
theorem registro_next {a : PasoCierre} (ha : a ≠ .turno .registrador)
    (h : next pid capacidad c a = some d) :
    d.sistema.registro = c.sistema.registro ∧
      d.sistema.pcRegistrador = c.sistema.pcRegistrador ∧
      d.sistema.bActual = c.sistema.bActual := by
  rcases next_cases h with ⟨b, rfl, hs, -⟩ | ⟨-, -, rfl⟩ | ⟨-, -, rfl⟩ | ⟨-, rfl⟩
  · exact Sistema.registro_frame (fun hb => ha (congrArg _ hb)) hs
  · exact ⟨rfl, rfl, rfl⟩
  · exact ⟨rfl, rfl, rfl⟩
  · exact ⟨rfl, rfl, rfl⟩

/-- Only the monitor touches what it has extracted and printed. -/
theorem monitor_next {a : PasoCierre} (ha : a ≠ .turno .monitor)
    (h : next pid capacidad c a = some d) :
    d.sistema.anillo.pcMonitor = c.sistema.anillo.pcMonitor ∧
      d.sistema.anillo.bloqueMonitor = c.sistema.anillo.bloqueMonitor ∧
      d.sistema.anillo.impresos = c.sistema.anillo.impresos := by
  rcases next_cases h with ⟨b, rfl, hs, -⟩ | ⟨-, -, rfl⟩ | ⟨-, -, rfl⟩ | ⟨-, rfl⟩
  · exact Sistema.monitor_frame (fun hb => ha (congrArg _ hb)) hs
  · exact ⟨rfl, rfl, rfl⟩
  · exact ⟨rfl, rfl, rfl⟩
  · exact ⟨rfl, rfl, rfl⟩

/-- The log grows by the block the Registrador had read. -/
theorem fichero_next {a : PasoCierre} (h : next pid capacidad c a = some d) :
    a = .turno .registrador ∧ Sistema.fichero d.sistema =
        Sistema.fichero c.sistema ++ (Sistema.anotaciones c.sistema).flatten ∨
      a ≠ .turno .registrador ∧ Sistema.fichero d.sistema = Sistema.fichero c.sistema ∧
        Sistema.anotaciones d.sistema = Sistema.anotaciones c.sistema := by
  by_cases ha : a = .turno .registrador
  · subst ha
    obtain ⟨s, hs, rfl⟩ := Option.map_eq_some_iff.mp h
    exact Or.inl ⟨rfl, Sistema.fichero_pasoRegistrador hs⟩
  · obtain ⟨hreg, hpc, hb⟩ := registro_next ha h
    refine Or.inr ⟨ha, ?_, ?_⟩
    · rw [Sistema.fichero, hreg, Sistema.fichero]
    · simp only [Sistema.anotaciones, Sistema.porAnotar, hpc, hb]

/-- The monitor's output grows by the block it had extracted. -/
theorem salida_next (pidMonitor : ℤ) {a : PasoCierre} (h : next pid capacidad c a = some d) :
    a = .turno .monitor ∧ Anillo.salida pidMonitor d.sistema.anillo =
        Anillo.salida pidMonitor c.sistema.anillo ++
          (Anillo.impresiones pidMonitor c.sistema.anillo).flatten ∨
      a ≠ .turno .monitor ∧
        Anillo.salida pidMonitor d.sistema.anillo = Anillo.salida pidMonitor c.sistema.anillo ∧
        Anillo.impresiones pidMonitor d.sistema.anillo =
          Anillo.impresiones pidMonitor c.sistema.anillo := by
  by_cases ha : a = .turno .monitor
  · subst ha
    obtain ⟨s, hs, rfl⟩ := Option.map_eq_some_iff.mp h
    obtain ⟨r, hr, rfl⟩ := Option.map_eq_some_iff.mp hs
    exact Or.inl ⟨rfl, Anillo.salida_pasoMonitor hr⟩
  · obtain ⟨hpc, hb, himp⟩ := monitor_next ha h
    refine Or.inr ⟨ha, ?_, ?_⟩
    · simp only [Anillo.salida, Anillo.despedida, hpc, himp]
    · simp only [Anillo.impresiones, hpc, hb]

/-- Once the Registrador has exited, what is on the screen is in the log: a block whose `write`
was cut short was not offered to the queue either. -/
theorem impresos_sublist_registro (h : (procesos pid capacidad).Reachable c)
    (hsal : c.sistema.pcRegistrador = .salido) :
    (c.sistema.anillo.impresos.map Anillo.limpiar).Sublist (c.sistema.registro.map Prod.fst) := by
  have hext := extremos_reachable h
  have hreg := Sistema.registro_of_salido hext.sistema hext.extremos hsal
  obtain ⟨ofrecidos, hmin, hsub⟩ :=
    Sistema.impresos_sublist_ofrecidos hext.sistema (ring_reachable h)
  rw [hreg] at hmin
  cases hpc : c.sistema.pc with
  | escribe =>
    simp only [Sistema.porEscribir, Sistema.porEnviar, hpc] at hmin
    rw [List.append_cancel_right hmin]
    exact hsub
  | _ =>
    simp only [Sistema.porEscribir, hpc, List.append_nil] at hmin
    rw [hmin]
    exact hsub.trans (List.sublist_append_left _ _)

end Cierre

/-! ### Both texts as they are written -/

/-- The four processes, the log file and the standard output of the monitor. -/
structure Textos where
  cierre : Cierre
  fichero : Writer
  salida : Writer

namespace Textos

open Sistema (anotaciones)
open Anillo (impresiones avisoInicio leeSalida)

variable {pid pidMonitor : ℤ} {capacidad : ℕ} {x y : Textos}

/-- The Registrador makes its next `dprintf`. The last one of a block ends the step that logs
it. -/
def pasoRegistrador (pid : ℤ) (capacidad : ℕ) (x : Textos) : Option Textos :=
  match x.fichero.advance with
  | some w => some { x with fichero := w }
  | none => (Cierre.next pid capacidad x.cierre (.turno .registrador)).map fun c =>
    { x with cierre := c, fichero := x.fichero.finish (anotaciones c.sistema) }

/-- The monitor makes its next `printf`, likewise. -/
def pasoMonitor (pid pidMonitor : ℤ) (capacidad : ℕ) (x : Textos) : Option Textos :=
  match x.salida.advance with
  | some w => some { x with salida := w }
  | none => (Cierre.next pid capacidad x.cierre (.turno .monitor)).map fun c =>
    { x with cierre := c, salida := x.salida.finish (impresiones pidMonitor c.sistema.anillo) }

/-- One step. -/
def next (pid pidMonitor : ℤ) (capacidad : ℕ) (x : Textos) : PasoCierre → Option Textos
  | .turno .registrador => pasoRegistrador pid capacidad x
  | .turno .monitor => pasoMonitor pid pidMonitor capacidad x
  | a => (Cierre.next pid capacidad x.cierre a).map fun c => { x with cierre := c }

/-- The processes with their texts. The log file is empty, the monitor has announced itself. -/
def procesos (pid pidMonitor : ℤ) (capacidad : ℕ) : System Textos PasoCierre where
  Init x := (Cierre.procesos pid capacidad).Init x.cierre ∧ x.fichero = ⟨[], []⟩ ∧
    x.salida = ⟨avisoInicio pidMonitor, []⟩
  next := next pid pidMonitor capacidad

/-- **What a step can do**: a process makes a call that is not the last one for its block, or
there is a step of the processes, which ends the block under way of the process that takes it. -/
theorem next_cases {a : PasoCierre} (h : next pid pidMonitor capacidad x a = some y) :
    (∃ w, x.fichero.advance = some w ∧ y = { x with fichero := w }) ∨
      (∃ w, x.salida.advance = some w ∧ y = { x with salida := w }) ∨
      ∃ c, Cierre.next pid capacidad x.cierre a = some c ∧
        (a = .turno .registrador ∧
            y = { x with cierre := c, fichero := x.fichero.finish (anotaciones c.sistema) } ∨
          a = .turno .monitor ∧
            y = { x with
              cierre := c, salida := x.salida.finish (impresiones pidMonitor c.sistema.anillo) } ∨
          a ≠ .turno .registrador ∧ a ≠ .turno .monitor ∧ y = { x with cierre := c }) := by
  cases a with
  | interrumpe =>
    simp only [next] at h
    obtain ⟨c, hc, rfl⟩ := Option.map_eq_some_iff.mp h
    exact Or.inr (Or.inr ⟨c, hc, Or.inr (Or.inr ⟨nofun, nofun, rfl⟩)⟩)
  | turno a =>
    cases a with
    | registrador =>
      simp only [next, pasoRegistrador] at h
      split at h
      · rename_i w hw
        cases h
        exact Or.inl ⟨w, hw, rfl⟩
      · obtain ⟨c, hc, rfl⟩ := Option.map_eq_some_iff.mp h
        exact Or.inr (Or.inr ⟨c, hc, Or.inl ⟨rfl, rfl⟩⟩)
    | monitor =>
      simp only [next, pasoMonitor] at h
      split at h
      · rename_i w hw
        cases h
        exact Or.inr (Or.inl ⟨w, hw, rfl⟩)
      · obtain ⟨c, hc, rfl⟩ := Option.map_eq_some_iff.mp h
        exact Or.inr (Or.inr ⟨c, hc, Or.inr (Or.inl ⟨rfl, rfl⟩)⟩)
    | minero _ | sigint | sigalrm | recibe | comprobador =>
      simp only [next] at h
      obtain ⟨c, hc, rfl⟩ := Option.map_eq_some_iff.mp h
      exact Or.inr (Or.inr ⟨c, hc, Or.inr (Or.inr ⟨nofun, nofun, rfl⟩)⟩)

/-- The processes with their texts run as they do without. -/
theorem reachable_cierre (h : (procesos pid pidMonitor capacidad).Reachable x) :
    (Cierre.procesos pid capacidad).Reachable x.cierre := by
  refine h.map (f := Textos.cierre) (fun _ hx => hx.1) fun x a y _ _ hn => ?_
  rcases next_cases hn with ⟨w, -, rfl⟩ | ⟨w, -, rfl⟩ | ⟨c, hc, hy⟩
  · exact Or.inl rfl
  · exact Or.inl rfl
  · have hcierre : y.cierre = c := by
      rcases hy with ⟨-, rfl⟩ | ⟨-, rfl⟩ | ⟨-, -, rfl⟩ <;> rfl
    exact Or.inr ⟨a, trivial, by rw [hcierre]; exact hc⟩

/-! ### What the texts hold -/

/-- Each text holds the blocks written to their end, and a part of the calls for the one under
way. -/
structure Escritos (pidMonitor : ℤ) (x : Textos) : Prop where
  fichero : x.fichero.Writes (Sistema.fichero x.cierre.sistema) (anotaciones x.cierre.sistema)
  salida : x.salida.Writes (Anillo.salida pidMonitor x.cierre.sistema.anillo)
    (impresiones pidMonitor x.cierre.sistema.anillo)

/-- **Step lemma.** -/
theorem escritos_next {a : PasoCierre} (hx : Escritos pidMonitor x)
    (h : next pid pidMonitor capacidad x a = some y) : Escritos pidMonitor y := by
  obtain ⟨hfichero, hsalida⟩ := hx
  rcases next_cases h with ⟨w, hw, rfl⟩ | ⟨w, hw, rfl⟩ | ⟨c, hc, hy⟩
  · exact ⟨hfichero.advance hw, hsalida⟩
  · exact ⟨hfichero, hsalida.advance hw⟩
  · have hlog := Cierre.fichero_next hc
    have hpantalla := Cierre.salida_next pidMonitor hc
    rcases hy with ⟨rfl, rfl⟩ | ⟨rfl, rfl⟩ | ⟨hreg, hmon, rfl⟩
    · obtain ⟨-, hmas⟩ := hlog.resolve_right fun hno => hno.1 rfl
      obtain ⟨-, hsal, himp⟩ := hpantalla.resolve_left nofun
      refine ⟨?_, ?_⟩
      · rw [hmas]
        exact hfichero.finish _
      · rw [hsal, himp]
        exact hsalida
    · obtain ⟨-, hfic, hanot⟩ := hlog.resolve_left nofun
      obtain ⟨-, hmas⟩ := hpantalla.resolve_right fun hno => hno.1 rfl
      refine ⟨?_, ?_⟩
      · rw [hfic, hanot]
        exact hfichero
      · rw [hmas]
        exact hsalida.finish _
    · obtain ⟨-, hfic, hanot⟩ := hlog.resolve_left fun heq => hreg heq.1
      obtain ⟨-, hsal, himp⟩ := hpantalla.resolve_left fun heq => hmon heq.1
      refine ⟨?_, ?_⟩
      · rw [hfic, hanot]
        exact hfichero
      · rw [hsal, himp]
        exact hsalida

/-- **Run lemma.** -/
theorem escritos_reachable (h : (procesos pid pidMonitor capacidad).Reachable x) :
    Escritos pidMonitor x := by
  refine h.induct ?_ fun _ _ _ hx hn => escritos_next hx hn
  rintro x ⟨⟨hini, -⟩, hfichero, hsalida⟩
  obtain ⟨bloque, mq, mon, hanillo⟩ := hini.anillo
  refine ⟨?_, ?_⟩
  · have hlog : Sistema.fichero x.cierre.sistema = [] := by
      rw [Sistema.fichero, hini.registro, List.flatMap_nil]
    have hanot : anotaciones x.cierre.sistema = [] := by
      simp [anotaciones, Sistema.porAnotar, hini.pcRegistrador]
    rw [hfichero, hlog, hanot]
    exact ⟨⟨[], rfl, rfl⟩, id⟩
  · have hpantalla : Anillo.salida pidMonitor x.cierre.sistema.anillo = avisoInicio pidMonitor := by
      simp [hanillo, Anillo.salida, Anillo.inicial, Anillo.despedida]
    have himp : impresiones pidMonitor x.cierre.sistema.anillo = [] := by
      simp [hanillo, impresiones, Anillo.inicial]
    rw [hsalida, hpantalla, himp]
    exact ⟨⟨[], rfl, (List.append_nil _).symm⟩, id⟩

/-- Nothing is taken back from the two texts. -/
def Crecen (x y : Textos) : Prop :=
  x.fichero.text <+: y.fichero.text ∧ x.salida.text <+: y.salida.text

theorem crecen_next {a : PasoCierre} (h : next pid pidMonitor capacidad x a = some y) :
    Crecen x y := by
  rcases next_cases h with ⟨w, hw, rfl⟩ | ⟨w, hw, rfl⟩ | ⟨c, -, hy⟩
  · exact ⟨Writer.text_advance hw, List.prefix_rfl⟩
  · exact ⟨List.prefix_rfl, Writer.text_advance hw⟩
  · rcases hy with ⟨-, rfl⟩ | ⟨-, rfl⟩ | ⟨-, -, rfl⟩
    · exact ⟨Writer.text_finish _ _, List.prefix_rfl⟩
    · exact ⟨List.prefix_rfl, Writer.text_finish _ _⟩
    · exact ⟨List.prefix_rfl, List.prefix_rfl⟩

/-- Whole runs only add to both texts. -/
theorem crecen_run {pasos : List PasoCierre}
    (h : (procesos pid pidMonitor capacidad).run x pasos = some y) : Crecen x y := by
  refine System.rel_run (R := Crecen) ?_ ?_ (fun _ _ _ => crecen_next) h
  · exact fun x => ⟨List.prefix_rfl, List.prefix_rfl⟩
  · exact fun x y z hxy hyz => ⟨hxy.1.trans hyz.1, hxy.2.trans hyz.2⟩

/-! ### The audit -/

/-- What can be read in the two texts, `apuntes` in the log and `fichas` on the screen, with what
is left over of each, and what it is good for. -/
structure Auditoria (pid pidMonitor : ℤ) (capacidad : ℕ) (x : Textos)
    (apuntes : List (Datos ℕ × Bool)) (restoLog : List Char) (fichas : List (Datos ℤ × Bool))
    (restoPantalla : List Char) : Prop where
  /-- The entries of the log are those of the blocks logged to their end. -/
  registro : apuntes =
    x.cierre.sistema.registro.map fun p => (p.1.datos id, decide (quorum p.1))
  /-- The rest is what has been written of the next one. -/
  restoLog : restoLog ++ x.fichero.calls.flatten = (anotaciones x.cierre.sistema).flatten
  impresion : fichas =
    x.cierre.sistema.anillo.impresos.map fun b => (b.datos comoInt, b.correcto)
  restoPantalla : restoPantalla ++ x.salida.calls.flatten =
    (impresiones pidMonitor x.cierre.sistema.anillo).flatten
  /-- The log is a beginning of what was mined. -/
  minados : apuntes.map Prod.fst <+: x.cierre.sistema.minados.map (Bloque.datos id)
  /-- The screen shows a part of what was mined, in order. -/
  impresos : (fichas.map Prod.fst).Sublist
    (x.cierre.sistema.minados.map (Bloque.datos comoInt))
  /-- The verdict of the log is that of the votes beside it. -/
  votos : ∀ a ∈ apuntes, a.2 = true ↔ a.1.votosTotales / 2 ≤ a.1.votosPositivos
  /-- The verdict on the screen is that of the solution and the target beside it. -/
  hash : ∀ f ∈ fichas, f.2 = true ↔ powHash f.1.solucion = f.1.objetivo
  /-- As long as the counter does not wrap, entries with the same number tell the same. -/
  coinciden : x.cierre.sistema.minados.length < 2 ^ 31 →
    ∀ a ∈ apuntes, ∀ f ∈ fichas, f.1.id = a.1.id → f.1 = a.1.map comoInt
  /-- In the end everything on the screen is in the log. -/
  completo : x.cierre.sistema.pcRegistrador = .salido →
    (fichas.map Prod.fst).Sublist (apuntes.map fun a => a.1.map comoInt)
  /-- What has been read stays right. -/
  crecen : ∀ pasos y, (procesos pid pidMonitor capacidad).run x pasos = some y → Crecen x y

/-- **The two texts are enough to audit a run.** In every state of every run, also in the midst
of a block, both can be read, and their entries agree with each other, with what was mined, and
with their verdicts. -/
theorem auditoria_reachable (h : (procesos pid pidMonitor capacidad).Reachable x) :
    ∃ apuntes restoLog fichas restoPantalla,
      registrador.formato.readFront x.fichero.text = (apuntes, restoLog) ∧
      leeSalida x.salida.text = (fichas, restoPantalla) ∧
      Auditoria pid pidMonitor capacidad x apuntes restoLog fichas restoPantalla := by
  obtain ⟨hfichero, hsalida⟩ := escritos_reachable h
  obtain ⟨restoLog, hlee, hrestoLog⟩ := Sistema.readFront_fichero hfichero
  obtain ⟨restoPantalla, hmira, hrestoPantalla⟩ := Anillo.leeSalida_salida hsalida
  refine ⟨_, restoLog, _, restoPantalla, hlee, hmira, ?_⟩
  have hcierre := reachable_cierre h
  have hi := (Cierre.extremos_reachable hcierre).sistema
  have hring := Cierre.ring_reachable hcierre
  have hlog : x.cierre.sistema.registro.map Prod.fst <+: x.cierre.sistema.minados := by
    rw [hi.canales.registro, List.append_assoc, List.append_assoc]
    exact List.prefix_append _ _
  -- the verdict is not among the numbers
  have himp : (x.cierre.sistema.anillo.impresos.map (Bloque.datos comoInt)).Sublist
      (x.cierre.sistema.minados.map (Bloque.datos comoInt)) := by
    have hmap := (Sistema.impresos_sublist_minados hi hring).map (Bloque.datos comoInt)
    rwa [List.map_map] at hmap
  constructor
  case registro => rfl
  case restoLog => exact hrestoLog
  case impresion => rfl
  case restoPantalla => exact hrestoPantalla
  case minados =>
    rw [List.map_map]
    have hmap := hlog.map (Bloque.datos id)
    rwa [List.map_map] at hmap
  case impresos =>
    rw [List.map_map]
    exact himp
  case votos =>
    intro a ha
    obtain ⟨p, -, rfl⟩ := List.mem_map.mp ha
    exact decide_eq_true_iff.trans quorum_iff
  case hash =>
    intro f hf
    obtain ⟨b, hb, rfl⟩ := List.mem_map.mp hf
    exact Sistema.validado_of_mem_impresos hi hring hb
  case coinciden =>
    intro hlen a ha f hf hid
    obtain ⟨p, hp, rfl⟩ := List.mem_map.mp ha
    have hmem := himp.subset
    obtain ⟨c, hc, rfl⟩ := List.mem_map.mp hf
    obtain ⟨b, hb, hbc⟩ := List.mem_map.mp (hmem (List.mem_map_of_mem hc))
    -- the numbers of the blocks mined differ
    have hnodup : (x.cierre.sistema.minados.map Bloque.id).Nodup :=
      (Sistema.ids_pairwise hi.minero hlen).imp fun hlt => hlt.ne
    have hb' : b.id = p.1.id := (congrArg Datos.id hbc).trans hid
    obtain rfl := List.inj_on_of_nodup_map hnodup hb (hlog.subset (List.mem_map_of_mem hp)) hb'
    exact hbc.symm
  case completo =>
    intro hsal
    have hsub := (Cierre.impresos_sublist_registro hcierre hsal).map (Bloque.datos comoInt)
    rw [List.map_map, List.map_map] at hsub
    rw [List.map_map, List.map_map]
    exact hsub
  case crecen => exact fun pasos y => crecen_run

/-- An instance: the Registrador has exited with two blocks in the log, and the monitor has
printed one of them and the front of the other. -/
theorem auditoria_half_block :
    ∃ x : Textos, (x.cierre.sistema.registro.length, x.cierre.sistema.anillo.impresos.length,
        x.cierre.sistema.pcRegistrador, x.salida.calls.length) = (2, 1, .salido, 44) ∧
      ∃ apuntes restoLog fichas restoPantalla,
        registrador.formato.readFront x.fichero.text = (apuntes, restoLog) ∧
        leeSalida x.salida.text = (fichas, restoPantalla) ∧
        Auditoria 1000 1001 10 x apuntes restoLog fichas restoPantalla := by
  let inicio : Textos := ⟨Cierre.inicio 1000, ⟨[], []⟩, ⟨avisoInicio 1001, []⟩⟩
  let recepcion : List PasoCierre := .turno .recibe :: List.replicate 15 (.turno .comprobador)
  let pasos := Cierre.minero 12 ++ List.replicate 110 (.turno .registrador) ++ [.turno .sigint] ++
    recepcion ++ recepcion ++ List.replicate 100 (.turno .monitor) ++ Cierre.minero 4 ++
    [.turno .registrador]
  obtain ⟨x, hx, hfacts⟩ : ∃ x, (procesos 1000 1001 10).run inicio pasos = some x ∧
      (x.cierre.sistema.registro.length, x.cierre.sistema.anillo.impresos.length,
        x.cierre.sistema.pcRegistrador, x.salida.calls.length) = (2, 1, .salido, 44) :=
    Option.map_eq_some_iff.mp (by decide +kernel)
  have hinit : (procesos 1000 1001 10).Reachable inicio :=
    .init ⟨Cierre.init_inicio 1000 10, rfl, rfl⟩
  exact ⟨x, hfacts, auditoria_reachable (hinit.run hx)⟩

end Textos

end Soper.Proyecto
