import Mathlib.Data.Fintype.Pi
import Soper.Library.Rendezvous

/-!
# How the processes of the third practice find each other

Any number of processes `./monitor` and `./miner`, started whenever their users like. A
`./monitor` tries to create the shared segment: whoever succeeds becomes comprobador, whoever
finds the name opens the segment, removes the name and becomes monitor. A `./miner` creates the
message queue or opens the one it finds; the comprobador opens the queue and removes its name.
Each process may be ended before its next call.

Segment and queue are two names at which processes meet (`Rendezvous`): comprobador and monitor
at the one, miner and comprobador at the other. In runs where nobody opens a segment or a queue
whose name somebody else is about to remove, the processes fall into separate pipelines
(`tuberias_reachableBy`): miners that share a queue, the one comprobador that reads it and the
one monitor that prints what it adds, as the models of a pipeline take them. The same theorem
shows that every overlap matters: it can leave two monitors at one segment, or two comprobadores
at one queue, which then share the blocks out.
-/

namespace Soper.P3

/-- Where a process stands. A segment and a queue go by the process that has created them. -/
inductive PcPapeles (ι : Type)
  /-- `./monitor`: `shm_open` with `O_CREAT | O_EXCL`. -/
  | creaShm
  /-- `shm_open` of the segment that existed. -/
  | reabreShm
  /-- `shm_unlink`, with the segment of `c` open. -/
  | desenlazaShm (c : ι)
  /-- The process prints from the segment of `c`. -/
  | monitor (c : ι)
  /-- The process has created its segment; `mq_open`. -/
  | abreMq
  /-- `mq_unlink`, with the queue of `m` open. -/
  | desenlazaMq (m : ι)
  /-- The process checks the blocks of the queue of `m`. -/
  | comprobador (m : ι)
  /-- The process had created its segment, and has ended without a queue. -/
  | sinCola
  /-- `./miner`: `mq_open` with `O_CREAT | O_EXCL`. -/
  | creaMq
  /-- `mq_open` of the queue that existed. -/
  | reabreMq
  /-- The process mines into the queue of `m`. -/
  | minero (m : ι)
  /-- The process has ended before it had a role. -/
  | salido
  deriving DecidableEq

/-- What the names `SHM_NAME` and `MQ_NAME` stand for, and where the processes stand. -/
structure Papeles (ι : Type) where
  shm : Option ι
  mq : Option ι
  main : ι → PcPapeles ι

inductive PasoPapeles (ι : Type)
  /-- The process makes its next call. -/
  | llama (i : ι)
  /-- The process ends before its next call: a signal, or another call that fails. -/
  | termina (i : ι)

namespace Papeles

variable {ι : Type} [DecidableEq ι]

/-- The process `i` goes on at `pc`. -/
def pon (s : Papeles ι) (i : ι) (pc : PcPapeles ι) : Papeles ι :=
  { s with main := Function.update s.main i pc }

/-- The next call of the process `i`. -/
def llama (s : Papeles ι) (i : ι) : Option (Papeles ι) :=
  match s.main i with
  | .creaShm =>
    match s.shm with
    | none => some { s.pon i .abreMq with shm := some i }
    | some _ => some (s.pon i .reabreShm)
  | .reabreShm =>
    match s.shm with
    | some c => some (s.pon i (.desenlazaShm c))
    | none => some (s.pon i .salido)
  | .desenlazaShm c => some { s.pon i (.monitor c) with shm := none }
  | .abreMq =>
    match s.mq with
    | some m => some (s.pon i (.desenlazaMq m))
    | none => some (s.pon i .sinCola)
  | .desenlazaMq m => some { s.pon i (.comprobador m) with mq := none }
  | .creaMq =>
    match s.mq with
    | none => some { s.pon i (.minero i) with mq := some i }
    | some _ => some (s.pon i .reabreMq)
  | .reabreMq =>
    match s.mq with
    | some m => some (s.pon i (.minero m))
    | none => some (s.pon i .salido)
  | .monitor _ | .comprobador _ | .minero _ | .sinCola | .salido => none

/-- The end of the process `i` before it has its role. -/
def termina (s : Papeles ι) (i : ι) : Option (Papeles ι) :=
  match s.main i with
  | .creaShm | .reabreShm | .desenlazaShm _ | .creaMq | .reabreMq => some (s.pon i .salido)
  | .abreMq | .desenlazaMq _ => some (s.pon i .sinCola)
  | .monitor _ | .comprobador _ | .minero _ | .sinCola | .salido => none

/-- One step. -/
def next (s : Papeles ι) : PasoPapeles ι → Option (Papeles ι)
  | .llama i => s.llama i
  | .termina i => s.termina i

/-- Processes `./monitor` and `./miner` that start whenever they like, in a system without the
two names. -/
def sistema (ι : Type) [DecidableEq ι] : System (Papeles ι) (PasoPapeles ι) where
  Init s := s.shm = none ∧ s.mq = none ∧ ∀ i, s.main i = .creaShm ∨ s.main i = .creaMq
  next := next

/-- Nobody opens what somebody else is about to unlink. -/
def SinSolape (s : Papeles ι) : PasoPapeles ι → Prop
  | .llama i =>
    (s.main i = .reabreShm → ∀ j c, s.main j ≠ .desenlazaShm c) ∧
      (s.main i = .abreMq → ∀ j m, s.main j ≠ .desenlazaMq m)
  | .termina _ => True

instance [Fintype ι] (s : Papeles ι) (a : PasoPapeles ι) : Decidable (SinSolape s a) :=
  match a with
  | .llama _ => inferInstanceAs (Decidable (_ ∧ _))
  | .termina _ => inferInstanceAs (Decidable True)

/-- The process has created a segment. -/
def esComprobador : PcPapeles ι → Bool
  | .abreMq | .desenlazaMq _ | .comprobador _ | .sinCola => true
  | _ => false

/-- Separate pipelines. -/
structure Tuberias (s : Papeles ι) : Prop where
  /-- A monitor prints what a comprobador adds, and no other monitor does. -/
  monitor : ∀ i c, s.main i = .monitor c → esComprobador (s.main c) = true
  unMonitor : ∀ i j c, s.main i = .monitor c → s.main j = .monitor c → i = j
  /-- A comprobador has its monitor, or its segment is the one a monitor will find. -/
  conMonitor : ∀ c, esComprobador (s.main c) = true →
    s.shm = some c ∨ ∃ i, s.main i = .monitor c
  /-- A comprobador reads the queue of a miner, and no other comprobador does. -/
  comprobador : ∀ c m, s.main c = .comprobador m → s.main m = .minero m
  unComprobador : ∀ c d m, s.main c = .comprobador m → s.main d = .comprobador m → c = d
  /-- A miner's queue is read, or it is the one a comprobador will find. -/
  conComprobador : ∀ i m, s.main i = .minero m →
    s.mq = some m ∨ ∃ c, s.main c = .comprobador m
  /-- Whoever unlinks a name unlinks the segment or the queue it has opened. -/
  unlinkShm : ∀ i c, s.main i = .desenlazaShm c → s.shm = some c
  unlinkMq : ∀ i m, s.main i = .desenlazaMq m → s.mq = some m

/-- Two monitors print from one segment, or two comprobadores read one queue. -/
def Comparten (s : Papeles ι) : Prop :=
  (∃ i j c, i ≠ j ∧ s.main i = .monitor c ∧ s.main j = .monitor c) ∨
    ∃ i j m, i ≠ j ∧ s.main i = .comprobador m ∧ s.main j = .comprobador m

/-! ### Two names -/

open Rendezvous (Role Apart)

/-- What a process has done at the name of the segment. -/
def rolShm : PcPapeles ι → Role ι
  | .desenlazaShm c => .taking c
  | .monitor c => .guest c
  | .abreMq | .desenlazaMq _ | .comprobador _ | .sinCola => .host
  | .creaShm | .reabreShm | .creaMq | .reabreMq | .minero _ | .salido => .idle

/-- What the process `i` has done at the name of the queue. -/
def rolMq (i : ι) : PcPapeles ι → Role ι
  | .desenlazaMq m => .taking m
  | .comprobador m => .guest m
  | .minero m => if m = i then .host else .idle
  | .creaShm | .reabreShm | .desenlazaShm _ | .monitor _ | .abreMq | .sinCola | .creaMq
  | .reabreMq | .salido => .idle

/-- The meetings at the segment. -/
def enShm (s : Papeles ι) : Rendezvous ι := ⟨s.shm, fun i => rolShm (s.main i)⟩

/-- The meetings at the queue. -/
def enMq (s : Papeles ι) : Rendezvous ι := ⟨s.mq, fun i => rolMq i (s.main i)⟩

/-- What runs without an overlap keep. -/
structure Inv (s : Papeles ι) : Prop where
  shm : Rendezvous.Inv s.enShm
  mq : Rendezvous.Inv s.enMq
  socio : ∀ i m, s.main i = .minero m → s.main m = .minero m

variable {s t : Papeles ι} {i : ι}

theorem enShm_update (x y : Option ι) (pc : PcPapeles ι) :
    enShm ⟨x, y, Function.update s.main i pc⟩ =
      ⟨x, Function.update s.enShm.role i (rolShm pc)⟩ := by
  refine congrArg (Rendezvous.mk x) ?_
  funext j
  exact Function.apply_update (fun _ => rolShm) s.main i pc j

theorem enMq_update (x y : Option ι) (pc : PcPapeles ι) :
    enMq ⟨x, y, Function.update s.main i pc⟩ =
      ⟨y, Function.update s.enMq.role i (rolMq i pc)⟩ := by
  refine congrArg (Rendezvous.mk y) ?_
  funext j
  exact Function.apply_update rolMq s.main i pc j

/-- A process that does nothing at the segment leaves the meetings there alone. -/
theorem enShm_igual {pc pc' : PcPapeles ι} (hpc : s.main i = pc) (y : Option ι)
    (h : rolShm pc' = rolShm pc) :
    enShm ⟨s.shm, y, Function.update s.main i pc'⟩ = s.enShm := by
  rw [enShm_update, h, ← hpc]
  exact congrArg (Rendezvous.mk s.shm) (Function.update_eq_self i s.enShm.role)

/-- Likewise at the queue. -/
theorem enMq_igual {pc pc' : PcPapeles ι} (hpc : s.main i = pc) (x : Option ι)
    (h : rolMq i pc' = rolMq i pc) :
    enMq ⟨x, s.mq, Function.update s.main i pc'⟩ = s.enMq := by
  rw [enMq_update, h, ← hpc]
  exact congrArg (Rendezvous.mk s.mq) (Function.update_eq_self i s.enMq.role)

omit [DecidableEq ι] in
theorem rolShm_taking {pc : PcPapeles ι} {c : ι} (h : rolShm pc = .taking c) :
    pc = .desenlazaShm c := by
  cases pc <;> cases h
  rfl

theorem rolMq_taking {pc : PcPapeles ι} {m : ι} (h : rolMq i pc = .taking m) :
    pc = .desenlazaMq m := by
  cases pc with
  | desenlazaMq m' =>
    cases h
    rfl
  | minero m' =>
    rw [rolMq] at h
    split at h <;> cases h
  | _ => cases h

theorem rolMq_host {pc : PcPapeles ι} (h : rolMq i pc = .host) : pc = .minero i := by
  cases pc with
  | minero m' =>
    rw [rolMq] at h
    split at h
    · rename_i heq
      rw [heq]
    · cases h
  | _ => cases h

theorem enShm_llama (hok : SinSolape s (.llama i)) (h : s.llama i = some t) :
    t.enShm = s.enShm ∨ ∃ b, Apart s.enShm b ∧ Rendezvous.next s.enShm b = some t.enShm := by
  match hpc : s.main i with
  | .monitor _ | .comprobador _ | .minero _ | .sinCola | .salido =>
    simp [llama, hpc] at h
  | .creaShm =>
    simp only [llama, hpc] at h
    split at h <;> cases h
    · rename_i hshm
      refine Or.inr ⟨.create i, trivial, ?_⟩
      rw [pon, enShm_update]
      simp [Rendezvous.next, enShm, hshm, hpc, rolShm]
    · exact Or.inl (enShm_igual hpc _ rfl)
  | .reabreShm =>
    simp only [llama, hpc] at h
    split at h <;> cases h
    · rename_i c hshm
      refine Or.inr ⟨.take i, fun j c hj => hok.1 hpc j c (rolShm_taking hj), ?_⟩
      rw [pon, enShm_update]
      simp [Rendezvous.next, enShm, hshm, hpc, rolShm]
    · exact Or.inl (enShm_igual hpc _ rfl)
  | .desenlazaShm c =>
    simp only [llama, hpc] at h
    cases h
    refine Or.inr ⟨.remove i, trivial, ?_⟩
    rw [pon, enShm_update]
    simp [Rendezvous.next, enShm, hpc, rolShm]
  | .abreMq | .creaMq | .reabreMq =>
    simp only [llama, hpc] at h
    split at h <;> cases h <;>
      exact Or.inl (enShm_igual hpc _ rfl)
  | .desenlazaMq m =>
    simp only [llama, hpc] at h
    cases h
    exact Or.inl (enShm_igual hpc _ rfl)

theorem enShm_termina (h : s.termina i = some t) :
    t.enShm = s.enShm ∨ ∃ b, Apart s.enShm b ∧ Rendezvous.next s.enShm b = some t.enShm := by
  match hpc : s.main i with
  | .monitor _ | .comprobador _ | .minero _ | .sinCola | .salido =>
    simp [termina, hpc] at h
  | .desenlazaShm c =>
    simp only [termina, hpc] at h
    cases h
    refine Or.inr ⟨.leave i, trivial, ?_⟩
    rw [pon, enShm_update]
    simp [Rendezvous.next, enShm, hpc, rolShm]
  | .creaShm | .reabreShm | .creaMq | .reabreMq | .abreMq | .desenlazaMq _ =>
    simp only [termina, hpc] at h
    cases h
    exact Or.inl (enShm_igual hpc _ rfl)

/-- **The segment.** A step is one of the meetings at the segment, or leaves them alone. -/
theorem enShm_next {a : PasoPapeles ι} (hok : SinSolape s a) (h : next s a = some t) :
    t.enShm = s.enShm ∨ ∃ b, Apart s.enShm b ∧ Rendezvous.next s.enShm b = some t.enShm := by
  cases a with
  | llama i => exact enShm_llama hok h
  | termina i => exact enShm_termina h

theorem enMq_llama (hi : Rendezvous.Inv s.enMq) (hok : SinSolape s (.llama i))
    (h : s.llama i = some t) :
    t.enMq = s.enMq ∨ ∃ b, Apart s.enMq b ∧ Rendezvous.next s.enMq b = some t.enMq := by
  match hpc : s.main i with
  | .monitor _ | .comprobador _ | .minero _ | .sinCola | .salido =>
    simp [llama, hpc] at h
  | .creaShm | .reabreShm =>
    simp only [llama, hpc] at h
    split at h <;> cases h <;>
      exact Or.inl (enMq_igual hpc _ rfl)
  | .desenlazaShm c =>
    simp only [llama, hpc] at h
    cases h
    exact Or.inl (enMq_igual hpc _ rfl)
  | .abreMq =>
    simp only [llama, hpc] at h
    split at h <;> cases h
    · rename_i m hmq
      refine Or.inr ⟨.take i, fun j m hj => hok.2 hpc j m (rolMq_taking hj), ?_⟩
      rw [pon, enMq_update]
      simp [Rendezvous.next, enMq, hmq, hpc, rolMq]
    · exact Or.inl (enMq_igual hpc _ rfl)
  | .desenlazaMq m =>
    simp only [llama, hpc] at h
    cases h
    refine Or.inr ⟨.remove i, trivial, ?_⟩
    rw [pon, enMq_update]
    simp [Rendezvous.next, enMq, hpc, rolMq]
  | .creaMq =>
    simp only [llama, hpc] at h
    split at h <;> cases h
    · rename_i hmq
      refine Or.inr ⟨.create i, trivial, ?_⟩
      rw [pon, enMq_update]
      simp [Rendezvous.next, enMq, hmq, hpc, rolMq]
    · exact Or.inl (enMq_igual hpc _ rfl)
  | .reabreMq =>
    simp only [llama, hpc] at h
    split at h <;> cases h
    · rename_i m hmq
      -- the queue is that of another miner
      have hm : s.main m = .minero m := rolMq_host (hi.name m hmq)
      have hne : m ≠ i := by
        rintro rfl
        rw [hpc] at hm
        cases hm
      exact Or.inl (enMq_igual hpc _ (if_neg hne))
    · exact Or.inl (enMq_igual hpc _ rfl)

theorem enMq_termina (h : s.termina i = some t) :
    t.enMq = s.enMq ∨ ∃ b, Apart s.enMq b ∧ Rendezvous.next s.enMq b = some t.enMq := by
  match hpc : s.main i with
  | .monitor _ | .comprobador _ | .minero _ | .sinCola | .salido =>
    simp [termina, hpc] at h
  | .desenlazaMq m =>
    simp only [termina, hpc] at h
    cases h
    refine Or.inr ⟨.leave i, trivial, ?_⟩
    rw [pon, enMq_update]
    simp [Rendezvous.next, enMq, hpc, rolMq]
  | .creaShm | .reabreShm | .creaMq | .reabreMq | .abreMq | .desenlazaShm _ =>
    simp only [termina, hpc] at h
    cases h
    exact Or.inl (enMq_igual hpc _ rfl)

/-! ### The pipelines -/

/-- **The queue.** A step is one of the meetings at the queue, or leaves them alone. -/
theorem enMq_next {a : PasoPapeles ι} (hi : Rendezvous.Inv s.enMq) (hok : SinSolape s a)
    (h : next s a = some t) :
    t.enMq = s.enMq ∨ ∃ b, Apart s.enMq b ∧ Rendezvous.next s.enMq b = some t.enMq := by
  cases a with
  | llama i => exact enMq_llama hi hok h
  | termina i => exact enMq_termina h

/-- A step moves one process that does not mine yet; if it comes to mine, then into its own queue
or into the one under the name. -/
theorem main_next {a : PasoPapeles ι} (h : next s a = some t) :
    ∃ i pc, t.main = Function.update s.main i pc ∧ (∀ m, s.main i ≠ .minero m) ∧
      ∀ m, pc = .minero m → m = i ∨ s.mq = some m := by
  cases a with
  | llama i =>
    match hpc : s.main i with
    | .monitor _ | .comprobador _ | .minero _ | .sinCola | .salido =>
      simp [next, llama, hpc] at h
    | .creaShm | .reabreShm | .abreMq =>
      simp only [next, llama, hpc] at h
      split at h <;> cases h <;> exact ⟨i, _, rfl, by simp [hpc], by rintro _ ⟨⟩⟩
    | .desenlazaShm _ | .desenlazaMq _ =>
      simp only [next, llama, hpc] at h
      cases h
      exact ⟨i, _, rfl, by simp [hpc], by rintro _ ⟨⟩⟩
    | .creaMq =>
      simp only [next, llama, hpc] at h
      split at h <;> cases h
      · exact ⟨i, _, rfl, by simp [hpc], by rintro _ ⟨⟩; exact Or.inl rfl⟩
      · exact ⟨i, _, rfl, by simp [hpc], by rintro _ ⟨⟩⟩
    | .reabreMq =>
      simp only [next, llama, hpc] at h
      split at h <;> cases h
      · rename_i hmq
        exact ⟨i, _, rfl, by simp [hpc], by rintro _ ⟨⟩; exact Or.inr hmq⟩
      · exact ⟨i, _, rfl, by simp [hpc], by rintro _ ⟨⟩⟩
  | termina i =>
    match hpc : s.main i with
    | .monitor _ | .comprobador _ | .minero _ | .sinCola | .salido =>
      simp [next, termina, hpc] at h
    | .creaShm | .reabreShm | .desenlazaShm _ | .creaMq | .reabreMq | .abreMq
    | .desenlazaMq _ =>
      simp only [next, termina, hpc] at h
      cases h
      exact ⟨i, _, rfl, by simp [hpc], by rintro _ ⟨⟩⟩

/-- Miners that share a queue share it with its creator. -/
theorem socio_next {a : PasoPapeles ι} (hi : Inv s) (h : next s a = some t) (j m : ι)
    (hj : t.main j = .minero m) : t.main m = .minero m := by
  obtain ⟨i, pc, hmain, hno, hnew⟩ := main_next h
  have hkeep : ∀ m, s.main m = .minero m → t.main m = .minero m := by
    intro m hm
    have hne : m ≠ i := by
      rintro rfl
      exact hno m hm
    rw [hmain, Function.update_of_ne hne, hm]
  by_cases hji : j = i
  · subst hji
    rw [hmain, Function.update_self] at hj
    rcases hnew m hj with rfl | hmq
    · rw [hmain, Function.update_self, hj]
    · exact hkeep m (rolMq_host (hi.mq.name m hmq))
  · rw [hmain, Function.update_of_ne hji] at hj
    exact hkeep m (hi.socio j m hj)

/-- **Step lemma.** -/
theorem inv_next {a : PasoPapeles ι} (hi : Inv s) (hok : SinSolape s a) (h : next s a = some t) :
    Inv t := by
  constructor
  · rcases enShm_next hok h with heq | ⟨b, hb, hn⟩
    · rw [heq]
      exact hi.shm
    · exact Rendezvous.inv_next hi.shm hb hn
  · rcases enMq_next hi.mq hok h with heq | ⟨b, hb, hn⟩
    · rw [heq]
      exact hi.mq
    · exact Rendezvous.inv_next hi.mq hb hn
  · exact socio_next hi h

/-- **Run lemma.** -/
theorem inv_reachableBy (h : (sistema ι).ReachableBy SinSolape s) : Inv s := by
  refine h.induct ?_ fun _ _ _ => inv_next
  rintro s ⟨hshm, hmq, hmain⟩
  constructor
  · refine Rendezvous.inv_initial hshm fun i => ?_
    rcases hmain i with hi | hi <;> simp [enShm, rolShm, hi]
  · refine Rendezvous.inv_initial hmq fun i => ?_
    rcases hmain i with hi | hi <;> simp [enMq, rolMq, hi]
  · intro i m hi
    rcases hmain i with hi' | hi' <;> rw [hi'] at hi <;> cases hi

omit [DecidableEq ι] in
theorem rolShm_host {pc : PcPapeles ι} : rolShm pc = .host ↔ esComprobador pc = true := by
  cases pc <;> simp [rolShm, esComprobador]

omit [DecidableEq ι] in
theorem rolShm_guest {pc : PcPapeles ι} {c : ι} (h : rolShm pc = .guest c) : pc = .monitor c := by
  cases pc <;> cases h
  rfl

theorem rolMq_guest {pc : PcPapeles ι} {m : ι} (h : rolMq i pc = .guest m) :
    pc = .comprobador m := by
  cases pc with
  | comprobador m' =>
    cases h
    rfl
  | minero m' =>
    rw [rolMq] at h
    split at h <;> cases h
  | _ => cases h

theorem Inv.tuberias (hi : Inv s) : Tuberias s := by
  have hmonitor : ∀ {i c}, s.main i = .monitor c → s.enShm.role i = .guest c := by
    intro i c hpc
    simp [enShm, hpc, rolShm]
  have hcomprobador : ∀ {c m}, s.main c = .comprobador m → s.enMq.role c = .guest m := by
    intro c m hpc
    simp [enMq, hpc, rolMq]
  constructor
  case monitor =>
    intro i c hpc
    exact rolShm_host.mp (hi.shm.guest i c (hmonitor hpc)).1
  case unMonitor =>
    intro i j c hpc hpc'
    exact hi.shm.unique i j c (hmonitor hpc) (hmonitor hpc')
  case conMonitor =>
    intro c hpc
    exact (hi.shm.found c (rolShm_host.mpr hpc)).imp_right fun ⟨i, hguest⟩ =>
      ⟨i, rolShm_guest hguest⟩
  case comprobador =>
    intro c m hpc
    exact rolMq_host (hi.mq.guest c m (hcomprobador hpc)).1
  case unComprobador =>
    intro c d m hpc hpc'
    exact hi.mq.unique c d m (hcomprobador hpc) (hcomprobador hpc')
  case conComprobador =>
    intro i m hpc
    have hhost : s.enMq.role m = .host := by simp [enMq, hi.socio i m hpc, rolMq]
    exact (hi.mq.found m hhost).imp_right fun ⟨c, hguest⟩ => ⟨c, rolMq_guest hguest⟩
  case unlinkShm =>
    intro i c hpc
    exact hi.shm.taking i c (by simp [enShm, hpc, rolShm])
  case unlinkMq =>
    intro i m hpc
    exact hi.mq.taking i m (by simp [enMq, hpc, rolMq])

/-- An overlap can leave two monitors at one segment, or two comprobadores at one queue. -/
theorem exists_solape {a : PasoPapeles ι} (hi : Inv s) (hno : ¬ SinSolape s a) :
    ∃ pasos t, (sistema ι).run s (a :: pasos) = some t ∧ Comparten t := by
  cases a with
  | termina i => exact absurd trivial hno
  | llama i =>
    simp only [SinSolape, not_and_or, Classical.not_imp, not_forall, not_not] at hno
    obtain ⟨hpc, j, c, hj⟩ | ⟨hpc, j, m, hj⟩ := hno
    · have hshm : s.shm = some c := hi.shm.taking j c (by simp [enShm, hj, rolShm])
      have hne : j ≠ i := by
        rintro rfl
        rw [hpc] at hj
        cases hj
      refine ⟨[.llama i, .llama j], ⟨none, s.mq, Function.update (Function.update
        (Function.update s.main i (.desenlazaShm c)) i (.monitor c)) j (.monitor c)⟩, ?_, ?_⟩
      · simp [System.run, System.runBy, sistema, next, llama, pon, hpc, hshm, hj, hne]
      · exact Or.inl ⟨j, i, c, hne, by simp, by simp [hne.symm]⟩
    · have hmq : s.mq = some m := hi.mq.taking j m (by simp [enMq, hj, rolMq])
      have hne : j ≠ i := by
        rintro rfl
        rw [hpc] at hj
        cases hj
      refine ⟨[.llama i, .llama j], ⟨s.shm, none, Function.update (Function.update
        (Function.update s.main i (.desenlazaMq m)) i (.comprobador m)) j (.comprobador m)⟩,
        ?_, ?_⟩
      · simp [System.run, System.runBy, sistema, next, llama, pon, hpc, hmq, hj, hne]
      · exact Or.inr ⟨j, i, m, hne, by simp, by simp [hne.symm]⟩

end Papeles

end Soper.P3
