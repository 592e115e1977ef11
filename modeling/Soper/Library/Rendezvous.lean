import Mathlib.Tactic.Common
import Soper.Library.Transition

/-!
# Meeting at a name

Processes that meet two by two at a name of a file system. One of them, the host, creates an
object under the name, exclusively; another one, the guest, opens what it finds under the name
and then removes the name, so that the next host can create its own object there. An object goes
by the process that has created it.

The removal is of the name, not of the object. If a second process opens the object before the
first has removed the name, the host gets two guests, and the second removal hits the name of
whoever is host by then. In runs without such an overlap the pairing is perfect (`Inv`): each
host has exactly one guest, or it is the one that waits under the name, and a guest removes the
name of its own host.
-/

universe u

/-- What a process has done at the name. -/
inductive Rendezvous.Role (ι : Type u)
  | idle
  /-- It has created an object. -/
  | host
  /-- It has opened the object of `c` and not yet removed the name. -/
  | taking (c : ι)
  /-- It has removed the name after opening the object of `c`. -/
  | guest (c : ι)

/-- The object the name stands for, and what the processes have done. -/
structure Rendezvous (ι : Type u) where
  name : Option ι
  role : ι → Rendezvous.Role ι

namespace Rendezvous

variable {ι : Type u} [DecidableEq ι]

inductive Step (ι : Type u)
  /-- Exclusive creation. -/
  | create (i : ι)
  | take (i : ι)
  /-- Removal of the name. -/
  | remove (i : ι)
  /-- The process ends with an object open, before it removes the name. -/
  | leave (i : ι)

/-- One step. -/
def next (s : Rendezvous ι) : Step ι → Option (Rendezvous ι)
  | .create i =>
    match s.name, s.role i with
    | none, .idle => some ⟨some i, Function.update s.role i .host⟩
    | _, _ => none
  | .take i =>
    match s.name, s.role i with
    | some c, .idle => some ⟨s.name, Function.update s.role i (.taking c)⟩
    | _, _ => none
  | .remove i =>
    match s.role i with
    | .taking c => some ⟨none, Function.update s.role i (.guest c)⟩
    | _ => none
  | .leave i =>
    match s.role i with
    | .taking _ => some ⟨s.name, Function.update s.role i .idle⟩
    | _ => none

/-- Nobody opens the object while somebody else is about to remove the name. -/
def Apart (s : Rendezvous ι) : Step ι → Prop
  | .take _ => ∀ j c, s.role j ≠ .taking c
  | .create _ | .remove _ | .leave _ => True

/-- The pairing. -/
structure Inv (s : Rendezvous ι) : Prop where
  name : ∀ c, s.name = some c → s.role c = .host
  taking : ∀ i c, s.role i = .taking c → s.name = some c
  alone : ∀ i j c d, s.role i = .taking c → s.role j = .taking d → i = j
  guest : ∀ i c, s.role i = .guest c → s.role c = .host ∧ s.name ≠ some c
  unique : ∀ i j c, s.role i = .guest c → s.role j = .guest c → i = j
  found : ∀ c, s.role c = .host → s.name = some c ∨ ∃ i, s.role i = .guest c

variable {s t : Rendezvous ι} {i : ι}

/-- Who has done something else than `i` has done it still. -/
theorem update_role_of_ne {j : ι} {r x : Role ι} (hi : s.role i ≠ x) (hj : s.role j = x) :
    Function.update s.role i r j = x := by
  have hne : j ≠ i := by
    rintro rfl
    exact hi hj
  rw [Function.update_of_ne hne, hj]

/-- Where `i` becomes neither host nor guest, the hosts are still found. -/
theorem Inv.found_update {r : Role ι} (h : Inv s) (hi : ∀ d, s.role i ≠ .guest d) (hr : r ≠ .host)
    (c : ι) (hc : Function.update s.role i r c = .host) :
    s.name = some c ∨ ∃ j, Function.update s.role i r j = .guest c := by
  have hci : c ≠ i := by
    rintro rfl
    rw [Function.update_self] at hc
    exact hr hc
  rw [Function.update_of_ne hci] at hc
  exact (h.found c hc).imp_right fun ⟨j, hj⟩ => ⟨j, update_role_of_ne (hi c) hj⟩

/-- A new host finds no name, so no other host waits. -/
theorem inv_create (h : Inv s) (hfree : s.name = none) (hi : s.role i = .idle) :
    Inv ⟨some i, Function.update s.role i .host⟩ := by
  obtain ⟨hname, htaking, halone, hguest, hunique, hfound⟩ := h
  constructor
  case found =>
    intro c hc
    by_cases hci : c = i
    · exact Or.inl (congrArg some hci.symm)
    · simp only [Function.update_of_ne hci] at hc
      obtain hold | ⟨j, hj⟩ := hfound c hc
      · rw [hfree] at hold
        cases hold
      · exact Or.inr ⟨j, update_role_of_ne (by simp [hi]) hj⟩
  all_goals grind [Function.update_apply]

/-- Nobody else is about to remove the name, so the object is still the one under it. -/
theorem inv_take {c : ι} (h : Inv s) (hname : s.name = some c) (hi : s.role i = .idle)
    (hnobody : ∀ j c, s.role j ≠ .taking c) :
    Inv ⟨s.name, Function.update s.role i (.taking c)⟩ := by
  have hfound := h.found_update (i := i) (r := .taking c) (by simp [hi]) (by simp)
  obtain ⟨hhost, htaking, halone, hguest, hunique, -⟩ := h
  constructor
  case found => exact hfound
  all_goals grind [Function.update_apply]

/-- The name is that of the object opened, so the guest takes away its own host's name. -/
theorem inv_remove {c : ι} (h : Inv s) (hi : s.role i = .taking c) :
    Inv ⟨none, Function.update s.role i (.guest c)⟩ := by
  have hfound := h.found_update (i := i) (r := .guest c) (by simp [hi]) (by simp)
  have hname := h.taking i c hi
  obtain ⟨hhost, htaking, halone, hguest, hunique, -⟩ := h
  constructor
  case found =>
    intro d hd
    obtain hold | hguests := hfound d hd
    · obtain rfl : c = d := Option.some.inj (hname.symm.trans hold)
      exact Or.inr ⟨i, Function.update_self ..⟩
    · exact Or.inr hguests
  all_goals grind [Function.update_apply]

/-- A process that ends in between leaves the name to the next guest. -/
theorem inv_leave {c : ι} (h : Inv s) (hi : s.role i = .taking c) :
    Inv ⟨s.name, Function.update s.role i .idle⟩ := by
  have hfound := h.found_update (i := i) (r := .idle) (by simp [hi]) (by simp)
  obtain ⟨hhost, htaking, halone, hguest, hunique, -⟩ := h
  constructor
  case found => exact hfound
  all_goals grind [Function.update_apply]

/-- **Step lemma.** -/
theorem inv_next {a : Step ι} (h : Inv s) (hok : Apart s a) (hn : next s a = some t) : Inv t := by
  cases a with
  | create i =>
    simp only [next] at hn
    split at hn <;> cases hn
    rename_i hfree hi
    exact inv_create h hfree hi
  | take i =>
    simp only [next] at hn
    split at hn <;> cases hn
    rename_i c hname hi
    exact inv_take h hname hi hok
  | remove i =>
    simp only [next] at hn
    split at hn <;> cases hn
    rename_i c hi
    exact inv_remove h hi
  | leave i =>
    simp only [next] at hn
    split at hn <;> cases hn
    rename_i c hi
    exact inv_leave h hi

omit [DecidableEq ι] in
/-- Nobody has come yet. -/
theorem inv_initial {s : Rendezvous ι} (hname : s.name = none) (hidle : ∀ i, s.role i = .idle) :
    Inv s := by
  constructor <;> simp [hname, hidle]

end Rendezvous
