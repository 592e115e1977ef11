import Soper.Library.Transition

/-!
# Lock files

Mutual exclusion by a name in a file system: a process creates the name exclusively, so that the
creation fails where the name exists, and removes it when it is done. The name itself belongs to
nobody: any process can remove it, its holder or not.

A removal by somebody else does not take the lock from its holder, it only lets the next process
in. As long as every removal by others finds no name, at most one process holds the lock
(`exclusive`).
-/

universe u

/-- A name, and which of the processes `ι` have created it and not yet removed it. -/
structure LockFile (ι : Type u) where
  present : Bool
  holds : ι → Bool

namespace LockFile

variable {ι : Type u} [DecidableEq ι]

/-- What the processes do with the name. -/
inductive Step (ι : Type u)
  /-- Exclusive creation. -/
  | create (i : ι)
  /-- The holder removes the name. -/
  | release (i : ι)
  /-- Somebody else removes the name, if it is there. -/
  | remove

/-- One step. -/
def next (s : LockFile ι) : Step ι → Option (LockFile ι)
  | .create i =>
    if s.present = true then none
    else some { present := true, holds := Function.update s.holds i true }
  | .release i =>
    if s.holds i = true then some { present := false, holds := Function.update s.holds i false }
    else none
  | .remove => some { s with present := false }

/-- Nobody holds the lock, and the name does not exist. -/
def free : LockFile ι := ⟨false, fun _ => false⟩

/-- The processes as a transition system. -/
def system : System (LockFile ι) (Step ι) where
  Init s := s = free
  next := next

/-- Only the holder removes an existing name. -/
def Guarded (s : LockFile ι) : Step ι → Prop
  | .remove => s.present = false
  | .create _ | .release _ => True

/-- What guarded runs keep: there is at most one holder, and the name of a holder exists. -/
structure Inv (s : LockFile ι) : Prop where
  unique : ∀ i j, s.holds i = true → s.holds j = true → i = j
  present : ∀ i, s.holds i = true → s.present = true

variable {s t : LockFile ι}

/-- **Step lemma.** -/
theorem inv_next {a : Step ι} (h : Inv s) (hok : Guarded s a) (hn : next s a = some t) :
    Inv t := by
  cases a with
  | create i =>
    simp only [next] at hn
    split at hn <;> cases hn
    rename_i habsent
    -- the name was absent, so nobody held the lock
    have hnobody : ∀ j, s.holds j ≠ true := fun j hj => habsent (h.present j hj)
    have honly : ∀ j, Function.update s.holds i true j = true → j = i := by
      intro j hj
      by_contra hne
      rw [Function.update_of_ne hne] at hj
      exact hnobody j hj
    exact ⟨fun j k hj hk => (honly j hj).trans (honly k hk).symm, fun _ _ => rfl⟩
  | release i =>
    simp only [next] at hn
    split at hn <;> cases hn
    rename_i hi
    -- the only holder has gone
    have hnobody : ∀ j, Function.update s.holds i false j ≠ true := by
      intro j hj
      by_cases hne : j = i
      · rw [hne, Function.update_self] at hj
        cases hj
      · rw [Function.update_of_ne hne] at hj
        exact hne (h.unique j i hj hi)
    exact ⟨fun j _ hj => absurd hj (hnobody j), fun j hj => absurd hj (hnobody j)⟩
  | remove =>
    cases hn
    have habsent : s.present = false := hok
    have hnobody : ∀ j, s.holds j ≠ true := by
      intro j hj
      rw [h.present j hj] at habsent
      cases habsent
    exact ⟨h.unique, fun j hj => absurd hj (hnobody j)⟩

/-- **Run lemma.** -/
theorem inv_reachableBy (h : (system (ι := ι)).ReachableBy Guarded s) : Inv s := by
  refine h.induct ?_ fun _ _ _ hs hok hn => inv_next hs hok hn
  rintro _ rfl
  exact ⟨fun _ _ hi => (Bool.false_ne_true hi).elim, fun _ hi => (Bool.false_ne_true hi).elim⟩

/-- **Mutual exclusion** in guarded runs. -/
theorem exclusive (h : (system (ι := ι)).ReachableBy Guarded s) {i j : ι}
    (hi : s.holds i = true) (hj : s.holds j = true) : i = j :=
  (inv_reachableBy h).unique i j hi hj

end LockFile
