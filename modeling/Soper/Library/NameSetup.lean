import Mathlib.Tactic.Common
import Soper.Library.Transition

/-!
# Setting up names

Processes that each create `k` names of a file system exclusively, one after the other, and then
remove them in the same order, after which they run on with what they have created. A process
ends where a creation finds the name present, and it may end anywhere before; whoever ends does
not remove anything.

The one invariant is that the names that exist are exactly those in the hands of a process
(`Inv`). Two consequences: a process never removes the name of another (`Inv.unlink_owner`), and
the set-up is safe only as long as it is not cut short. A process that ends with a name in its
hands leaves it behind for good, and from then on nobody comes past its creation (`barred`,
`locked_out`).
Where nobody has, and nobody is in the middle of it, every process that has not begun can go
through (`starts`).
-/

universe u

/-- Where a process stands. -/
inductive NameSetup.Pc
  /-- At the creation of the name `j`; the ones before it are created. -/
  | create (j : ℕ)
  /-- At the removal of the name `j`; the ones before it are removed. -/
  | unlink (j : ℕ)
  | running
  /-- The process has ended and leaves the names from `a` to `b - 1`. -/
  | ended (a b : ℕ)
  deriving DecidableEq

/-- Which process has created the name that exists, and where the processes stand. -/
structure NameSetup (ι : Type u) where
  owner : ℕ → Option ι
  pc : ι → NameSetup.Pc

namespace NameSetup

variable {ι : Type u}

inductive Step (ι : Type u)
  /-- The process makes its next call. -/
  | call (i : ι)
  /-- The process ends before its next call. -/
  | stop (i : ι)

/-- After the creation of the name `j`. -/
def created (k j : ℕ) : Pc := if j + 1 < k then .create (j + 1) else .unlink 0

/-- After the removal of the name `j`. -/
def unlinked (k j : ℕ) : Pc := if j + 1 < k then .unlink (j + 1) else .running

/-- The names in the hands of a process. -/
def Pc.Holds (k : ℕ) : Pc → ℕ → Prop
  | .create j, l => l < j
  | .unlink j, l => j ≤ l ∧ l < k
  | .running, _ => False
  | .ended a b, l => a ≤ l ∧ l < b

/-- A process is at one of its `k` names. -/
def Pc.Within (k : ℕ) : Pc → Prop
  | .create j | .unlink j => j < k
  | .running => True
  | .ended _ b => b ≤ k

/-- In the middle of the set-up. -/
def Pc.Busy : Pc → Prop
  | .create j => 0 < j
  | .unlink _ => True
  | .running | .ended _ _ => False

/-- The process has ended and leaves a name. -/
def Pc.Leaves : Pc → Prop
  | .ended a b => a < b
  | .create _ | .unlink _ | .running => False

variable [DecidableEq ι]

/-- One step. -/
def next (k : ℕ) (s : NameSetup ι) : Step ι → Option (NameSetup ι)
  | .call i =>
    match s.pc i with
    | .create j =>
      match s.owner j with
      | none =>
        some { owner := Function.update s.owner j (some i)
               pc := Function.update s.pc i (created k j) }
      | some _ => some { s with pc := Function.update s.pc i (.ended 0 j) }
    | .unlink j =>
      some { owner := Function.update s.owner j none
             pc := Function.update s.pc i (unlinked k j) }
    | .running | .ended _ _ => none
  | .stop i =>
    match s.pc i with
    | .create j => some { s with pc := Function.update s.pc i (.ended 0 j) }
    | .unlink j => some { s with pc := Function.update s.pc i (.ended j k) }
    | .running | .ended _ _ => none

/-- No name exists, and nobody has begun. -/
def initial : NameSetup ι := ⟨fun _ => none, fun _ => .create 0⟩

/-- Processes that begin whenever they like. -/
def system (k : ℕ) : System (NameSetup ι) (Step ι) where
  Init s := s = initial
  next := next k

/-- What goes on from the state `s`. -/
def after (k : ℕ) (s : NameSetup ι) : System (NameSetup ι) (Step ι) where
  Init t := t = s
  next := next k

/-! ### Names and holders -/

/-- The names that exist are those in the hands of a process, and everybody is at one of the
names. -/
structure Inv (k : ℕ) (s : NameSetup ι) : Prop where
  owner : ∀ i l, s.owner l = some i ↔ (s.pc i).Holds k l
  within : ∀ i, (s.pc i).Within k

variable {k l : ℕ} {s t : NameSetup ι} {i m : ι}

omit [DecidableEq ι] in
/-- **A process removes its own names only.** -/
theorem Inv.unlink_owner {j : ℕ} (h : Inv k s) (hpc : s.pc i = .unlink j) :
    s.owner j = some i := by
  have hwithin := h.within i
  rw [hpc] at hwithin
  rw [h.owner i j, hpc]
  exact ⟨le_rfl, hwithin⟩

omit [DecidableEq ι] in
/-- A name is in one hand at most. -/
theorem Inv.unique (h : Inv k s) (hi : (s.pc i).Holds k l) (hm : (s.pc m).Holds k l) : i = m := by
  have hi' := (h.owner i l).mpr hi
  rw [(h.owner m l).mpr hm] at hi'
  exact (Option.some.inj hi').symm

/-- A process moves and only its own names change hands. -/
theorem Inv.move {owner : ℕ → Option ι} {pc : Pc} (h : Inv k s)
    (hself : ∀ l, owner l = some i ↔ pc.Holds k l)
    (hothers : ∀ l m, m ≠ i → (owner l = some m ↔ s.owner l = some m)) (hpc : pc.Within k) :
    Inv k ⟨owner, Function.update s.pc i pc⟩ := by
  constructor
  · intro m l
    by_cases hm : m = i
    · subst hm
      simpa only [Function.update_self] using hself l
    · simp only [Function.update_of_ne hm]
      rw [hothers l m hm, h.owner m l]
  · intro m
    by_cases hm : m = i
    · subst hm
      simpa only [Function.update_self] using hpc
    · simpa only [Function.update_of_ne hm] using h.within m

theorem within_created {j : ℕ} (hj : j < k) : (created k j).Within k := by
  unfold created
  split
  · assumption
  · exact Nat.zero_lt_of_lt hj

theorem holds_created {j : ℕ} (hj : j < k) : (created k j).Holds k l ↔ l < j + 1 := by
  unfold created
  split
  · rfl
  · simp only [Pc.Holds]
    omega

theorem within_unlinked {j : ℕ} : (unlinked k j).Within k := by
  unfold unlinked
  split
  · assumption
  · trivial

theorem holds_unlinked {j : ℕ} : (unlinked k j).Holds k l ↔ j + 1 ≤ l ∧ l < k := by
  unfold unlinked
  split
  · rfl
  · simp only [Pc.Holds, false_iff]
    omega

/-- **Step lemma.** -/
theorem inv_next {a : Step ι} (h : Inv k s) (hn : next k s a = some t) : Inv k t := by
  cases a with
  | call i =>
    have hself := h.owner i
    have hwithin := h.within i
    cases hpc : s.pc i with
    | create j =>
      rw [hpc] at hself hwithin
      simp only [next, hpc] at hn
      cases hfree : s.owner j with
      | none =>
        simp only [hfree] at hn
        cases hn
        refine h.move (fun l => ?_) (fun l m hm => ?_) (within_created hwithin)
        · rw [holds_created hwithin]
          by_cases hl : l = j
          · subst hl
            simp
          · rw [Function.update_of_ne hl, hself l]
            simp only [Pc.Holds]
            omega
        · by_cases hl : l = j
          · subst hl
            simpa [hfree] using hm.symm
          · rw [Function.update_of_ne hl]
      | some m =>
        simp only [hfree] at hn
        cases hn
        exact h.move (fun l => by simpa [Pc.Holds] using hself l) (fun _ _ _ => Iff.rfl)
          hwithin.le
    | unlink j =>
      rw [hpc] at hself
      simp only [next, hpc] at hn
      cases hn
      refine h.move (fun l => ?_) (fun l m hm => ?_) within_unlinked
      · rw [holds_unlinked]
        by_cases hl : l = j
        · subst hl
          simp
        · rw [Function.update_of_ne hl, hself l]
          simp only [Pc.Holds]
          omega
      · by_cases hl : l = j
        · subst hl
          rw [Function.update_self, h.unlink_owner hpc]
          simpa using hm.symm
        · rw [Function.update_of_ne hl]
    | running | ended _ _ => simp [next, hpc] at hn
  | stop i =>
    have hself := h.owner i
    have hwithin := h.within i
    cases hpc : s.pc i with
    | create j =>
      rw [hpc] at hself hwithin
      simp only [next, hpc] at hn
      cases hn
      exact h.move (fun l => by simpa [Pc.Holds] using hself l) (fun _ _ _ => Iff.rfl) hwithin.le
    | unlink j =>
      rw [hpc] at hself
      simp only [next, hpc] at hn
      cases hn
      exact h.move (fun l => by simpa [Pc.Holds] using hself l) (fun _ _ _ => Iff.rfl) le_rfl
    | running | ended _ _ => simp [next, hpc] at hn

/-- **Run lemma.** -/
theorem inv_reachable (hk : 0 < k) (h : (system (ι := ι) k).Reachable s) : Inv k s := by
  refine h.induct ?_ fun _ _ _ hs hn => inv_next hs hn
  rintro _ rfl
  exact ⟨fun i l => by simp [initial, Pc.Holds], fun _ => hk⟩

/-! ### A name that is left -/

/-- A process that has ended with the name `l` in its hands. -/
def Left (s : NameSetup ι) (l : ℕ) : Prop := ∃ i a b, s.pc i = .ended a b ∧ a ≤ l ∧ l < b

/-- The process has not come past the name `l`. -/
def Pc.Before (l : ℕ) : Pc → Prop
  | .create j => j ≤ l
  | .ended _ _ => True
  | .unlink _ | .running => False

/-- Nobody moves after its end. -/
theorem ended_next {a : Step ι} {b c : ℕ} (hpc : s.pc i = .ended b c)
    (hn : next k s a = some t) : t.pc i = .ended b c := by
  have hupdate : ∀ {m : ι} {pc : Pc}, m ≠ i → Function.update s.pc m pc i = .ended b c := by
    intro m pc hm
    rw [Function.update_of_ne hm.symm, hpc]
  cases a with
  | call m | stop m =>
    have hm : m ≠ i := by
      rintro rfl
      simp [next, hpc] at hn
    simp only [next] at hn
    split at hn <;> (try split at hn) <;> cases hn <;> exact hupdate hm

/-- **A name that is left bars the way** for everybody who has not come past it. -/
theorem before_next {a : Step ι} (h : Inv k s) (hleft : Left s l) (hm : (s.pc m).Before l)
    (hn : next k s a = some t) : (t.pc m).Before l := by
  obtain ⟨i, b, c, hpc, hb, hc⟩ := hleft
  have hwithin := h.within i
  have howner : s.owner l = some i := by
    rw [h.owner i l, hpc]
    exact ⟨hb, hc⟩
  rw [hpc] at hwithin
  have hupdate : ∀ {j : ι} {pc : Pc}, (j = m → pc.Before l) →
      (Function.update s.pc j pc m).Before l := by
    intro j pc hj
    by_cases hjm : m = j
    · subst hjm
      simpa using hj rfl
    · rwa [Function.update_of_ne hjm]
  cases a with
  | call j =>
    cases hpcj : s.pc j with
    | create x =>
      simp only [next, hpcj] at hn
      cases hfree : s.owner x with
      | none =>
        simp only [hfree] at hn
        cases hn
        refine hupdate fun hjm => ?_
        subst hjm
        rw [hpcj] at hm
        -- the name left is not free, so it is still ahead
        have hne : x ≠ l := by
          rintro rfl
          rw [hfree] at howner
          cases howner
        have hlt : x < l := lt_of_le_of_ne hm hne
        have hlk : l < k := hc.trans_le hwithin
        rw [created, if_pos (by omega)]
        exact hlt
      | some y =>
        simp only [hfree] at hn
        cases hn
        exact hupdate fun _ => trivial
    | unlink x =>
      simp only [next, hpcj] at hn
      cases hn
      refine hupdate fun hjm => ?_
      subst hjm
      rw [hpcj] at hm
      exact hm.elim
    | running | ended _ _ => simp [next, hpcj] at hn
  | stop j =>
    cases hpcj : s.pc j with
    | create x =>
      simp only [next, hpcj] at hn
      cases hn
      exact hupdate fun _ => trivial
    | unlink x =>
      simp only [next, hpcj] at hn
      cases hn
      exact hupdate fun _ => trivial
    | running | ended _ _ => simp [next, hpcj] at hn

/-- What has been left stays. -/
theorem left_next {a : Step ι} (h : Left s l) (hn : next k s a = some t) : Left t l := by
  obtain ⟨i, b, c, hpc, hle⟩ := h
  exact ⟨i, b, c, ended_next hpc hn, hle⟩

/-- **Run lemma.** Nobody comes past a name that is left. -/
theorem barred (h : Inv k s) (hleft : Left s l) (hm : (s.pc m).Before l)
    (ht : (after k s).Reachable t) : (t.pc m).Before l := by
  have hall : Inv k t ∧ Left t l ∧ (t.pc m).Before l := by
    refine ht.induct (I := fun t => Inv k t ∧ Left t l ∧ (t.pc m).Before l) ?_ ?_
    · rintro _ rfl
      exact ⟨h, hleft, hm⟩
    · rintro s a t ⟨hs, hl, hb⟩ hn
      exact ⟨inv_next hs hn, left_next hl hn, before_next hs hl hb hn⟩
  exact hall.2.2

/-- **Locked out for good.** Once a process has left a name, whoever has not begun will never
run. -/
theorem locked_out (h : Inv k s) (hi : (s.pc i).Leaves) (hm : s.pc m = .create 0)
    (ht : (after k s).Reachable t) : t.pc m ≠ .running := by
  cases hpc : s.pc i with
  | create _ | unlink _ | running =>
    rw [hpc] at hi
    exact hi.elim
  | ended a b =>
    rw [hpc] at hi
    have hbefore : (s.pc m).Before a := by
      rw [hm]
      exact Nat.zero_le a
    intro hrun
    have hbar := barred h ⟨i, a, b, hpc, le_rfl, hi⟩ hbefore ht
    rw [hrun] at hbar
    exact hbar

/-! ### Where nothing is left -/

omit [DecidableEq ι] in
/-- Nobody is in the middle, and nothing is left: no name exists. -/
theorem owner_eq_none (h : Inv k s) (hrest : ∀ i, ¬ (s.pc i).Busy)
    (hnone : ∀ i, ¬ (s.pc i).Leaves) (l : ℕ) : s.owner l = none := by
  cases howner : s.owner l with
  | none => rfl
  | some i =>
    have hholds := (h.owner i l).mp howner
    have hresti := hrest i
    have hnonei := hnone i
    cases hpc : s.pc i with
    | create j =>
      rw [hpc] at hholds hresti
      exact absurd (Nat.zero_lt_of_lt hholds) hresti
    | unlink j =>
      rw [hpc] at hresti
      exact absurd trivial hresti
    | running =>
      rw [hpc] at hholds
      exact hholds.elim
    | ended a b =>
      rw [hpc] at hholds hnonei
      exact absurd (lt_of_le_of_lt hholds.1 hholds.2) hnonei

/-- A process that finds no name creates them all. -/
theorem reaches_unlink (m : ι) {j : ℕ} (ht : (after k s).Reachable t) (hpc : t.pc m = .create j)
    (hj : j < k) (hfree : ∀ l, j ≤ l → t.owner l = none) :
    ∃ u, (after k s).Reachable u ∧ u.pc m = .unlink 0 := by
  obtain ⟨d, hd⟩ : ∃ d, k = j + 1 + d := ⟨k - (j + 1), by omega⟩
  induction d generalizing j t with
  | zero =>
    have hstep : (after k s).next t (.call m) = some
        ⟨Function.update t.owner j (some m), Function.update t.pc m (.unlink 0)⟩ := by
      simp [after, next, hpc, hfree j le_rfl, created, hd]
    exact ⟨_, ht.step hstep, Function.update_self ..⟩
  | succ d ih =>
    have hstep : (after k s).next t (.call m) = some
        ⟨Function.update t.owner j (some m), Function.update t.pc m (.create (j + 1))⟩ := by
      simp [after, next, hpc, hfree j le_rfl, created, hd]
    refine ih (ht.step hstep) (Function.update_self ..) (by omega) (fun l hl => ?_) (by omega)
    simp only [Function.update_of_ne (show l ≠ j by omega)]
    exact hfree l (by omega)

/-- A process that has created all names comes to run. -/
theorem reaches_running (m : ι) {j : ℕ} (ht : (after k s).Reachable t) (hpc : t.pc m = .unlink j)
    (hj : j < k) : ∃ u, (after k s).Reachable u ∧ u.pc m = .running := by
  obtain ⟨d, hd⟩ : ∃ d, k = j + 1 + d := ⟨k - (j + 1), by omega⟩
  induction d generalizing j t with
  | zero =>
    have hstep : (after k s).next t (.call m) = some
        ⟨Function.update t.owner j none, Function.update t.pc m .running⟩ := by
      simp [after, next, hpc, unlinked, hd]
    exact ⟨_, ht.step hstep, Function.update_self ..⟩
  | succ d ih =>
    have hstep : (after k s).next t (.call m) = some
        ⟨Function.update t.owner j none, Function.update t.pc m (.unlink (j + 1))⟩ := by
      simp [after, next, hpc, unlinked, hd]
    exact ih (ht.step hstep) (Function.update_self ..) (by omega) (by omega)

/-- **Who can still start.** Where nobody is in the middle of the set-up, a process that has not
begun can come to run if and only if nobody has ended in the middle. -/
theorem canStart_iff (hk : 0 < k) (h : (system k).Reachable s) (hrest : ∀ i, ¬ (s.pc i).Busy)
    (hm : s.pc m = .create 0) :
    (∃ t, (after k s).Reachable t ∧ t.pc m = .running) ↔ ∀ i, ¬ (s.pc i).Leaves := by
  have hinv := inv_reachable hk h
  constructor
  · rintro ⟨t, ht, hrun⟩ i hleaves
    exact locked_out hinv hleaves hm ht hrun
  · intro hnone
    have hfree := owner_eq_none hinv hrest hnone
    obtain ⟨t, ht, hpc⟩ := reaches_unlink m (.init rfl) hm hk fun l _ => hfree l
    exact reaches_running m ht hpc hk

end NameSetup
