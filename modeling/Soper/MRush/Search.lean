import Soper.Library.Total
import Soper.Library.Transition
import Soper.Pow

/-!
# The threaded search

`manage_threads` splits `[0, POW_LIMIT)` into `n_threads` ranges of `POW_LIMIT / n_threads`
nonces, starts one thread of `target_search` for each, joins them in order and returns the
solution one of them has stored, or `-1`. A thread stops early once the global `target_found`
is set. The threads interleave freely; the allocation and the calls of `pthread` succeed.

The division drops its remainder: nonces from `reach n = POW_LIMIT / n * n` on are searched by
no thread. Up to that bound the search is exact (`Search.Inv.result`): a value other than `-1`
is a nonce in range with the right hash, and `-1` is returned only if the range holds none.
The search always ends (`measure_next`) and never waits for itself (`exists_step`).
-/

namespace Soper.MRush

/-- The type `search`: what a thread is to do, and what it has found. -/
structure Objective where
  min : ℤ
  max : ℤ
  target : ℤ
  solution : ℤ

/-- Where a thread of `target_search` stands. -/
inductive ThreadPc
  /-- Not yet created. -/
  | absent
  /-- The loop test, then `if (target_found == FOUND)`. -/
  | scan (i : ℤ)
  /-- `result = pow_hash(i)` and its comparison with the target. -/
  | hash (i : ℤ)
  /-- `target_found = FOUND`. -/
  | mark (i : ℤ)
  /-- `obj->solution = i`. -/
  | store (i : ℤ)
  | exited
  deriving DecidableEq

/-- A thread and its element of the array `objective`. -/
structure Thread where
  pc : ThreadPc
  objective : Objective

/-- Where `manage_threads` stands. -/
inductive SearchPc
  /-- `target_found = NOTFOUND`. -/
  | reset
  /-- The body of the first loop, with `pthread_create`. -/
  | create (i : ℕ)
  /-- The body of the second loop, with `pthread_join`. -/
  | join (i : ℕ)
  | done
  deriving DecidableEq

/-- Threads created so far. -/
def SearchPc.createdCount (n : ℕ) : SearchPc → ℕ
  | .reset => 0
  | .create i => i
  | .join _ | .done => n

/-- Threads joined so far. -/
def SearchPc.joinedCount (n : ℕ) : SearchPc → ℕ
  | .reset | .create _ => 0
  | .join i => i
  | .done => n

/-- One call of `manage_threads` with `n` threads; `targetFound` is global and outlives it. -/
structure Search (n : ℕ) where
  pc : SearchPc
  solution : ℤ
  targetFound : Bool
  thread : Fin n → Thread

/-- Who moves. -/
inductive SearchMove (n : ℕ)
  | manage
  | thread (j : Fin n)

/-- The number of nonces of each thread. -/
def share (n : ℕ) : ℤ := POW_LIMIT / n

/-- The bound below which the threads together search. -/
def reach (n : ℕ) : ℤ := share n * n

namespace Search

variable {n : ℕ}

/-- The call begins: no thread exists, and the array `objective` is not initialised. -/
def enter (garbage : Fin n → Objective) (targetFound : Bool) : Search n where
  pc := .reset
  solution := -1
  targetFound := targetFound
  thread j := { pc := .absent, objective := garbage j }

/-- What the `i`-th thread is created with. -/
def created (n i : ℕ) (target : ℤ) : Thread where
  pc := .scan (share n * i)
  objective :=
    { min := share n * i, max := share n * (i + 1) - 1, target := target, solution := -1 }

/-- One step of `manage_threads`. -/
def stepManage (target : ℤ) (s : Search n) : Option (Search n) :=
  match s.pc with
  | .reset => some { s with targetFound := false, pc := .create 0 }
  | .create i =>
    if h : i < n then
      some { s with
        thread := Function.update s.thread ⟨i, h⟩ (created n i target), pc := .create (i + 1) }
    else some { s with pc := .join 0 }
  | .join i =>
    if h : i < n then
      if (s.thread ⟨i, h⟩).pc = .exited then
        some { s with
          solution := if (s.thread ⟨i, h⟩).objective.solution ≠ -1 then
            (s.thread ⟨i, h⟩).objective.solution else s.solution
          pc := .join (i + 1) }
      else none
    else some { s with pc := .done }
  | .done => none

/-- One step of `target_search`: the thread and the value of `target_found` after it. -/
def targetSearch (found : Bool) (th : Thread) : Option (Thread × Bool) :=
  match th.pc with
  | .absent => none
  | .scan i =>
    if i ≤ th.objective.max ∧ found = false then some ({ th with pc := .hash i }, found)
    else some ({ th with pc := .exited }, found)
  | .hash i =>
    if toInt (powHash i) = th.objective.target then some ({ th with pc := .mark i }, found)
    else some ({ th with pc := .scan (i + 1) }, found)
  | .mark i => some ({ th with pc := .store i }, true)
  | .store i =>
    some ({ pc := .exited, objective := { th.objective with solution := i } }, found)
  | .exited => none

/-- One step of the search. -/
def next (target : ℤ) (s : Search n) : SearchMove n → Option (Search n)
  | .manage => s.stepManage target
  | .thread j =>
    (targetSearch s.targetFound (s.thread j)).map fun r =>
      { s with thread := Function.update s.thread j r.1, targetFound := r.2 }

/-! ### What a thread knows -/

/-- No nonce in `[a, b)` has the hash `target`. -/
def NoHit (target a b : ℤ) : Prop := ∀ x, a ≤ x → x < b → powHash x ≠ target

theorem NoHit.snoc {target a b : ℤ} (h : NoHit target a b) (hb : powHash b ≠ target) :
    NoHit target a (b + 1) := by
  intro x hx hx'
  rcases lt_or_eq_of_le (Int.lt_add_one_iff.mp hx') with hlt | rfl
  · exact h x hx hlt
  · exact hb

/-- A nonce of the `j`-th range with the right hash. -/
def IsHit (n j : ℕ) (target x : ℤ) : Prop :=
  share n * j ≤ x ∧ x < share n * (j + 1) ∧ powHash x = target

/-- The thread was given the `j`-th range. -/
def Ranged (n j : ℕ) (target : ℤ) (o : Objective) : Prop :=
  o.min = share n * j ∧ o.max = share n * (j + 1) - 1 ∧ o.target = target

/-- What holds of the `j`-th thread at each program point. -/
def ThreadInv (n j : ℕ) (target : ℤ) (found : Bool) (th : Thread) : Prop :=
  match th.pc with
  | .absent => True
  | .scan i =>
    Ranged n j target th.objective ∧ th.objective.solution = -1 ∧ share n * j ≤ i ∧
      NoHit target (share n * j) i
  | .hash i =>
    Ranged n j target th.objective ∧ th.objective.solution = -1 ∧ share n * j ≤ i ∧
      i < share n * (j + 1) ∧ NoHit target (share n * j) i
  | .mark i | .store i =>
    Ranged n j target th.objective ∧ th.objective.solution = -1 ∧ IsHit n j target i
  | .exited =>
    IsHit n j target th.objective.solution ∨
      (th.objective.solution = -1 ∧
        (NoHit target (share n * j) (share n * (j + 1)) ∨ found = true))

/-- The thread has set `target_found`. -/
def Reported (th : Thread) : Prop :=
  (∃ i, th.pc = .store i) ∨ (th.pc = .exited ∧ th.objective.solution ≠ -1)

theorem share_nonneg (n : ℕ) : 0 ≤ share n :=
  Int.ediv_nonneg (by decide) (Int.natCast_nonneg n)

theorem reach_le (n : ℕ) : reach n ≤ POW_LIMIT := by
  rcases Nat.eq_zero_or_pos n with rfl | hn
  · decide
  · exact Int.ediv_mul_le _ (by omega)

/-- The ranges stay below `POW_LIMIT`. -/
theorem range_le {j : ℕ} (hj : j < n) : share n * (j + 1) ≤ reach n := by
  have hj' : ((j : ℤ) + 1) ≤ n := by exact_mod_cast hj
  exact mul_le_mul_of_nonneg_left hj' (share_nonneg n)

/-- Every nonce below `reach n` belongs to the range of one thread. -/
theorem exists_range {n : ℕ} {x : ℤ} (hx : 0 ≤ x) (hx' : x < reach n) :
    ∃ j < n, share n * j ≤ x ∧ x < share n * (j + 1) := by
  have hpos : 0 < share n := by
    by_contra hle
    have hzero : share n = 0 := le_antisymm (not_lt.mp hle) (share_nonneg n)
    simp only [reach, hzero, zero_mul] at hx'
    omega
  have hdiv : x / share n < n := Int.ediv_lt_of_lt_mul hpos (by rwa [reach, mul_comm] at hx')
  obtain ⟨j, hj⟩ := Int.eq_ofNat_of_zero_le (Int.ediv_nonneg hx hpos.le)
  refine ⟨j, by omega, ?_, ?_⟩
  · rw [← hj]
    exact Int.mul_ediv_self_le hpos.ne'
  · rw [← hj, mul_add, mul_one]
    exact Int.lt_mul_ediv_self_add hpos

/-- A hit is a nonce in `[0, reach n)`. -/
theorem IsHit.bounds {j : ℕ} {target x : ℤ} (h : IsHit n j target x) (hj : j < n) :
    0 ≤ x ∧ x < reach n ∧ powHash x = target := by
  have h0 : 0 ≤ share n * j := mul_nonneg (share_nonneg n) (Int.natCast_nonneg j)
  have hle := range_le hj
  obtain ⟨hmin, hmax, hhash⟩ := h
  exact ⟨by omega, by omega, hhash⟩

/-- Setting `target_found` weakens what an exited thread knows. -/
theorem ThreadInv.mono {j : ℕ} {target : ℤ} {found found' : Bool} {th : Thread}
    (h : ThreadInv n j target found th) (hle : found = true → found' = true) :
    ThreadInv n j target found' th := by
  match hpc : th.pc with
  | .absent => simp only [ThreadInv, hpc]
  | .scan i | .hash i | .mark i | .store i => simpa only [ThreadInv, hpc] using h
  | .exited =>
    simp only [ThreadInv, hpc] at h ⊢
    exact h.imp_right fun ⟨hsol, hor⟩ => ⟨hsol, hor.imp_right hle⟩

/-- A step of a thread keeps what the thread knows, and only sets `target_found` when it has a
nonce to report. -/
theorem threadInv_targetSearch {j : ℕ} {target : ℤ} {found : Bool} {th : Thread}
    {r : Thread × Bool} (hj : j < n) (h : ThreadInv n j target found th)
    (hr : targetSearch found th = some r) :
    ThreadInv n j target r.2 r.1 ∧ (found = true → r.2 = true) ∧ r.1.pc ≠ .absent ∧
      (r.2 = true → Reported r.1 ∨ (found = true ∧ ¬ Reported th)) := by
  match hpc : th.pc with
  | .absent | .exited => simp [targetSearch, hpc] at hr
  | .scan i =>
    simp only [ThreadInv, hpc] at h
    obtain ⟨⟨hmin, hmax, htarget⟩, hsol, hi, hnone⟩ := h
    have hnot : ¬ Reported th := by simp [Reported, hpc]
    simp only [targetSearch, hpc] at hr
    split at hr <;> cases hr
    · rename_i hcond
      refine ⟨?_, id, by simp, fun hf => Or.inr ⟨hf, hnot⟩⟩
      exact ⟨⟨hmin, hmax, htarget⟩, hsol, hi, by have := hcond.1; omega, hnone⟩
    · rename_i hcond
      refine ⟨?_, id, by simp, fun hf => Or.inr ⟨hf, hnot⟩⟩
      -- it stops at the flag, or at the end of its range
      refine Or.inr ⟨hsol, ?_⟩
      cases hf : found with
      | true => exact Or.inr rfl
      | false =>
        refine Or.inl fun x hx hx' => hnone x hx ?_
        have hgt : ¬ i ≤ th.objective.max := fun hle => hcond ⟨hle, hf⟩
        omega
  | .hash i =>
    simp only [ThreadInv, hpc] at h
    obtain ⟨⟨hmin, hmax, htarget⟩, hsol, hi, hi', hnone⟩ := h
    have hnot : ¬ Reported th := by simp [Reported, hpc]
    simp only [targetSearch, hpc, toInt_powHash, htarget] at hr
    split at hr <;> cases hr
    · rename_i heq
      refine ⟨?_, id, by simp, fun hf => Or.inr ⟨hf, hnot⟩⟩
      exact ⟨⟨hmin, hmax, htarget⟩, hsol, hi, hi', heq⟩
    · rename_i hne
      refine ⟨?_, id, by simp, fun hf => Or.inr ⟨hf, hnot⟩⟩
      exact ⟨⟨hmin, hmax, htarget⟩, hsol, by omega, hnone.snoc hne⟩
  | .mark i =>
    simp only [ThreadInv, hpc] at h
    simp only [targetSearch, hpc] at hr
    cases hr
    exact ⟨h, fun _ => rfl, by simp, fun _ => Or.inl (Or.inl ⟨i, rfl⟩)⟩
  | .store i =>
    simp only [ThreadInv, hpc] at h
    obtain ⟨-, -, hhit⟩ := h
    -- a stored nonce is not negative, so the thread counts as having reported
    have hne : i ≠ -1 := by have := hhit.bounds hj; omega
    simp only [targetSearch, hpc] at hr
    cases hr
    exact ⟨Or.inl hhit, id, by simp, fun _ => Or.inl (Or.inr ⟨rfl, hne⟩)⟩

/-! ### The invariant of the search -/

/-- What holds between any two steps of the search. -/
structure Inv (target : ℤ) (s : Search n) : Prop where
  threads : ∀ j : Fin n, ThreadInv n j target s.targetFound (s.thread j)
  reported : s.pc ≠ .reset → s.targetFound = true → ∃ j, Reported (s.thread j)
  created : ∀ j : Fin n, (s.thread j).pc ≠ .absent ↔ (j : ℕ) < s.pc.createdCount n
  joined : ∀ j : Fin n, (j : ℕ) < s.pc.joinedCount n →
    (s.thread j).pc = .exited ∧ (s.solution = -1 → (s.thread j).objective.solution = -1)
  counted : s.pc.createdCount n ≤ n ∧ s.pc.joinedCount n ≤ n
  solution : s.solution = -1 ∨
    (0 ≤ s.solution ∧ s.solution < reach n ∧ powHash s.solution = target)

variable {target : ℤ} {s t : Search n}

theorem inv_enter (garbage : Fin n → Objective) (found : Bool) :
    Inv target (enter garbage found) where
  threads _ := trivial
  reported h := absurd rfl h
  created j := by simp [enter, SearchPc.createdCount]
  joined _ h := absurd h (Nat.not_lt_zero _)
  counted := ⟨Nat.zero_le _, Nat.zero_le _⟩
  solution := Or.inl rfl

/-- Before the first loop there is no thread. -/
theorem Inv.absent_of_reset (h : Inv target s) (hpc : s.pc = .reset) (j : Fin n) :
    (s.thread j).pc = .absent := by
  by_contra hne
  have := (h.created j).mp hne
  simp [hpc, SearchPc.createdCount] at this

/-- The `i`-th thread is joined: a report other than `-1` is taken. -/
def collect (s : Search n) (i : Fin n) : Search n :=
  { s with
    solution := if (s.thread i).objective.solution ≠ -1 then (s.thread i).objective.solution
      else s.solution
    pc := .join (i + 1) }

theorem solution_collect (s : Search n) (i : Fin n) :
    ((s.collect i).solution = (s.thread i).objective.solution ∧
        (s.thread i).objective.solution ≠ -1) ∨
      ((s.collect i).solution = s.solution ∧ (s.thread i).objective.solution = -1) := by
  by_cases hsol : (s.thread i).objective.solution = -1
  · exact Or.inr ⟨if_neg (not_not.mpr hsol), hsol⟩
  · exact Or.inl ⟨if_pos hsol, hsol⟩

/-- What a step of `manage_threads` can do, at each of its program points. -/
theorem stepManage_cases (hn : s.stepManage target = some t) :
    (s.pc = .reset ∧ t = { s with targetFound := false, pc := .create 0 }) ∨
      (∃ i : Fin n, s.pc = .create i ∧ t = { s with
        thread := Function.update s.thread i (created n i target), pc := .create (i + 1) }) ∨
      (∃ i, n ≤ i ∧ s.pc = .create i ∧ t = { s with pc := .join 0 }) ∨
      (∃ i : Fin n, s.pc = .join i ∧ (s.thread i).pc = .exited ∧ t = s.collect i) ∨
      (∃ i, n ≤ i ∧ s.pc = .join i ∧ t = { s with pc := .done }) := by
  match hpc : s.pc with
  | .done => simp [stepManage, hpc] at hn
  | .reset =>
    simp only [stepManage, hpc] at hn
    cases hn
    exact Or.inl ⟨rfl, rfl⟩
  | .create i =>
    simp only [stepManage, hpc] at hn
    split at hn <;> cases hn
    · rename_i hi
      exact Or.inr (Or.inl ⟨⟨i, hi⟩, rfl, rfl⟩)
    · rename_i hi
      exact Or.inr (Or.inr (Or.inl ⟨i, not_lt.mp hi, rfl, rfl⟩))
  | .join i =>
    simp only [stepManage, hpc] at hn
    split at hn
    · rename_i hi
      split at hn <;> cases hn
      rename_i hexit
      exact Or.inr (Or.inr (Or.inr (Or.inl ⟨⟨i, hi⟩, rfl, hexit, rfl⟩)))
    · rename_i hi
      cases hn
      exact Or.inr (Or.inr (Or.inr (Or.inr ⟨i, not_lt.mp hi, rfl, rfl⟩)))

/-- Before its creation there is no `i`-th thread. -/
theorem Inv.absent_of_create (h : Inv target s) {i : Fin n} (hpc : s.pc = .create i) :
    (s.thread i).pc = .absent := by
  by_contra hne
  have hlt := (h.created i).mp hne
  rw [hpc] at hlt
  exact absurd hlt (lt_irrefl _)

/-- A thread is created with the whole of its range before it. -/
theorem inv_create (h : Inv target s) {i : Fin n} (hpc : s.pc = .create i) :
    Inv target { s with
      thread := Function.update s.thread i (created n i target), pc := .create (i + 1) } := by
  have hfresh := h.absent_of_create hpc
  have hcre := h.created
  simp only [hpc, SearchPc.createdCount] at hcre
  refine ⟨?_, fun _ hf => ?_, ?_, fun j hj => absurd hj (Nat.not_lt_zero _),
    ⟨i.isLt, Nat.zero_le _⟩, h.solution⟩
  · refine (Function.forall_update_iff s.thread fun j : Fin n =>
      ThreadInv n j target s.targetFound).mpr ⟨?_, fun j _ => h.threads j⟩
    exact ⟨⟨rfl, rfl, rfl⟩, rfl, le_rfl, fun x hx hx' => absurd hx' (not_lt.mpr hx)⟩
  · -- the thread that has reported is another one
    obtain ⟨j, hj⟩ := h.reported (by rw [hpc]; simp) hf
    have hne : j ≠ i := by
      rintro rfl
      simp [Reported, hfresh] at hj
    exact ⟨j, by simpa only [Function.update_of_ne hne] using hj⟩
  · exact Family.created_update_succ (fun th : Thread => th.pc ≠ .absent) hcre (by simp [created])

/-- Joining a thread that has ended takes its report into account. -/
theorem inv_collect (h : Inv target s) {i : Fin n} (hpc : s.pc = .join i)
    (hexit : (s.thread i).pc = .exited) : Inv target (s.collect i) := by
  have hjoin := h.joined
  simp only [hpc, SearchPc.joinedCount] at hjoin
  have hcre := h.created
  simp only [hpc, SearchPc.createdCount] at hcre
  have hthread := h.threads i
  simp only [ThreadInv, hexit] at hthread
  -- the solution is `-1` only if the one before was, and the report is
  have hnone : (s.collect i).solution = -1 →
      s.solution = -1 ∧ (s.thread i).objective.solution = -1 := by
    intro hsol
    rcases solution_collect s i with ⟨heq, hne⟩ | ⟨heq, hrep⟩
    · exact absurd (heq.symm.trans hsol) hne
    · exact ⟨heq.symm.trans hsol, hrep⟩
  refine ⟨h.threads, fun _ => h.reported (by rw [hpc]; simp), hcre, fun j hj => ?_,
    ⟨le_rfl, i.isLt⟩, ?_⟩
  · rcases Nat.lt_succ_iff_lt_or_eq.mp hj with hlt | heq
    · exact ⟨(hjoin j hlt).1, fun hsol => (hjoin j hlt).2 (hnone hsol).1⟩
    · obtain rfl : j = i := Fin.ext heq
      exact ⟨hexit, fun hsol => (hnone hsol).2⟩
  · rcases solution_collect s i with ⟨heq, hne⟩ | ⟨heq, -⟩
    · rw [heq]
      exact Or.inr ((hthread.resolve_right fun hmiss => hne hmiss.1).bounds i.isLt)
    · rw [heq]
      exact h.solution

/-- The steps of `manage_threads` keep the invariant. -/
theorem inv_stepManage (h : Inv target s) (hn : s.stepManage target = some t) :
    Inv target t := by
  rcases stepManage_cases hn with ⟨hpc, rfl⟩ | ⟨i, hpc, rfl⟩ | ⟨i, hi, hpc, rfl⟩ |
    ⟨i, hpc, hexit, rfl⟩ | ⟨i, hi, hpc, rfl⟩
  · have habsent := h.absent_of_reset hpc
    exact {
      threads := fun j => by simp only [ThreadInv, habsent j]
      reported := fun _ hf => nomatch hf
      created := fun j => by simp [habsent j, SearchPc.createdCount]
      joined := fun j hj => absurd hj (Nat.not_lt_zero _)
      counted := ⟨Nat.zero_le _, Nat.zero_le _⟩
      solution := h.solution }
  · exact inv_create h hpc
  · have hle := h.counted.1
    simp only [hpc, SearchPc.createdCount] at hle
    refine ⟨h.threads, fun _ => h.reported (by rw [hpc]; simp), fun j => ?_,
      fun j hj => absurd hj (Nat.not_lt_zero _), ⟨le_rfl, Nat.zero_le _⟩, h.solution⟩
    have hj := j.isLt
    simp only [h.created j, hpc, SearchPc.createdCount]
    omega
  · exact inv_collect h hpc hexit
  · have hle := h.counted.2
    simp only [hpc, SearchPc.joinedCount] at hle
    obtain rfl : i = n := le_antisymm hle hi
    have hjoin := h.joined
    have hcre := h.created
    simp only [hpc, SearchPc.joinedCount] at hjoin
    simp only [hpc, SearchPc.createdCount] at hcre
    exact ⟨h.threads, fun _ => h.reported (by rw [hpc]; simp), hcre, hjoin, ⟨le_rfl, le_rfl⟩,
      h.solution⟩

/-- The steps of the threads keep the invariant. -/
theorem inv_stepThread {j : Fin n} (h : Inv target s)
    (hn : next target s (.thread j) = some t) : Inv target t := by
  simp only [next, Option.map_eq_some_iff] at hn
  obtain ⟨r, hr, rfl⟩ := hn
  obtain ⟨hinv, hmono, hpresent, hrep⟩ := threadInv_targetSearch j.isLt (h.threads j) hr
  have hold : (s.thread j).pc ≠ .absent := by
    intro habs
    simp [targetSearch, habs] at hr
  have hrun : (s.thread j).pc ≠ .exited := by
    intro hexit
    simp [targetSearch, hexit] at hr
  refine ⟨?_, fun hpc hf => ?_, ?_, fun k hk => ?_, h.counted, h.solution⟩
  -- the flag may be set now, which the other threads do not mind
  · exact (Function.forall_update_iff s.thread fun k : Fin n => ThreadInv n k target r.2).mpr
      ⟨hinv, fun k _ => (h.threads k).mono hmono⟩
  · rcases hrep hf with hnow | ⟨hbefore, hnot⟩
    · exact ⟨j, by simpa only [Function.update_self] using hnow⟩
    · obtain ⟨k, hk⟩ := h.reported hpc hbefore
      have hne : k ≠ j := by
        rintro rfl
        exact hnot hk
      exact ⟨k, by simpa only [Function.update_of_ne hne] using hk⟩
  · exact Family.created_update (fun th : Thread => th.pc ≠ .absent) h.created hold hpresent
  -- a joined thread has ended and moves no more
  · have hne : k ≠ j := by
      rintro rfl
      exact hrun (h.joined k hk).1
    simp only [Function.update_of_ne hne]
    exact h.joined k hk

/-- **Step lemma.** Every step of the search keeps its invariant. -/
theorem inv_next {a : SearchMove n} (h : Inv target s) (hn : next target s a = some t) :
    Inv target t := by
  cases a with
  | manage => exact inv_stepManage h hn
  | thread j => exact inv_stepThread h hn

/-- **Exactness.** What `manage_threads` returns is a nonce below `reach n` with the right
hash, or `-1` where there is none. -/
theorem Inv.result (h : Inv target s) (hpc : s.pc = .done) :
    (0 ≤ s.solution ∧ s.solution < reach n ∧ powHash s.solution = target) ∨
      (s.solution = -1 ∧ NoHit target 0 (reach n)) := by
  rcases h.solution with hsol | hhit
  · refine Or.inr ⟨hsol, ?_⟩
    have hjoin : ∀ j : Fin n, (s.thread j).pc = .exited ∧ (s.thread j).objective.solution = -1 := by
      intro j
      have hj := h.joined j (by rw [hpc]; exact j.isLt)
      exact ⟨hj.1, hj.2 hsol⟩
    -- nobody has reported, so the flag cannot be set
    have hfound : s.targetFound = false := by
      by_contra hne
      obtain ⟨j, ⟨i, hi⟩ | ⟨-, hj⟩⟩ := h.reported (by rw [hpc]; simp) (by simpa using hne)
      · rw [(hjoin j).1] at hi
        cases hi
      · exact hj (hjoin j).2
    intro x hx hx'
    obtain ⟨j, hjn, hlow, hhigh⟩ := exists_range hx hx'
    have hthread := h.threads ⟨j, hjn⟩
    simp only [ThreadInv, (hjoin _).1, (hjoin _).2, hfound] at hthread
    rcases hthread with hhit | ⟨-, hnone | hf⟩
    · exact absurd (hhit.bounds hjn).1 (by decide)
    · exact hnone x hlow hhigh
    · cases hf
  · exact Or.inl hhit

/-! ### Progress and termination -/

/-- **Progress.** Until `manage_threads` returns, it or one of its threads can move. -/
theorem exists_step (h : Inv target s) (hpc : s.pc ≠ .done) :
    ∃ a, next target s a ≠ none := by
  match hs : s.pc with
  | .done => exact absurd hs hpc
  | .reset => exact ⟨.manage, by simp [next, stepManage, hs]⟩
  | .create i =>
    by_cases hi : i < n
    · exact ⟨.manage, by simp [next, stepManage, hs, hi]⟩
    · exact ⟨.manage, by simp [next, stepManage, hs, hi]⟩
  | .join i =>
    by_cases hi : i < n
    · by_cases hexit : (s.thread ⟨i, hi⟩).pc = .exited
      · exact ⟨.manage, by simp [next, stepManage, hs, hi, hexit]⟩
      -- the thread to be joined still runs
      · have hpresent : (s.thread ⟨i, hi⟩).pc ≠ .absent :=
          (h.created _).mpr (by rw [hs]; exact hi)
        obtain ⟨r, hr⟩ : ∃ r, targetSearch s.targetFound (s.thread ⟨i, hi⟩) = some r := by
          unfold targetSearch
          split
          · contradiction
          · split <;> exact ⟨_, rfl⟩
          · split <;> exact ⟨_, rfl⟩
          · exact ⟨_, rfl⟩
          · exact ⟨_, rfl⟩
          · contradiction
        exact ⟨.thread ⟨i, hi⟩, by simp [next, hr]⟩
    · exact ⟨.manage, by simp [next, stepManage, hs, hi]⟩

/-- Steps a thread still has to take, at most. -/
def threadRank (n : ℕ) (th : Thread) : ℕ :=
  match th.pc with
  | .absent => 2 * (share n).toNat + 4
  | .scan i => 2 * (th.objective.max + 1 - i).toNat + 4
  | .hash i => 2 * (th.objective.max + 1 - i).toNat + 3
  | .mark _ => 2
  | .store _ => 1
  | .exited => 0

/-- Steps `manage_threads` still has to take, at most. -/
def manageRank (n : ℕ) : SearchPc → ℕ
  | .reset => 2 * n + 4
  | .create i => 2 * n + 3 - i
  | .join i => n + 1 - i
  | .done => 0

/-- Steps of the whole search that are left, at most. -/
def measure (s : Search n) : ℕ := Family.total (threadRank n) s.thread + manageRank n s.pc

/-- The measure of a search that begins. -/
def cost (n : ℕ) : ℕ := n * (2 * (share n).toNat + 4) + (2 * n + 4)

theorem measure_enter (garbage : Fin n → Objective) (found : Bool) :
    (enter garbage found).measure = cost n := by
  simp [measure, enter, Family.total, threadRank, manageRank, cost]

/-- A thread's step uses up one of its steps. -/
theorem threadRank_targetSearch {j : ℕ} {found : Bool} {th : Thread} {r : Thread × Bool}
    (h : ThreadInv n j target found th) (hr : targetSearch found th = some r) :
    threadRank n r.1 < threadRank n th := by
  match hpc : th.pc with
  | .absent | .exited => simp [targetSearch, hpc] at hr
  | .scan i =>
    simp only [targetSearch, hpc] at hr
    split at hr <;> cases hr <;> simp only [threadRank, hpc] <;> omega
  | .hash i =>
    simp only [ThreadInv, hpc] at h
    obtain ⟨⟨-, hmax, -⟩, -, -, hi', -⟩ := h
    have hle : i ≤ th.objective.max := by omega
    simp only [targetSearch, hpc] at hr
    split at hr <;> cases hr <;> simp only [threadRank, hpc] <;> omega
  | .mark i | .store i =>
    simp only [targetSearch, hpc] at hr
    cases hr
    simp only [threadRank, hpc]
    omega

/-- **Termination.** Every step of the search makes its measure smaller. -/
theorem measure_next {a : SearchMove n} (h : Inv target s) (hn : next target s a = some t) :
    t.measure < s.measure := by
  cases a with
  | thread j =>
    simp only [next, Option.map_eq_some_iff] at hn
    obtain ⟨r, hr, rfl⟩ := hn
    have hlt := Family.total_update_lt (threadRank_targetSearch (h.threads j) hr)
    simp only [measure]
    omega
  | manage =>
    rcases stepManage_cases hn with ⟨hpc, rfl⟩ | ⟨i, hpc, rfl⟩ | ⟨i, hi, hpc, rfl⟩ |
      ⟨i, hpc, -, rfl⟩ | ⟨i, hi, hpc, rfl⟩
    · simp only [measure, hpc, manageRank]
      omega
    · -- what the new thread has to do was counted for the absent one
      have hsame : threadRank n (created n i target) = threadRank n (s.thread i) := by
        simp only [threadRank, h.absent_of_create hpc, created]
        congr 3
        rw [mul_add, mul_one]
        omega
      have hlt := i.isLt
      simp only [measure, Family.total_update_eq hsame, hpc, manageRank]
      omega
    · have hle := h.counted.1
      simp only [hpc, SearchPc.createdCount] at hle
      simp only [measure, hpc, manageRank]
      omega
    · have hlt := i.isLt
      simp only [measure, collect, hpc, manageRank]
      omega
    · have hle := h.counted.2
      simp only [hpc, SearchPc.joinedCount] at hle
      simp only [measure, hpc, manageRank]
      omega

end Search

end Soper.MRush
