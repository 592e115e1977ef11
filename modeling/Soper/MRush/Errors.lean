import Soper.Library.Scan
import Soper.MRush.Complete

/-!
# The search when its calls fail

`manage_threads` of the first pipe program with the calls of `Search` that may fail: `calloc`,
and `pthread_create` and `pthread_join` of each thread. On a failure it returns `EXIT_FAILURE`
at once, through the same `int` that carries solutions; threads already created run on.

`EXIT_FAILURE` is `1`, which `miner` takes for a solution. The returned value can be trusted
exactly if no call fails, or the target happens to be the hash of `1` (`sound_iff`).
-/

namespace Soper.MRush

open Scan (Outcomes)

/-- One call of `manage_threads`, and the value it has returned. -/
structure ManageThreads (n : ℕ) where
  search : Search n
  returned : Option ℤ

namespace ManageThreads

variable {n : ℕ}

/-- One step of `manage_threads`. The elements of `objective` set before a failed creation are
read by nobody afterwards. -/
def stepManage (o : Outcomes) (target : ℤ) (s : ManageThreads n) : Option (ManageThreads n) :=
  match s.returned with
  | some _ => none
  | none =>
    match s.search.pc with
    | .reset =>
      if o.alloc = true then (s.search.stepManage target).map fun q => { s with search := q }
      else some
        { search := { s.search with targetFound := false }, returned := some EXIT_FAILURE }
    | .create i =>
      if i < n ∧ o.create i = false then some { s with returned := some EXIT_FAILURE }
      else (s.search.stepManage target).map fun q => { s with search := q }
    | .join i =>
      if i < n ∧ o.join i = false then some { s with returned := some EXIT_FAILURE }
      else (s.search.stepManage target).map fun q => { s with search := q }
    | .done => some { s with returned := some s.search.solution }

/-- One step of the call or of one of its threads. -/
def next (o : Outcomes) (target : ℤ) (s : ManageThreads n) :
    SearchMove n → Option (ManageThreads n)
  | .manage => s.stepManage o target
  | .thread j => (s.search.next target (.thread j)).map fun q => { s with search := q }

/-- A call of `manage_threads` with `n` threads, where the calls it makes succeed as `o` says. -/
def system (n : ℕ) (o : Outcomes) (target : ℤ) : System (ManageThreads n) (SearchMove n) where
  Init s := (∃ garbage found, s.search = Search.enter garbage found) ∧ s.returned = none
  next := next o target

/-- The calls made before this point have succeeded. -/
def Passed (n : ℕ) (o : Outcomes) : SearchPc → Prop
  | .reset => True
  | .create i => o.alloc = true ∧ ∀ j < i, o.create j = true
  | .join i => o.alloc = true ∧ (∀ j < n, o.create j = true) ∧ ∀ j < i, o.join j = true
  | .done => o.AllSucceed n

/-- What holds between any two steps: the search keeps its invariant, no call has failed as long
as nothing is returned, and the returned value is the error value or the result of the search. -/
structure Inv (o : Outcomes) (target : ℤ) (s : ManageThreads n) : Prop where
  search : Search.Inv target s.search
  passed : s.returned = none → Passed n o s.search.pc
  value : ∀ v, s.returned = some v → (¬ o.AllSucceed n ∧ v = EXIT_FAILURE) ∨
    (o.AllSucceed n ∧ (powHash v = target ∨ v = -1))

variable {o : Outcomes} {target : ℤ} {s t : ManageThreads n}

/-- The result of a finished search has the right hash, or is `-1`. -/
theorem powHash_or_missed {q : Search n} (h : Search.Inv target q) (hpc : q.pc = .done) :
    powHash q.solution = target ∨ q.solution = -1 := by
  rcases h.result hpc with ⟨-, -, hhash⟩ | ⟨hsol, -⟩
  · exact Or.inl hhash
  · exact Or.inr hsol

/-- The search goes on after the call at this point, if there is one, has succeeded. -/
theorem passed_stepManage {q r : Search n} (hr : q.stepManage target = some r)
    (halloc : q.pc = .reset → o.alloc = true)
    (hcreate : ∀ i < n, q.pc = .create i → o.create i = true)
    (hjoin : ∀ i < n, q.pc = .join i → o.join i = true) (h : Passed n o q.pc) :
    Passed n o r.pc := by
  rcases Search.stepManage_cases hr with ⟨hpc, rfl⟩ | ⟨i, hpc, rfl⟩ | ⟨i, hi, hpc, rfl⟩ |
    ⟨i, hpc, -, rfl⟩ | ⟨i, hi, hpc, rfl⟩
  · exact ⟨halloc hpc, fun j hj => absurd hj (Nat.not_lt_zero j)⟩
  · rw [hpc] at h
    obtain ⟨halloc', hcreated⟩ := h
    exact ⟨halloc', Nat.forall_lt_succ_right.mpr ⟨hcreated, hcreate i i.isLt hpc⟩⟩
  · rw [hpc] at h
    obtain ⟨halloc', hcreated⟩ := h
    exact ⟨halloc', fun j hj => hcreated j (hj.trans_le hi),
      fun j hj => absurd hj (Nat.not_lt_zero j)⟩
  · rw [hpc] at h
    obtain ⟨halloc', hcreated, hjoined⟩ := h
    exact ⟨halloc', hcreated, Nat.forall_lt_succ_right.mpr ⟨hjoined, hjoin i i.isLt hpc⟩⟩
  · rw [hpc] at h
    obtain ⟨halloc', hcreated, hjoined⟩ := h
    exact ⟨halloc', hcreated, fun j hj => hjoined j (hj.trans_le hi)⟩

/-- What a step of `manage_threads` can do: a call fails and the error value is returned, the
search goes on, or its result is returned. -/
theorem stepManage_cases (hn : s.stepManage o target = some t) :
    s.returned = none ∧
      ((s.search.pc = .reset ∧ o.alloc = false ∧
          t = ⟨{ s.search with targetFound := false }, some EXIT_FAILURE⟩) ∨
        (∃ i < n, ((s.search.pc = .create i ∧ o.create i = false) ∨
            (s.search.pc = .join i ∧ o.join i = false)) ∧
          t = { s with returned := some EXIT_FAILURE }) ∨
        (∃ q, s.search.stepManage target = some q ∧ (Passed n o s.search.pc → Passed n o q.pc) ∧
          t = { s with search := q }) ∨
        (s.search.pc = .done ∧ t = { s with returned := some s.search.solution })) := by
  match hret : s.returned with
  | some _ => simp [stepManage, hret] at hn
  | none =>
    refine ⟨rfl, ?_⟩
    match hpc : s.search.pc with
    | .reset =>
      simp only [stepManage, hret, hpc] at hn
      split at hn
      · rename_i halloc
        obtain ⟨q, hq, rfl⟩ := Option.map_eq_some_iff.mp hn
        refine Or.inr (Or.inr (Or.inl ⟨q, hq, fun hpassed => ?_, rfl⟩))
        exact passed_stepManage hq (fun _ => halloc) (by simp [hpc]) (by simp [hpc])
          (by rwa [hpc])
      · rename_i halloc
        cases hn
        exact Or.inl ⟨rfl, by simpa using halloc, by simp [hpc]⟩
    | .create i =>
      simp only [stepManage, hret, hpc] at hn
      split at hn
      · rename_i hfail
        cases hn
        exact Or.inr (Or.inl ⟨i, hfail.1, Or.inl ⟨rfl, hfail.2⟩, rfl⟩)
      · rename_i hok
        obtain ⟨q, hq, rfl⟩ := Option.map_eq_some_iff.mp hn
        refine Or.inr (Or.inr (Or.inl ⟨q, hq, fun hpassed => ?_, rfl⟩))
        refine passed_stepManage hq (by simp [hpc]) ?_ (by simp [hpc]) (by rwa [hpc])
        intro j hj heq
        cases hpc.symm.trans heq
        simpa using fun hf => hok ⟨hj, hf⟩
    | .join i =>
      simp only [stepManage, hret, hpc] at hn
      split at hn
      · rename_i hfail
        cases hn
        exact Or.inr (Or.inl ⟨i, hfail.1, Or.inr ⟨rfl, hfail.2⟩, rfl⟩)
      · rename_i hok
        obtain ⟨q, hq, rfl⟩ := Option.map_eq_some_iff.mp hn
        refine Or.inr (Or.inr (Or.inl ⟨q, hq, fun hpassed => ?_, rfl⟩))
        refine passed_stepManage hq (by simp [hpc]) (by simp [hpc]) ?_ (by rwa [hpc])
        intro j hj heq
        cases hpc.symm.trans heq
        simpa using fun hf => hok ⟨hj, hf⟩
    | .done =>
      simp only [stepManage, hret, hpc] at hn
      cases hn
      exact Or.inr (Or.inr (Or.inr ⟨rfl, rfl⟩))

/-- **Step lemma.** -/
theorem inv_next {a : SearchMove n} (h : Inv o target s) (hn : next o target s a = some t) :
    Inv o target t := by
  cases a with
  | thread j =>
    obtain ⟨q, hq, rfl⟩ := Option.map_eq_some_iff.mp hn
    -- a thread does not move `manage_threads`
    have hpc : q.pc = s.search.pc := by
      simp only [Search.next, Option.map_eq_some_iff] at hq
      obtain ⟨r, -, rfl⟩ := hq
      rfl
    exact ⟨Search.inv_next h.search hq, fun hret => hpc ▸ h.passed hret, h.value⟩
  | manage =>
    obtain ⟨hret, hcases⟩ := stepManage_cases hn
    have hpassed := h.passed hret
    rcases hcases with ⟨hpc, halloc, rfl⟩ | ⟨i, hi, hfail, rfl⟩ | ⟨q, hq, hkeep, rfl⟩ |
      ⟨hpc, rfl⟩
    · have habsent := h.search.absent_of_reset hpc
      refine ⟨{ h.search with
        threads := fun j => by simp only [Search.ThreadInv, habsent j]
        reported := fun hne => absurd hpc hne }, by rintro ⟨⟩, ?_⟩
      rintro _ ⟨⟩
      exact Or.inl ⟨fun hall => by simp [hall.alloc] at halloc, rfl⟩
    · refine ⟨h.search, by rintro ⟨⟩, ?_⟩
      rintro _ ⟨⟩
      refine Or.inl ⟨fun hall => ?_, rfl⟩
      rcases hfail with ⟨-, hf⟩ | ⟨-, hf⟩
      · simp [hall.create i hi] at hf
      · simp [hall.join i hi] at hf
    · refine ⟨Search.inv_next (a := .manage) h.search hq, fun _ => hkeep hpassed, fun v hv => ?_⟩
      rw [show s.returned = some v from hv] at hret
      cases hret
    · refine ⟨h.search, by rintro ⟨⟩, ?_⟩
      rintro _ ⟨⟩
      rw [hpc] at hpassed
      exact Or.inr ⟨hpassed, powHash_or_missed h.search hpc⟩

/-- **Run lemma.** -/
theorem inv_reachable (h : (system n o target).Reachable s) : Inv o target s := by
  refine h.induct ?_ fun _ _ _ hs hn => inv_next hs hn
  rintro s ⟨⟨garbage, found, hsearch⟩, hret⟩
  refine ⟨hsearch ▸ Search.inv_enter garbage found, fun _ => ?_, fun v hv => ?_⟩
  · rw [hsearch]
    trivial
  · rw [hret] at hv
    cases hv

/-! ### Every call returns -/

/-- Until it returns, the call or one of its threads can move. -/
theorem exists_step (h : Inv o target s) (hret : s.returned = none) :
    ∃ a, next o target s a ≠ none := by
  match hpc : s.search.pc with
  | .done => exact ⟨.manage, by simp [next, stepManage, hret, hpc]⟩
  -- a call that fails is a step, too
  | .reset | .create _ | .join _ =>
    obtain ⟨a, ha⟩ := Search.exists_step h.search (by rw [hpc]; simp)
    obtain ⟨q, hq⟩ := Option.ne_none_iff_exists'.mp ha
    cases a with
    | thread j => exact ⟨.thread j, by simp [next, hq]⟩
    | manage =>
      have hq' : s.search.stepManage target = some q := hq
      refine ⟨.manage, ?_⟩
      simp only [next, stepManage, hret, hpc]
      split <;> simp [hq']

/-- Steps that are left, at most. -/
def measure (s : ManageThreads n) : ℕ :=
  s.search.measure + if s.returned = none then 1 else 0

theorem measure_next {a : SearchMove n} (h : Inv o target s) (hn : next o target s a = some t) :
    t.measure < s.measure := by
  cases a with
  | thread j =>
    obtain ⟨q, hq, rfl⟩ := Option.map_eq_some_iff.mp hn
    have hlt := Search.measure_next h.search hq
    simp only [measure]
    omega
  | manage =>
    obtain ⟨hret, hcases⟩ := stepManage_cases hn
    rcases hcases with ⟨-, -, rfl⟩ | ⟨-, -, -, rfl⟩ | ⟨q, hq, -, rfl⟩ | ⟨-, rfl⟩
    · simp [measure, hret, Search.measure]
    · simp [measure, hret]
    · have hlt := Search.measure_next (a := .manage) h.search hq
      simp only [measure]
      omega
    · simp [measure, hret]

/-- **Every call ends and returns**, with the error value exactly if one of its calls failed. -/
theorem ensures_returned (n : ℕ) (o : Outcomes) (target : ℤ) :
    (system n o target).Ensures fun s => ∃ v, s.returned = some v ∧
      ((¬ o.AllSucceed n ∧ v = EXIT_FAILURE) ∨
        (o.AllSucceed n ∧ (powHash v = target ∨ v = -1))) := by
  refine System.ensures_of_measure measure (fun s a t hs hn => ?_) fun s hs hstuck => ?_
  · exact measure_next (inv_reachable hs) hn
  · have hinv := inv_reachable hs
    match hret : s.returned with
    | some v => exact ⟨v, rfl, hinv.value v hret⟩
    | none =>
      obtain ⟨a, ha⟩ := exists_step hinv hret
      exact absurd (hstuck a) ha

/-! ### Solutions and errors -/

/-- A value other than `-1` is a solution, also for the caller: what `miner` goes on to send has
the hash it was looking for. -/
structure IsSolution (target v : ℤ) : Prop where
  hash : v ≠ -1 → powHash v = target
  sent : ∀ core c : Lockstep, core.miner.target = target → core.searched v = some c →
    c.miner.pc = .write → powHash c.miner.solution = c.miner.target

/-- Every value returned, in any run, is a solution or `-1`. -/
def Sound (n : ℕ) (o : Outcomes) (target : ℤ) : Prop :=
  ∀ s, (system n o target).Reachable s → ∀ v, s.returned = some v → IsSolution target v

/-- The caller adds nothing: it sends the value it was given. -/
theorem isSolution_iff {v : ℤ} : IsSolution target v ↔ (v ≠ -1 → powHash v = target) := by
  refine ⟨IsSolution.hash, fun h => ⟨h, fun core c htarget hc hpc => ?_⟩⟩
  simp only [Lockstep.searched] at hc
  split at hc <;> cases hc
  by_cases hv : v = -1
  · simp [hv] at hpc
  · exact (h hv).trans htarget.symm

/-- **Errors pass for solutions exactly where calls fail**, unless the target is the hash of the
error value. -/
theorem sound_iff {n : ℕ} {o : Outcomes} {target : ℤ} :
    Sound n o target ↔ o.AllSucceed n ∨ powHash EXIT_FAILURE = target := by
  have herr : IsSolution target EXIT_FAILURE ↔ powHash EXIT_FAILURE = target := by
    rw [isSolution_iff, imp_iff_right (by decide)]
  rw [← herr]
  refine System.Ensures.returned_good_iff ?_
    ⟨⟨Search.enter (fun _ => ⟨0, 0, 0, 0⟩) false, none⟩, ⟨_, _, rfl⟩, rfl⟩ ?_
  · exact (ensures_returned n o target).mono fun s _ _ ⟨v, hv, _⟩ => ⟨v, hv⟩
  · intro s hs v hv
    refine ((inv_reachable hs).value v hv).imp_right fun ⟨hall, hor⟩ => ⟨hall, ?_⟩
    rw [isSolution_iff]
    intro hne
    exact hor.resolve_right hne

end ManageThreads

end Soper.MRush
