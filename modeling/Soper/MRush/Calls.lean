import Soper.Library.Scan
import Soper.MRush.Complete

/-!
# Early cancellation is transparent

The flag `target_found` is global: one thread sets it, all others stop at it, and it survives
from one call of `manage_threads` to the next. `withoutFlag` is the search without it: each
thread scans its whole range, and the same loop joins the results. Whatever calls a process
makes one after the other, and however their threads interleave, each call returns what
`withoutFlag` returns: the one nonce of its target in the ranges, or `-1` where they hold none
(`transparent_of_reachable`).

No result is lost because a thread that stops at the flag can only have missed a nonce that
another thread reports, and none is replaced because a target has one nonce.
-/

namespace Soper.MRush

/-- The search without the flag: every thread scans `objective[j].min` to `objective[j].max`. -/
def withoutFlag (n : ℕ) (target : ℤ) : ℤ :=
  Scan.join (fun j => Scan.scan (fun x => powHash x = target) (share n).toNat (share n * j)) n

/-- A nonce of the target in the range of one of the threads. -/
def IsNonceInRanges (n : ℕ) (target x : ℤ) : Prop := ∃ j < n, Search.IsHit n j target x

/-- A process that calls `manage_threads` again and again: the current call with its target,
and the targets and results of the calls that have returned. -/
structure Calls (n : ℕ) where
  search : Search n
  target : ℤ
  running : Bool
  returned : List (ℤ × ℤ)

/-- What happens next. -/
inductive CallMove (n : ℕ)
  /-- `manage_threads` is called; its array `objective` holds anything. -/
  | call (target : ℤ) (garbage : Fin n → Objective)
  | search (m : SearchMove n)
  /-- `return solution`. -/
  | ret

namespace Calls

variable {n : ℕ} {s t : Calls n}

/-- One step of the process. The flag is the only thing a call leaves to the next. -/
def next (s : Calls n) : CallMove n → Option (Calls n)
  | .call target garbage =>
    if s.running then none
    else some { s with
      search := Search.enter garbage s.search.targetFound, target := target, running := true }
  | .search m =>
    if s.running then (s.search.next s.target m).map fun q => { s with search := q } else none
  | .ret =>
    if s.running ∧ s.search.pc = .done then
      some { s with running := false, returned := s.returned ++ [(s.target, s.search.solution)] }
    else none

/-- The process before its first call: `int target_found = NOTFOUND`. -/
def system (n : ℕ) : System (Calls n) (CallMove n) where
  Init s := s.running = false ∧ s.search.targetFound = false ∧ s.returned = []
  next := next

/-- The result of a call on the target `r.1`, in terms of the ranges alone. -/
def Exact (n : ℕ) (r : ℤ × ℤ) : Prop :=
  (0 ≤ r.2 ∧ r.2 < reach n ∧ powHash r.2 = r.1) ∨ (r.2 = -1 ∧ Search.NoHit r.1 0 (reach n))

/-- What holds between any two steps. -/
structure Inv (s : Calls n) : Prop where
  running : s.running = true → Search.Inv s.target s.search
  returned : ∀ r ∈ s.returned, Exact n r

/-- **Step lemma.** -/
theorem inv_next {a : CallMove n} (h : Inv s) (hn : next s a = some t) : Inv t := by
  cases a with
  | call target garbage =>
    simp only [next] at hn
    split at hn <;> cases hn
    exact ⟨fun _ => Search.inv_enter garbage _, h.returned⟩
  | search m =>
    simp only [next] at hn
    split at hn
    · rename_i hrun
      obtain ⟨q, hq, rfl⟩ := Option.map_eq_some_iff.mp hn
      exact ⟨fun _ => Search.inv_next (h.running hrun) hq, h.returned⟩
    · cases hn
  | ret =>
    simp only [next] at hn
    split at hn <;> cases hn
    rename_i hdone
    have hresult := (h.running hdone.1).result hdone.2
    refine ⟨fun hrun => (Bool.false_ne_true hrun).elim, ?_⟩
    exact List.forall_mem_append.mpr ⟨h.returned, List.forall_mem_singleton.mpr hresult⟩

/-- **Run lemma.** -/
theorem inv_reachable (h : (system n).Reachable s) : Inv s := by
  refine h.induct ?_ fun _ _ _ hs hn => inv_next hs hn
  rintro s ⟨hrun, -, hret⟩
  exact ⟨fun h => absurd h (by simp [hrun]), fun r hr => by simp [hret] at hr⟩

/-! ### The search without the flag -/

/-- The nonces of the ranges are the nonces below `reach n`, and each target has at most one. -/
theorem isNonceInRanges_iff {target x : ℤ} :
    IsNonceInRanges n target x ↔ 0 ≤ x ∧ x < reach n ∧ powHash x = target := by
  constructor
  · rintro ⟨j, hj, hhit⟩
    exact hhit.bounds hj
  · rintro ⟨hx, hx', hhash⟩
    obtain ⟨j, hj, hlow, hhigh⟩ := Search.exists_range hx hx'
    exact ⟨j, hj, hlow, hhigh, hhash⟩

theorem IsNonceInRanges.unique {target x y : ℤ} (hx : IsNonceInRanges n target x)
    (hy : IsNonceInRanges n target y) : x = y := by
  have hlim := Search.reach_le n
  obtain ⟨hx₀, hx₁, hxh⟩ := isNonceInRanges_iff.mp hx
  obtain ⟨hy₀, hy₁, hyh⟩ := isNonceInRanges_iff.mp hy
  exact powHash_injOn hx₀ (by omega) hy₀ (by omega) (hxh.trans hyh.symm)

/-- Without the flag the result is a nonce of the ranges, or `-1` where they hold none. -/
theorem exact_withoutFlag (n : ℕ) (target : ℤ) : Exact n (target, withoutFlag n target) := by
  have hlen : ((share n).toNat : ℤ) = share n := Int.toNat_of_nonneg (Search.share_nonneg n)
  have hend : ∀ j : ℕ, share n * j + ((share n).toNat : ℤ) = share n * (j + 1) := by
    intro j
    rw [hlen, mul_add, mul_one]
  have hstart : ∀ j < n, (0 : ℤ) ≤ share n * (j : ℕ) := fun j _ =>
    mul_nonneg (Search.share_nonneg n) (Int.natCast_nonneg j)
  rcases Scan.join_scan_cases (p := fun x => powHash x = target) (fun _ => (share n).toNat) n
    hstart with ⟨j, hj, hlow, hhigh, hhash⟩ | ⟨hnone, hall⟩
  · rw [hend] at hhigh
    exact Or.inl (isNonceInRanges_iff.mp ⟨j, hj, hlow, hhigh, hhash⟩)
  · refine Or.inr ⟨hnone, fun x hx hx' => ?_⟩
    obtain ⟨j, hj, hlow, hhigh⟩ := Search.exists_range hx hx'
    exact hall j hj x hlow (by rwa [hend])

/-- Two exact results for one target are equal: there is only one nonce. -/
theorem Exact.unique {target v w : ℤ} (hv : Exact n (target, v)) (hw : Exact n (target, w)) :
    v = w := by
  rcases hv with hv | ⟨rfl, hnone⟩
  · rcases hw with hw | ⟨-, hnone⟩
    · exact IsNonceInRanges.unique (isNonceInRanges_iff.mpr hv) (isNonceInRanges_iff.mpr hw)
    · exact absurd hv.2.2 (hnone v hv.1 hv.2.1)
  · rcases hw with hw | ⟨rfl, -⟩
    · exact absurd hw.2.2 (hnone w hw.1 hw.2.1)
    · rfl

/-! ### Transparency -/

/-- The call on the target `r.1` has returned what the search without the flag returns: the only
nonce of the ranges, or `-1` where they hold none. -/
structure Transparent (n : ℕ) (r : ℤ × ℤ) : Prop where
  value : r.2 = withoutFlag n r.1
  unique : ∀ x, IsNonceInRanges n r.1 x ↔ x = r.2 ∧ r.2 ≠ -1

/-- **Early cancellation is transparent.** In every run, every call that has returned has
returned what the search without the flag returns. -/
theorem transparent_of_reachable (h : (system n).Reachable s) :
    ∀ r ∈ s.returned, Transparent n r := by
  rintro ⟨target, v⟩ hr
  have hexact := (inv_reachable h).returned _ hr
  refine ⟨hexact.unique (exact_withoutFlag n target), fun x => ⟨fun hx => ?_, ?_⟩⟩
  · have hxv : x = v := Exact.unique (Or.inl (isNonceInRanges_iff.mp hx)) hexact
    have hx₀ := (isNonceInRanges_iff.mp hx).1
    exact ⟨hxv, by change v ≠ -1; omega⟩
  · rintro ⟨rfl, hne⟩
    rcases hexact with hhit | ⟨hnone, -⟩
    · exact isNonceInRanges_iff.mpr hhit
    · exact absurd hnone hne

/-- An instance: two calls with two threads each. In both of them the second thread stops at the
flag of the first, and the second call begins with the flag set by the first call. -/
theorem transparent_two_calls :
    ∃ s : Calls 2, s.returned = [(4150, 0), (35693286, 1)] ∧
      ∀ r ∈ s.returned, Transparent 2 r := by
  let start : Calls 2 :=
    { search := Search.enter (fun _ => ⟨0, 0, 0, 0⟩) false, target := 0, running := false
      returned := [] }
  let manage (k : ℕ) : List (CallMove 2) := List.replicate k (.search .manage)
  let thread (j : Fin 2) (k : ℕ) : List (CallMove 2) := List.replicate k (.search (.thread j))
  let moves : List (CallMove 2) :=
    [.call 4150 fun _ => ⟨0, 0, 0, 0⟩] ++ manage 4 ++ thread 1 2 ++ thread 0 4 ++ thread 1 1 ++
      manage 3 ++ [.ret, .call 35693286 fun _ => ⟨0, 0, 0, 0⟩] ++ manage 4 ++ thread 1 4 ++
      thread 0 6 ++ thread 1 1 ++ manage 3 ++ [.ret]
  have hinit : (system 2).Reachable start := .init ⟨rfl, rfl, rfl⟩
  obtain ⟨s, hs, hret⟩ : ∃ s, (system 2).run start moves = some s ∧
      s.returned = [(4150, 0), (35693286, 1)] :=
    Option.map_eq_some_iff.mp (by decide +kernel)
  exact ⟨s, hret, transparent_of_reachable (hinit.run hs)⟩

end Calls

end Soper.MRush
