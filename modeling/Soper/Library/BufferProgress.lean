import Soper.Library.BoundedBuffer

/-!
# A bounded buffer makes progress

Two facts about the protocol of `BoundedBuffer`, for proving that programs built on it end.

* **No deadlock inside** (`Inv.quiet_of_blocked`): if neither process can move, the producer has
  nothing to insert and the consumer has taken everything.
* **A budget** (`budget_next`): where at most `K` items are ever inserted, the steps that are
  left are known exactly, and each step uses up one of them.
-/

universe u

namespace BoundedBuffer

variable {α : Type u} {N K : ℕ} {put get : CopyProgram α} {s t : Buffer α}

/-! ### Blocked processes -/

/-- A producer that cannot move has nothing to insert, or waits for a semaphore at zero. -/
theorem nextProduce_eq_none (h : nextProduce N put s = none) :
    s.prod = .idle ∨ (∃ b, s.prod = .waitEmpty b ∧ s.empty = 0) ∨
      ∃ b, s.prod = .waitMutex b ∧ s.mutex = 0 := by
  match hp : s.prod with
  | .idle => exact Or.inl rfl
  | .waitEmpty b =>
    simp only [nextProduce, hp] at h
    split at h
    · cases h
    · exact Or.inr (Or.inl ⟨b, rfl, by omega⟩)
  | .waitMutex b =>
    simp only [nextProduce, hp] at h
    split at h
    · cases h
    · exact Or.inr (Or.inr ⟨b, rfl, by omega⟩)
  | .write _ (_ :: _) | .write _ [] | .unlock | .signal => simp [nextProduce, hp] at h

/-- A consumer that cannot move waits for a semaphore at zero. -/
theorem nextConsume_eq_none {g : α} (h : nextConsume N get s g = none) :
    (s.cons = .waitFill ∧ s.fill = 0) ∨ (s.cons = .waitMutex ∧ s.mutex = 0) := by
  match hc : s.cons with
  | .waitFill =>
    simp only [nextConsume, hc] at h
    split at h
    · cases h
    · exact Or.inl ⟨rfl, by omega⟩
  | .waitMutex =>
    simp only [nextConsume, hc] at h
    split at h
    · cases h
    · exact Or.inr ⟨rfl, by omega⟩
  | .read _ (_ :: _) | .read _ [] | .unlock | .signal => simp [nextConsume, hc] at h

/-- **No deadlock inside.** If neither process can move, the producer has nothing to insert and
the consumer has taken everything. -/
theorem Inv.quiet_of_blocked (hN : 0 < N) (h : Inv N s) {g : α}
    (hp : nextProduce N put s = none) (hc : nextConsume N get s g = none) :
    s.prod = .idle ∧ s.cons = .waitFill ∧ s.taken = s.added := by
  have hm := h.mutex
  have he := h.empty
  have hf := h.fill
  rcases nextProduce_eq_none hp with hprod | ⟨b, hprod, hz⟩ | ⟨b, hprod, hz⟩ <;>
    rcases nextConsume_eq_none hc with ⟨hcons, hz'⟩ | ⟨hcons, hz'⟩ <;>
    simp only [hprod, hcons, Producer.locked, Producer.claimed, Producer.owed, Consumer.locked,
      Consumer.claimed, Consumer.owed] at hm he hf
  -- one wait on the mutex at least: somebody would hold it
  case inl.inl =>
    exact ⟨hprod, hcons, h.order.eq_of_length (by omega)⟩
  all_goals omega

/-! ### The budget -/

/-- Items the producer has picked and not added yet. -/
def Producer.picked : Producer α → ℕ
  | .waitEmpty _ | .waitMutex _ | .write _ _ => 1
  | _ => 0

/-- Steps until the producer is idle, where a copy takes `n` assignments. -/
def Producer.left (n : ℕ) : Producer α → ℕ
  | .idle => 0
  | .waitEmpty _ => n + 5
  | .waitMutex _ => n + 4
  | .write _ fs => fs.length + 3
  | .unlock => 2
  | .signal => 1

/-- Steps until the consumer waits for an item, where a copy takes `n` assignments. -/
def Consumer.left (n : ℕ) : Consumer α → ℕ
  | .waitFill => 0
  | .waitMutex => n + 4
  | .read _ fs => fs.length + 3
  | .unlock => 2
  | .signal => 1

/-- Items the producer has ever picked. -/
def Buffer.started (s : Buffer α) : ℕ := s.added.length + s.prod.picked

/-- Items the consumer has ever taken a `fill` token for. -/
def Buffer.received (s : Buffer α) : ℕ := s.taken.length + s.cons.claimed

/-- Steps left in a run that inserts `K` items. -/
def budget (put get : CopyProgram α) (K : ℕ) (s : Buffer α) : ℕ :=
  (put.steps.length + 6) * (K - s.started) + s.prod.left put.steps.length +
    ((get.steps.length + 5) * (K - s.received) + s.cons.left get.steps.length)

/-- More items are more steps. -/
theorem budget_mono {K' : ℕ} (h : K ≤ K') : budget put get K s ≤ budget put get K' s := by
  have hp := Nat.mul_le_mul_left (put.steps.length + 6) (Nat.sub_le_sub_right h s.started)
  have hg := Nat.mul_le_mul_left (get.steps.length + 5) (Nat.sub_le_sub_right h s.received)
  unfold budget
  omega

/-- A producer that goes on is one step nearer to its end, and picks nothing new. -/
theorem left_nextProduce (hn : nextProduce N put s = some t) :
    t.prod.left put.steps.length + 1 = s.prod.left put.steps.length ∧ t.started = s.started ∧
      t.cons = s.cons ∧ t.taken = s.taken := by
  match hp : s.prod with
  | .idle => simp [nextProduce, hp] at hn
  | .waitEmpty b | .waitMutex b =>
    simp only [nextProduce, hp] at hn
    split at hn <;> cases hn
    exact ⟨by simp only [Producer.left], by simp [Buffer.started, Producer.picked, hp], rfl, rfl⟩
  | .write _ (_ :: _) | .write _ [] | .unlock | .signal =>
    simp only [nextProduce, hp] at hn
    cases hn
    exact ⟨by simp [Producer.left], by simp [Buffer.started, Producer.picked, hp], rfl, rfl⟩

/-- A consumer that goes on takes a token for one more item, or is one step nearer to its end. -/
theorem left_nextConsume {g : α} (hn : nextConsume N get s g = some t) :
    (0 < s.fill ∧ t.received = s.received + 1 ∧
        t.cons.left get.steps.length = s.cons.left get.steps.length + (get.steps.length + 4) ∨
      t.received = s.received ∧
        t.cons.left get.steps.length + 1 = s.cons.left get.steps.length) ∧
      t.prod = s.prod ∧ t.added = s.added := by
  match hc : s.cons with
  | .waitFill =>
    simp only [nextConsume, hc] at hn
    split at hn <;> cases hn
    rename_i hpos
    refine ⟨Or.inl ⟨hpos, ?_, ?_⟩, rfl, rfl⟩
    · simp [Buffer.received, Consumer.claimed, hc]
    · simp [Consumer.left]
  | .waitMutex =>
    simp only [nextConsume, hc] at hn
    split at hn <;> cases hn
    exact ⟨Or.inr ⟨by simp [Buffer.received, Consumer.claimed, hc], by simp [Consumer.left]⟩,
      rfl, rfl⟩
  | .read _ (_ :: _) | .read _ [] | .unlock | .signal =>
    simp only [nextConsume, hc] at hn
    cases hn
    exact ⟨Or.inr ⟨by simp [Buffer.received, Consumer.claimed, hc], by simp [Consumer.left]⟩,
      rfl, rfl⟩

/-- One more unit of a product that is counted down. -/
private theorem mul_sub_succ {c n m : ℕ} (h : m < n) : c * (n - m) = c * (n - (m + 1)) + c := by
  obtain ⟨d, rfl⟩ := Nat.exists_eq_add_of_lt h
  rw [show m + d + 1 - m = d + 1 by omega, show m + d + 1 - (m + 1) = d by omega, Nat.mul_succ]

/-- **Every step uses up one step of the budget**, as long as at most `K` items are picked. -/
theorem budget_next {e : Event α} (h : Inv N s) (hn : next N put get s e = some t)
    (hK : t.started ≤ K) : budget put get K t + 1 = budget put get K s := by
  cases e with
  | start b =>
    simp only [next] at hn
    split at hn
    · rename_i hp
      cases hn
      simp only [Buffer.started, Producer.picked] at hK
      simp only [budget, Buffer.started, Buffer.received, Producer.picked, Producer.left, hp,
        Nat.add_zero]
      rw [mul_sub_succ (c := put.steps.length + 6) (m := s.added.length) (by omega)]
      omega
    · cases hn
  | produce =>
    obtain ⟨hleft, hstarted, hcons, htaken⟩ := left_nextProduce hn
    have hreceived : t.received = s.received := by rw [Buffer.received, hcons, htaken]; rfl
    simp only [budget, hstarted, hreceived, hcons]
    omega
  | consume g =>
    obtain ⟨hleft, hprod, hadded⟩ := left_nextConsume hn
    have hstarted : t.started = s.started := by rw [Buffer.started, hprod, hadded]; rfl
    simp only [budget, hstarted, hprod]
    rcases hleft with ⟨hpos, hreceived, hleft⟩ | ⟨hreceived, hleft⟩
    · have hlt : s.received < K := by
        have hf := h.fill
        have hs : s.added.length ≤ s.started := Nat.le_add_right _ _
        rw [hstarted] at hK
        unfold Buffer.received
        omega
      rw [hreceived, hleft, mul_sub_succ (c := get.steps.length + 5) hlt]
      omega
    · rw [hreceived]
      omega

end BoundedBuffer
