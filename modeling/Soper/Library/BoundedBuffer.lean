import Mathlib.Data.List.Infix
import Mathlib.Data.Nat.ModEq
import Mathlib.Logic.Function.Basic
import Soper.Library.Transition

/-!
# A bounded buffer guarded by three semaphores

One producer and one consumer share a ring of `N` slots, two indices and the counting
semaphores `empty` (initially `N`), `fill` (initially `0`) and `mutex` (initially `1`). The
producer takes an `empty` token and the mutex, copies its item into the slot at `rear`, moves
`rear`, and returns the mutex and a `fill` token; the consumer mirrors it at `front`.

Items are copied one assignment at a time, so that another process may see a slot half
written. A `CopyProgram` is a list of assignments together with the proof that running all of
them copies the item; the invariant of a copy in progress is that *finishing it* yields the
item (`Inv.writing`, `Inv.reading`).

`Inv` is kept by every step (`inv_next`). Its consequences are the ones a user of the buffer
needs: the two processes exclude each other (`Inv.exclusion`), at most `N` items are unread
(`Inv.length_le`), no slot with an unread item is written (`Inv.not_overwritten`), and items
come out in the order they went in (`Inv.order`).
-/

universe u

/-- Running the assignments `fs` in order, each from `src` into `dst`. -/
def finishCopy {α : Type u} (fs : List (α → α → α)) (dst src : α) : α :=
  fs.foldl (fun d f => f d src) dst

@[simp]
theorem finishCopy_nil {α : Type u} (dst src : α) : finishCopy [] dst src = dst := rfl

@[simp]
theorem finishCopy_cons {α : Type u} (f : α → α → α) (fs : List (α → α → α)) (dst src : α) :
    finishCopy (f :: fs) dst src = finishCopy fs (f dst src) src := rfl

/-- Assignments that together copy an item. -/
structure CopyProgram (α : Type u) where
  /-- The assignments, in program order; each takes the destination and the source. -/
  steps : List (α → α → α)
  complete : ∀ dst src, finishCopy steps dst src = src

namespace BoundedBuffer

/-- Where the producer stands, with the item it is about to insert. -/
inductive Producer (α : Type u)
  | idle
  | waitEmpty (b : α)
  | waitMutex (b : α)
  | write (b : α) (rest : List (α → α → α))
  | unlock
  | signal

/-- Where the consumer stands, with the part of the item it has read. -/
inductive Consumer (α : Type u)
  | waitFill
  | waitMutex
  | read (r : α) (rest : List (α → α → α))
  | unlock
  | signal

/-- The ring, its semaphores and the two processes, with the history of items added and taken. -/
structure Buffer (α : Type u) where
  slot : ℕ → α
  front : ℕ
  rear : ℕ
  empty : ℕ
  fill : ℕ
  mutex : ℕ
  prod : Producer α
  cons : Consumer α
  added : List α
  taken : List α

/-- The producer picks an item, or one of the processes goes on. The item given to `consume` is
what the consumer's variable holds before the copy. -/
inductive Event (α : Type u)
  | start (b : α)
  | produce
  | consume (g : α)

variable {α : Type u} (N : ℕ) (put get : CopyProgram α)

/-- One step of the producer. -/
def nextProduce (s : Buffer α) : Option (Buffer α) :=
  match s.prod with
  | .idle => none
  | .waitEmpty b =>
    if 0 < s.empty then some { s with empty := s.empty - 1, prod := .waitMutex b } else none
  | .waitMutex b =>
    if 0 < s.mutex then some { s with mutex := s.mutex - 1, prod := .write b put.steps }
    else none
  | .write b (f :: fs) =>
    some { s with
      slot := Function.update s.slot s.rear (f (s.slot s.rear) b), prod := .write b fs }
  | .write b [] =>
    some { s with rear := (s.rear + 1) % N, added := s.added ++ [b], prod := .unlock }
  | .unlock => some { s with mutex := s.mutex + 1, prod := .signal }
  | .signal => some { s with fill := s.fill + 1, prod := .idle }

/-- One step of the consumer. -/
def nextConsume (s : Buffer α) (g : α) : Option (Buffer α) :=
  match s.cons with
  | .waitFill => if 0 < s.fill then some { s with fill := s.fill - 1, cons := .waitMutex } else none
  | .waitMutex =>
    if 0 < s.mutex then some { s with mutex := s.mutex - 1, cons := .read g get.steps } else none
  | .read r (f :: fs) => some { s with cons := .read (f r (s.slot s.front)) fs }
  | .read r [] =>
    some { s with front := (s.front + 1) % N, taken := s.taken ++ [r], cons := .unlock }
  | .unlock => some { s with mutex := s.mutex + 1, cons := .signal }
  | .signal => some { s with empty := s.empty + 1, cons := .waitFill }

/-- The protocol. -/
def next (s : Buffer α) : Event α → Option (Buffer α)
  | .start b =>
    match s.prod with
    | .idle => some { s with prod := .waitEmpty b }
    | _ => none
  | .produce => nextProduce N put s
  | .consume g => nextConsume N get s g

/-- The empty ring, with arbitrary slot contents. -/
def initial (slot : ℕ → α) : Buffer α where
  slot := slot
  front := 0
  rear := 0
  empty := N
  fill := 0
  mutex := 1
  prod := .idle
  cons := .waitFill
  added := []
  taken := []

/-- The protocol as a transition system. -/
def system : System (Buffer α) (Event α) where
  Init s := ∃ slot, s = initial N slot
  next := next N put get

/-! ### Tokens -/

/-- Mutex tokens the producer holds. -/
def Producer.locked : Producer α → ℕ
  | .write _ _ | .unlock => 1
  | _ => 0

/-- `empty` tokens the producer has taken for an item it has not added yet. -/
def Producer.claimed : Producer α → ℕ
  | .waitMutex _ | .write _ _ => 1
  | _ => 0

/-- `fill` tokens the producer still has to return for an item it has added. -/
def Producer.owed : Producer α → ℕ
  | .unlock | .signal => 1
  | _ => 0

/-- Mutex tokens the consumer holds. -/
def Consumer.locked : Consumer α → ℕ
  | .read _ _ | .unlock => 1
  | _ => 0

/-- `fill` tokens the consumer has taken for an item it has not taken yet. -/
def Consumer.claimed : Consumer α → ℕ
  | .waitMutex | .read _ _ => 1
  | _ => 0

/-- `empty` tokens the consumer still has to return for an item it has taken. -/
def Consumer.owed : Consumer α → ℕ
  | .unlock | .signal => 1
  | _ => 0

/-! ### The invariant -/

/-- What holds between any two steps: every token is accounted for, the indices follow the
history, and a copy in progress yields the item once it is finished. -/
structure Inv (s : Buffer α) : Prop where
  mutex : s.mutex + s.prod.locked + s.cons.locked = 1
  empty : s.empty + s.prod.claimed + s.added.length + s.cons.owed = N + s.taken.length
  fill : s.fill + s.prod.owed + s.taken.length + s.cons.claimed = s.added.length
  front : s.front = s.taken.length % N
  rear : s.rear = s.added.length % N
  order : s.taken <+: s.added
  slots : ∀ i, s.taken.length ≤ i → i < s.added.length → s.added[i]? = some (s.slot (i % N))
  writing : ∀ b fs, s.prod = .write b fs → finishCopy fs (s.slot s.rear) b = b
  reading : ∀ r fs, s.cons = .read r fs →
    finishCopy fs r (s.slot s.front) = s.slot s.front

variable {N put get} {s t : Buffer α}

theorem inv_initial (slot : ℕ → α) : Inv N (initial N slot) where
  mutex := rfl
  empty := rfl
  fill := rfl
  front := (Nat.zero_mod N).symm
  rear := (Nat.zero_mod N).symm
  order := List.prefix_rfl
  slots i _ hi := absurd hi (Nat.not_lt_zero i)
  writing _ _ h := nomatch h
  reading _ _ h := nomatch h

/-- The two processes are never both inside the mutex. -/
theorem Inv.exclusion (h : Inv N s) : s.prod.locked + s.cons.locked ≤ 1 := by
  have := h.mutex
  omega

/-- At most `N` items are added and not yet taken. -/
theorem Inv.length_le (h : Inv N s) : s.added.length ≤ s.taken.length + N := by
  have := h.empty
  omega

theorem Inv.taken_le (h : Inv N s) : s.taken.length ≤ s.added.length := h.order.length_le

/-- While the producer writes, fewer than `N` items are unread. -/
theorem Inv.length_lt (h : Inv N s) (hp : s.prod.claimed = 1) :
    s.added.length < s.taken.length + N := by
  have := h.empty
  omega

/-- Two positions less than `N` apart lie in one slot only if they are equal. -/
private theorem mod_ne_mod {i j : ℕ} (hij : i < j) (hj : j < i + N) : i % N ≠ j % N := by
  intro heq
  have hdvd : N ∣ j - i := (Nat.modEq_iff_dvd' hij.le).mp heq
  have := Nat.le_of_dvd (by omega) hdvd
  omega

/-- **No overwriting.** The slot being written holds no unread item. -/
theorem Inv.not_overwritten (h : Inv N s) (hp : s.prod.claimed = 1) {i : ℕ}
    (hi : s.taken.length ≤ i) (hi' : i < s.added.length) : i % N ≠ s.rear := by
  have hlt := h.length_lt hp
  rw [h.rear]
  exact mod_ne_mod hi' (by omega)

private theorem mod_add_one_mod (k : ℕ) : (k % N + 1) % N = (k + 1) % N := by
  simp [Nat.add_mod]

/-- Indices stay inside the ring. -/
theorem Inv.index_lt (h : Inv N s) (hN : 0 < N) : s.front < N ∧ s.rear < N := by
  rw [h.front, h.rear]
  exact ⟨Nat.mod_lt _ hN, Nat.mod_lt _ hN⟩

/-- `rear` is `front` moved on by the number of unread items. -/
theorem Inv.rear_eq (h : Inv N s) :
    s.rear = (s.front + (s.added.length - s.taken.length)) % N := by
  have hle := h.taken_le
  rw [h.rear, h.front, Nat.mod_add_mod, Nat.add_sub_cancel' hle]

/-- The items in the slots from `front` on are the ones added and not yet taken. -/
theorem Inv.added_eq (h : Inv N s) :
    s.added = s.taken ++ (List.range (s.added.length - s.taken.length)).map
      fun k => s.slot ((s.front + k) % N) := by
  have hle := h.taken_le
  refine List.ext_getElem? fun i => ?_
  rcases Nat.lt_or_ge i s.taken.length with hi | hi
  · obtain ⟨rest, hrest⟩ := h.order
    rw [List.getElem?_append_left hi, ← hrest, List.getElem?_append_left hi]
  · rw [List.getElem?_append_right hi, List.getElem?_map]
    rcases Nat.lt_or_ge i s.added.length with hi' | hi'
    · rw [h.slots i hi hi', List.getElem?_range (by omega), Option.map_some, h.front,
        Nat.mod_add_mod, Nat.add_sub_cancel' hi]
    · rw [List.getElem?_eq_none hi', List.getElem?_eq_none (by simpa using by omega),
        Option.map_none]

/-! ### Preservation -/

/-- The producer's steps keep the invariant. -/
theorem inv_nextProduce (hput : ∀ dst src, finishCopy put.steps dst src = src)
    (h : Inv N s) (hn : nextProduce N put s = some t) : Inv N t := by
  have hm := h.mutex
  have he := h.empty
  have hf := h.fill
  match hp : s.prod with
  | .idle => simp [nextProduce, hp] at hn
  | .waitEmpty b =>
    simp only [nextProduce, hp] at hn
    split at hn <;> cases hn
    simp only [hp, Producer.locked, Producer.claimed, Producer.owed] at hm he hf
    exact { h with
      mutex := by simpa [Producer.locked] using hm
      empty := by simp only [Producer.claimed]; omega
      fill := by simpa [Producer.owed] using hf
      writing := fun _ _ hw => nomatch hw }
  | .waitMutex b =>
    simp only [nextProduce, hp] at hn
    split at hn <;> cases hn
    simp only [hp, Producer.locked, Producer.claimed, Producer.owed] at hm he hf
    exact { h with
      mutex := by simp only [Producer.locked]; omega
      empty := by simpa [Producer.claimed] using he
      fill := by simpa [Producer.owed] using hf
      writing := by
        rintro _ _ ⟨⟩
        exact hput _ _ }
  | .write b (f :: fs) =>
    simp only [nextProduce, hp] at hn
    cases hn
    have hclaim : s.prod.claimed = 1 := by rw [hp]; rfl
    have hwr := h.writing _ _ hp
    simp only [hp, Producer.locked, Producer.claimed, Producer.owed] at hm he hf
    -- the consumer is outside the mutex, so it is not reading the slot
    have hcons : ∀ r fs', s.cons ≠ .read r fs' := by
      intro r fs' hc
      simp [hc, Consumer.locked] at hm
    exact { h with
      mutex := by simpa [Producer.locked] using hm
      empty := by simpa [Producer.claimed] using he
      fill := by simpa [Producer.owed] using hf
      slots := by
        intro i hi hi'
        change s.added[i]? = some (Function.update s.slot s.rear _ (i % N))
        rw [Function.update_of_ne (h.not_overwritten hclaim hi hi')]
        exact h.slots i hi hi'
      writing := by
        rintro _ _ ⟨⟩
        simpa using hwr
      reading := fun r fs' hc => absurd hc (hcons r fs') }
  | .write b [] =>
    simp only [nextProduce, hp] at hn
    cases hn
    -- the slot is written, and becomes part of the order
    have hwr : s.slot s.rear = b := by simpa using h.writing _ _ hp
    simp only [hp, Producer.locked, Producer.claimed, Producer.owed] at hm he hf
    exact { h with
      mutex := by simpa [Producer.locked] using hm
      empty := by simp only [Producer.claimed, List.length_append, List.length_singleton]; omega
      fill := by simp only [Producer.owed, List.length_append, List.length_singleton]; omega
      rear := by
        simp only [List.length_append, List.length_singleton, h.rear]
        exact mod_add_one_mod _
      order := h.order.trans (List.prefix_append _ _)
      slots := by
        intro i hi hi'
        simp only [List.length_append, List.length_singleton] at hi'
        rcases Nat.lt_or_ge i s.added.length with hlt | hge
        · rw [List.getElem?_append_left hlt]
          exact h.slots i hi hlt
        · obtain rfl : i = s.added.length := by omega
          rw [List.getElem?_concat_length, ← h.rear, hwr]
      writing := fun _ _ hw => nomatch hw }
  | .unlock =>
    simp only [nextProduce, hp] at hn
    cases hn
    simp only [hp, Producer.locked, Producer.claimed, Producer.owed] at hm he hf
    exact { h with
      mutex := by simp only [Producer.locked]; omega
      empty := by simpa [Producer.claimed] using he
      fill := by simpa [Producer.owed] using hf
      writing := fun _ _ hw => nomatch hw }
  | .signal =>
    simp only [nextProduce, hp] at hn
    cases hn
    simp only [hp, Producer.locked, Producer.claimed, Producer.owed] at hm he hf
    exact { h with
      mutex := by simpa [Producer.locked] using hm
      empty := by simpa [Producer.claimed] using he
      fill := by simp only [Producer.owed]; omega
      writing := fun _ _ hw => nomatch hw }

/-- The consumer's steps keep the invariant. -/
theorem inv_nextConsume (hget : ∀ dst src, finishCopy get.steps dst src = src) {g : α}
    (h : Inv N s) (hn : nextConsume N get s g = some t) : Inv N t := by
  have hm := h.mutex
  have he := h.empty
  have hf := h.fill
  match hc : s.cons with
  | .waitFill =>
    simp only [nextConsume, hc] at hn
    split at hn <;> cases hn
    simp only [hc, Consumer.locked, Consumer.claimed, Consumer.owed] at hm he hf
    exact { h with
      mutex := by simpa [Consumer.locked] using hm
      empty := by simpa [Consumer.owed] using he
      fill := by simp only [Consumer.claimed]; omega
      reading := fun _ _ hr => nomatch hr }
  | .waitMutex =>
    simp only [nextConsume, hc] at hn
    split at hn <;> cases hn
    simp only [hc, Consumer.locked, Consumer.claimed, Consumer.owed] at hm he hf
    exact { h with
      mutex := by simp only [Consumer.locked]; omega
      empty := by simpa [Consumer.owed] using he
      fill := by simpa [Consumer.claimed] using hf
      reading := by
        rintro _ _ ⟨⟩
        exact hget _ _ }
  | .read r (f :: fs) =>
    simp only [nextConsume, hc] at hn
    cases hn
    have hrd := h.reading _ _ hc
    simp only [hc, Consumer.locked, Consumer.claimed, Consumer.owed] at hm he hf
    exact { h with
      mutex := by simpa [Consumer.locked] using hm
      empty := by simpa [Consumer.owed] using he
      fill := by simpa [Consumer.claimed] using hf
      reading := by
        rintro _ _ ⟨⟩
        simpa using hrd }
  | .read r [] =>
    simp only [nextConsume, hc] at hn
    cases hn
    have hrd : r = s.slot s.front := by simpa using h.reading _ _ hc
    simp only [hc, Consumer.locked, Consumer.claimed, Consumer.owed] at hm he hf
    -- the slot read is the oldest one not yet taken
    have hlt : s.taken.length < s.added.length := by omega
    have hnext : s.added[s.taken.length]? = some r := by
      rw [h.slots _ le_rfl hlt, hrd, h.front]
    exact { h with
      mutex := by simpa [Consumer.locked] using hm
      empty := by simp only [Consumer.owed, List.length_append, List.length_singleton]; omega
      fill := by simp only [Consumer.claimed, List.length_append, List.length_singleton]; omega
      front := by
        simp only [List.length_append, List.length_singleton, h.front]
        exact mod_add_one_mod _
      order := by
        obtain ⟨rest, hrest⟩ := h.order
        rw [← hrest, List.getElem?_append_right le_rfl, Nat.sub_self] at hnext
        match rest, hnext with
        | x :: xs, hx =>
          obtain rfl : x = r := by simpa using hx
          exact ⟨xs, by rw [← hrest, List.append_assoc, List.singleton_append]⟩
      slots := by
        intro i hi hi'
        simp only [List.length_append, List.length_singleton] at hi
        exact h.slots i (by omega) hi'
      reading := fun _ _ hr => nomatch hr }
  | .unlock =>
    simp only [nextConsume, hc] at hn
    cases hn
    simp only [hc, Consumer.locked, Consumer.claimed, Consumer.owed] at hm he hf
    exact { h with
      mutex := by simp only [Consumer.locked]; omega
      empty := by simpa [Consumer.owed] using he
      fill := by simpa [Consumer.claimed] using hf
      reading := fun _ _ hr => nomatch hr }
  | .signal =>
    simp only [nextConsume, hc] at hn
    cases hn
    simp only [hc, Consumer.locked, Consumer.claimed, Consumer.owed] at hm he hf
    exact { h with
      mutex := by simpa [Consumer.locked] using hm
      empty := by simp only [Consumer.owed]; omega
      fill := by simpa [Consumer.claimed] using hf
      reading := fun _ _ hr => nomatch hr }

/-- **Step lemma.** Every step of the protocol keeps the invariant. -/
theorem inv_next {e : Event α} (h : Inv N s) (hn : next N put get s e = some t) : Inv N t := by
  cases e with
  | start b =>
    simp only [next] at hn
    split at hn
    · rename_i hp
      cases hn
      have hm := h.mutex
      have he := h.empty
      have hf := h.fill
      simp only [hp, Producer.locked, Producer.claimed, Producer.owed] at hm he hf
      exact { h with
        mutex := by simpa [Producer.locked] using hm
        empty := by simpa [Producer.claimed] using he
        fill := by simpa [Producer.owed] using hf
        writing := fun _ _ hw => nomatch hw }
    · cases hn
  | produce => exact inv_nextProduce put.complete h hn
  | consume g => exact inv_nextConsume get.complete h hn

/-- **Run lemma.** The invariant holds in every reachable state. -/
theorem inv_reachable (h : (system N put get).Reachable s) : Inv N s :=
  h.induct (by rintro _ ⟨slot, rfl⟩; exact inv_initial slot) fun _ _ _ hs hn => inv_next hs hn

end BoundedBuffer
