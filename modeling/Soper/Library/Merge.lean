import Mathlib.Algebra.BigOperators.Group.Finset.Piecewise
import Mathlib.Data.Fintype.BigOperators
import Mathlib.Data.List.Infix

/-!
# Merged sequences

Several senders write into one queue. The journal of the queue is a list of items, each with its
sender; `sentBy i` is what one sender contributed, in its own order. The journal is a merge of
these sequences: each is a subsequence of it (`sentBy_sublist`), together they have its length
(`length_eq_sum`), and nothing is in it that nobody sent (`mem_sentBy_iff`).
-/

universe u v

namespace Merge

variable {ι : Type u} {α : Type v} [DecidableEq ι]

/-- What `i` has contributed. -/
def sentBy (i : ι) (l : List (ι × α)) : List α := (l.filter fun e => e.1 = i).map Prod.snd

@[simp]
theorem sentBy_nil (i : ι) : sentBy i ([] : List (ι × α)) = [] := rfl

@[simp]
theorem sentBy_append (i : ι) (l l' : List (ι × α)) :
    sentBy i (l ++ l') = sentBy i l ++ sentBy i l' := by
  simp [sentBy]

@[simp]
theorem sentBy_singleton_self (i : ι) (x : α) : sentBy i [(i, x)] = [x] := by
  simp [sentBy]

theorem sentBy_singleton_of_ne {i j : ι} (h : i ≠ j) (x : α) : sentBy j [(i, x)] = [] := by
  simp [sentBy, h]

theorem mem_sentBy_iff {i : ι} {l : List (ι × α)} {x : α} : x ∈ sentBy i l ↔ (i, x) ∈ l := by
  simp [sentBy]

/-- Each sender keeps its order. -/
theorem sentBy_sublist (i : ι) (l : List (ι × α)) : (sentBy i l).Sublist (l.map Prod.snd) :=
  List.filter_sublist.map Prod.snd

/-- A beginning of the journal has a beginning of each sender's sequence. -/
theorem sentBy_isPrefix {l l' : List (ι × α)} (h : l <+: l') (i : ι) :
    sentBy i l <+: sentBy i l' := by
  obtain ⟨rest, rfl⟩ := h
  rw [sentBy_append]
  exact List.prefix_append _ _

/-- The contributions add up to the journal. -/
theorem length_eq_sum [Fintype ι] (l : List (ι × α)) :
    l.length = ∑ i, (sentBy i l).length := by
  induction l with
  | nil => simp
  | cons e l ih =>
    have hone : ∑ i, (sentBy i [e]).length = 1 := by
      calc ∑ i, (sentBy i [e]).length = ∑ i, if e.1 = i then 1 else 0 :=
            Finset.sum_congr rfl fun i _ => by by_cases h : e.1 = i <;> simp [sentBy, h]
        _ = 1 := by simp
    calc (e :: l).length = 1 + ∑ i, (sentBy i l).length := by rw [List.length_cons, ih, add_comm]
      _ = ∑ i, ((sentBy i [e]).length + (sentBy i l).length) := by
          rw [Finset.sum_add_distrib, hone]
      _ = ∑ i, (sentBy i (e :: l)).length :=
          Finset.sum_congr rfl fun i _ => by
            rw [← List.length_append, ← sentBy_append, List.singleton_append]

end Merge
