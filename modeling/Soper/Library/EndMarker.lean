import Mathlib.Data.List.Infix
import Mathlib.Data.List.TakeWhile

/-!
# Streams ended by a marker

A reader takes items from a stream until it meets the first one that satisfies `p`, the marker.
`before p l` is what it has seen by then. A beginning of the stream without a marker lies before
the first one (`isPrefix_before`); a beginning that ends with the only marker in it determines
what lies before (`before_eq`).
-/

universe u v

namespace EndMarker

variable {α : Type u} {β : Type v} {p : α → Bool} {l l' : List α} {x : α}

/-- The items before the first marker. -/
def before (p : α → Bool) (l : List α) : List α := l.takeWhile fun x => !p x

theorem before_isPrefix (p : α → Bool) (l : List α) : before p l <+: l := List.takeWhile_prefix _

theorem not_marker (h : x ∈ before p l) : p x = false := by
  simpa using List.mem_takeWhile_imp h

/-- Items none of which is a marker lie before the first one. -/
theorem isPrefix_before (h : l <+: l') (hno : ∀ x ∈ l, p x = false) : l <+: before p l' := by
  obtain ⟨rest, rfl⟩ := h
  rw [before, List.takeWhile_append_of_pos fun x hx => by simp [hno x hx]]
  exact List.prefix_append _ _

/-- What lies before the first marker, read off a beginning of the stream. -/
theorem before_eq (h : l ++ [x] <+: l') (hno : ∀ y ∈ l, p y = false) (hx : p x = true) :
    before p l' = l := by
  obtain ⟨rest, rfl⟩ := h
  rw [before, List.append_assoc, List.takeWhile_append_of_pos fun y hy => by simp [hno y hy],
    List.singleton_append, List.takeWhile_cons_of_neg (by simp [hx]), List.append_nil]

/-- A stream with a marker splits at the first one. -/
theorem exists_eq_append (h : ∃ x ∈ l, p x = true) :
    ∃ x rest, p x = true ∧ l = before p l ++ x :: rest := by
  have hsplit : before p l ++ l.dropWhile (fun x => !p x) = l := List.takeWhile_append_dropWhile
  cases hdrop : l.dropWhile fun x => !p x with
  | nil =>
    obtain ⟨x, hx, hpx⟩ := h
    rw [hdrop, List.append_nil] at hsplit
    have hno : p x = false := not_marker (l := l) (by rwa [hsplit])
    rw [hno] at hpx
    cases hpx
  | cons x rest =>
    have hhead := List.head_dropWhile_not (l := l) (fun x => !p x) (by simp [hdrop])
    exact ⟨x, rest, by simpa [hdrop] using hhead, by rw [← hdrop, hsplit]⟩

/-- The marker may be looked for in an image of the stream. -/
theorem map_before (f : β → α) (l : List β) :
    (before (fun y => p (f y)) l).map f = before p (l.map f) := by
  rw [before, before, List.takeWhile_map]
  rfl

end EndMarker
