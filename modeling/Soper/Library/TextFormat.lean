import Mathlib.Data.List.Basic
import Mathlib.Data.List.OfFn
import Mathlib.Data.List.TakeWhile
import Mathlib.Tactic.Common

/-!
# Texts of labelled numbers

What the `printf` family writes for a record is a fixed skeleton of labels with numbers in
between. A `Numeral` is a way to print a number, readable up to the first character that is not
a digit; a `TextFormat` is a way to print a value, readable at the front of every text, whatever
comes after it. A numeral becomes a format once a label that does not start with a digit closes
it (`Numeral.before`), and formats compose: labels, pairs, alternatives, fixed repetitions. Each
of these carries two laws, so that a format assembled from them has them by construction: reading
undoes printing (`read_print`), and a text that breaks off before its end is not read
(`read_unfinished`). So a text of records printed one after the other can be read at any time,
also while the last one is still being written: what comes back are the finished records, and the
text of the one under way (`readFront_flatMap`). A `Writer` is such a text with the calls that are
left of its last record.
-/

namespace Soper.Library

/-! ### Numbers -/

/-- `t` does not go on with a digit. -/
def Stops (t : List Char) : Prop := t.head?.all (fun c => !c.isDigit) = true

/-- `s` starts with a character that is not a digit. -/
def Closes (s : List Char) : Prop := s ≠ [] ∧ Stops s

instance (t : List Char) : Decidable (Stops t) := inferInstanceAs (Decidable (_ = _))

instance (s : List Char) : Decidable (Closes s) := inferInstanceAs (Decidable (_ ∧ _))

theorem stops_nil : Stops [] := rfl

theorem Closes.append {s : List Char} (h : Closes s) (t : List Char) : Stops (s ++ t) := by
  obtain ⟨c, l, rfl⟩ := List.exists_cons_of_ne_nil h.1
  exact h.2

theorem Closes.stops {s t : List Char} (h : Closes s) (ht : t <+: s) : Stops t := by
  cases t with
  | nil => exact stops_nil
  | cons c l =>
    obtain ⟨u, rfl⟩ := ht
    exact h.2

theorem Stops.takeWhile_dropWhile {t : List Char} (h : Stops t) :
    t.takeWhile Char.isDigit = [] ∧ t.dropWhile Char.isDigit = t := by
  cases t with
  | nil => exact ⟨rfl, rfl⟩
  | cons c l =>
    have hno : ¬ c.isDigit = true := by simpa [Stops] using h
    exact ⟨List.takeWhile_cons_of_neg hno, List.dropWhile_cons_of_neg hno⟩

/-- `%0wu`: the decimal digits of `n`, padded with zeros to the width `w`. -/
def unsignedText (w n : ℕ) : List Char := (Nat.toDigits 10 n).leftpad w '0'

/-- `%0wd`: the sign counts in the width. -/
def signedText (w : ℕ) (z : ℤ) : List Char :=
  if z < 0 then '-' :: unsignedText (w - 1) z.natAbs else unsignedText w z.natAbs

example : signedText 4 7 = "0007".toList := by decide
example : signedText 4 (-7) = "-007".toList := by decide

/-- The digits at the front of a text, and the rest; nothing where there is no digit. -/
def readUnsigned (t : List Char) : Option (ℕ × List Char) :=
  if t.takeWhile Char.isDigit = [] then none
  else some (Nat.ofDigitChars 10 (t.takeWhile Char.isDigit) 0, t.dropWhile Char.isDigit)

/-- A sign and the digits after it. -/
def readSigned (t : List Char) : Option (ℤ × List Char) :=
  if t.head? = some '-' then (readUnsigned t.tail).map fun p => (-(p.1 : ℤ), p.2)
  else (readUnsigned t).map fun p => ((p.1 : ℤ), p.2)

theorem isDigit_of_mem_unsignedText {w n : ℕ} {c : Char} (h : c ∈ unsignedText w n) :
    c.isDigit = true := by
  rw [unsignedText, List.leftpad, List.mem_append] at h
  obtain h | h := h
  · rw [List.eq_of_mem_replicate h]
    decide
  · exact Nat.isDigit_of_mem_toDigits (by decide) (by decide) h

theorem unsignedText_ne_nil {w n : ℕ} : unsignedText w n ≠ [] := by
  rw [unsignedText, List.leftpad]
  exact List.append_ne_nil_of_right_ne_nil _ Nat.toDigits_ne_nil

theorem exists_cons_unsignedText (w n : ℕ) :
    ∃ c l, unsignedText w n = c :: l ∧ c.isDigit = true := by
  obtain ⟨c, l, hc⟩ := List.exists_cons_of_ne_nil (unsignedText_ne_nil (w := w) (n := n))
  exact ⟨c, l, hc, isDigit_of_mem_unsignedText (hc ▸ List.mem_cons_self)⟩

/-- The zeros in front do not count. -/
theorem ofDigitChars_unsignedText (w n : ℕ) : Nat.ofDigitChars 10 (unsignedText w n) 0 = n := by
  rw [unsignedText, List.leftpad, Nat.ofDigitChars_append, Nat.ofDigitChars_replicate_zero,
    Nat.mul_zero, Nat.ofDigitChars_ten_toDigits]

theorem readUnsigned_append (w n : ℕ) {t : List Char} (h : Stops t) :
    readUnsigned (unsignedText w n ++ t) = some (n, t) := by
  obtain ⟨htake, hdrop⟩ := h.takeWhile_dropWhile
  have hdigits : ∀ c ∈ unsignedText w n, c.isDigit = true := fun c => isDigit_of_mem_unsignedText
  rw [readUnsigned, List.takeWhile_append_of_pos hdigits, List.dropWhile_append_of_pos hdigits,
    htake, hdrop, List.append_nil, if_neg unsignedText_ne_nil, ofDigitChars_unsignedText]

theorem readSigned_append (w : ℕ) (z : ℤ) {t : List Char} (h : Stops t) :
    readSigned (signedText w z ++ t) = some (z, t) := by
  rw [signedText]
  split_ifs with hz
  · rw [readSigned, if_pos (by rfl), List.cons_append, List.tail_cons, readUnsigned_append _ _ h,
      Option.map_some]
    congr 2
    omega
  · -- the first character is a digit, not a sign
    have hsign : (unsignedText w z.natAbs ++ t).head? ≠ some '-' := by
      intro hhead
      obtain ⟨c, l, hc, hdigit⟩ := exists_cons_unsignedText w z.natAbs
      rw [hc] at hhead
      rw [Option.some.inj hhead] at hdigit
      exact absurd hdigit (by decide)
    rw [readSigned, if_neg hsign, readUnsigned_append _ _ h, Option.map_some]
    congr 2
    omega

/-- Nothing comes after digits. -/
theorem readUnsigned_digits {t : List Char} (h : ∀ c ∈ t, c.isDigit = true) {p : ℕ × List Char}
    (hp : readUnsigned t = some p) : p.2 = [] := by
  rw [readUnsigned] at hp
  split at hp <;> cases hp
  exact List.dropWhile_eq_nil_iff.mpr h

/-- A number that breaks off is read to its end. -/
theorem readUnsigned_prefix {w n : ℕ} {t : List Char} (h : t <+: unsignedText w n)
    {p : ℕ × List Char} (hp : readUnsigned t = some p) : p.2 = [] :=
  readUnsigned_digits (fun _ hc => isDigit_of_mem_unsignedText (h.subset hc)) hp

theorem readSigned_prefix {w : ℕ} {z : ℤ} {t : List Char} (h : t <+: signedText w z)
    {p : ℤ × List Char} (hp : readSigned t = some p) : p.2 = [] := by
  rw [readSigned] at hp
  split at hp
  · -- behind the sign there are digits
    obtain ⟨q, hq, rfl⟩ := Option.map_eq_some_iff.mp hp
    refine readUnsigned_digits (fun c hc => ?_) hq
    rw [signedText] at h
    split at h
    · rcases List.prefix_cons_iff.mp h with rfl | ⟨u, rfl, hu⟩
      · cases hc
      · exact isDigit_of_mem_unsignedText (hu.subset hc)
    · exact isDigit_of_mem_unsignedText (h.subset (List.mem_of_mem_tail hc))
  · rename_i hsign
    obtain ⟨q, hq, rfl⟩ := Option.map_eq_some_iff.mp hp
    rw [signedText] at h
    split at h
    · rcases List.prefix_cons_iff.mp h with rfl | ⟨u, rfl, -⟩
      · cases hq
      · exact absurd rfl hsign
    · exact readUnsigned_prefix h hq

/-- A way to print numbers, readable up to a character that is not a digit. -/
structure Numeral (α : Type*) where
  print : α → List Char
  read : List Char → Option (α × List Char)
  read_print : ∀ a {t : List Char}, Stops t → read (print a ++ t) = some (a, t)
  /-- Where the text of a number breaks off, nothing is left behind what is read. -/
  read_prefix : ∀ a {t : List Char}, t <+: print a → ∀ {p}, read t = some p → p.2 = []

/-- `%0wu`. -/
def unsigned (w : ℕ) : Numeral ℕ where
  print := unsignedText w
  read := readUnsigned
  read_print n _ := readUnsigned_append w n
  read_prefix _ _ := readUnsigned_prefix

/-- `%0wd`. -/
def signed (w : ℕ) : Numeral ℤ where
  print := signedText w
  read := readSigned
  read_print z _ := readSigned_append w z
  read_prefix _ _ := readSigned_prefix

/-! ### Formats -/

/-- `t` is `s` broken off before its end. -/
def Unfinished (t s : List Char) : Prop := t <+: s ∧ t ≠ s

/-- A text of two parts breaks off in the first one or in the second. -/
theorem Unfinished.cases {t s₁ s₂ : List Char} (h : Unfinished t (s₁ ++ s₂)) :
    Unfinished t s₁ ∨ ∃ u, t = s₁ ++ u ∧ Unfinished u s₂ := by
  obtain ⟨hpre, hne⟩ := h
  rcases List.prefix_or_prefix_of_prefix hpre (List.prefix_append s₁ s₂) with h₁ | ⟨u, rfl⟩
  · by_cases heq : t = s₁
    · subst heq
      refine Or.inr ⟨[], (List.append_nil _).symm, List.nil_prefix, ?_⟩
      rintro rfl
      exact hne (List.append_nil _).symm
    · exact Or.inl ⟨h₁, heq⟩
  · refine Or.inr ⟨u, rfl, (List.prefix_append_right_inj s₁).mp hpre, ?_⟩
    rintro rfl
    exact hne rfl

theorem dropPrefix?_append (s t : List Char) : (s ++ t).dropPrefix? s = some t :=
  List.dropPrefix?_append_of_beq t (BEq.refl s)

theorem dropPrefix?_eq_none {s t : List Char} (h : ¬ s <+: t) : t.dropPrefix? s = none := by
  refine Option.eq_none_iff_forall_ne_some.mpr fun r hr => ?_
  obtain ⟨s', rfl, heq⟩ := List.dropPrefix?_eq_some_iff.mp hr
  obtain rfl := eq_of_beq heq
  exact h (List.prefix_append _ _)

/-- A label that breaks off is not found. -/
theorem Unfinished.dropPrefix? {t s : List Char} (h : Unfinished t s) : t.dropPrefix? s = none :=
  dropPrefix?_eq_none fun hpre => h.2 (h.1.eq_of_length_le hpre.length_le)

/-- A way to print values, readable at the front of every text. -/
structure TextFormat (α : Type*) where
  print : α → List Char
  read : List Char → Option (α × List Char)
  read_print : ∀ a t, read (print a ++ t) = some (a, t)
  /-- A text that breaks off before its end is not read. -/
  read_unfinished : ∀ a t, Unfinished t (print a) → read t = none

/-- A number and the label that closes it. -/
def Numeral.before {α : Type*} (f : Numeral α) (s : List Char) (hs : Closes s) :
    TextFormat α where
  print a := f.print a ++ s
  read t := (f.read t).bind fun p => (p.2.dropPrefix? s).map fun r => (p.1, r)
  read_print a t := by
    rw [List.append_assoc, f.read_print a (hs.append t), Option.bind_some, dropPrefix?_append,
      Option.map_some]
  read_unfinished a t h := by
    rcases h.cases with hu | ⟨u, rfl, hu⟩
    · -- the label is missing
      cases hread : f.read t with
      | none => rfl
      | some p =>
        have hnil : Unfinished [] s := ⟨List.nil_prefix, hs.1.symm⟩
        rw [Option.bind_some, f.read_prefix a hu.1 hread, hnil.dropPrefix?, Option.map_none]
    · rw [f.read_print a (hs.stops hu.1), Option.bind_some, hu.dropPrefix?, Option.map_none]

namespace TextFormat

variable {α β : Type*}

/-- One of two labels, none of which starts the other. -/
def choice (s₁ s₀ : List Char) (h₁ : ¬ s₁ <+: s₀) (h₀ : ¬ s₀ <+: s₁) : TextFormat Bool where
  print b := if b then s₁ else s₀
  read t := ((t.dropPrefix? s₁).map fun r => (true, r)).or
    ((t.dropPrefix? s₀).map fun r => (false, r))
  read_print b t := by
    cases b with
    | true => rw [if_pos rfl, dropPrefix?_append, Option.map_some, Option.some_or]
    | false =>
      have hno : ¬ s₁ <+: s₀ ++ t := fun hpre =>
        (List.prefix_or_prefix_of_prefix hpre (List.prefix_append s₀ t)).elim h₁ h₀
      rw [if_neg Bool.false_ne_true, dropPrefix?_eq_none hno, dropPrefix?_append, Option.map_none,
        Option.none_or, Option.map_some]
  read_unfinished b t ht := by
    cases b with
    | true =>
      rw [if_pos rfl] at ht
      rw [ht.dropPrefix?, dropPrefix?_eq_none fun hpre => h₀ (hpre.trans ht.1), Option.map_none,
        Option.map_none, Option.none_or]
    | false =>
      rw [if_neg Bool.false_ne_true] at ht
      rw [ht.dropPrefix?, dropPrefix?_eq_none fun hpre => h₁ (hpre.trans ht.1), Option.map_none,
        Option.map_none, Option.none_or]

/-- A label in front. -/
def labelled (s : List Char) (f : TextFormat α) : TextFormat α where
  print a := s ++ f.print a
  read t := (t.dropPrefix? s).bind f.read
  read_print a t := by
    rw [List.append_assoc, dropPrefix?_append, Option.bind_some, f.read_print]
  read_unfinished a t h := by
    rcases h.cases with hu | ⟨u, rfl, hu⟩
    · rw [hu.dropPrefix?, Option.bind_none]
    · rw [dropPrefix?_append, Option.bind_some, f.read_unfinished a u hu]

/-- A label at the end. -/
def ended (f : TextFormat α) (s : List Char) : TextFormat α where
  print a := f.print a ++ s
  read t := (f.read t).bind fun p => (p.2.dropPrefix? s).map fun r => (p.1, r)
  read_print a t := by
    rw [List.append_assoc, f.read_print, Option.bind_some, dropPrefix?_append, Option.map_some]
  read_unfinished a t h := by
    rcases h.cases with hu | ⟨u, rfl, hu⟩
    · rw [f.read_unfinished a t hu, Option.bind_none]
    · rw [f.read_print, Option.bind_some, hu.dropPrefix?, Option.map_none]

/-- One value after the other. -/
def pair (f : TextFormat α) (g : TextFormat β) : TextFormat (α × β) where
  print p := f.print p.1 ++ g.print p.2
  read t := (f.read t).bind fun p => (g.read p.2).map fun q => ((p.1, q.1), q.2)
  read_print p t := by
    rw [List.append_assoc, f.read_print, Option.bind_some, g.read_print, Option.map_some]
  read_unfinished p t h := by
    rcases h.cases with hu | ⟨u, rfl, hu⟩
    · rw [f.read_unfinished p.1 t hu, Option.bind_none]
    · rw [f.read_print, Option.bind_some, g.read_unfinished p.2 u hu, Option.map_none]

/-- The same texts, for another type of values. -/
def imap (f : TextFormat α) (pack : α → β) (unpack : β → α)
    (h : ∀ b, pack (unpack b) = b) : TextFormat β where
  print b := f.print (unpack b)
  read t := (f.read t).map fun p => (pack p.1, p.2)
  read_print b t := by rw [f.read_print, Option.map_some, h]
  read_unfinished b t ht := by rw [f.read_unfinished (unpack b) t ht, Option.map_none]

/-- `n` values read in a row. -/
def readTimes (f : TextFormat α) : (n : ℕ) → List Char → Option ((Fin n → α) × List Char)
  | 0, t => some (Fin.elim0, t)
  | n + 1, t => (f.read t).bind fun p => (f.readTimes n p.2).map fun q => (Fin.cons p.1 q.1, q.2)

theorem readTimes_append (f : TextFormat α) {n : ℕ} (v : Fin n → α) (t : List Char) :
    f.readTimes n ((List.ofFn fun i => f.print (v i)).flatten ++ t) = some (v, t) := by
  induction n with
  | zero =>
    rw [List.ofFn_zero, List.flatten_nil, List.nil_append, readTimes]
    congr 2
    funext i
    exact i.elim0
  | succ n ih =>
    rw [List.ofFn_succ, List.flatten_cons, List.append_assoc, readTimes, f.read_print,
      Option.bind_some, ih fun i => v i.succ, Option.map_some]
    exact congrArg (fun w => some (w, t)) (Fin.cons_self_tail v)

theorem readTimes_unfinished (f : TextFormat α) {n : ℕ} (v : Fin n → α) (t : List Char)
    (h : Unfinished t (List.ofFn fun i => f.print (v i)).flatten) : f.readTimes n t = none := by
  induction n generalizing t with
  | zero =>
    rw [List.ofFn_zero, List.flatten_nil] at h
    exact absurd (List.prefix_nil.mp h.1) h.2
  | succ n ih =>
    rw [List.ofFn_succ, List.flatten_cons] at h
    rw [readTimes]
    rcases h.cases with hu | ⟨u, rfl, hu⟩
    · rw [f.read_unfinished _ t hu, Option.bind_none]
    · rw [f.read_print, Option.bind_some, ih (fun i => v i.succ) u hu, Option.map_none]

/-- The `n` entries of an array, in the order of their indices. -/
def times (f : TextFormat α) (n : ℕ) : TextFormat (Fin n → α) where
  print v := (List.ofFn fun i => f.print (v i)).flatten
  read := f.readTimes n
  read_print := f.readTimes_append
  read_unfinished := f.readTimes_unfinished

/-- Two kinds of values; each reader refuses the texts of the other kind, wherever they end. -/
def sum (f : TextFormat α) (g : TextFormat β)
    (hf : ∀ b t u, t <+: g.print b ++ u → f.read t = none)
    (hg : ∀ a t, t <+: f.print a → g.read t = none) : TextFormat (α ⊕ β) where
  print := Sum.elim f.print g.print
  read t := ((f.read t).map fun p => (Sum.inl p.1, p.2)).or
    ((g.read t).map fun p => (Sum.inr p.1, p.2))
  read_print
    | .inl a, t => by rw [Sum.elim_inl, f.read_print, Option.map_some, Option.some_or]
    | .inr b, t => by
      rw [Sum.elim_inr, hf b _ t List.prefix_rfl, g.read_print, Option.map_none, Option.none_or,
        Option.map_some]
  read_unfinished
    | .inl a, t, h => by
      rw [f.read_unfinished a t h, hg a t h.1, Option.map_none, Option.map_none, Option.none_or]
    | .inr b, t, h => by
      have hpre : t <+: g.print b ++ [] := by
        rw [List.append_nil]
        exact h.1
      rw [hf b t [] hpre, g.read_unfinished b t h, Option.map_none, Option.map_none,
        Option.none_or]

/-! ### Whole texts -/

/-- The values at the front of a text, at most `k` of them, and the text behind them. -/
def readUpTo (f : TextFormat α) : ℕ → List Char → List α × List Char
  | 0, t => ([], t)
  | k + 1, t =>
    match f.read t with
    | none => ([], t)
    | some (a, u) => (a :: (f.readUpTo k u).1, (f.readUpTo k u).2)

/-- The values at the front of a text, and the text behind the last one. -/
def readFront (f : TextFormat α) (t : List Char) : List α × List Char := f.readUpTo t.length t

theorem readUpTo_flatMap (f : TextFormat α) {l : List α} {t : List Char} (ht : f.read t = none)
    {k : ℕ} (hk : l.length ≤ k) : f.readUpTo k (l.flatMap f.print ++ t) = (l, t) := by
  induction l generalizing k with
  | nil =>
    cases k with
    | zero => rfl
    | succ k => rw [List.flatMap_nil, List.nil_append, readUpTo, ht]
  | cons a l ih =>
    obtain ⟨k, rfl⟩ : ∃ m, k = m + 1 := Nat.exists_eq_add_one.mpr (Nat.zero_lt_of_lt hk)
    rw [List.flatMap_cons, List.append_assoc, readUpTo, f.read_print]
    dsimp only
    rw [ih (Nat.succ_le_succ_iff.mp hk)]

theorem length_le_flatMap {f : α → List Char} (hne : ∀ a, f a ≠ []) (l : List α) :
    l.length ≤ (l.flatMap f).length := by
  induction l with
  | nil => exact Nat.le_refl 0
  | cons a l ih =>
    rw [List.flatMap_cons, List.length_append, List.length_cons, Nat.add_comm]
    exact Nat.add_le_add (List.length_pos_iff.mpr (hne a)) ih

/-- **Reading undoes printing**, for every list of values and at any time: the records need no
separator, and one that is still being written is left for later. -/
theorem readFront_flatMap (f : TextFormat α) (hne : ∀ a, f.print a ≠ []) (l : List α) {a : α}
    {t : List Char} (ht : Unfinished t (f.print a)) :
    f.readFront (l.flatMap f.print ++ t) = (l, t) := by
  refine f.readUpTo_flatMap (f.read_unfinished a t ht) ?_
  rw [List.length_append]
  exact (length_le_flatMap hne l).trans (Nat.le_add_right _ _)

end TextFormat

/-! ### Texts under way -/

/-- A text that is written call by call: what has been written, and the calls that are left of the
record under way. -/
structure Writer where
  text : List Char
  calls : List (List Char)

namespace Writer

variable {w w' : Writer} {front : List Char} {record : List (List Char)}

/-- The next call, unless it is the last one of its record. -/
def advance (w : Writer) : Option Writer :=
  match w.calls with
  | c :: d :: cs => some ⟨w.text ++ c, d :: cs⟩
  | _ => none

/-- The last call of a record, if there is one, and the calls of the next record. -/
def finish (w : Writer) (next : List (List Char)) : Writer := ⟨w.text ++ w.calls.flatten, next⟩

/-- The text holds the finished records, `front`, and what has been written of `record`. -/
structure Writes (w : Writer) (front : List Char) (record : List (List Char)) : Prop where
  made : ∃ made, record = made ++ w.calls ∧ w.text = front ++ made.flatten
  left : record ≠ [] → w.calls ≠ []

theorem Writes.advance (h : w.Writes front record) (ha : w.advance = some w') :
    w'.Writes front record := by
  obtain ⟨made, hrecord, htext⟩ := h.made
  simp only [Writer.advance] at ha
  split at ha <;> cases ha
  rename_i c d cs hcalls
  refine ⟨⟨made ++ [c], ?_, ?_⟩, fun _ => List.cons_ne_nil _ _⟩
  · rw [hrecord, hcalls, List.append_assoc, List.singleton_append]
  · rw [htext, List.flatten_append, List.flatten_singleton, List.append_assoc]

theorem Writes.finish (h : w.Writes front record) (next : List (List Char)) :
    (w.finish next).Writes (front ++ record.flatten) next := by
  obtain ⟨made, hrecord, htext⟩ := h.made
  refine ⟨⟨[], rfl, ?_⟩, id⟩
  rw [Writer.finish, htext, hrecord, List.flatten_append, List.flatten_nil, List.append_nil,
    List.append_assoc]

/-- What has been written of a record under way breaks off before its end. -/
theorem Writes.unfinished (h : w.Writes front record) (hne : ∀ c ∈ record, c ≠ []) :
    ∃ t, w.text = front ++ t ∧ t ++ w.calls.flatten = record.flatten ∧
      (record ≠ [] → Unfinished t record.flatten) := by
  obtain ⟨made, hrecord, htext⟩ := h.made
  have hflat : made.flatten ++ w.calls.flatten = record.flatten := by
    rw [hrecord, List.flatten_append]
  refine ⟨made.flatten, htext, hflat, fun hrec => ⟨⟨_, hflat⟩, fun heq => ?_⟩⟩
  -- the calls that are left have something to write
  obtain ⟨c, cs, hcalls⟩ := List.exists_cons_of_ne_nil (h.left hrec)
  have hnil : w.calls.flatten = [] := by
    rwa [← hflat, List.self_eq_append_right] at heq
  rw [hcalls, List.flatten_cons, List.append_eq_nil_iff] at hnil
  exact hne c (by rw [hrecord, hcalls]; simp) hnil.1

theorem text_advance (ha : w.advance = some w') : w.text <+: w'.text := by
  simp only [advance] at ha
  split at ha <;> cases ha
  exact List.prefix_append _ _

theorem text_finish (w : Writer) (next : List (List Char)) : w.text <+: (w.finish next).text :=
  List.prefix_append _ _

end Writer

end Soper.Library
