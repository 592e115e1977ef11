import Mathlib.Order.WellFounded
import Mathlib.Data.List.Basic

/-!
# Labelled transition systems

A system is a set of initial states and a partial function `next : σ → α → Option σ`: the
label fixes which process moves and every choice the environment makes, so that a run is a
list of labels and can be evaluated.

Runs are graded by a **side condition** on their steps. `S.ReachableBy ok s` says that `s` is
reached by a run all of whose steps `(state, label)` meet `ok`; plain reachability is the case
`ok = fun _ _ => True`. Three rules are used throughout:

* `ReachableBy.induct`: what holds initially and is kept by every step that meets the
  condition holds in every state such runs reach.
* `ReachableBy.map`: a projection that turns each step into at most one step of a second
  system carries runs to runs, so invariants of the second system pull back.
* `exists_stuck`: where a natural number decreases along every step, a state in which nothing
  can move is reached.

`Ensures P` is total correctness: every run ends, and `P` holds where it ends.
-/

universe u v w u' v'

/-- A labelled transition system: initial states, and the state each enabled label leads to. -/
structure System (σ : Type u) (α : Type v) where
  /-- The states in which a run may start. -/
  Init : σ → Prop
  /-- The state after the step `a`, or `none` where `a` cannot be taken. -/
  next : σ → α → Option σ

namespace System

variable {σ : Type u} {α : Type v} {τ : Type u'} {β : Type v'}

/-- The states reached by runs whose steps all meet `ok`. -/
inductive ReachableBy (S : System σ α) (ok : σ → α → Prop) : σ → Prop
  | init {s : σ} (hs : S.Init s) : ReachableBy S ok s
  | step {s t : σ} {a : α} (hs : ReachableBy S ok s) (hok : ok s a)
      (ht : S.next s a = some t) : ReachableBy S ok t

/-- The states reached by any run. -/
def Reachable (S : System σ α) : σ → Prop := S.ReachableBy fun _ _ => True

/-- No label is enabled. -/
def Stuck (S : System σ α) (s : σ) : Prop := ∀ a, S.next s a = none

variable {S : System σ α} {T : System τ β} {ok ok₁ ok₂ : σ → α → Prop}

theorem Reachable.step {s t : σ} {a : α} (hs : S.Reachable s) (ht : S.next s a = some t) :
    S.Reachable t :=
  ReachableBy.step hs trivial ht

theorem Reachable.init {s : σ} (hs : S.Init s) : S.Reachable s := ReachableBy.init hs

/-- A weaker condition admits more runs. -/
theorem ReachableBy.mono {s : σ} (h : S.ReachableBy ok₁ s) (himp : ∀ s a, ok₁ s a → ok₂ s a) :
    S.ReachableBy ok₂ s := by
  induction h with
  | init hs => exact .init hs
  | step _ hok ht ih => exact .step ih (himp _ _ hok) ht

theorem ReachableBy.reachable {s : σ} (h : S.ReachableBy ok s) : S.Reachable s :=
  h.mono fun _ _ _ => trivial

/-- **Invariant rule.** What holds initially and is kept by every step that meets the condition
holds in every state reached by such steps. -/
theorem ReachableBy.induct {I : σ → Prop} {s : σ} (h : S.ReachableBy ok s)
    (hinit : ∀ s, S.Init s → I s)
    (hstep : ∀ s a t, I s → ok s a → S.next s a = some t → I t) : I s := by
  induction h with
  | init hs => exact hinit _ hs
  | step _ hok ht ih => exact hstep _ _ _ ih hok ht

/-- The invariant rule for plain reachability. -/
theorem Reachable.induct {I : σ → Prop} {s : σ} (h : S.Reachable s)
    (hinit : ∀ s, S.Init s → I s) (hstep : ∀ s a t, I s → S.next s a = some t → I t) : I s :=
  ReachableBy.induct h hinit fun s a t hs _ ht => hstep s a t hs ht

/-- **Projection rule.** If `f` sends initial states to initial states and turns each step that
meets the condition into a step of `T` meeting its own condition, or into no change, then `f`
sends reached states to reached states. The step hypothesis may use that its source is
reached. -/
theorem ReachableBy.map {ok' : τ → β → Prop} {f : σ → τ} {s : σ} (h : S.ReachableBy ok s)
    (hinit : ∀ s, S.Init s → T.Init (f s))
    (hstep : ∀ s a t, S.ReachableBy ok s → ok s a → S.next s a = some t →
      f t = f s ∨ ∃ b, ok' (f s) b ∧ T.next (f s) b = some (f t)) :
    T.ReachableBy ok' (f s) := by
  induction h with
  | init hs => exact .init (hinit _ hs)
  | @step s t a hs hok ht ih =>
    rcases hstep s a t hs hok ht with heq | ⟨b, hb, hnext⟩
    · rwa [heq]
    · exact .step ih hb hnext

/-- **Lifting rule.** If `f` commutes with the steps, every state `T` reaches is the image of a
state that `S` reaches. -/
theorem Reachable.exists_eq_map {T : System τ α} {f : σ → τ} {u : τ} (h : T.Reachable u)
    (hinit : ∀ u, T.Init u → ∃ s, S.Init s ∧ f s = u)
    (hstep : ∀ s a, (S.next s a).map f = T.next (f s) a) : ∃ s, S.Reachable s ∧ f s = u := by
  induction h with
  | init hu =>
    obtain ⟨s, hs, heq⟩ := hinit _ hu
    exact ⟨s, .init hs, heq⟩
  | step _ _ hu ih =>
    obtain ⟨s, hs, rfl⟩ := ih
    obtain ⟨t, ht, heq⟩ := Option.map_eq_some_iff.mp ((hstep s _).trans hu)
    exact ⟨t, hs.step ht, heq⟩

theorem not_stuck {s t : σ} {a : α} (h : S.next s a = some t) : ¬ S.Stuck s := by
  intro hstuck
  rw [hstuck a] at h
  cases h

/-! ### Evaluating runs -/

/-- The state a list of labels leads to, provided each step meets `ok`. -/
def runBy (S : System σ α) (ok : σ → α → Prop) [∀ s a, Decidable (ok s a)] :
    σ → List α → Option σ
  | s, [] => some s
  | s, a :: as => if ok s a then (S.next s a).bind fun t => runBy S ok t as else none

/-- The state a list of labels leads to. -/
def run (S : System σ α) : σ → List α → Option σ := S.runBy fun _ _ => True

theorem ReachableBy.runBy [∀ s a, Decidable (ok s a)] {s t : σ} {as : List α}
    (hs : S.ReachableBy ok s) (h : S.runBy ok s as = some t) : S.ReachableBy ok t := by
  induction as generalizing s with
  | nil =>
    obtain rfl : s = t := by simpa [System.runBy] using h
    exact hs
  | cons a as ih =>
    simp only [System.runBy] at h
    split at h
    · rename_i hok
      obtain ⟨u, hu, hrun⟩ := Option.bind_eq_some_iff.mp h
      exact ih (hs.step hok hu) hrun
    · cases h

theorem Reachable.run {s t : σ} {as : List α} (hs : S.Reachable s) (h : S.run s as = some t) :
    S.Reachable t :=
  ReachableBy.runBy hs h

/-- **Growth rule.** A preorder along every step is a preorder along every run. -/
theorem rel_run {R : σ → σ → Prop} (hrefl : ∀ s, R s s) (htrans : ∀ s t u, R s t → R t u → R s u)
    (hstep : ∀ s a t, S.next s a = some t → R s t) {s t : σ} {as : List α}
    (h : S.run s as = some t) : R s t := by
  induction as generalizing s with
  | nil =>
    obtain rfl : s = t := by simpa [run, runBy] using h
    exact hrefl s
  | cons a as ih =>
    have hbind : ((S.next s a).bind fun u => S.run u as) = some t := h
    obtain ⟨u, hu, hrun⟩ := Option.bind_eq_some_iff.mp hbind
    exact htrans s u t (hstep s a u hu) (ih hrun)

/-! ### Termination -/

/-- **Every run ends.** Where `μ` decreases along each step out of a reached state, some state
in which nothing can move is reached. -/
theorem exists_stuck (μ : σ → ℕ)
    (hdec : ∀ s a t, S.Reachable s → S.next s a = some t → μ t < μ s) {s : σ}
    (hs : S.Reachable s) : ∃ t, S.Reachable t ∧ S.Stuck t := by
  induction hμ : μ s using Nat.strong_induction_on generalizing s with
  | _ m ih =>
    by_cases hstuck : S.Stuck s
    · exact ⟨s, hs, hstuck⟩
    · obtain ⟨a, ha⟩ := not_forall.mp hstuck
      obtain ⟨t, ht⟩ := Option.ne_none_iff_exists'.mp ha
      exact ih (μ t) (hμ ▸ hdec s a t hs ht) (hs.step ht) rfl

/-! ### Total correctness -/

variable {P Q : σ → Prop}

/-- No run goes on for ever, and a run that cannot go on has established `P`. -/
structure Ensures (S : System σ α) (P : σ → Prop) : Prop where
  ends : ∀ s, S.Reachable s → Acc (fun t s => ∃ a, S.next s a = some t) s
  holds : ∀ s, S.Reachable s → S.Stuck s → P s

/-- **Measure rule.** A system ensures `P` if a natural number decreases along its steps and `P`
holds where nothing can move. -/
theorem ensures_of_measure (μ : σ → ℕ)
    (hdec : ∀ s a t, S.Reachable s → S.next s a = some t → μ t < μ s)
    (hstuck : ∀ s, S.Reachable s → S.Stuck s → P s) : S.Ensures P where
  ends s hs := by
    induction hμ : μ s using Nat.strong_induction_on generalizing s with
    | _ m ih =>
      refine Acc.intro s ?_
      rintro t ⟨a, ht⟩
      exact ih (μ t) (hμ ▸ hdec s a t hs ht) t (hs.step ht) rfl
  holds := hstuck

/-- No run goes on for ever, whatever the environment does, and where the processes, whose labels
are `own`, cannot go on, they have established `P`: they do not wait for the environment. -/
structure EnsuresBy (S : System σ α) (own : α → Prop) (P : σ → Prop) : Prop where
  ends : ∀ s, S.Reachable s → Acc (fun t s => ∃ a, S.next s a = some t) s
  holds : ∀ s, S.Reachable s → (∀ a, own a → S.next s a = none) → P s

/-- The measure rule where some labels belong to an environment. -/
theorem ensuresBy_of_measure {own : α → Prop} (μ : σ → ℕ)
    (hdec : ∀ s a t, S.Reachable s → S.next s a = some t → μ t < μ s)
    (hblocked : ∀ s, S.Reachable s → (∀ a, own a → S.next s a = none) → P s) :
    S.EnsuresBy own P where
  ends := (ensures_of_measure (P := fun _ => True) μ hdec fun _ _ _ => trivial).ends
  holds := hblocked

/-- What is ensured is reached from every reachable state. -/
theorem Ensures.exists_stuck (h : S.Ensures P) {s : σ} (hs : S.Reachable s) :
    ∃ t, S.Reachable t ∧ S.Stuck t ∧ P t := by
  have hacc := h.ends s hs
  induction hacc with
  | intro s _ ih =>
    by_cases hstuck : S.Stuck s
    · exact ⟨s, hs, hstuck, h.holds s hs hstuck⟩
    · obtain ⟨a, ha⟩ := not_forall.mp hstuck
      obtain ⟨t, ht⟩ := Option.ne_none_iff_exists'.mp ha
      exact ih t ⟨a, ht⟩ (hs.step ht)

theorem Ensures.mono (h : S.Ensures P) (himp : ∀ s, S.Reachable s → S.Stuck s → P s → Q s) :
    S.Ensures Q where
  ends := h.ends
  holds s hs hstuck := himp s hs hstuck (h.holds s hs hstuck)

/-- **One channel for results and errors.** Every run returns a value, through a channel that
also carries an error value: what it returns is good if `success` holds, and the error value
otherwise. Then all values returned are good exactly if `success` holds or the error value
happens to be good. -/
theorem Ensures.returned_good_iff {ω : Type w} {returned : σ → Option ω} {success : Prop}
    {err : ω} {good : ω → Prop} (h : S.Ensures fun s => ∃ v, returned s = some v)
    (hinit : ∃ s, S.Init s)
    (hvalue : ∀ s, S.Reachable s → ∀ v, returned s = some v →
      (¬ success ∧ v = err) ∨ (success ∧ good v)) :
    (∀ s, S.Reachable s → ∀ v, returned s = some v → good v) ↔ success ∨ good err := by
  constructor
  · intro hall
    obtain ⟨s₀, hs₀⟩ := hinit
    obtain ⟨s, hs, -, v, hv⟩ := h.exists_stuck (.init hs₀)
    rcases hvalue s hs v hv with ⟨-, rfl⟩ | ⟨hsuccess, -⟩
    · exact Or.inr (hall s hs _ hv)
    · exact Or.inl hsuccess
  · intro hor s hs v hv
    rcases hvalue s hs v hv with ⟨hfail, rfl⟩ | ⟨-, hgood⟩
    · exact hor.resolve_left hfail
    · exact hgood

end System
