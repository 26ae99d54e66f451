import Mathlib

/-!
# Guarded runs of a partial labelled step

A system is a partial function from a state and a label to the next state. A
run lists its labels in order; the guard `C` is a condition on the state before
each step and on its label, so that one relation serves for every run, for the
runs of a well-behaved environment and for the runs that avoid a defect. The
induction rules below are the only ones the developments built on this file
need. Nothing here names a particular system.
-/
namespace IoScheduler.Transition

variable {σ α : Type*}

/-- `Run step C s as t`: the labels `as` lead from `s` to `t`, and the guard
held before every step. -/
inductive Run (step : σ → α → Option σ) (C : σ → α → Prop) (s : σ) : List α → σ → Prop
  | nil : Run step C s [] s
  | snoc {as : List α} {t u : σ} {a : α} : Run step C s as t → C t a → step t a = some u →
      Run step C s (as ++ [a]) u

/-- The states some guarded run reaches. -/
def Reachable (step : σ → α → Option σ) (C : σ → α → Prop) (s t : σ) : Prop :=
  ∃ as, Run step C s as t

section
variable {step : σ → α → Option σ} {C D : σ → α → Prop} {s t u : σ} {as bs : List α}

/-- A weaker guard admits every run. -/
theorem Run.mono (h : Run step C s as t) (hCD : ∀ t a, C t a → D t a) : Run step D s as t := by
  induction h with
  | nil => exact .nil
  | snoc _ hc hs ih => exact .snoc ih (hCD _ _ hc) hs

theorem Run.append (h : Run step C s as t) (k : Run step C t bs u) :
    Run step C s (as ++ bs) u := by
  induction k with
  | nil => simpa only [List.append_nil] using h
  | snoc _ hc hs ih => simpa only [List.append_assoc] using Run.snoc ih hc hs

/-- The invariant rule: what holds at the start and survives each guarded step
holds at the end of every run. -/
theorem Run.invariant {I : σ → Prop} (h : Run step C s as t) (h₀ : I s)
    (hstep : ∀ t a u, I t → C t a → step t a = some u → I u) : I t := by
  induction h with
  | nil => exact h₀
  | snoc _ hc hs ih => exact hstep _ _ _ ih hc hs

theorem Run.unique (h : Run step C s as t) (k : Run step D s as u) : t = u := by
  induction h generalizing u with
  | nil =>
      generalize hbs : ([] : List α) = bs at k
      cases k with
      | nil => rfl
      | snoc _ _ _ => exact absurd hbs (by simp)
  | snoc _ _ hs ih =>
      generalize hbs : _ ++ [_] = bs at k
      cases k with
      | nil => exact absurd hbs (by simp)
      | snoc hrun _ hs' =>
          obtain ⟨rfl, ha⟩ := List.append_inj' hbs rfl
          obtain rfl := (List.cons.inj ha).1
          rw [ih hrun] at hs
          exact Option.some.inj (hs.symm.trans hs')

/-- The simulation rule: a relation that holds at the start, and after each guarded
step with some step of the other system, makes a run of the other system. -/
theorem Run.simulates {τ : Type*} {step' : τ → α → Option τ} {R : σ → τ → Prop} {x : τ}
    (h : Run step C s as t) (h₀ : R s x)
    (hstep : ∀ t y a u, R t y → C t a → step t a = some u → ∃ z, step' y a = some z ∧ R u z) :
    ∃ y, Run step' (fun _ _ => True) x as y ∧ R t y := by
  induction h with
  | nil => exact ⟨x, .nil, h₀⟩
  | snoc _ hc hs ih =>
      obtain ⟨y, hrun, hr⟩ := ih
      obtain ⟨z, hz, hr'⟩ := hstep _ y _ _ hr hc hs
      exact ⟨z, .snoc hrun trivial hz, hr'⟩

theorem Reachable.start : Reachable step C s s := ⟨[], .nil⟩

theorem Reachable.next {a : α} (h : Reachable step C s t) (hc : C t a)
    (hs : step t a = some u) : Reachable step C s u :=
  ⟨_, .snoc h.choose_spec hc hs⟩

theorem Reachable.trans (h : Reachable step C s t) (k : Reachable step C t u) :
    Reachable step C s u :=
  ⟨_, h.choose_spec.append k.choose_spec⟩

theorem Reachable.mono (h : Reachable step C s t) (hCD : ∀ t a, C t a → D t a) :
    Reachable step D s t :=
  ⟨_, h.choose_spec.mono hCD⟩

theorem Reachable.invariant {I : σ → Prop} (h : Reachable step C s t) (h₀ : I s)
    (hstep : ∀ t a u, I t → C t a → step t a = some u → I u) : I t :=
  h.choose_spec.invariant h₀ hstep

/-- The invariant rule with the reached state at hand: a step lemma may use
everything already known of reachable states. -/
theorem Reachable.invariant_reachable {I : σ → Prop} (h : Reachable step C s t) (h₀ : I s)
    (hstep : ∀ t a u, Reachable step C s t → I t → C t a → step t a = some u → I u) : I t := by
  obtain ⟨as, h⟩ := h
  induction h with
  | nil => exact h₀
  | snoc hr hc hs ih => exact hstep _ _ _ ⟨_, hr⟩ ih hc hs

end

/-- Executing a list of labels, checking a decidable guard on the way. -/
def execute (step : σ → α → Option σ) (C : σ → α → Prop) [∀ s a, Decidable (C s a)] :
    σ → List α → Option σ
  | s, [] => some s
  | s, a :: as => if C s a then (step s a).bind fun t => execute step C t as else none

theorem run_of_execute {step : σ → α → Option σ} {C : σ → α → Prop}
    [∀ s a, Decidable (C s a)] {as : List α} {s t : σ} (h : execute step C s as = some t) :
    Run step C s as t := by
  induction as generalizing s with
  | nil =>
      cases h
      exact .nil
  | cons a as ih =>
      simp only [execute] at h
      split_ifs at h with hc
      obtain ⟨u, hu, ht⟩ := Option.bind_eq_some_iff.mp h
      exact (Run.snoc .nil hc hu).append (ih ht)

/-- A run found by evaluation, with what a test says of its last state. -/
theorem exists_run_of_execute {step : σ → α → Option σ} {C : σ → α → Prop}
    [∀ s a, Decidable (C s a)] (as : List α) {s : σ} (p : σ → Bool)
    (h : (execute step C s as).any p = true) : ∃ t, Run step C s as t ∧ p t = true := by
  cases hr : execute step C s as with
  | none =>
      rw [hr] at h
      cases h
  | some t =>
      rw [hr] at h
      exact ⟨t, run_of_execute hr, h⟩

theorem exists_of_execute {step : σ → α → Option σ} {C : σ → α → Prop}
    [∀ s a, Decidable (C s a)] (as : List α) {s : σ} (p : σ → Bool)
    (h : (execute step C s as).any p = true) : ∃ t, Reachable step C s t ∧ p t = true := by
  obtain ⟨t, hr, hp⟩ := exists_run_of_execute as p h
  exact ⟨t, ⟨as, hr⟩, hp⟩

end IoScheduler.Transition
