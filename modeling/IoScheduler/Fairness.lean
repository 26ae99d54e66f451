import IoScheduler.Transition

/-!
# Infinite guarded runs

A trace lists the states and labels of a run that never ends. It is fair when
whatever a state owes is served at some later time. The rule of helpful
obligations: if a rank falls with every step that changes a view of the state,
and as long as the goal is not reached something is owed whose service changes
the view, then the goal is reached. Nothing here names a particular system.
-/
namespace IoScheduler.Transition

variable {σ α ε ν : Type*} {step : σ → α → Option σ} {C : σ → α → Prop} {s t : σ}

/-- A guarded run without end. -/
structure Trace (step : σ → α → Option σ) (C : σ → α → Prop) (s : σ) where
  state : ℕ → σ
  label : ℕ → α
  start : state 0 = s
  guard : ∀ n, C (state n) (label n)
  next : ∀ n, step (state n) (label n) = some (state (n + 1))

theorem Trace.reachable (r : Trace step C s) (n : ℕ) : Reachable step C s (r.state n) := by
  induction n with
  | zero =>
      rw [r.start]
      exact .start
  | succ n ih => exact ih.next (r.guard n) (r.next n)

/-- What each step from some time on keeps holds from then on. -/
theorem Trace.keeps (r : Trace step C s) {I : σ → Prop} {n : ℕ} (h : I (r.state n))
    (hstep : ∀ m ≥ n, I (r.state m) → I (r.state (m + 1))) {m : ℕ} (hle : n ≤ m) :
    I (r.state m) := by
  induction hle with
  | refl => exact h
  | step hle ih => exact hstep _ hle ih

/-- Whatever a state owes is served later. -/
def Trace.Fair (r : Trace step C s) (owes : σ → ε → Prop) (serves : α → ε → Prop) : Prop :=
  ∀ n e, owes (r.state n) e → ∃ m, n ≤ m ∧ serves (r.label m) e

section
variable {owes : σ → ε → Prop} {serves : α → ε → Prop}

/-- From time `N` on a rank of the view falls with every change of the view, and short
of the goal something is owed whose service changes the view. -/
structure Trace.Ranked (r : Trace step C s) (owes : σ → ε → Prop) (serves : α → ε → Prop)
    (goal : σ → Prop) (view : σ → ν) (rank : ν → ℕ) (helpful : ν → ε → Prop) (N : ℕ) : Prop where
  falls : ∀ n ≥ N, rank (view (r.state (n + 1))) < rank (view (r.state n)) ∨
    view (r.state (n + 1)) = view (r.state n)
  owed : ∀ n ≥ N, goal (r.state n) ∨ ∃ e, owes (r.state n) e ∧ helpful (view (r.state n)) e
  changes : ∀ n ≥ N, ∀ e, serves (r.label n) e → helpful (view (r.state n)) e →
    view (r.state (n + 1)) ≠ view (r.state n)

/-- The rule of helpful obligations, by induction on the rank: until what is owed is
served, the rank falls or the view stays, and so does what is helpful. -/
theorem Trace.Fair.eventually {r : Trace step C s} {goal : σ → Prop} {view : σ → ν}
    {rank : ν → ℕ} {helpful : ν → ε → Prop} {N n : ℕ} (hfair : r.Fair owes serves)
    (h : r.Ranked owes serves goal view rank helpful N) (hn : N ≤ n) :
    ∃ m, n ≤ m ∧ goal (r.state m) := by
  induction hk : rank (view (r.state n)) using Nat.strong_induction_on generalizing n with
  | _ k ih =>
      rcases h.owed n hn with hgoal | ⟨e, howed, hhelps⟩
      · exact ⟨n, le_rfl, hgoal⟩
      · obtain ⟨m, hm, hserved⟩ := hfair n e howed
        have huntil : rank (view (r.state m)) < rank (view (r.state n)) ∨
            view (r.state m) = view (r.state n) := by
          refine r.keeps (I := fun u => rank (view u) < rank (view (r.state n)) ∨
            view u = view (r.state n)) (.inr rfl) (fun i hi hsame => ?_) hm
          rcases h.falls i (hn.trans hi) with hless | heq
          · rcases hsame with hlow | hview
            · exact .inl (hless.trans hlow)
            · exact .inl (hview ▸ hless)
          · rwa [heq]
        have hrest : ∀ l ≥ n, rank (view (r.state l)) < k → ∃ m, n ≤ m ∧ goal (r.state m) := by
          intro l hl hlow
          obtain ⟨j, hj, hgoal⟩ := ih _ hlow (hn.trans hl) rfl
          exact ⟨j, hl.trans hj, hgoal⟩
        rcases huntil with hlow | hview
        · exact hrest m hm (hk ▸ hlow)
        · have hmN := hn.trans hm
          have hchange := h.changes m hmN e hserved (hview ▸ hhelps)
          have hless := (h.falls m hmN).resolve_right hchange
          exact hrest (m + 1) (hm.trans (Nat.le_succ m)) (by rwa [hview, hk] at hless)

/-! ## Traces that exist -/

/-- A choice of labels that keeps an invariant and never gets stuck runs forever. -/
theorem Trace.exists_of_scheduler {I : σ → Prop} (next : σ → α) (h₀ : I s)
    (h : ∀ s, I s → C s (next s) ∧ ∃ t, step s (next s) = some t ∧ I t) :
    ∃ r : Trace step C s, ∀ n, I (r.state n) ∧ r.label n = next (r.state n) := by
  choose! succ hsucc using fun s hs => (h s hs).2
  have hI : ∀ n, I (succ^[n] s) := fun n => by
    induction n with
    | zero => exact h₀
    | succ n ih =>
        rw [Function.iterate_succ_apply']
        exact (hsucc _ ih).2
  refine ⟨⟨fun n => succ^[n] s, fun n => next (succ^[n] s), rfl, fun n => (h _ (hI n)).1,
    fun n => ?_⟩, fun n => ⟨hI n, rfl⟩⟩
  rw [Function.iterate_succ_apply']
  exact (hsucc _ (hI n)).1

/-- What is owed stays owed until it is served. -/
def Persistent (step : σ → α → Option σ) (owes : σ → ε → Prop) (serves : α → ε → Prop) : Prop :=
  ∀ s a t e, step s a = some t → owes s e → serves a e ∨ owes t e

/-- A step before a trace. -/
def Trace.cons {a : α} (hc : C s a) (hs : step s a = some t) (r : Trace step C t) :
    Trace step C s where
  state n := n.casesOn s r.state
  label n := n.casesOn a r.label
  start := rfl
  guard n := by
    cases n with
    | zero => exact hc
    | succ n => exact r.guard n
  next n := by
    cases n with
    | zero => exact hs.trans (congrArg some r.start.symm)
    | succ n => exact r.next n

theorem Trace.Fair.cons {a : α} {hc : C s a} {hs : step s a = some t} {r : Trace step C t}
    (h : r.Fair owes serves) (hkept : Persistent step owes serves) :
    (Trace.cons hc hs r).Fair owes serves := by
  have hlater : ∀ n e, owes (r.state n) e → ∃ m, n + 1 ≤ m ∧
      serves ((Trace.cons hc hs r).label m) e := by
    intro n e howed
    obtain ⟨m, hm, hserved⟩ := h n e howed
    exact ⟨m + 1, Nat.succ_le_succ hm, hserved⟩
  intro n e howed
  cases n with
  | zero =>
      rcases hkept s a t e hs howed with hserved | howed
      · exact ⟨0, le_rfl, hserved⟩
      · obtain ⟨m, -, hserved⟩ := hlater 0 e (r.start.symm ▸ howed)
        exact ⟨m, Nat.zero_le m, hserved⟩
  | succ n => exact hlater n e howed

/-- A run before a fair trace makes a fair trace. -/
theorem Run.exists_fair {as : List α} (h : Run step C s as t)
    (hkept : Persistent step owes serves) (r : Trace step C t) (hfair : r.Fair owes serves) :
    ∃ r' : Trace step C s, r'.Fair owes serves := by
  induction h with
  | nil => exact ⟨r, hfair⟩
  | snoc _ hc hs ih => exact ih (Trace.cons hc hs r) (hfair.cons hkept)

end

end IoScheduler.Transition
