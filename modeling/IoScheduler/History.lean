import Mathlib

/-!
# Events justified by their past

A log lists events in the order they happened. `Justified P log` says that each
event stands in the relation `P` to the events before it. The rules below
extend a justified log at its end; a relation that only asks for something in
the past survives every extension. No particular kind of event is assumed.
-/
namespace IoScheduler.History

variable {ε : Type*} {P Q : List ε → ε → Prop} {log new : List ε}

def Justified (P : List ε → ε → Prop) (log : List ε) : Prop :=
  ∀ past e, past ++ [e] <+: log → P past e

theorem Justified.nil : Justified P [] := by
  intro past e h
  simpa using h.length_le

/-- A log with new events is justified when the old one is and each new event
is justified by the old log and the new events before it. -/
theorem justified_append : Justified P (log ++ new) ↔
    Justified P log ∧ ∀ mid e, mid ++ [e] <+: new → P (log ++ mid) e := by
  constructor
  · intro h
    refine ⟨fun past e hp => h past e (hp.trans (List.prefix_append _ _)), fun mid e hm => ?_⟩
    exact h _ e (by rw [List.append_assoc]; exact (List.prefix_append_right_inj log).mpr hm)
  · rintro ⟨hlog, hnew⟩ past e hp
    rcases le_or_gt (past ++ [e]).length log.length with hle | hgt
    · exact hlog past e (List.prefix_of_prefix_length_le hp (List.prefix_append _ _) hle)
    · have hpast : log <+: past := by
        refine List.prefix_of_prefix_length_le (List.prefix_append log new)
          ((List.prefix_append past [e]).trans hp) ?_
        simp only [List.length_append, List.length_singleton] at hgt
        omega
      obtain ⟨mid, rfl⟩ := hpast
      rw [List.append_assoc] at hp
      exact hnew mid e ((List.prefix_append_right_inj log).mp hp)

theorem Justified.mono (h : Justified P log) (hPQ : ∀ past e, P past e → Q past e) :
    Justified Q log := fun past e hp => hPQ _ _ (h past e hp)

/-- Events that need no justification may always follow. -/
theorem Justified.append_free (h : Justified P log) (hnew : ∀ past, ∀ e ∈ new, P past e) :
    Justified P (log ++ new) :=
  justified_append.mpr ⟨h, fun _ e hm => hnew _ e (hm.subset (by simp))⟩

/-- An element that is not in a list splits it in one way only. -/
theorem append_cons_inj_of_notMem {a a' b b' : List ε} {x : ε} (hb : x ∉ b) (hb' : x ∉ b')
    (h : a ++ x :: b = a' ++ x :: b') : a = a' ∧ b = b' := by
  rcases List.append_eq_append_iff.mp h with ⟨c, rfl, hc⟩ | ⟨c, rfl, hc⟩
  · cases c with
    | nil => simpa using hc
    | cons y c =>
        rw [List.cons_append, List.cons.injEq] at hc
        exact absurd (hc.2 ▸ by simp) hb
  · cases c with
    | nil => simpa [eq_comm] using hc
    | cons y c =>
        rw [List.cons_append, List.cons.injEq] at hc
        exact absurd (hc.2 ▸ by simp) hb'

/-- The events after the last one that satisfies `p`. -/
def since (p : ε → Bool) (log : List ε) : List ε := (log.reverse.takeWhile fun e => !p e).reverse

theorem since_append_cons {p : ε → Bool} {before after : List ε} {e : ε} (he : p e = true)
    (hafter : ∀ x ∈ after, p x = false) : since p (before ++ e :: after) = after := by
  have hpos : ∀ x ∈ after.reverse, (!p x) = true := fun x hx => by
    rw [hafter x (List.mem_reverse.mp hx)]
    rfl
  rw [since, List.reverse_append, List.reverse_cons, List.append_assoc,
    List.takeWhile_append_of_pos hpos, List.singleton_append,
    List.takeWhile_cons_of_neg (by simp [he]), List.append_nil, List.reverse_reverse]

/-- Some prefix of a list ends with a given element of it. -/
theorem exists_prefix_of_mem {e : ε} (h : e ∈ log) : ∃ mid, mid ++ [e] <+: log := by
  obtain ⟨mid, rest, rfl⟩ := List.append_of_mem h
  exact ⟨mid, rest, by simp⟩

end IoScheduler.History
