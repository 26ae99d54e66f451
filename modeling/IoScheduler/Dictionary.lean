import Mathlib

/-!
# Dictionaries

A partial map from keys to values that takes a key it does not have and gives up
one it has, and the lists of entries that stand for such a map. What a store
keeps in order is compared with the map through `Lists`. Nothing here names a
particular store.
-/
namespace IoScheduler.Dictionary

variable {κ ν : Type*}

inductive Op (κ ν : Type*)
  | insert (key : κ) (value : ν)
  | delete (key : κ)

section
variable [DecidableEq κ]

/-- A key is inserted only when it is missing and deleted only when it is there. -/
def step (f : κ → Option ν) : Op κ ν → Option (κ → Option ν)
  | .insert key value =>
      if (f key).isNone then some (Function.update f key (some value)) else none
  | .delete key => if (f key).isSome then some (Function.update f key none) else none

theorem step_insert {f : κ → Option ν} {key : κ} {value : ν} (h : f key = none) :
    step f (.insert key value) = some (Function.update f key (some value)) := by
  rw [step, h]
  rfl

theorem step_delete {f : κ → Option ν} {key : κ} (h : f key ≠ none) :
    step f (.delete key) = some (Function.update f key none) := by
  rw [step, if_pos (Option.isSome_iff_ne_none.mpr h)]

theorem step_insert_isSome {f : κ → Option ν} {key : κ} {value : ν} :
    (step f (.insert key value)).isSome ↔ f key = none := by
  rw [step]
  cases f key <;> simp

theorem step_delete_isSome {f : κ → Option ν} {key : κ} :
    (step f (.delete key)).isSome ↔ f key ≠ none := by
  rw [step]
  cases f key <;> simp

end

/-- The entries are those of the map. -/
def Lists (es : List (κ × ν)) (f : κ → Option ν) : Prop := ∀ k v, (k, v) ∈ es ↔ f k = some v

section
variable {es xs ys : List (κ × ν)} {f : κ → Option ν} {key : κ} {value : ν}

theorem Lists.mem_keys (h : Lists es f) : key ∈ es.map Prod.fst ↔ f key ≠ none := by
  rw [Option.ne_none_iff_exists', List.mem_map]
  constructor
  · rintro ⟨⟨k, v⟩, hmem, rfl⟩
    exact ⟨v, (h k v).mp hmem⟩
  · rintro ⟨v, hv⟩
    exact ⟨(key, v), (h key v).mpr hv, rfl⟩

variable [DecidableEq κ]

theorem Lists.insert (h : Lists (xs ++ ys) f) (hkey : f key = none) :
    Lists (xs ++ (key, value) :: ys) (Function.update f key (some value)) := by
  intro k v
  have hmem : (k, v) ∈ xs ++ (key, value) :: ys ↔ (k, v) = (key, value) ∨ (k, v) ∈ xs ++ ys := by
    rw [List.perm_middle.mem_iff, List.mem_cons]
  rw [hmem, h, Prod.mk.injEq]
  by_cases hk : k = key
  · subst hk
    rw [Function.update_self, hkey]
    constructor
    · rintro (⟨-, rfl⟩ | hnone)
      · rfl
      · cases hnone
    · intro hv
      exact .inl ⟨rfl, (Option.some.inj hv).symm⟩
  · rw [Function.update_of_ne hk]
    exact or_iff_right fun hboth => hk hboth.1

theorem Lists.delete (h : Lists es f) :
    Lists (es.filter fun e => e.1 ≠ key) (Function.update f key none) := by
  intro k v
  rw [List.mem_filter, h, decide_eq_true_iff]
  by_cases hk : k = key
  · subst hk
    rw [Function.update_self]
    exact iff_of_false (fun hboth => hboth.2 rfl) fun hnone => by cases hnone
  · rw [Function.update_of_ne hk]
    exact and_iff_left hk

end

end IoScheduler.Dictionary
