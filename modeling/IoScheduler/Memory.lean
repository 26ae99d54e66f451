import Mathlib

/-!
# Byte memory behind an address translation

Cells of any type are addressed through a translation `tr` from virtual to
physical addresses, so that two mappings of one buffer are two ranges with the
same images. `write` and `read` go through consecutive virtual addresses. The
rules say when a read sees a write, and when it does not.
-/
namespace IoScheduler.Memory

variable {α : Type*} {tr : ℕ → ℕ} {mem : ℕ → α} {a b n m : ℕ} {bytes : List α}

def write (tr : ℕ → ℕ) (mem : ℕ → α) (a : ℕ) : List α → ℕ → α
  | [] => mem
  | x :: xs => write tr (Function.update mem (tr a) x) (a + 1) xs

def read (tr : ℕ → ℕ) (mem : ℕ → α) (a : ℕ) : ℕ → List α
  | 0 => []
  | n + 1 => mem (tr a) :: read tr mem (a + 1) n

@[simp] theorem length_read : (read tr mem a n).length = n := by
  induction n generalizing a with
  | zero => rfl
  | succ n ih => rw [read, List.length_cons, ih]

theorem write_append (xs ys : List α) :
    write tr mem a (xs ++ ys) = write tr (write tr mem a xs) (a + xs.length) ys := by
  induction xs generalizing mem a with
  | nil => rfl
  | cons x xs ih =>
      rw [List.cons_append, write, ih, write, List.length_cons, Nat.add_right_comm, Nat.add_assoc]

/-- A physical address the write does not touch keeps its cell. -/
theorem write_of_ne {p : ℕ} (h : ∀ j < bytes.length, tr (a + j) ≠ p) :
    write tr mem a bytes p = mem p := by
  induction bytes generalizing mem a with
  | nil => rfl
  | cons x xs ih =>
      have hhead : p ≠ tr a := (h 0 (Nat.zero_lt_succ _)).symm
      rw [write, ih fun j hj => ?_, Function.update_of_ne hhead]
      rw [Nat.add_right_comm, Nat.add_assoc]
      exact h (j + 1) (Nat.succ_lt_succ hj)

/-- A read that meets no address of the write sees the old cells. -/
theorem read_write_of_disjoint
    (h : ∀ i < n, ∀ j < bytes.length, tr (b + j) ≠ tr (a + i)) :
    read tr (write tr mem b bytes) a n = read tr mem a n := by
  induction n generalizing a with
  | zero => rfl
  | succ n ih =>
      have hhead : write tr mem b bytes (tr a) = mem (tr a) := write_of_ne (h 0 n.succ_pos)
      rw [read, read, hhead, ih fun i hi j hj => ?_]
      rw [Nat.add_right_comm, Nat.add_assoc]
      exact h (i + 1) (Nat.succ_lt_succ hi) j hj

/-- A read of what was just written, through addresses that do not collide. -/
theorem read_write_self
    (h : ∀ i < bytes.length, ∀ j < bytes.length, tr (a + i) = tr (a + j) → i = j) :
    read tr (write tr mem a bytes) a bytes.length = bytes := by
  induction bytes generalizing mem a with
  | nil => rfl
  | cons x xs ih =>
      have hhead : write tr (Function.update mem (tr a) x) (a + 1) xs (tr a) = x := by
        rw [write_of_ne fun j hj heq => ?_, Function.update_self]
        have hcoll : tr (a + (j + 1)) = tr (a + 0) := by
          rwa [Nat.add_zero, Nat.add_comm j, ← Nat.add_assoc]
        exact absurd (h (j + 1) (Nat.succ_lt_succ hj) 0 xs.length.succ_pos hcoll) j.succ_ne_zero
      have htail : read tr (write tr (Function.update mem (tr a) x) (a + 1) xs) (a + 1)
          xs.length = xs := ih fun i hi j hj heq => by
        have := h (i + 1) (Nat.succ_lt_succ hi) (j + 1) (Nat.succ_lt_succ hj)
          (by simpa only [Nat.add_assoc, Nat.add_comm 1] using heq)
        omega
      rw [List.length_cons, read, write, hhead, htail]

/-- Two virtual ranges with the same images read the same. -/
theorem read_congr (h : ∀ i < n, tr (a + i) = tr (b + i)) : read tr mem a n = read tr mem b n := by
  induction n generalizing a b with
  | zero => rfl
  | succ n ih =>
      have hhead : tr a = tr b := h 0 (Nat.zero_lt_succ n)
      rw [read, read, hhead, ih fun i hi => ?_]
      rw [Nat.add_right_comm, Nat.add_assoc, Nat.add_right_comm b, Nat.add_assoc b]
      exact h (i + 1) (Nat.succ_lt_succ hi)

theorem read_add : read tr mem a (n + m) = read tr mem a n ++ read tr mem (a + n) m := by
  induction n generalizing a with
  | zero => rw [Nat.zero_add, read, List.nil_append, Nat.add_zero]
  | succ n ih =>
      rw [Nat.add_right_comm, read, ih, read, List.cons_append, Nat.add_right_comm, Nat.add_assoc]

end IoScheduler.Memory
