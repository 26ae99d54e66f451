import IoScheduler.Stats

/-!
# The running sums of a bucket

`acc_val` and `acc_time` follow the items of the ring through every update,
modulo `2^64`. As long as the true sum fits into a word the accumulator is the
sum itself, and no eviction takes off more than is there.
-/
namespace IoScheduler
open Machine

/-- Changing one element changes a sum by the difference of its images. -/
theorem sum_map_modify {α : Type*} {l : List α} {i : ℕ} (hi : i < l.length) (d : α) (f : α → ℕ)
    (g : α → α) :
    ((l.modify i g).map f).sum + f (l.getD i d) = (l.map f).sum + f (g (l.getD i d)) := by
  induction l generalizing i with
  | nil => exact absurd hi (Nat.not_lt_zero i)
  | cons x l ih =>
      cases i with
      | zero => simp [Nat.add_comm, Nat.add_left_comm]
      | succ i =>
          have hrec := ih (Nat.lt_of_succ_lt_succ hi)
          simp only [List.modify_succ_cons, List.map_cons, List.sum_cons, List.getD_cons_succ]
          omega

namespace Bucket

/-- The sum of the values in the window. -/
def total (b : Bucket) : ℕ := (b.buf.map BucketItem.val).sum

/-- The sum of the lengths of the intervals in the window. -/
def totalTime (b : Bucket) : ℕ := (b.buf.map BucketItem.elapsed).sum

end Bucket

structure Summed (b : Bucket) : Prop where
  len_pos : 0 < b.len
  length : b.buf.length = b.len
  accVal : b.accVal = u64 b.total
  accTime : b.accTime = u64 b.totalTime

section
variable {b : Bucket} {n val elapsed : ℕ}

theorem summed_statsBucketInit (h : 0 < n) : Summed (statsBucketInit n) := by
  refine ⟨h, List.length_replicate, ?_, ?_⟩ <;>
    simp [statsBucketInit, Bucket.total, Bucket.totalTime, u64]

theorem Summed.index_lt (h : Summed b) (i : ℕ) : i % b.len < b.buf.length := by
  rw [h.length]
  exact Nat.mod_lt i h.len_pos

theorem total_add (h : Summed b) (val : ℕ) :
    (statsBucketAdd b val).total + (b.buf.getD (b.idx % b.len) ⟨0, 0⟩).val =
      b.total + u64 ((b.buf.getD (b.idx % b.len) ⟨0, 0⟩).val + val) :=
  sum_map_modify (h.index_lt b.idx) ⟨0, 0⟩ BucketItem.val _

theorem Summed.add (h : Summed b) : Summed (statsBucketAdd b val) := by
  have hval := total_add h val
  have htime := sum_map_modify (h.index_lt b.idx) ⟨0, 0⟩ BucketItem.elapsed
    fun item => { item with val := u64 (item.val + val) }
  refine ⟨h.len_pos, ?_, ?_, ?_⟩
  · exact (List.length_modify _ _ _).trans h.length
  · change u64 (b.accVal + val) = u64 (statsBucketAdd b val).total
    rw [h.accVal]
    simp only [u64] at hval ⊢
    omega
  · change b.accTime = u64 (statsBucketAdd b val).totalTime
    rw [h.accTime]
    exact congrArg u64 (Nat.add_right_cancel htime).symm

theorem total_add_le (h : Summed b) : (statsBucketAdd b val).total ≤ b.total + val := by
  have hval := total_add h val
  have hle : u64 ((b.buf.getD (b.idx % b.len) ⟨0, 0⟩).val + val) ≤ _ := Nat.mod_le _ _
  omega

theorem statsBucketMove_buf :
    (statsBucketMove b elapsed).buf =
      b.buf.modify (u32 (b.idx + 1) % b.len) fun _ => ⟨0, elapsed⟩ :=
  List.set_eq_modify _ _ _

theorem total_move (h : Summed b) (elapsed : ℕ) :
    (statsBucketMove b elapsed).total + (b.buf.getD (u32 (b.idx + 1) % b.len) ⟨0, 0⟩).val =
      b.total := by
  have := sum_map_modify (h.index_lt (u32 (b.idx + 1))) ⟨0, 0⟩ BucketItem.val
    fun _ => ⟨0, elapsed⟩
  rwa [← statsBucketMove_buf] at this

theorem totalTime_move (h : Summed b) (elapsed : ℕ) :
    (statsBucketMove b elapsed).totalTime +
      (b.buf.getD (u32 (b.idx + 1) % b.len) ⟨0, 0⟩).elapsed = b.totalTime + elapsed := by
  have := sum_map_modify (h.index_lt (u32 (b.idx + 1))) ⟨0, 0⟩ BucketItem.elapsed
    fun _ => ⟨0, elapsed⟩
  rwa [← statsBucketMove_buf] at this

theorem Summed.move (h : Summed b) : Summed (statsBucketMove b elapsed) := by
  have hval := total_move h elapsed
  have htime := totalTime_move h elapsed
  refine ⟨h.len_pos, (List.length_set).trans h.length, ?_, ?_⟩
  · change sub64 b.accVal (b.buf.getD (u32 (b.idx + 1) % b.len) ⟨0, 0⟩).val = _
    rw [h.accVal]
    simp only [sub64, u64]
    omega
  · change u64 (sub64 b.accTime (b.buf.getD (u32 (b.idx + 1) % b.len) ⟨0, 0⟩).elapsed +
      elapsed) = _
    rw [h.accTime]
    simp only [sub64, u64]
    omega

theorem total_move_le (h : Summed b) : (statsBucketMove b elapsed).total ≤ b.total := by
  have := total_move h elapsed
  omega

/-- A sum that fits into a word is the accumulator. -/
theorem Summed.accVal_eq (h : Summed b) (hfit : b.total < 2 ^ 64) : b.accVal = b.total :=
  h.accVal.trans (u64_of_lt hfit)

end

end IoScheduler
