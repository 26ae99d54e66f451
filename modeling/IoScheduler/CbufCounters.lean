import IoScheduler.Cbuf
import IoScheduler.Transition

/-!
# The free-running counters of the ring buffer

`head` and `tail` only ever grow and wrap at `2^32`. The totals advanced at the
two ends are kept here as numbers that do not wrap; the counters are their
images, and every difference the code computes is exact since at most `len`
items lie between the two ends.
-/
namespace IoScheduler
open Machine Transition

inductive CbufAct where
  | advanceTail (n : ℕ)
  | advanceHead (n : ℕ)
  deriving DecidableEq, Repr

def cbufStep (c : Cbuf) : CbufAct → Option Cbuf
  | .advanceTail n => some (cbufAdvanceTail c n)
  | .advanceHead n => some (cbufAdvanceHead c n)

/-- Each end advances by at most what the other end leaves to it. -/
def WithinCounts (c : Cbuf) : CbufAct → Prop
  | .advanceTail n => n ≤ cbufFreeCount c
  | .advanceHead n => n ≤ cbufUsedCount c

instance : ∀ c a, Decidable (WithinCounts c a)
  | _, .advanceTail _ => inferInstanceAs (Decidable (_ ≤ _))
  | _, .advanceHead _ => inferInstanceAs (Decidable (_ ≤ _))

def CbufAct.atTail : CbufAct → ℕ
  | .advanceTail n => n
  | .advanceHead _ => 0

def CbufAct.atHead : CbufAct → ℕ
  | .advanceTail _ => 0
  | .advanceHead n => n

/-- The total advanced at the tail. -/
def tailTotal (as : List CbufAct) : ℕ := (as.map CbufAct.atTail).sum

/-- The total advanced at the head. -/
def headTotal (as : List CbufAct) : ℕ := (as.map CbufAct.atHead).sum

@[simp] theorem tailTotal_append (as : List CbufAct) (a : CbufAct) :
    tailTotal (as ++ [a]) = tailTotal as + a.atTail := by
  simp [tailTotal]

@[simp] theorem headTotal_append (as : List CbufAct) (a : CbufAct) :
    headTotal (as ++ [a]) = headTotal as + a.atHead := by
  simp [headTotal]

/-- The counters are the totals, wrapped, and the ring is never overrun. -/
structure Counters (len T H : ℕ) (c : Cbuf) : Prop where
  len_eq : c.len = len
  tail : c.tail = u32 T
  head : c.head = u32 H
  head_le : H ≤ T
  room : T - H ≤ len

theorem counters_cbufInit (itemSize len : ℕ) : Counters len 0 0 (cbufInit itemSize len) :=
  ⟨rfl, rfl, rfl, le_rfl, Nat.zero_le _⟩

section
variable {len T H n : ℕ} {c d : Cbuf}

theorem Counters.used (h : Counters len T H c) (hlen : len < 2 ^ 32) :
    cbufUsedCount c = T - H := by
  have hle := h.head_le
  have hroom := h.room
  rw [cbufUsedCount, h.tail, h.head]
  simp only [sub32, u32]
  omega

theorem Counters.free (h : Counters len T H c) (hlen : len < 2 ^ 32) :
    cbufFreeCount c = len - (T - H) := by
  have hused : sub32 c.tail c.head = T - H := h.used hlen
  rw [cbufFreeCount, hused, h.len_eq]
  exact sub32_of_le hlen h.room

theorem Counters.step {a : CbufAct} (h : Counters len T H c) (hlen : len < 2 ^ 32)
    (ha : WithinCounts c a) (hs : cbufStep c a = some d) :
    Counters len (T + a.atTail) (H + a.atHead) d := by
  have hle := h.head_le
  have hroom := h.room
  cases a with
  | advanceTail n =>
      obtain rfl := Option.some.inj hs
      have hn : n ≤ len - (T - H) := (h.free hlen).subst (motive := fun m => n ≤ m) ha
      refine ⟨h.len_eq, ?_, h.head, ?_, ?_⟩
      · change u32 (c.tail + n) = u32 (T + n)
        rw [h.tail, u32_add]
      · simp only [CbufAct.atTail, CbufAct.atHead]
        omega
      · simp only [CbufAct.atTail, CbufAct.atHead]
        omega
  | advanceHead n =>
      obtain rfl := Option.some.inj hs
      have hn : n ≤ T - H := (h.used hlen).subst (motive := fun m => n ≤ m) ha
      refine ⟨h.len_eq, h.tail, ?_, ?_, ?_⟩
      · change u32 (c.head + n) = u32 (H + n)
        rw [h.head, u32_add]
      · simp only [CbufAct.atTail, CbufAct.atHead]
        omega
      · simp only [CbufAct.atTail, CbufAct.atHead]
        omega

theorem Counters.isFull_iff (h : Counters len T H c) (hlen : len < 2 ^ 32) :
    cbufIsFull c = true ↔ T - H = len := by
  have hroom := h.room
  rw [cbufIsFull, h.free hlen, beq_iff_eq]
  omega

theorem Counters.isEmpty_iff (h : Counters len T H c) (hlen : len < 2 ^ 32) :
    cbufIsEmpty c = true ↔ T - H = 0 := by
  have hle := h.head_le
  have hroom := h.room
  rw [cbufIsEmpty, h.tail, h.head, beq_iff_eq]
  simp only [u32]
  omega

/-- `cbuf_idx` divides by `len - 1`. -/
theorem cbufIdx_isSome_iff (hlen : c.len < 2 ^ 32) (index : ℕ) :
    (∃ start, cbufIdx c index = some start) ↔ c.len ≠ 1 := by
  have hzero : sub32 c.len 1 = 0 ↔ c.len = 1 := by
    simp only [sub32, u32]
    omega
  unfold cbufIdx
  by_cases hone : c.len = 1
  · rw [if_pos (hzero.mpr hone)]
    simp [hone]
  · rw [if_neg (mt hzero.mp hone)]
    simp [hone]

end

theorem counters_of_run {itemSize len : ℕ} {as : List CbufAct} {c : Cbuf} (hlen : len < 2 ^ 32)
    (h : Run cbufStep WithinCounts (cbufInit itemSize len) as c) :
    Counters len (tailTotal as) (headTotal as) c := by
  induction h with
  | nil => exact counters_cbufInit itemSize len
  | snoc _ ha hs ih =>
      rw [tailTotal_append, headTotal_append]
      exact ih.step hlen ha hs

/-- The four counting functions are exact in every run, and `cbuf_get` and
`cbuf_put` return the same numbers, except that with one item they divide by zero. -/
theorem counts_exact {itemSize len : ℕ} {as : List CbufAct} {c : Cbuf} (hlen : len < 2 ^ 32)
    (h : Run cbufStep WithinCounts (cbufInit itemSize len) as c) :
    (headTotal as ≤ tailTotal as ∧ tailTotal as - headTotal as ≤ len ∧
      cbufUsedCount c = tailTotal as - headTotal as ∧
      cbufFreeCount c = len - (tailTotal as - headTotal as) ∧
      (cbufIsFull c = true ↔ tailTotal as - headTotal as = len) ∧
      (cbufIsEmpty c = true ↔ tailTotal as - headTotal as = 0)) ∧
    (((∃ start, cbufGet c = some (start, tailTotal as - headTotal as)) ∧
        ∃ start, cbufPut c = some (start, len - (tailTotal as - headTotal as))) ↔
      len ≠ 1) := by
  have hc := counters_of_run hlen h
  have hidx := cbufIdx_isSome_iff (c := c) (hc.len_eq ▸ hlen)
  rw [hc.len_eq] at hidx
  refine ⟨⟨hc.head_le, hc.room, hc.used hlen, hc.free hlen, hc.isFull_iff hlen,
    hc.isEmpty_iff hlen⟩, ?_⟩
  simp only [cbufGet_eq_some, cbufPut_eq_some, hc.used hlen, hc.free hlen, and_true, hidx,
    and_self]

/-- The tail has wrapped to zero and the ring is half full. -/
theorem counts_exact_wrapped :
    ∃ as c, Run cbufStep WithinCounts (cbufInit 1 (2 ^ 31)) as c ∧ c.tail = 0 ∧
      tailTotal as - headTotal as = 2 ^ 31 ∧ cbufUsedCount c = 2 ^ 31 ∧
      ∃ start, cbufGet c = some (start, 2 ^ 31) := by
  obtain ⟨c, ⟨as, hc⟩, hp⟩ : ∃ c, Reachable cbufStep WithinCounts (cbufInit 1 (2 ^ 31)) c ∧
      decide (c.tail = 0 ∧ cbufUsedCount c = 2 ^ 31) = true :=
    exists_of_execute [.advanceTail (2 ^ 31), .advanceHead (2 ^ 31), .advanceTail (2 ^ 31)] _
      (by decide +kernel)
  obtain ⟨htail, hused⟩ := of_decide_eq_true hp
  obtain ⟨⟨-, -, hu, -⟩, hres⟩ := counts_exact (by decide) hc
  obtain ⟨hget, -⟩ := hres.mpr (by decide)
  have htotal : tailTotal as - headTotal as = 2 ^ 31 := hu.symm.trans hused
  rw [htotal] at hget
  exact ⟨as, c, hc, htail, htotal, hused, hget⟩

/-- With one item `cbuf_get` and `cbuf_put` have no result. -/
theorem one_item_divides_by_zero :
    ∃ c, Reachable cbufStep WithinCounts (cbufInit 16 1) c ∧ cbufUsedCount c = 1 ∧
      cbufGet c = none ∧ cbufPut c = none := by
  obtain ⟨c, hc, hp⟩ : ∃ c, Reachable cbufStep WithinCounts (cbufInit 16 1) c ∧
      decide (cbufUsedCount c = 1 ∧ cbufGet c = none ∧ cbufPut c = none) = true :=
    exists_of_execute [.advanceTail 1] _ (by decide +kernel)
  exact ⟨c, hc, of_decide_eq_true hp⟩

end IoScheduler
