import IoScheduler.Cbuf

/-!
# The windows of the ring buffer and its mapping

`cbuf_put` and `cbuf_get` hand out a start and a count. The start is less than
`len` bytes into the buffer and the counts are at most `len`, so both windows
end inside the two mappings as soon as one mapping takes `len` items. It does
unless the product or its rounding to pages wraps; and a ring of one item has
no start at all.
-/
namespace IoScheduler
open Machine

variable {c : Cbuf}

/-- The product is exact, no counter is reduced modulo zero, and the windows of
both ends lie inside the mapped bytes. -/
def FitsMapping (c : Cbuf) : Prop :=
  c.len * c.itemSize < 2 ^ 32 ∧ ∃ p g, cbufPut c = some p ∧ cbufGet c = some g ∧
    p.1 + p.2 * c.itemSize ≤ 2 * cbufSz c.itemSize c.len ∧
    g.1 + g.2 * c.itemSize ≤ 2 * cbufSz c.itemSize c.len

theorem cbufIdx_eq (hlen : 2 ≤ c.len) (hlt : c.len < 2 ^ 32) (index : ℕ) :
    cbufIdx c index = some (index % (c.len - 1)) := by
  have hsub : sub32 c.len 1 = c.len - 1 := sub32_of_le hlt (by omega)
  rw [cbufIdx, hsub, if_neg (by omega)]

/-- A mapping takes all items while rounding up to pages does not wrap. -/
theorem le_cbufSz {itemSize len : ℕ} (h : len * itemSize + 4095 < 2 ^ 32) :
    len * itemSize ≤ cbufSz itemSize len := by
  have hprod : u32 (len * itemSize) = len * itemSize := u32_of_lt (by omega)
  have hround : u32 (len * itemSize + (pageSz - 1)) = len * itemSize + 4095 := u32_of_lt h
  rw [cbufSz, hprod, pageAlign, hround]
  simp only [pageSz]
  omega

theorem cbufSz_wrapped {itemSize len : ℕ} (h : len * itemSize < 2 ^ 32)
    (hwrap : 2 ^ 32 ≤ len * itemSize + 4095) : cbufSz itemSize len = 0 := by
  have hprod : u32 (len * itemSize) = len * itemSize := u32_of_lt h
  rw [cbufSz, hprod, pageAlign]
  simp only [pageSz, u32]
  omega

/-- A window of at most `len` items. -/
theorem window_le {count start : ℕ} (hitem : 1 ≤ c.itemSize) (hcount : count ≤ c.len)
    (hstart : start < c.len) (h : c.len * c.itemSize + 4095 < 2 ^ 32) :
    start + count * c.itemSize ≤ 2 * cbufSz c.itemSize c.len := by
  have hsz := le_cbufSz h
  have hitems : count * c.itemSize ≤ c.len * c.itemSize := Nat.mul_le_mul_right _ hcount
  have hbytes : c.len ≤ c.len * c.itemSize := Nat.le_mul_of_pos_right _ hitem
  omega

theorem fits_mapping_iff (hlen : 1 ≤ c.len) (hlt : c.len < 2 ^ 32) (hitem : 1 ≤ c.itemSize)
    (hused : sub32 c.tail c.head ≤ c.len) :
    FitsMapping c ↔ 2 ≤ c.len ∧ c.len * c.itemSize + 4095 < 2 ^ 32 := by
  have hfree : cbufFreeCount c + cbufUsedCount c = c.len := by
    rw [cbufFreeCount, cbufUsedCount, sub32_of_le hlt hused]
    omega
  constructor
  · rintro ⟨hprod, p, g, hput, hget, hp, hg⟩
    obtain ⟨hidx, hpcount⟩ := cbufPut_eq_some.mp hput
    obtain ⟨-, hgcount⟩ := cbufGet_eq_some.mp hget
    have htwo : 2 ≤ c.len := by
      by_contra hone
      have hzero : sub32 c.len 1 = 0 := by
        rw [sub32_of_le hlt hlen]
        omega
      rw [cbufIdx, if_pos hzero] at hidx
      cases hidx
    refine ⟨htwo, ?_⟩
    by_contra hwrap
    rw [cbufSz_wrapped hprod (not_lt.mp hwrap), hpcount] at hp
    rw [cbufSz_wrapped hprod (not_lt.mp hwrap), hgcount] at hg
    -- one of the counts is positive, and nothing is mapped
    have hfreeLe : cbufFreeCount c ≤ cbufFreeCount c * c.itemSize :=
      Nat.le_mul_of_pos_right _ hitem
    have husedLe : cbufUsedCount c ≤ cbufUsedCount c * c.itemSize :=
      Nat.le_mul_of_pos_right _ hitem
    omega
  · rintro ⟨htwo, hround⟩
    have hput : cbufPut c = some (c.tail % (c.len - 1), cbufFreeCount c) :=
      cbufPut_eq_some.mpr ⟨cbufIdx_eq htwo hlt _, rfl⟩
    have hget : cbufGet c = some (c.head % (c.len - 1), cbufUsedCount c) :=
      cbufGet_eq_some.mpr ⟨cbufIdx_eq htwo hlt _, rfl⟩
    have hstart : ∀ index, index % (c.len - 1) < c.len := fun index => by
      have hmod := Nat.mod_lt index (show 0 < c.len - 1 by omega)
      omega
    exact ⟨by omega, _, _, hput, hget, window_le hitem (by omega) (hstart _) hround,
      window_le hitem (by omega) (hstart _) hround⟩

theorem fits_mapping_iff_tracing : FitsMapping ⟨1000, 40, 2 ^ 32 - 3, 5⟩ :=
  (fits_mapping_iff (by decide) (by decide) (by decide) (by decide)).mpr (by decide)

/-- A ring of one item divides by zero. -/
theorem single_item_ring_faults : cbufPut (cbufInit 40 1) = none ∧
    ¬ FitsMapping (cbufInit 40 1) := by
  have hput : cbufPut (cbufInit 40 1) = none := by decide
  refine ⟨hput, ?_⟩
  rintro ⟨-, p, g, hsome, -⟩
  rw [hput] at hsome
  cases hsome

end IoScheduler
