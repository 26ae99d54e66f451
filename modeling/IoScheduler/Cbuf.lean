import IoScheduler.Machine

/-!
# The mirrored ring buffer

`struct cbuf` keeps free-running 32-bit counters `head` and `tail` over a
buffer of `2 * sz` bytes whose second half is a second mapping of the first.
Pointers are byte offsets from `buf`. `cbuf_idx` reduces a counter modulo
`len - 1` and adds it to a `void *`, that is in bytes; `none` is the division
by zero of a ring of one item.
-/
namespace IoScheduler
open Machine

structure Cbuf where
  len : ℕ
  itemSize : ℕ
  head : ℕ
  tail : ℕ
  deriving DecidableEq, Repr

def pageSz : ℕ := 2 ^ 12

/-- `PAGE_ALIGN` of an unsigned 32-bit word, computed in 32 bits. -/
def pageAlign (x : ℕ) : ℕ := u32 (x + (pageSz - 1)) / pageSz * pageSz

/-- The bytes of one of the two mappings `cbuf_init` makes. -/
def cbufSz (itemSize len : ℕ) : ℕ := pageAlign (u32 (len * itemSize))

def cbufInit (itemSize len : ℕ) : Cbuf := { len, itemSize, head := 0, tail := 0 }

def cbufFreeCount (c : Cbuf) : ℕ := sub32 c.len (sub32 c.tail c.head)

def cbufUsedCount (c : Cbuf) : ℕ := sub32 c.tail c.head

def cbufIsFull (c : Cbuf) : Bool := cbufFreeCount c == 0

def cbufIsEmpty (c : Cbuf) : Bool := c.tail == c.head

def cbufIdx (c : Cbuf) (index : ℕ) : Option ℕ :=
  if sub32 c.len 1 = 0 then none else some (index % sub32 c.len 1)

/-- The start offset stored through `buf`, and the returned count. -/
def cbufPut (c : Cbuf) : Option (ℕ × ℕ) := do
  let start ← cbufIdx c c.tail
  some (start, cbufFreeCount c)

def cbufGet (c : Cbuf) : Option (ℕ × ℕ) := do
  let start ← cbufIdx c c.head
  some (start, cbufUsedCount c)

theorem cbufPut_eq_some {c : Cbuf} {r : ℕ × ℕ} :
    cbufPut c = some r ↔ cbufIdx c c.tail = some r.1 ∧ r.2 = cbufFreeCount c := by
  obtain ⟨start, count⟩ := r
  cases h : cbufIdx c c.tail <;> simp [cbufPut, h, eq_comm]

theorem cbufGet_eq_some {c : Cbuf} {r : ℕ × ℕ} :
    cbufGet c = some r ↔ cbufIdx c c.head = some r.1 ∧ r.2 = cbufUsedCount c := by
  obtain ⟨start, count⟩ := r
  cases h : cbufIdx c c.head <;> simp [cbufGet, h, eq_comm]

def cbufAdvanceTail (c : Cbuf) (len : ℕ) : Cbuf := { c with tail := u32 (c.tail + len) }

def cbufAdvanceHead (c : Cbuf) (len : ℕ) : Cbuf := { c with head := u32 (c.head + len) }

end IoScheduler
