import IoScheduler.Machine
import IoScheduler.Bytes

/-!
# Pages of the tree

`struct node` heads a page of `NODE_SIZE` bytes: an array of cell pointers
grows upwards from the header, cells are written below `cell_offset`, and the
cells a split leaves behind are chained as tombstones. The header is kept as a
record and the rest of the page as bytes, addressed from the start of the page.
A read may go anywhere, as the pointers of the code may; a write outside the
bytes after the header is a fault. The two overflow pids are written by
`node_init` and never read, so they are left out.

`slotClash` and `clash` are ghost: the first remembers that a cell was written
over the slot array it was entered in, the second that a write met a live cell
other than its own or a slot.
-/
namespace IoScheduler
open Machine Bytes

inductive Failure
  | assertion
  | fault
  | diverges
  deriving DecidableEq, Repr

/-- `ASSERT` of a build that defines `ASSERTION`. -/
def assert (p : Prop) [Decidable p] : Except Failure Unit :=
  if p then .ok () else .error .assertion

section
variable {α β : Type} {x : Except Failure α} {f : α → Except Failure β} {r : β}

theorem bind_eq_ok : (x >>= f) = .ok r ↔ ∃ a, x = .ok a ∧ f a = .ok r := by
  cases x with
  | error e => exact ⟨(nomatch ·), fun ⟨_, h, _⟩ => nomatch h⟩
  | ok a => exact ⟨fun h => ⟨a, rfl, h⟩, fun ⟨_, h, k⟩ => by cases h; exact k⟩

/-- A result found by evaluation, with what a test says of it. -/
theorem exists_ok_of_any {p : α → Bool} (h : x.toOption.any p = true) :
    ∃ a, x = .ok a ∧ p a = true := by
  cases x with
  | error e => cases h
  | ok a => exact ⟨a, rfl, h⟩

theorem assert_eq_ok {p : Prop} [Decidable p] {u : Unit} : assert p = .ok u ↔ p := by
  unfold assert
  split_ifs with h
  · exact iff_of_true rfl h
  · exact iff_of_false (nomatch ·) h

end

def nodeSize : ℕ := 2 ^ 12

def sizeofNode : ℕ := 56

def sizeofCell : ℕ := 16

structure Node where
  rightmostPid : ℕ
  parentPid : ℕ
  size : ℕ
  cellOffset : ℕ
  tombstoneOffset : ℕ
  tombstoneBytes : ℕ
  leaf : Bool
  root : Bool
  body : ℕ → UInt8
  slotClash : Bool := false
  clash : Bool := false

/-- The flags are the two bits of `enum node_flag`. The bytes after the header
stay what they were. -/
def nodeInit (n : Node) (leaf root : Bool) : Node :=
  { rightmostPid := 0, parentPid := 0, size := 0, cellOffset := nodeSize, tombstoneOffset := 0,
    tombstoneBytes := 0, leaf, root, body := n.body }

/-- Memory that holds zeroes. -/
def zeroPage : Node :=
  { rightmostPid := 0, parentPid := 0, size := 0, cellOffset := 0, tombstoneOffset := 0,
    tombstoneBytes := 0, leaf := false, root := false, body := fun _ => 0 }

/-! ## Addresses and cells -/

/-- Where `node_cells(node)[idx]` lies. -/
def slotOffset (idx : ℕ) : ℕ := sizeofNode + 4 * idx

def cellPtr (n : Node) (idx : ℕ) : ℕ := load32 n.body (slotOffset idx)

def cellValueSize (n : Node) (off : ℕ) : ℕ := load32 n.body (off + 4)

def cellPid (n : Node) (off : ℕ) : ℕ := load64 n.body off

def cellTombstoneSize (n : Node) (off : ℕ) : ℕ := load32 n.body off

def cellNextOff (n : Node) (off : ℕ) : ℕ := load32 n.body (off + 4)

def cellKeySize (n : Node) (off : ℕ) : ℕ := load32 n.body (off + 8)

def cellTotalSize (n : Node) (off : ℕ) : ℕ := load32 n.body (off + 12)

def cellGetKey (n : Node) (off : ℕ) : List UInt8 :=
  load n.body (off + sizeofCell) (cellKeySize n off)

def leafCellGetValue (n : Node) (off : ℕ) : List UInt8 :=
  load n.body (off + sizeofCell + cellKeySize n off) (cellValueSize n off)

/-- `node_cell_from_idx` followed by `cell_get_key`. -/
def keyAt (n : Node) (idx : ℕ) : List UInt8 := cellGetKey n (cellPtr n idx)

/-- The bytes of a page a cell takes. -/
def cellExtent (n : Node) (off : ℕ) : ℕ × ℕ := (off, sizeofCell + cellTotalSize n off)

/-! ## Writes -/

def Node.write (n : Node) (a : ℕ) (bytes : List UInt8) : Except Failure Node :=
  if sizeofNode ≤ a ∧ a + bytes.length ≤ nodeSize then
    .ok { n with body := store n.body a bytes }
  else .error .fault

/-- Ghost: a write of an extent, against the cells of the slots `live` and an
array of `slots` slots. -/
def Node.watch (n : Node) (live : List ℕ) (slots : ℕ) (x : ℕ × ℕ) : Node :=
  { n with clash := n.clash || !decide (Apart x (sizeofNode, 4 * slots)) ||
      live.any fun i => !decide (Apart x (cellExtent n (cellPtr n i))) }

/-- Ghost: the write of a whole cell. -/
def Node.watchCell (n : Node) (live : List ℕ) (slots : ℕ) (x : ℕ × ℕ) : Node :=
  { n.watch live slots x with
    slotClash := n.slotClash || !decide (Apart x (sizeofNode, 4 * slots)) }

/-- The bytes `node_write_leaf_cell` stores, fields and contents in order. -/
def leafCell (key value : List UInt8) : List UInt8 :=
  bytes32 0 ++ (bytes32 value.length ++ (bytes32 key.length ++
    (bytes32 (u32 (key.length + value.length)) ++ (key ++ value))))

def internalCell (key : List UInt8) (child : ℕ) : List UInt8 :=
  bytes64 child ++ (bytes32 key.length ++ (bytes32 key.length ++ key))

/-- What `node_insert_leaf_cell` and `node_insert_internal_cell` share. -/
def nodeInsertCell (n : Node) (offset idx : ℕ) (bytes : List UInt8) : Except Failure Node := do
  let len := 4 * sub32 n.size idx
  let live := List.range n.size
  let watched := (n.watch live 0 (slotOffset idx, 4 + len)).watchCell live (n.size + 1)
    (offset, bytes.length)
  let moved ← watched.write (slotOffset (u32 (idx + 1))) (load n.body (slotOffset idx) len)
  let entered ← moved.write (slotOffset idx) (bytes32 offset)
  let written ← entered.write offset bytes
  .ok { written with cellOffset := offset, size := u32 (n.size + 1) }

def nodeInsertLeafCell (n : Node) (offset idx : ℕ) (key value : List UInt8) :
    Except Failure Node := nodeInsertCell n offset idx (leafCell key value)

def nodeInsertInternalCell (n : Node) (offset idx : ℕ) (key : List UInt8) (child : ℕ) :
    Except Failure Node := nodeInsertCell n offset idx (internalCell key child)

/-- `node_cell_from_idx(node, idx)->pid = pid`. -/
def nodeSetPid (n : Node) (idx pid : ℕ) : Except Failure Node :=
  let off := cellPtr n idx
  (n.watch ((List.range n.size).filter (· ≠ idx)) n.size (off, 8)).write off (bytes64 pid)

/-! ## Keys -/

/-- The sign of `memcmp` over the shorter of the two lengths. -/
def memcmp : List UInt8 → List UInt8 → ℤ
  | x :: xs, y :: ys => if x = y then memcmp xs ys else if x < y then -1 else 1
  | _, _ => 0

/-- `__key_compare`: the sizes are subtracted the other way round. -/
def keyCompare (cellKey key : List UInt8) : ℤ :=
  if memcmp cellKey key = 0 then toInt32 (sub32 key.length cellKey.length)
  else memcmp cellKey key

/-- The loop of `node_bin_search`. Two words have fewer than `2 ^ 64` values,
so a loop that has not ended by then never does. -/
def binSearchLoop (n : Node) (key : List UInt8) : ℕ → ℕ → ℕ → Except Failure (Bool × ℕ)
  | 0, _, _ => .error .diverges
  | fuel + 1, low, high =>
      if low < high then
        let mid := u32 (low + high) / 2
        let cmp := keyCompare (keyAt n mid) key
        if cmp = 0 then .ok (true, mid)
        else if 0 < cmp then binSearchLoop n key fuel low mid
        else binSearchLoop n key fuel (u32 (mid + 1)) high
      else .ok (false, low)

/-- The return value, and the index stored through `idx`. -/
def nodeBinSearch (n : Node) (key : List UInt8) : Except Failure (Bool × ℕ) :=
  binSearchLoop n key (2 ^ 64) 0 n.size

/-- The slot the result of `node_get_cell` points to. -/
def nodeGetCell (n : Node) (key : List UInt8) : Except Failure (Option ℕ) := do
  let (found, idx) ← nodeBinSearch n key
  if found then do
    assert (idx < n.size)
    .ok (some idx)
  else .ok none

/-- `node_cell_pointers`: the key and the value of a slot, no value in a branch. -/
def nodeCellPointers (n : Node) (idx : ℕ) : List UInt8 × List UInt8 :=
  (keyAt n idx, if n.leaf then leafCellGetValue n (cellPtr n idx) else [])

/-! ## Free space -/

/-- `ALIGN(key_size + value_size + sizeof(struct cell), sizeof(__u32))`. -/
def newCellSize (keySize valueSize : ℕ) : ℕ :=
  u32 ((u32 (keySize + valueSize) + sizeofCell + 3) / 4 * 4)

def hdrOffsetLimit (n : Node) : ℕ := u32 (slotOffset n.size)

def freeSpace (n : Node) : ℕ := sub32 n.cellOffset (hdrOffsetLimit n)

/-- The walk along the tombstones in `node_is_full`; a walk of `2 ^ 32` steps
has come round. -/
def noTombstoneFits (n : Node) (need : ℕ) : ℕ → ℕ → Except Failure Bool
  | 0, _ => .error .diverges
  | fuel + 1, off =>
      if off = 0 then .ok true
      else if need ≤ cellTombstoneSize n off then .ok false
      else noTombstoneFits n need fuel (cellNextOff n off)

def nodeIsFull (n : Node) (keySize valueSize : ℕ) : Except Failure Bool :=
  let need := newCellSize keySize valueSize
  if freeSpace n < need then noTombstoneFits n need (2 ^ 32) n.tombstoneOffset else .ok false

/-- `node_get_free_offset` taking its place from the first tombstone: what is
left of it becomes a tombstone of its own when it can hold one. -/
def takeTombstone (n : Node) (need : ℕ) : Except Failure Node := do
  let off := n.tombstoneOffset
  let diff := sub32 (cellTombstoneSize n off) need
  let bytes := sub32 n.tombstoneBytes need
  if sizeofCell < diff then
    let rest ← (n.watch (List.range n.size) n.size (off + need, 8)).write (off + need)
      (bytes32 (diff - sizeofCell) ++ bytes32 (cellNextOff n off))
    .ok { rest with tombstoneOffset := u32 (off + need), tombstoneBytes := bytes }
  else .ok { n with tombstoneOffset := cellNextOff n off, tombstoneBytes := bytes }

/-- The page afterwards, and the offset; `0` when there is no place. -/
def nodeGetFreeOffset (n : Node) (keySize valueSize : ℕ) : Except Failure (Node × ℕ) :=
  let need := newCellSize keySize valueSize
  if freeSpace n < need then
    if n.tombstoneOffset ≠ 0 ∧ need ≤ cellTombstoneSize n n.tombstoneOffset then do
      .ok (← takeTombstone n need, n.tombstoneOffset)
    else .ok (n, 0)
  else .ok (n, sub32 n.cellOffset need)

def nodeInsertNonfull (n : Node) (idx : ℕ) (key value : List UInt8) : Except Failure Node := do
  let (n, offset) ← nodeGetFreeOffset n key.length value.length
  nodeInsertLeafCell n offset idx key value

/-! ## Splits -/

/-- The loop of `node_partition_idx` with the cells left to look at, the index
and the bytes counted so far. -/
def partitionLoop (n : Node) : ℕ → ℕ → ℕ → ℕ
  | 0, i, _ => i
  | left + 1, i, middleBytes =>
      if middleBytes < nodeSize / 2 - sizeofNode then
        partitionLoop n left (i + 1)
          (u32 (middleBytes + (sizeofCell + cellTotalSize n (cellPtr n i))))
      else i

def nodePartitionIdx (n : Node) : ℕ := partitionLoop n n.size 0 0

/-- `live` is ghost: the slots of the cells still in use beside this one. -/
def nodeTupleSetTombstone (n : Node) (live : List ℕ) (idx : ℕ) : Except Failure Node := do
  let off := cellPtr n idx
  let size := u32 (sizeofCell + cellTotalSize n off)
  let dead ← (n.watch live n.size (off, 8)).write off (bytes32 size ++ bytes32 n.tombstoneOffset)
  .ok { dead with tombstoneOffset := off, tombstoneBytes := u32 (n.tombstoneBytes + size) }

/-- The return value, and the page afterwards. `node_get_cell` searches once
more, and its result is only compared with null. -/
def nodeDeleteKey (n : Node) (key : List UInt8) : Except Failure (ℕ × Node) := do
  let (found, idx) ← nodeBinSearch n key
  if found then do
    if (← nodeGetCell n key).isNone then .ok (1, n)
    else do
      let live := (List.range n.size).filter (· ≠ idx)
      let dead ← nodeTupleSetTombstone n live idx
      let len := 4 * sub32 dead.size (u32 (idx + 1))
      let closed ← (dead.watch live 0 (slotOffset idx, len)).write (slotOffset idx)
        (load dead.body (slotOffset (u32 (idx + 1))) len)
      .ok (0, { closed with size := sub32 closed.size 1 })
  else .ok (1, n)

/-- Enters a cell of a split in the next slot of the new page. -/
def appendCell (new : Node) (j : ℕ) (bytes : List UInt8) : Except Failure Node := do
  let off := sub32 new.cellOffset bytes.length
  let watched := (new.watch (List.range j) 0 (slotOffset j, 4)).watchCell (List.range j) (j + 1)
    (off, bytes.length)
  let entered ← watched.write (slotOffset j) (bytes32 off)
  let written ← entered.write off bytes
  .ok { written with cellOffset := off }

/-- The slots a split starting at `partitionIdx` has not moved before slot `k`,
`k` itself left out. -/
def liveSlots (n : Node) (partitionIdx k : ℕ) : List ℕ :=
  (List.range n.size).filter fun i => i < partitionIdx ∨ k < i

/-- The bytes `leaf_node_split` and `internal_node_split` write to the new page
for slot `k`. -/
def movedLeafCell (n : Node) (k : ℕ) : List UInt8 :=
  leafCell (keyAt n k) (leafCellGetValue n (cellPtr n k))

def movedInternalCell (n : Node) (k : ℕ) : List UInt8 :=
  internalCell (keyAt n k) (cellPid n (cellPtr n k))

/-- The loop of both splits: `left` cells from slot `k` on go to the slots of
the new page from `j` on. -/
def moveCells (cell : Node → ℕ → List UInt8) (partitionIdx : ℕ) :
    ℕ → ℕ → ℕ → Node → Node → Except Failure (Node × Node)
  | 0, _, _, n, new => .ok (n, new)
  | left + 1, k, j, n, new => do
      let new ← appendCell new j (cell n k)
      let n ← nodeTupleSetTombstone n (liveSlots n partitionIdx k) k
      moveCells cell partitionIdx left (k + 1) (j + 1) n new

def internalNodeSplit (n new : Node) (partitionIdx : ℕ) : Except Failure (Node × Node) := do
  assert (0 < n.size)
  assert (new.size = 0)
  let next := u32 (partitionIdx + 1)
  let n ← nodeTupleSetTombstone n (liveSlots n partitionIdx partitionIdx) partitionIdx
  let (old, new) ← moveCells movedInternalCell partitionIdx (n.size - next) next 0 n new
  let newSize := sub32 n.size next
  let size := sub32 n.size (u32 (newSize + 1))
  assert (0 < size)
  assert (0 < newSize)
  assert (u32 (newSize + size) = sub32 n.size 1)
  .ok ({ old with size }, { new with size := newSize })

def leafNodeSplit (n new : Node) (partitionIdx : ℕ) : Except Failure (Node × Node) := do
  assert (0 < n.size)
  assert (new.size = 0)
  let (old, new) ← moveCells movedLeafCell partitionIdx (n.size - partitionIdx) partitionIdx 0 n new
  let newSize := sub32 n.size partitionIdx
  let size := sub32 n.size newSize
  assert (0 < newSize)
  assert (u32 (newSize + size) = n.size)
  .ok ({ old with size }, { new with size := newSize })

end IoScheduler
