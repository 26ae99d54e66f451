import IoScheduler.NodeHalves
import IoScheduler.Btree

/-!
# Where a page is cut

`node_partition_idx` counts the bytes of the cells up to half a page, so whether
it leaves cells to the right depends on the cells before the last one. The half
that stays in place has room for a new cell only below its `cell_offset` or in
the tombstone of its last cell; the other half is packed and always has room.
-/
namespace IoScheduler
open Machine Bytes SearchTree

variable {n m new : Node} {i p left k v : ℕ} {os ts : List ℕ} {key : List UInt8}

/-- The bytes `node_partition_idx` counts up to. -/
def halfPage : ℕ := nodeSize / 2 - sizeofNode

theorem cellBytes_append : cellBytes n (os ++ ts) = cellBytes n os + cellBytes n ts := by
  rw [cellBytes, List.map_append, List.sum_append]
  rfl

theorem cellBytes_take_succ (h : i < n.size) : cellBytes n ((offsets n).take (i + 1)) =
    cellBytes n ((offsets n).take i) + (sizeofCell + cellTotalSize n (cellPtr n i)) := by
  have hget : (offsets n)[i]? = some (cellPtr n i) := by rw [getElem?_offsets, if_pos h]
  rw [List.take_add_one, hget, cellBytes_append]
  rfl

theorem cellBytes_take_mono (h : i ≤ p) :
    cellBytes n ((offsets n).take i) ≤ cellBytes n ((offsets n).take p) := by
  obtain ⟨d, rfl⟩ := Nat.exists_eq_add_of_le h
  rw [List.take_add, cellBytes_append]
  exact Nat.le_add_right _ _

/-- The loop goes on from a slot whose cells before it fit in half a page. -/
theorem partitionLoop_spec (hcells : ∀ o ∈ offsets n, sizeofCell + cellTotalSize n o ≤ nodeSize)
    (hleft : i + left = n.size) :
    i ≤ partitionLoop n left i (cellBytes n ((offsets n).take i)) ∧
      partitionLoop n left i (cellBytes n ((offsets n).take i)) ≤ n.size ∧
      (∀ j, i ≤ j → j < partitionLoop n left i (cellBytes n ((offsets n).take i)) →
        cellBytes n ((offsets n).take j) < halfPage) ∧
      (partitionLoop n left i (cellBytes n ((offsets n).take i)) < n.size → halfPage ≤
        cellBytes n ((offsets n).take
          (partitionLoop n left i (cellBytes n ((offsets n).take i))))) := by
  induction left generalizing i with
  | zero =>
      simp only [partitionLoop]
      exact ⟨le_rfl, by omega, fun j hij hji => absurd hji (not_lt.mpr hij), fun h => by omega⟩
  | succ left ih =>
      rw [partitionLoop]
      split_ifs with hlt
      · have hi : i < n.size := by omega
        have hcell := hcells _ (mem_offsets hi)
        have hnext : u32 (cellBytes n ((offsets n).take i) +
            (sizeofCell + cellTotalSize n (cellPtr n i))) =
              cellBytes n ((offsets n).take (i + 1)) := by
          rw [cellBytes_take_succ hi]
          refine u32_of_lt ?_
          simp only [nodeSize, sizeofNode] at hlt hcell
          omega
        rw [hnext]
        obtain ⟨hge, hle, hbefore, hafter⟩ := ih (i := i + 1) (by omega)
        refine ⟨by omega, hle, fun j hij hj => ?_, hafter⟩
        rcases Nat.eq_or_lt_of_le hij with rfl | hij
        · exact hlt
        · exact hbefore j hij hj
      · exact ⟨le_rfl, by omega, fun j hij hji => absurd hji (not_lt.mpr hij),
          fun _ => not_lt.mp hlt⟩

theorem nodePartitionIdx_spec
    (hcells : ∀ o ∈ offsets n, sizeofCell + cellTotalSize n o ≤ nodeSize) :
    nodePartitionIdx n ≤ n.size ∧
      (∀ j < nodePartitionIdx n, cellBytes n ((offsets n).take j) < halfPage) ∧
      (nodePartitionIdx n < n.size →
        halfPage ≤ cellBytes n ((offsets n).take (nodePartitionIdx n))) := by
  obtain ⟨-, hle, hbefore, hafter⟩ := partitionLoop_spec hcells (Nat.zero_add n.size)
  exact ⟨hle, fun j hj => hbefore j (Nat.zero_le j) hj, hafter⟩

theorem nodePartitionIdx_le : nodePartitionIdx n ≤ n.size := by
  have hloop : ∀ left i bytes, i + left = n.size → partitionLoop n left i bytes ≤ n.size := by
    intro left
    induction left with
    | zero => exact fun i bytes h => by rw [partitionLoop]; omega
    | succ left ih =>
        intro i bytes h
        rw [partitionLoop]
        split_ifs
        · exact ih _ _ (by omega)
        · omega
  exact hloop n.size 0 0 (Nat.zero_add _)

theorem nodePartitionIdx_pos (h : 0 < n.size) : 0 < nodePartitionIdx n := by
  have hloop : ∀ left i bytes, i ≤ partitionLoop n left i bytes := by
    intro left
    induction left with
    | zero => exact fun i bytes => le_rfl
    | succ left ih =>
        intro i bytes
        rw [partitionLoop]
        split_ifs
        · exact (Nat.le_succ i).trans (ih _ _)
        · exact le_rfl
  obtain ⟨s, hs⟩ : ∃ s, n.size = s + 1 := ⟨n.size - 1, by omega⟩
  rw [nodePartitionIdx, hs, partitionLoop, if_pos (by decide)]
  exact hloop s 1 _

/-- The most a cell takes with its slot when four of them fit in an empty page. -/
def quarterPage : ℕ := (nodeSize - sizeofNode) / 4

/-- A cell of so many key and value bytes takes at most a quarter of a page. -/
def AtMostQuarter (bytes : ℕ) : Prop := (sizeofCell + bytes + 3) / 4 * 4 + 4 ≤ quarterPage

instance {bytes : ℕ} : Decidable (AtMostQuarter bytes) := inferInstanceAs (Decidable (_ ≤ _))

/-- Both halves of a page get a cell at the index `node_partition_idx` chooses: a
leaf keeps the partition cell, a branch sends it up. -/
def HalvesNonempty (n : Node) : Prop :=
  0 < nodePartitionIdx n ∧ nodePartitionIdx n + (if n.leaf then 0 else 1) < n.size

instance {n : Node} : Decidable (HalvesNonempty n) := inferInstanceAs (Decidable (_ ∧ _))

/-- The cells that may end up in the left half and still leave one to the right. -/
def leftCells (n : Node) : List ℕ := (offsets n).take (n.size - if n.leaf then 1 else 2)

/-- Both halves get a cell exactly when the cells before the last one, or in a
branch before the last two, already take half a page. -/
theorem halvesNonempty_iff (h : ∀ o ∈ offsets n, AtMostQuarter (cellTotalSize n o)) :
    HalvesNonempty n ↔ halfPage ≤ cellBytes n (leftCells n) := by
  have hcells : ∀ o ∈ offsets n, sizeofCell + cellTotalSize n o ≤ nodeSize := fun o ho => by
    have hq := h o ho
    simp only [AtMostQuarter, quarterPage, nodeSize, sizeofNode, sizeofCell] at hq ⊢
    omega
  obtain ⟨hle, hbefore, hafter⟩ := nodePartitionIdx_spec hcells
  have hzero : cellBytes n ((offsets n).take 0) < halfPage := by
    rw [List.take_zero]
    exact (by decide : 0 < halfPage)
  obtain ⟨d, hd, hd'⟩ : ∃ d, (if n.leaf then 0 else 1) = d ∧
      (if n.leaf then 1 else 2) = d + 1 := by
    cases n.leaf
    · exact ⟨1, rfl, rfl⟩
    · exact ⟨0, rfl, rfl⟩
  rw [HalvesNonempty, leftCells, hd, hd']
  constructor
  · rintro ⟨-, hlt⟩
    exact (hafter (by omega)).trans (cellBytes_take_mono (by omega))
  · intro hhalf
    have hlast : nodePartitionIdx n ≤ n.size - (d + 1) := by
      by_contra hgt
      exact absurd hhalf (not_le.mpr (hbefore _ (not_le.mp hgt)))
    refine ⟨Nat.pos_of_ne_zero fun hp => ?_, ?_⟩
    · rcases Nat.eq_zero_or_pos n.size with hs | hs
      · rw [hs, Nat.zero_sub] at hhalf
        exact absurd hhalf (not_le.mpr hzero)
      · have hcut := hafter (by omega)
        rw [hp] at hcut
        exact absurd hcut (not_le.mpr hzero)
    · by_contra hge
      have hs : n.size - (d + 1) = 0 := by omega
      rw [hs] at hhalf
      exact absurd hhalf (not_le.mpr hzero)

/-- A page that four cells fill is cut in two pairs. -/
theorem halvesNonempty_iff_four_cells : ∃ t, Inserted t ∧ (t.node 1).size = 4 ∧
    HalvesNonempty (t.node 1) := by
  obtain ⟨t, ht, hsize, hcells, hhalf⟩ := exists_inserted
    ([1, 2, 3, 4].map fun k => ([k], List.replicate 983 k))
    (fun t => (t.node 1).size = 4 ∧
      (∀ o ∈ offsets (t.node 1), AtMostQuarter (cellTotalSize (t.node 1) o)) ∧
      halfPage ≤ cellBytes (t.node 1) (leftCells (t.node 1)))
    (by decide +kernel)
  exact ⟨t, ht, hsize, (halvesNonempty_iff hcells).mpr hhalf⟩

/-- Five ascending inserts leave the first page with two cells; a sixth that
does not fit there has no cell right of the index it is cut at. -/
theorem no_cell_right_of_partition : ∃ t, Inserted t ∧
    (∀ o ∈ offsets (t.node 1), AtMostQuarter (cellTotalSize (t.node 1) o)) ∧
    AtMostQuarter (2 + 986) ∧ nodeIsFull (t.node 1) 2 986 = .ok true ∧
    nodePartitionIdx (t.node 1) = (t.node 1).size ∧ ¬ HalvesNonempty (t.node 1) :=
  exists_inserted ([1, 2, 3, 4, 5].map fun k => ([k], List.replicate 983 k)) _ (by decide +kernel)

/-! ## Room in the half that takes the new cell -/

/-- The split of a leaf or of a branch. -/
def splitPage (n new : Node) (p : ℕ) : Except Failure (Node × Node) :=
  if n.leaf then leafNodeSplit n new p else internalNodeSplit n new p

theorem splitPage_spec (hn : Layout n n.size (offsets n) ts) (h : HalvesNonempty n)
    (hnew : Fresh new n.leaf) :
    ∃ old new', splitPage n new (nodePartitionIdx n) = .ok (old, new') ∧
      SplitPages n new old new' (nodePartitionIdx n)
        (nodePartitionIdx n + if n.leaf then 0 else 1) ts := by
  obtain ⟨hpos, hlt⟩ := h
  generalize nodePartitionIdx n = p at hpos hlt ⊢
  cases hleaf : n.leaf with
  | true =>
      rw [hleaf] at hnew hlt
      obtain ⟨old, new', hsplit, hs, -⟩ := leafNodeSplit_spec hlt hn hleaf hnew
      exact ⟨old, new', by rw [splitPage, if_pos hleaf]; exact hsplit, hs⟩
  | false =>
      rw [hleaf] at hnew hlt
      obtain ⟨old, new', hsplit, hs, -⟩ := internalNodeSplit_spec hpos hlt hn hleaf hnew
      exact ⟨old, new', by rw [splitPage, if_neg (by simp [hleaf])]; exact hsplit, hs⟩

theorem cellBytes_take_add_drop : cellBytes n ((offsets n).take p) +
    cellBytes n ((offsets n).drop p) = cellBytes n (offsets n) := by
  rw [← cellBytes_append, List.take_append_drop]

/-- The right half holds some of the cells of the page. -/
theorem SplitPages.new_room {old new' : Node} {q : ℕ}
    (h : SplitPages n new old new' p q ts) (hn : Layout n n.size (offsets n) ts) :
    slotOffset new'.size ≤ new'.cellOffset ∧ new'.cellOffset ≤ nodeSize := by
  have hfit := hn.room
  have hsum := h.newCellOffset
  have hsize := h.newSize
  have hsplit : cellBytes n ((offsets n).take q) + cellBytes n ((offsets n).drop q) =
      cellBytes n (offsets n) := cellBytes_take_add_drop
  constructor
  · simp only [slotOffset] at hfit ⊢
    omega
  · omega

/-- The cells of the right half are packed, so it keeps half a page free. -/
theorem SplitPages.new_freeSpace {old new' : Node} {q : ℕ}
    (h : SplitPages n new old new' p q ts) (hn : Layout n n.size (offsets n) ts) (hpq : p ≤ q)
    (hhalf : halfPage ≤ cellBytes n ((offsets n).take p)) :
    slotOffset new'.size ≤ new'.cellOffset ∧ new'.cellOffset < 2 ^ 32 ∧
      halfPage ≤ freeSpace new' := by
  obtain ⟨hlow, htop⟩ := h.new_room hn
  have hlt : new'.cellOffset < 2 ^ 32 := htop.trans_lt (by decide)
  refine ⟨hlow, hlt, ?_⟩
  have hfit := hn.room
  have hsum := h.newCellOffset
  have hsize := h.newSize
  have hsplit : cellBytes n ((offsets n).take q) + cellBytes n ((offsets n).drop q) =
      cellBytes n (offsets n) := cellBytes_take_add_drop
  have htake : cellBytes n ((offsets n).take p) ≤ cellBytes n ((offsets n).take q) :=
    cellBytes_take_mono hpq
  rw [freeSpace_eq hlow hlt]
  simp only [slotOffset, nodeSize] at hfit hsum ⊢
  omega

/-- The half that stays begins its tombstones with the last cell of the page. -/
theorem SplitPages.old_tombstone {old new' : Node} {q : ℕ}
    (h : SplitPages n new old new' p q ts) (hp : p < n.size) :
    old.tombstoneOffset = cellPtr n (n.size - 1) ∧ old.tombstoneOffset ≠ 0 ∧
      Inside (tombstoneExtent old old.tombstoneOffset) ∧
      cellTombstoneSize old old.tombstoneOffset =
        sizeofCell + cellTotalSize n (cellPtr n (n.size - 1)) := by
  obtain ⟨s, hs⟩ : ∃ s, n.size = s + 1 := ⟨n.size - 1, by omega⟩
  have hsplit : (offsets n).drop p = ((offsets n).take s).drop p ++ [cellPtr n s] := by
    have hall : offsets n = (offsets n).take s ++ [cellPtr n s] := by
      rw [offsets, hs, slotList_succ, List.take_left' (by simp [slotList])]
    conv_lhs => rw [hall]
    rw [List.drop_append_of_le_length]
    rw [List.length_take, length_offsets]
    omega
  have hlayout := h.layout
  rw [hsplit, List.reverse_append, List.append_assoc] at hlayout
  obtain ⟨hhead, hne, -⟩ := hlayout.chain
  have hburied := h.buried (cellPtr n s) (by rw [hsplit]; exact List.mem_append_right _ (by simp))
  have hin : Inside (tombstoneExtent old (cellPtr n s)) :=
    hlayout.tombstone_inside List.mem_cons_self
  have hsize : max 8 (cellTombstoneSize old (cellPtr n s)) =
      sizeofCell + cellTotalSize n (cellPtr n s) := congrArg Prod.snd hburied
  have hlast : n.size - 1 = s := by omega
  rw [hlast, hhead]
  refine ⟨rfl, hne, hin, ?_⟩
  simp only [sizeofCell] at hsize ⊢
  omega

/-- The half `btree_insert` chooses for a new cell has room for it exactly when
it is the right one, or the cell fits below `cell_offset` once the slots of the
moved cells are free, or it fits in the place of the last cell. -/
theorem chosenHalf_room_iff (hn : Layout n n.size (offsets n) [])
    (hlt : n.cellOffset < 2 ^ 32) (hnew : AtMostQuarter (key.length + v))
    (hfull : nodeIsFull n key.length v = .ok true) (hhalves : HalvesNonempty n) (m : Node)
    (root : Bool) :
    ∃ old new, splitPage n (nodeInit m n.leaf root) (nodePartitionIdx n) = .ok (old, new) ∧
      ((∃ k off, nodeGetFreeOffset
          (if keyCompare (keyAt n (nodePartitionIdx n)) key < 0 then new else old)
          key.length v = .ok (k, off) ∧ 0 < off) ↔
        keyCompare (keyAt n (nodePartitionIdx n)) key < 0 ∨
        newCellSize key.length v ≤ freeSpace n + 4 * (n.size - nodePartitionIdx n) ∨
        newCellSize key.length v ≤
          sizeofCell + cellTotalSize n (cellPtr n (n.size - 1))) := by
  obtain ⟨old, new, hsplit, hs⟩ := splitPage_spec hn hhalves
    (nodeInit_fresh : Fresh (nodeInit m n.leaf root) n.leaf)
  have hwhole : ∀ o ∈ offsets n, sizeofCell + cellTotalSize n o ≤ nodeSize := fun o ho =>
    (Nat.le_add_left _ _).trans (hn.cell_inside ho).2
  obtain ⟨-, -, hafter⟩ := nodePartitionIdx_spec hwhole
  obtain ⟨-, hlast⟩ := hhalves
  have hp : nodePartitionIdx n < n.size := by omega
  have hneed : newCellSize key.length v ≤ halfPage := by
    have hsize : key.length + v < 2 ^ 31 := by
      simp only [AtMostQuarter, quarterPage, nodeSize, sizeofNode] at hnew
      omega
    rw [newCellSize_eq hsize]
    simp only [AtMostQuarter, quarterPage, halfPage, nodeSize, sizeofNode, sizeofCell] at hnew ⊢
    omega
  refine ⟨old, new, hsplit, ?_⟩
  by_cases hright : keyCompare (keyAt n (nodePartitionIdx n)) key < 0
  · -- the right half is packed
    obtain ⟨hlow, hbound, hfree⟩ := hs.new_freeSpace hn (Nat.le_add_right _ _) (hafter hp)
    have hroom : ∃ k off, nodeGetFreeOffset new key.length v = .ok (k, off) ∧ 0 < off :=
      (nodeGetFreeOffset_pos_iff hlow hbound fun h => absurd hs.newTombstoneOffset h).2.mpr
        (.inl (hneed.trans hfree))
    rw [if_pos hright]
    exact iff_of_true hroom (.inl hright)
  · obtain ⟨htomb, hne, hin, hsize⟩ := hs.old_tombstone hp
    -- a wrapped free space would be over the size of any cell
    have hless : freeSpace n < newCellSize key.length v := by
      by_contra hge
      rw [nodeIsFull, if_neg hge] at hfull
      exact absurd hfull (by simp)
    have hslots := hn.slots_le
    have hlow : slotOffset n.size ≤ n.cellOffset := by
      by_contra hwrap
      have hwrapped : freeSpace n = n.cellOffset + 2 ^ 32 - slotOffset n.size := by
        rw [freeSpace, hdrOffsetLimit, u32_of_lt (by simp only [nodeSize] at hslots; omega)]
        exact sub32_of_lt (by simp only [nodeSize] at hslots; omega) (not_le.mp hwrap)
      simp only [halfPage, nodeSize, sizeofNode] at hneed hslots
      omega
    have hslotsOld : slotOffset old.size ≤ old.cellOffset := by
      rw [hs.size, hs.cellOffset]
      simp only [slotOffset] at hlow ⊢
      omega
    have hfree : freeSpace old = freeSpace n + 4 * (n.size - nodePartitionIdx n) := by
      rw [freeSpace_eq hslotsOld (hs.cellOffset.trans_lt hlt), freeSpace_eq hlow hlt, hs.size,
        hs.cellOffset]
      simp only [slotOffset] at hlow ⊢
      omega
    rw [if_neg hright, (nodeGetFreeOffset_pos_iff hslotsOld (hs.cellOffset.trans_lt hlt)
      fun _ => hin).2, hfree, hsize]
    exact ⟨fun h => .inr (h.imp id And.right), fun h =>
      (h.resolve_left hright).imp id (And.intro hne)⟩

/-- Four cells of a quarter page: the greatest key goes to the right half. -/
theorem chosenHalf_room_iff_right : ∃ n old new, n.size = 4 ∧
    nodeIsFull n 1 983 = .ok true ∧
    splitPage n (nodeInit zeroPage n.leaf false) (nodePartitionIdx n) = .ok (old, new) ∧
    ∃ k off, nodeGetFreeOffset new 1 983 = .ok (k, off) ∧ 0 < off := by
  obtain ⟨t, -, hlayout, hlt, hfull, hhalves, hright, hsize⟩ := exists_inserted
    ([1, 2, 3, 4].map fun k => ([k], List.replicate 983 k))
    (fun t => Layout (t.node 1) (t.node 1).size (offsets (t.node 1)) [] ∧
      (t.node 1).cellOffset < 2 ^ 32 ∧ nodeIsFull (t.node 1) 1 983 = .ok true ∧
      HalvesNonempty (t.node 1) ∧
      keyCompare (keyAt (t.node 1) (nodePartitionIdx (t.node 1))) [5] < 0 ∧
      (t.node 1).size = 4)
    (by decide +kernel)
  obtain ⟨old, new, hsplit, hiff⟩ := chosenHalf_room_iff hlayout hlt
    (show AtMostQuarter ([(5 : UInt8)].length + 983) by decide) hfull hhalves zeroPage false
  rw [if_pos hright] at hiff
  exact ⟨t.node 1, old, new, hsize, hfull, hsplit, hiff.mpr (.inl hright)⟩

/-- Three cells of a quarter page and a last one that is smaller: a second key
goes to the left half, which has neither the room nor a large enough tombstone
for a cell of the first three. -/
theorem no_room_in_left_half : ∃ t, Inserted t ∧
    Layout (t.node 1) (t.node 1).size (offsets (t.node 1)) [] ∧
    (∀ o ∈ offsets (t.node 1), AtMostQuarter (cellTotalSize (t.node 1) o)) ∧
    AtMostQuarter (1 + 983) ∧ nodeIsFull (t.node 1) 1 983 = .ok true ∧
    HalvesNonempty (t.node 1) ∧
    ¬ keyCompare (keyAt (t.node 1) (nodePartitionIdx (t.node 1))) [2] < 0 ∧
    ∃ halves, splitPage (t.node 1) (nodeInit zeroPage (t.node 1).leaf false)
        (nodePartitionIdx (t.node 1)) = .ok halves ∧
      ∃ k, nodeGetFreeOffset halves.1 1 983 = .ok (k, 0) := by
  obtain ⟨t, ht, hlayout, hcells, hnew, hfull, hhalves, hleft, hsplit⟩ := exists_inserted
    [([1], List.replicate 983 1), ([3], List.replicate 983 3), ([4], List.replicate 983 4),
      ([5], List.replicate 880 5)]
    (fun t => Layout (t.node 1) (t.node 1).size (offsets (t.node 1)) [] ∧
      (∀ o ∈ offsets (t.node 1), AtMostQuarter (cellTotalSize (t.node 1) o)) ∧
      AtMostQuarter (1 + 983) ∧ nodeIsFull (t.node 1) 1 983 = .ok true ∧
      HalvesNonempty (t.node 1) ∧
      ¬ keyCompare (keyAt (t.node 1) (nodePartitionIdx (t.node 1))) [2] < 0 ∧
      (splitPage (t.node 1) (nodeInit zeroPage (t.node 1).leaf false)
        (nodePartitionIdx (t.node 1))).toOption.any fun halves =>
          (nodeGetFreeOffset halves.1 1 983).toOption.any fun place => place.2 = 0)
    (by decide +kernel)
  obtain ⟨halves, hsplit, hroom⟩ := exists_ok_of_any hsplit
  obtain ⟨⟨k, off⟩, hget, hoff⟩ := exists_ok_of_any hroom
  cases of_decide_eq_true hoff
  exact ⟨t, ht, hlayout, hcells, hnew, hfull, hhalves, hleft, halves, hsplit, k, hget⟩

end IoScheduler
