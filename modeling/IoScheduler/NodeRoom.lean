import IoScheduler.NodePartition

/-!
# Room for a cell

A leaf that is cut in two keeps its entries, and its halves are valid again. The
left half has its place for a cell below `cell_offset` or in what was the last
cell, the right half below its packed cells. A sound page takes every cell that
fits it: one with room for its slot too, or one that goes to the first tombstone
when that is the lowest block.
-/
namespace IoScheduler
open Machine Bytes SearchTree

variable {n m k old new : Node} {p idx off keySize valueSize : ℕ} {ts : List ℕ}
  {key value bytes : List UInt8}

/-- The place that the left half of a full leaf has for a cell is below every
other block of it: the slots of the moved cells are free, and the last cell of
the leaf has become the first tombstone. -/
def LeftPlacedLow (n : Node) (keySize valueSize : ℕ) : Prop :=
  newCellSize keySize valueSize ≤ sub32 n.cellOffset (u32 (slotOffset (nodePartitionIdx n))) ∨
    ∀ ts, Chain n.body n.tombstoneOffset ts → ∀ o ∈ offsets n ++ ts, cellPtr n (n.size - 1) ≤ o

theorem leafNodeSplit_nonempty {page : Node} (hn : n.size < 2 ^ 31) (hp : p ≤ n.size)
    (h : leafNodeSplit n page p = .ok (old, new)) : p < n.size := by
  simp only [leafNodeSplit, bind_eq_ok, assert_eq_ok] at h
  obtain ⟨_, -, _, -, ⟨old₁, new₁⟩, -, _, hpos, -⟩ := h
  rw [sub32_of_le (hn.trans (by decide)) hp] at hpos
  omega

/-- The halves of a full leaf. -/
structure CutLeaf (n old new : Node) : Prop where
  left : 0 < nodePartitionIdx n
  right : nodePartitionIdx n < n.size
  oldValid : ValidPage old
  oldLeaf : old.leaf = true
  oldEntries : leafEntries old = (leafEntries n).take (nodePartitionIdx n)
  placedLow : ∀ keySize valueSize, PlacedLow old keySize valueSize ↔
    LeftPlacedLow n keySize valueSize
  newValid : ValidPage new
  newLeaf : new.leaf = true
  newEntries : leafEntries new = (leafEntries n).drop (nodePartitionIdx n)
  newTombstone : new.tombstoneOffset = 0

theorem ValidPage.cutLeaf {page : Node} (h : ValidPage n) (hleaf : n.leaf = true)
    (hfresh : Fresh page true)
    (hsplit : leafNodeSplit n page (nodePartitionIdx n) = .ok (old, new)) : CutLeaf n old new := by
  obtain ⟨hlt, ts, hlayout, hlow⟩ := h
  have hright := leafNodeSplit_nonempty hlayout.size_lt nodePartitionIdx_le hsplit
  obtain ⟨old', new', hsplit', hs, hcells⟩ := leafNodeSplit_spec hright hlayout hleaf hfresh
  obtain ⟨rfl, rfl⟩ := Prod.mk.inj (Except.ok.inj (hsplit.symm.trans hsplit'))
  obtain ⟨hold, hnew⟩ := hs.valid hlt hlow
  refine ⟨nodePartitionIdx_pos (by omega), hright, hold, hs.leaf.trans hleaf,
    hs.oldCells leaf_copies hleaf hlayout, fun keySize valueSize => ?_, hnew,
    hs.newLeaf.trans hfresh.leaf, ?_, hs.newTombstoneOffset⟩
  · rw [placedLow_iff hs.layout, (hs.old_tombstone hright).1, freeSpace, hdrOffsetLimit, hs.size,
      hs.cellOffset, hs.offsets_eq]
    have hblocks : ∀ o, o ∈ (offsets n).take (nodePartitionIdx n) ++
        (((offsets n).drop (nodePartitionIdx n)).reverse ++ ts) ↔ o ∈ offsets n ++ ts := by
      intro o
      conv_rhs => rw [← List.take_append_drop (nodePartitionIdx n) (offsets n)]
      simp only [List.mem_append, List.mem_reverse, or_assoc]
    refine or_congr Iff.rfl ⟨fun hall us hus o ho => ?_, fun hall o ho => ?_⟩
    · rw [← hlayout.chain.unique hus] at ho
      exact hall o ((hblocks o).mpr ho)
    · exact hall ts hlayout.chain o ((hblocks o).mp ho)
  · rw [leafEntries, leafEntries, hcells, List.map_drop]

theorem ValidPage.relink (h : ValidPage n) (pid parent : ℕ) (root : Bool) :
    ValidPage { n with rightmostPid := pid, parentPid := parent, root := root } := by
  obtain ⟨hlt, ts, hlayout, hlow⟩ := h
  exact ⟨hlt, ts, hlayout.congr rfl (fun o ho => ⟨rfl, hlayout.whole o ho⟩) fun _ _ => .rfl, hlow⟩

/-- The separator of a full leaf is the first key of its right half. -/
theorem CutLeaf.cutAt (h : CutLeaf n old new) :
    CutAt ((leafEntries n).take (nodePartitionIdx n)) ((leafEntries n).drop (nodePartitionIdx n))
      (⟨keyAt n (nodePartitionIdx n)⟩ : Key) := by
  have hleft := h.left
  have hright := h.right
  refine ⟨fun hnil => ?_, ?_⟩
  · have hlen := congrArg List.length hnil
    rw [List.length_take, length_leafEntries, List.length_nil] at hlen
    omega
  · rw [List.map_drop, leafEntries_keys, List.head?_drop, getElem?_keys, if_pos hright]

/-- A cell is placed below the cells of the right half, which has no tombstones. -/
theorem placedLow_of_no_tombstone {keySize valueSize : ℕ} (h : n.tombstoneOffset = 0)
    (hget : nodeGetFreeOffset n keySize valueSize = .ok (k, off)) (hoff : 0 < off) :
    PlacedLow n keySize valueSize := by
  rcases nodeGetFreeOffset_eq_ok hget hoff with ⟨hroom, -⟩ | ⟨-, rfl, -⟩
  · exact .inl hroom
  · exact absurd h hoff.ne'

/-- A key of a page is shorter than the page. -/
theorem ValidPage.key_length (h : ValidPage n) (hidx : idx < n.size) :
    (keyAt n idx).length < 2 ^ 31 := by
  obtain ⟨-, ts, hlayout, -⟩ := h
  have hlt := hlayout.keySize_lt (mem_offsets hidx)
  rw [keyAt, length_cellGetKey]
  simp only [nodeSize] at hlt
  omega

/-- A key that a leaf does not have is not its separator. -/
theorem CutLeaf.ne_separator (hcut : CutLeaf n old new) (habsent : ⟨key⟩ ∉ keys n) :
    (⟨key⟩ : Key) ≠ ⟨keyAt n (nodePartitionIdx n)⟩ := by
  intro heq
  rw [heq] at habsent
  exact habsent (mem_keys.mpr ⟨_, hcut.right, rfl⟩)

theorem nodePartitionIdx_congr (hsize : m.size = n.size) (hbody : m.body = n.body) :
    nodePartitionIdx m = nodePartitionIdx n := by
  have hloop : ∀ left i bytes, partitionLoop m left i bytes = partitionLoop n left i bytes := by
    intro left
    induction left with
    | zero => exact fun i bytes => rfl
    | succ left ih =>
        intro i bytes
        rw [partitionLoop, partitionLoop, cellPtr, cellPtr, cellTotalSize, cellTotalSize, hbody, ih]
  rw [nodePartitionIdx, nodePartitionIdx, hsize, hloop]

/-- Parent links and the root's flag have no part in a split. -/
theorem ValidPage.cutLeaf_relinked {page : Node} {root : Bool} {parent : ℕ} (h : ValidPage n)
    (hleaf : n.leaf = true) (hfresh : Fresh page true)
    (hsplit : leafNodeSplit { n with parentPid := parent, root := root } page
      (nodePartitionIdx n) = .ok (old, new)) : CutLeaf n old new := by
  have hidx : nodePartitionIdx { n with parentPid := parent, root := root } =
      nodePartitionIdx n := nodePartitionIdx_congr rfl rfl
  rw [← hidx] at hsplit
  obtain ⟨hleft, hright, hold, holdLeaf, holdEntries, hlow, hnew, hnewLeaf, hnewEntries, htomb⟩ :=
    (h.relink n.rightmostPid parent root).cutLeaf hleaf hfresh hsplit
  simp only [LeftPlacedLow] at hlow
  rw [hidx] at hleft hright holdEntries hnewEntries hlow
  exact ⟨hleft, hright, hold, holdLeaf, holdEntries, hlow, hnew, hnewLeaf, hnewEntries, htomb⟩

/-- The half of a full leaf that takes the entry has its place for it below the
other blocks. -/
def HalfPlacedLow (n : Node) (key value : List UInt8) : Prop :=
  keyCompare (keyAt n (nodePartitionIdx n)) key < 0 ∨ LeftPlacedLow n key.length value.length

/-! ## Sound pages -/

/-- A valid page whose slots end below `cell_offset`, none of them written over. -/
structure SoundPage (n : Node) : Prop where
  valid : ValidPage n
  low : slotOffset n.size ≤ n.cellOffset
  top : n.cellOffset ≤ nodeSize
  slotClash : n.slotClash = false

theorem nodeInit_sound {leaf root : Bool} : SoundPage (nodeInit n leaf root) :=
  ⟨nodeInit_valid, by simp only [nodeInit]; decide, le_rfl, rfl⟩

theorem SoundPage.freeSpace_eq (h : SoundPage n) : freeSpace n = n.cellOffset - slotOffset n.size :=
  IoScheduler.freeSpace_eq h.low (h.top.trans_lt (by decide))

/-- The first tombstone has room for the cell, leaves room for the slot, and no
block lies below it. -/
structure TakesTombstone (n : Node) (keySize valueSize : ℕ) : Prop where
  free : freeSpace n < newCellSize keySize valueSize
  size : newCellSize keySize valueSize ≤ cellTombstoneSize n n.tombstoneOffset
  clear : slotOffset (n.size + 1) ≤ n.tombstoneOffset
  lowest : ∀ ts, Chain n.body n.tombstoneOffset ts → ∀ o ∈ offsets n ++ ts, n.tombstoneOffset ≤ o

/-- The page has a place for a cell and its slot that is below every other block. -/
def CellFits (n : Node) (keySize valueSize : ℕ) : Prop :=
  newCellSize keySize valueSize + 4 ≤ freeSpace n ∨ TakesTombstone n keySize valueSize

theorem CellFits.placedLow (h : CellFits n keySize valueSize) : PlacedLow n keySize valueSize :=
  h.imp (fun hroom => (Nat.le_add_right _ 4).trans hroom) TakesTombstone.lowest

theorem leafCell_fits (hleaf : n.leaf = true) (hsize : key.length + value.length < 2 ^ 31) :
    IsCell n.leaf (leafCell key value) ∧
      (leafCell key value).length ≤ newCellSize key.length value.length := by
  rw [hleaf, newCellSize_eq hsize, length_leafCell]
  exact ⟨leafCell_isCell (by omega), by omega⟩

theorem internalCell_fits {pid : ℕ} (hleaf : n.leaf = false) (hkey : key.length < 2 ^ 31)
    (hpid : pid < 2 ^ 64) : IsCell n.leaf (internalCell key pid) ∧
      (internalCell key pid).length ≤ newCellSize key.length 0 := by
  rw [hleaf, newCellSize_eq (by omega), length_internalCell]
  exact ⟨internalCell_isCell (by omega) hpid, by omega⟩

theorem TakesTombstone.mem (h : TakesTombstone n keySize valueSize)
    (hn : Layout n n.size (offsets n) ts) : n.tombstoneOffset ∈ ts := by
  cases ts with
  | nil =>
      have hclear := h.clear
      have hzero : n.tombstoneOffset = 0 := hn.chain
      simp only [slotOffset, sizeofNode] at hclear
      omega
  | cons t ts => exact hn.chain.1 ▸ List.mem_cons_self

theorem nodeGetFreeOffset_slotClash (h : nodeGetFreeOffset n keySize valueSize = .ok (k, off)) :
    k.slotClash = n.slotClash := by
  simp only [nodeGetFreeOffset] at h
  split_ifs at h
  · obtain ⟨m, hm, h⟩ := bind_eq_ok.mp h
    obtain ⟨rfl, -⟩ := Prod.mk.inj (Except.ok.inj h)
    simp only [takeTombstone] at hm
    split_ifs at hm
    · simp only [bind_eq_ok, Node.write_eq_ok] at hm
      obtain ⟨_, ⟨-, rfl⟩, hm⟩ := hm
      obtain rfl := Except.ok.inj hm
      rfl
    · obtain rfl := Except.ok.inj hm
      rfl
  · obtain ⟨rfl, -⟩ := Prod.mk.inj (Except.ok.inj h)
    rfl
  · obtain ⟨rfl, -⟩ := Prod.mk.inj (Except.ok.inj h)
    rfl

/-- A cell that fits is given a place between the grown slot array and the end of
the page. -/
theorem SoundPage.place (h : SoundPage n) (hfits : CellFits n keySize valueSize) :
    ∃ k off, nodeGetFreeOffset n keySize valueSize = .ok (k, off) ∧
      slotOffset (n.size + 1) ≤ off ∧ off + newCellSize keySize valueSize ≤ nodeSize := by
  have hfree := h.freeSpace_eq
  have htop := h.top
  have hlow := h.low
  simp only [slotOffset] at hfree hlow ⊢
  rcases hfits with hroom | htomb
  · refine ⟨n, _, nodeGetFreeOffset_below ((Nat.le_add_right _ 4).trans hroom), ?_, ?_⟩
    · rw [sub32_of_le (htop.trans_lt (by decide)) (by omega)]
      omega
    · rw [sub32_of_le (htop.trans_lt (by decide)) (by omega)]
      omega
  · obtain ⟨-, ts, hlayout, -⟩ := h.valid
    have hin := hlayout.tombstone_inside (htomb.mem hlayout)
    obtain ⟨hless, hsize, hclear, -⟩ := htomb
    obtain ⟨k, htake⟩ := takeTombstone_isOk hin hsize
    simp only [slotOffset, sizeofNode] at hclear
    refine ⟨k, n.tombstoneOffset, ?_, by simp only [sizeofNode]; omega, ?_⟩
    · simp only [nodeGetFreeOffset]
      rw [if_pos hless, if_pos ⟨by omega, hsize⟩, htake]
      rfl
    · have hend := hin.2
      simp only [tombstoneExtent] at hend
      omega

/-- A sound page takes a cell that fits, at every index. -/
theorem SoundPage.takes (h : SoundPage n) (hfits : CellFits n keySize valueSize)
    (hcell : IsCell n.leaf bytes) (hlen : bytes.length ≤ newCellSize keySize valueSize) :
    ∃ k off, nodeGetFreeOffset n keySize valueSize = .ok (k, off) ∧ 0 < off ∧
      ∀ idx ≤ n.size, ∃ m, nodeInsertCell k off idx bytes = .ok m ∧ SoundPage m := by
  obtain ⟨k, off, hget, hlow, hend⟩ := h.place hfits
  have hksize : k.size = n.size := nodeGetFreeOffset_size hget
  have hpos : 0 < off := by
    simp only [slotOffset, sizeofNode] at hlow
    omega
  have hapart : Apart (off, bytes.length) (slotArray (n.size + 1)) := .inr hlow
  have hslots : Inside (slotArray (n.size + 1)) := by
    refine ⟨le_rfl, ?_⟩
    simp only [slotArray, slotOffset] at hlow ⊢
    omega
  have hin : Inside (off, bytes.length) := by
    refine ⟨?_, by simp only; omega⟩
    simp only [slotOffset] at hlow ⊢
    omega
  refine ⟨k, off, hget, hpos, fun idx hidx => ?_⟩
  rw [← hksize] at hapart hslots hidx hlow
  obtain ⟨m, hins, hclash⟩ := nodeInsertCell_isOk hidx hslots hin hapart
  have hfit : slotOffset k.size ≤ nodeSize := by
    simp only [slotOffset] at hlow ⊢
    omega
  obtain ⟨-, hsize, hco, -⟩ := nodeInsertCell_header hins hidx hfit
  obtain ⟨hvalid, -⟩ := h.valid.insert hget hpos hins (hksize ▸ hapart) hcell hlen
    (by simp only [nodeSize] at hend ⊢; omega) (hksize ▸ hidx) hfits.placedLow
  refine ⟨m, hins, hvalid, ?_, ?_, ?_⟩
  · rwa [hsize, hco]
  · omega
  · rw [hclash, nodeGetFreeOffset_slotClash hget, h.slotClash]

/-- Whatever place a sound page gave a cell that fits, it is sound with the cell. -/
theorem SoundPage.taken (h : SoundPage n) (hfits : CellFits n keySize valueSize)
    (hcell : IsCell n.leaf bytes) (hlen : bytes.length ≤ newCellSize keySize valueSize)
    (hget : nodeGetFreeOffset n keySize valueSize = .ok (k, off)) (hidx : idx ≤ n.size)
    (hins : nodeInsertCell k off idx bytes = .ok m) : SoundPage m := by
  obtain ⟨k', off', hget', -, htakes⟩ := h.takes hfits hcell hlen
  obtain ⟨rfl, rfl⟩ := Prod.mk.inj (Except.ok.inj (hget.symm.trans hget'))
  obtain ⟨m', hins', hm⟩ := htakes idx hidx
  obtain rfl := Except.ok.inj (hins.symm.trans hins')
  exact hm

/-- A redirected pointer leaves a page as sound and as roomy as it was. -/
theorem SoundPage.redirected {pid : ℕ} (h : SoundPage n) (hm : Redirected n m idx pid) :
    SoundPage m := by
  obtain ⟨⟨hlt, ts, hlayout, hcells⟩, hlow, htop, hclash⟩ := h
  refine ⟨⟨hm.cellOffset.trans_lt hlt, ts, hm.layout ts hlayout, fun o ho => ?_⟩, ?_,
    hm.cellOffset.trans_le htop, hm.slotClash.trans hclash⟩
  · rw [hm.offsets_eq] at ho
    rw [hm.cellOffset]
    exact hcells o ho
  · rwa [hm.size, hm.cellOffset]

theorem CellFits.redirected {pid : ℕ} (h : CellFits n keySize valueSize) (hn : ValidPage n)
    (hm : Redirected n m idx pid) : CellFits m keySize valueSize := by
  obtain ⟨-, ts, hlayout, -⟩ := hn
  have hfree : freeSpace m = freeSpace n := by
    rw [freeSpace, freeSpace, hdrOffsetLimit, hdrOffsetLimit, hm.cellOffset, hm.size]
  rcases h with hroom | htomb
  · exact .inl (by rwa [hfree])
  · have hmem := htomb.mem hlayout
    obtain ⟨hless, hsize, hclear, hlowest⟩ := htomb
    refine .inr ⟨by rwa [hfree], ?_, by rwa [hm.size, hm.tombstoneOffset], fun us hus => ?_⟩
    · rw [hm.tombstoneOffset, hm.tombstones ts hlayout _ hmem]
      exact hsize
    · rw [← (hm.layout ts hlayout).chain.unique hus, hm.offsets_eq, hm.tombstoneOffset]
      exact hlowest ts hlayout.chain

/-- A key that has a cell next to another one fits in an empty page. -/
theorem ValidPage.separator_fits {leaf root : Bool} {page : Node} (h : ValidPage n) (hp : 0 < p)
    (hlt : p < n.size) : CellFits (nodeInit page leaf root) (keyAt n p).length 0 := by
  obtain ⟨-, ts, hlayout, -⟩ := h
  have hkey := (hlayout.whole _ (mem_offsets hlt)).keySize_le
  have hroom := hlayout.room
  have hfirst : cellBytes n ((offsets n).take 0) + (sizeofCell + cellTotalSize n (cellPtr n 0)) ≤
      cellBytes n ((offsets n).take p) := by
    rw [← cellBytes_take_succ (by omega)]
    exact cellBytes_take_mono hp
  have hnext := cellBytes_take_succ hlt
  have hlast : cellBytes n ((offsets n).take (p + 1)) ≤ cellBytes n (offsets n) := by
    have hall := cellBytes_take_mono (n := n) (show p + 1 ≤ n.size by omega)
    rwa [List.take_of_length_le length_offsets.le] at hall
  simp only [slotOffset, sizeofNode, sizeofCell, nodeSize] at hroom hfirst hnext
  left
  rw [nodeInit_sound.freeSpace_eq, newCellSize_eq (by rw [keyAt, length_cellGetKey]; omega), keyAt,
    length_cellGetKey]
  simp only [nodeInit, nodeSize, slotOffset, sizeofNode, sizeofCell]
  omega

/-! ## The halves of a sound leaf -/

/-- The left half of a full leaf has room for a cell: the slots of the moved cells
are free, and its first tombstone is the last of them. -/
def FitsLeft (n : Node) (keySize valueSize : ℕ) : Prop :=
  newCellSize keySize valueSize + 4 ≤ sub32 n.cellOffset (u32 (slotOffset (nodePartitionIdx n))) ∨
    sub32 n.cellOffset (u32 (slotOffset (nodePartitionIdx n))) < newCellSize keySize valueSize ∧
    newCellSize keySize valueSize ≤ sizeofCell + cellTotalSize n (cellPtr n (n.size - 1)) ∧
    ∀ ts, Chain n.body n.tombstoneOffset ts → ∀ o ∈ offsets n ++ ts, cellPtr n (n.size - 1) ≤ o

/-- The right half of a full leaf has room for a cell below its own. -/
def FitsRight (n : Node) (keySize valueSize : ℕ) : Prop :=
  slotOffset (n.size - nodePartitionIdx n) + cellBytes n ((offsets n).drop (nodePartitionIdx n)) +
    newCellSize keySize valueSize + 4 ≤ nodeSize

/-- The half of a full leaf that takes the entry has room for it. -/
def HalfFits (n : Node) (key value : List UInt8) : Prop :=
  if keyCompare (keyAt n (nodePartitionIdx n)) key < 0 then FitsRight n key.length value.length
  else FitsLeft n key.length value.length

theorem HalfFits.placedLow (h : HalfFits n key value) : HalfPlacedLow n key value := by
  rw [HalfFits] at h
  split_ifs at h with hright
  · exact .inl hright
  · refine .inr (h.imp (fun hroom => (Nat.le_add_right _ 4).trans hroom) ?_)
    exact fun htomb => htomb.2.2

/-- Both halves are sound, and each has the room the whole leaf said it would. -/
structure SoundHalves (n old new : Node) : Prop where
  oldSound : SoundPage old
  newSound : SoundPage new
  oldLeaf : old.leaf = true
  newLeaf : new.leaf = true
  size : n.size = u32 (old.size + new.size)
  fitsLeft : ∀ keySize valueSize, FitsLeft n keySize valueSize → CellFits old keySize valueSize
  fitsRight : ∀ keySize valueSize, FitsRight n keySize valueSize → CellFits new keySize valueSize

theorem SoundPage.halves {page : Node} (h : SoundPage n) (hleaf : n.leaf = true)
    (hp : nodePartitionIdx n < n.size) (hfresh : Fresh page true)
    (hclash : page.slotClash = false) :
    ∃ old new, leafNodeSplit n page (nodePartitionIdx n) = .ok (old, new) ∧
      SoundHalves n old new := by
  obtain ⟨-, ts, hlayout, hcells⟩ := id h.valid
  obtain ⟨old, new, hsplit, hs, -⟩ := leafNodeSplit_spec hp hlayout hleaf hfresh
  have hcut := h.valid.cutLeaf hleaf hfresh hsplit
  obtain ⟨hnewLow, hnewTop⟩ := hs.new_room hlayout
  have hlow := h.low
  have hold : SoundPage old := by
    refine ⟨hcut.oldValid, ?_, hs.cellOffset.trans_le h.top, hs.slotClash.trans h.slotClash⟩
    rw [hs.size, hs.cellOffset]
    simp only [slotOffset] at hlow ⊢
    omega
  have hnew : SoundPage new :=
    ⟨hcut.newValid, hnewLow, hnewTop, hs.newSlotClash.trans hclash⟩
  have hfree : freeSpace old = sub32 n.cellOffset (u32 (slotOffset (nodePartitionIdx n))) := by
    rw [freeSpace, hdrOffsetLimit, hs.size, hs.cellOffset]
  refine ⟨old, new, hsplit, hold, hnew, hcut.oldLeaf, hcut.newLeaf, ?_, ?_, ?_⟩
  · have hlt := hlayout.size_lt
    rw [hs.size, hs.newSize, u32_of_lt (by omega)]
    omega
  · rintro keySize valueSize (hroom | ⟨hless, hlast, hlowest⟩)
    · exact .inl (by rwa [hfree])
    · obtain ⟨htomb, -, -, hsize⟩ := hs.old_tombstone hp
      rw [← hfree] at hless
      refine .inr ⟨hless, by rwa [hsize], ?_, ?_⟩
      · have habove := hcells _ (List.mem_append_left _
          (mem_offsets (show n.size - 1 < n.size by omega)))
        rw [htomb, hs.size]
        simp only [slotOffset] at hlow ⊢
        omega
      · have hplaced : PlacedLow old keySize valueSize :=
          (hcut.placedLow keySize valueSize).mpr (.inr hlowest)
        exact hplaced.resolve_left (not_le.mpr hless)
  · intro keySize valueSize hroom
    have hsum := hs.newCellOffset
    rw [FitsRight] at hroom
    left
    rw [hnew.freeSpace_eq, hs.newSize]
    omega

/-- Parent links and the root's flag have no part in the room of a page. -/
theorem SoundPage.relink (h : SoundPage n) (pid parent : ℕ) (root : Bool) :
    SoundPage { n with rightmostPid := pid, parentPid := parent, root := root } :=
  ⟨h.valid.relink pid parent root, h.low, h.top, h.slotClash⟩

theorem SoundPage.halves_relinked {page : Node} {root : Bool} {parent : ℕ} (h : SoundPage n)
    (hleaf : n.leaf = true) (hp : nodePartitionIdx n < n.size) (hfresh : Fresh page true)
    (hclash : page.slotClash = false) :
    ∃ old new, leafNodeSplit { n with parentPid := parent, root := root } page
      (nodePartitionIdx n) = .ok (old, new) ∧ SoundHalves n old new := by
  have hidx : nodePartitionIdx { n with parentPid := parent, root := root } =
      nodePartitionIdx n := nodePartitionIdx_congr rfl rfl
  obtain ⟨old, new, hsplit, hold, hnew, holdLeaf, hnewLeaf, hsize, hleft, hright⟩ :=
    (h.relink n.rightmostPid parent root).halves hleaf (by rwa [hidx]) hfresh hclash
  simp only [FitsLeft] at hleft
  simp only [FitsRight] at hright
  rw [hidx] at hsplit hleft hright
  exact ⟨old, new, hsplit, hold, hnew, holdLeaf, hnewLeaf, hsize, hleft, hright⟩

end IoScheduler
