import IoScheduler.NodePartition
import IoScheduler.NodeReuse

/-!
# Pages of equal cells

A page whose cells all have one size is filled from its end downwards, and then
nothing about it is left open: when it is full, where it is cut and where the
next cell goes follow from the number of its cells alone.
-/
namespace IoScheduler
open Machine Bytes SearchTree

variable {n m new old : Node} {len cell i p q keySize valueSize child : ℕ} {ks : List Key}
  {key value bytes : List UInt8} {ts : List ℕ}

/-- Cells of `cell` bytes with keys of `len` bytes, one below the other. -/
structure Packed (n : Node) (len cell : ℕ) (ks : List Key) : Prop where
  valid : ValidPage n
  cellOffset : n.cellOffset + cell * ks.length = nodeSize
  tombstoneOffset : n.tombstoneOffset = 0
  keys_eq : keys n = ks
  cells : ∀ o ∈ offsets n, cellKeySize n o = len ∧ sizeofCell + cellTotalSize n o = cell

theorem Fresh.packed {leaf : Bool} (h : Fresh n leaf) : Packed n len cell [] := by
  have hoffsets : offsets n = [] := by rw [offsets, h.size]; rfl
  have hfilling := h.filling
  have hlt : n.cellOffset < 2 ^ 32 := hfilling.top.trans_lt (by norm_num [nodeSize])
  refine ⟨⟨hlt, [], ?_, ?_⟩, ?_, h.tombstoneOffset, ?_, ?_⟩
  · have hlayout := hfilling.layout
    rw [offsets, h.size]
    exact hlayout
  · rw [hoffsets]
    exact fun o ho => absurd ho List.not_mem_nil
  · exact h.cellOffset
  · rw [keys, hoffsets]
    rfl
  · rw [hoffsets]
    exact fun o ho => absurd ho List.not_mem_nil

theorem Packed.size (h : Packed n len cell ks) : n.size = ks.length := by
  rw [← length_keys, h.keys_eq]

theorem Packed.layout (h : Packed n len cell ks) : Layout n n.size (offsets n) [] := by
  obtain ⟨-, ts, hlayout, -⟩ := h.valid
  rwa [hlayout.chain.unique (show Chain n.body n.tombstoneOffset [] from h.tombstoneOffset)]
    at hlayout

/-- The header fields that say nothing about the cells. -/
theorem Packed.header (h : Packed n len cell ks) (parent last : ℕ) (root : Bool) :
    Packed { n with parentPid := parent, rightmostPid := last, root } len cell ks := by
  obtain ⟨hlt, ts, hlayout, hlow⟩ := h.valid
  exact ⟨⟨hlt, ts, hlayout.congr rfl (fun o ho => ⟨rfl, hlayout.whole o ho⟩) fun _ _ => Agree.rfl,
    hlow⟩, h.cellOffset, h.tombstoneOffset, h.keys_eq, h.cells⟩

theorem Packed.keyAt (h : Packed n len cell ks) (hi : ks[i]? = some ⟨key⟩) :
    IoScheduler.keyAt n i = key ∧ key.length = len := by
  have hlt : i < n.size := by
    rw [h.size]
    exact (List.getElem?_eq_some_iff.mp hi).1
  rw [← h.keys_eq, getElem?_keys, if_pos hlt] at hi
  obtain rfl := Key.mk.inj (Option.some.inj hi)
  refine ⟨rfl, ?_⟩
  rw [IoScheduler.keyAt, length_cellGetKey]
  exact (h.cells _ (mem_offsets hlt)).1

theorem Packed.key_length (h : Packed n len cell ks) {x : Key} (hx : x ∈ ks) :
    x.bytes.length = len := by
  obtain ⟨i, hi⟩ := List.mem_iff_getElem?.mp hx
  have hat : IoScheduler.keyAt n i = x.bytes ∧ x.bytes.length = len := h.keyAt hi
  exact hat.2

theorem Packed.freeSpace (h : Packed n len cell ks)
    (hroom : slotOffset ks.length + cell * ks.length ≤ nodeSize) :
    IoScheduler.freeSpace n + slotOffset ks.length + cell * ks.length = nodeSize := by
  have hco := h.cellOffset
  have hlow : slotOffset n.size ≤ n.cellOffset := by
    rw [h.size]
    omega
  rw [freeSpace_eq hlow (by simp only [nodeSize] at hco; omega), h.size]
  rw [h.size] at hlow
  omega

/-- The walk along the tombstones finds none. -/
theorem Packed.isFull (h : Packed n len cell ks)
    (hroom : slotOffset ks.length + cell * ks.length ≤ nodeSize)
    (hneed : newCellSize keySize valueSize = cell) : nodeIsFull n keySize valueSize =
      .ok (decide (nodeSize < slotOffset ks.length + cell * (ks.length + 1))) := by
  have hfree := h.freeSpace hroom
  rw [nodeIsFull_spec h.layout.spread, hneed]
  congr 1
  apply decide_eq_decide.mpr
  rw [Nat.mul_succ]
  constructor
  · rintro ⟨hless, -⟩
    omega
  · intro hless
    exact ⟨by omega, fun t ht => absurd ht List.not_mem_nil⟩

/-- A key above all of a page's is looked for at its end. -/
theorem Packed.search (h : Packed n len cell ks) (hkey : key.length < 2 ^ 31) (hlen : len < 2 ^ 31)
    (hlt : ∀ x ∈ ks, x < ⟨key⟩) : nodeBinSearch n key = .ok (false, ks.length) := by
  have hsize := h.layout.size_lt
  have hbelow : ∀ i < n.size, keyCompare (IoScheduler.keyAt n i) key < 0 := by
    intro i hi
    have hmem : (⟨IoScheduler.keyAt n i⟩ : Key) ∈ ks := by
      rw [← h.keys_eq]
      exact mem_keys.mpr ⟨i, hi, rfl⟩
    have hshort := h.key_length hmem
    exact (keyCompare_spec (by simp only at hshort; omega) hkey).1.mpr (hlt _ hmem)
  obtain ⟨found, idx, hs⟩ : ∃ found idx, nodeBinSearch n key = .ok (found, idx) :=
    nodeBinSearch_isOk hsize
  rcases nodeBinSearch_spec hs hsize with ⟨-, hidx, hzero⟩ | ⟨rfl, hle, -, hhigh⟩
  · have hneg := hbelow idx hidx
    omega
  · have hend : idx = n.size := by
      by_contra hne
      have hpos := hhigh.resolve_left hne
      have hneg := hbelow idx (by omega)
      omega
    rw [hs, hend, h.size]

/-- The page is cut where its first cells fill half a page. -/
theorem Packed.partition (h : Packed n len cell ks) (hp : 0 < p) (hlt : p < ks.length)
    (hlow : cell * (p - 1) < halfPage) (hhigh : halfPage ≤ cell * p) : nodePartitionIdx n = p := by
  have hcell : ∀ o ∈ offsets n, sizeofCell + cellTotalSize n o ≤ nodeSize := fun o ho => by
    have hin := (h.layout.cell_inside ho).2
    simp only [cellExtent] at hin
    omega
  have hbytes : ∀ i ≤ ks.length, cellBytes n ((offsets n).take i) = cell * i := by
    intro i hi
    rw [cellBytes, List.map_congr_left (g := fun _ => cell) fun o ho =>
      (h.cells o (List.mem_of_mem_take ho)).2, List.map_const', List.sum_replicate,
      List.length_take, length_offsets, h.size, min_eq_left hi, smul_eq_mul, Nat.mul_comm]
  obtain ⟨hle, hbefore, hafter⟩ := nodePartitionIdx_spec hcell
  rw [h.size] at hle hafter
  rcases lt_trichotomy (nodePartitionIdx n) p with hless | heq | hmore
  · have hhalf := hafter (by omega)
    rw [hbytes _ hle] at hhalf
    have hmono : cell * nodePartitionIdx n ≤ cell * (p - 1) := Nat.mul_le_mul_left _ (by omega)
    omega
  · exact heq
  · have hhalf := hbefore p hmore
    rw [hbytes _ hlt.le] at hhalf
    omega

/-! ## One more cell -/

/-- A cell of the page's size goes below the others. -/
theorem Packed.append (h : Packed n len cell ks) (hcell : IsCell n.leaf bytes)
    (hbytes : bytes.length = cell) (hneed : newCellSize keySize valueSize = cell)
    (hroom : slotOffset ks.length + 4 + cell * (ks.length + 1) ≤ nodeSize)
    (hread : ∀ m off, load m.body off bytes.length = bytes →
      cellKeySize m off = len ∧ cellGetKey m off = key) :
    ∃ off m, nodeGetFreeOffset n keySize valueSize = .ok (n, off) ∧ 0 < off ∧
      nodeInsertCell n off ks.length bytes = .ok m ∧ Packed m len cell (ks ++ [⟨key⟩]) ∧
        m.leaf = n.leaf ∧ m.rightmostPid = n.rightmostPid := by
  have hco := h.cellOffset
  rw [Nat.mul_succ] at hroom
  obtain ⟨off, m, hget, hoff, hins, hvalid, hadded, htomb, hcoff, -⟩ :=
    h.valid.cell_below hcell h.size.ge (hbytes.trans hneed.symm).le (by omega)
      (by rw [hneed, h.size]; omega)
  rw [hneed] at hoff
  obtain ⟨hkeySize, hkey⟩ := hread m off hadded.loaded
  have hext := (hcell m off hadded.leaf hadded.loaded).1
  have hsplit : offsets m = offsets n ++ [off] := by
    have hall : (offsets n).length ≤ ks.length := by rw [length_offsets, h.size]
    rw [hadded.offsets_eq, List.take_of_length_le hall, List.drop_eq_nil_of_le hall]
  have hwhole := h.layout.whole
  have hkept := hadded.kept
  refine ⟨off, m, hget, ?_, hins, ⟨hvalid, ?_, htomb.trans h.tombstoneOffset, ?_, ?_⟩, hadded.leaf,
    hadded.rightmostPid⟩
  · simp only [slotOffset, sizeofNode] at hroom
    omega
  · rw [hcoff, List.length_append, List.length_singleton, Nat.mul_succ]
    omega
  · rw [keys, hsplit, List.map_append, List.map_singleton, hkey, ← h.keys_eq, keys]
    congr 1
    exact List.map_congr_left fun o ho =>
      congrArg Key.mk ((hkept o ho).getKey (hwhole o ho).keySize_le)
  · rw [hsplit]
    intro o ho
    rcases List.mem_append.mp ho with ho | ho
    · rw [keptHeader_keySize (hkept o ho).header, keptHeader_totalSize (hkept o ho).header]
      exact h.cells o ho
    · obtain rfl := List.mem_singleton.mp ho
      exact ⟨hkeySize, (congrArg Prod.snd hext).trans hbytes⟩

theorem Packed.append_entry (h : Packed n len cell ks) (hleaf : n.leaf = true)
    (hkey : key.length = len) (hcell : sizeofCell + (len + value.length) = cell)
    (hneed : newCellSize key.length value.length = cell)
    (hroom : slotOffset ks.length + 4 + cell * (ks.length + 1) ≤ nodeSize) :
    ∃ off m, nodeGetFreeOffset n key.length value.length = .ok (n, off) ∧ 0 < off ∧
      nodeInsertLeafCell n off ks.length key value = .ok m ∧ Packed m len cell (ks ++ [⟨key⟩]) ∧
        m.leaf = true := by
  rw [Nat.mul_succ, nodeSize] at hroom
  have hlen : key.length + value.length < 2 ^ 32 := by omega
  obtain ⟨off, m, hget, hoff, hins, hm, hmleaf, -⟩ := h.append
    (by rw [hleaf]; exact leafCell_isCell hlen) (by rw [length_leafCell, hkey, hcell]) hneed
    (by rw [Nat.mul_succ]; exact hroom) fun m off hload => by
      obtain ⟨hsize, -, -, hentry⟩ := leafCell_read hload hlen
      exact ⟨hsize.trans hkey, Key.mk.inj (congrArg Prod.fst hentry)⟩
  exact ⟨off, m, hget, hoff, hins, hm, hmleaf.trans hleaf⟩

theorem Packed.append_separator (h : Packed n len cell ks) (hleaf : n.leaf = false)
    (hkey : key.length = len) (hcell : sizeofCell + len = cell)
    (hneed : newCellSize key.length 0 = cell) (hchild : child < 2 ^ 64)
    (hroom : slotOffset ks.length + 4 + cell * (ks.length + 1) ≤ nodeSize) :
    ∃ off m, nodeGetFreeOffset n key.length 0 = .ok (n, off) ∧ 0 < off ∧
      nodeInsertInternalCell n off ks.length key child = .ok m ∧
        Packed m len cell (ks ++ [⟨key⟩]) ∧ m.leaf = false ∧ m.rightmostPid = n.rightmostPid := by
  rw [Nat.mul_succ, nodeSize] at hroom
  have hlen : key.length < 2 ^ 32 := by omega
  obtain ⟨off, m, hget, hoff, hins, hm, hmleaf, hlast⟩ := h.append
    (by rw [hleaf]; exact internalCell_isCell hlen hchild)
    (by rw [length_internalCell, hkey, hcell]) hneed (by rw [Nat.mul_succ]; exact hroom)
    fun m off hload => by
      obtain ⟨hsize, -, hsep⟩ := internalCell_read hload hlen hchild
      exact ⟨hsize.trans hkey, Key.mk.inj (congrArg Prod.fst hsep)⟩
  exact ⟨off, m, hget, hoff, hins, hm, hmleaf.trans hleaf, hlast⟩

/-! ## Splits -/

/-- The new page of a split takes cells of the same size. -/
theorem SplitPages.packed {new' : Node} (hs : SplitPages n new old new' p q ts)
    (h : Packed n len cell ks)
    (hkeys : keys new' = (keys n).drop q)
    (hcells : ∀ o ∈ offsets new', ∃ x ∈ offsets n, cellKeySize new' o = cellKeySize n x ∧
      cellTotalSize new' o = cellTotalSize n x) : Packed new' len cell (ks.drop q) := by
  have hbytes : cellBytes n ((offsets n).drop q) = cell * (ks.length - q) := by
    rw [cellBytes, List.map_congr_left (g := fun _ => cell) fun o ho =>
      (h.cells o (List.mem_of_mem_drop ho)).2, List.map_const', List.sum_replicate,
      List.length_drop, length_offsets, h.size, smul_eq_mul, Nat.mul_comm]
  have hco := hs.newCellOffset
  rw [hbytes] at hco
  refine ⟨⟨?_, [], hs.newLayout, fun o ho => ?_⟩, ?_, hs.newTombstoneOffset, ?_, fun o ho => ?_⟩
  · simp only [nodeSize] at hco
    omega
  · rw [List.append_nil] at ho
    exact hs.newLow o ho
  · rw [List.length_drop, hco]
  · rw [hkeys, h.keys_eq]
  · obtain ⟨x, hx, hkeySize, htotal⟩ := hcells o ho
    rw [hkeySize, htotal]
    exact h.cells x hx

theorem Packed.split_leaf (h : Packed n len cell ks) (hleaf : n.leaf = true) (hp : p < ks.length)
    (hnew : Fresh new true) : ∃ old new', leafNodeSplit n new p = .ok (old, new') ∧
      Packed new' len cell (ks.drop p) ∧ new'.leaf = true ∧ old.size = p ∧ old.leaf = true := by
  obtain ⟨old, new', hsplit, hs, hcells⟩ :=
    leafNodeSplit_spec (by rw [h.size]; exact hp) h.layout hleaf hnew
  have hnewLeaf : new'.leaf = true := hs.newLeaf.trans hnew.leaf
  have hkeys : keys new' = (keys n).drop p := by
    have hfst := congrArg (List.map Prod.fst) hcells
    rw [List.map_map, List.map_map, List.map_drop] at hfst
    exact hfst
  refine ⟨old, new', hsplit, hs.packed h hkeys fun o ho => ?_, hnewLeaf, hs.size,
    hs.leaf.trans hleaf⟩
  have hmem : entryAt new' o ∈ ((offsets n).drop p).map (entryAt n) := by
    rw [← hcells]
    exact List.mem_map_of_mem ho
  obtain ⟨x, hx, heq⟩ := List.mem_map.mp hmem
  obtain ⟨hkey, hvalue⟩ := Prod.mk.inj heq
  have hx := List.mem_of_mem_drop hx
  have hkeySize : cellKeySize new' o = cellKeySize n x := by
    rw [← length_cellGetKey, ← length_cellGetKey, Key.mk.inj hkey]
  have hvalueSize : cellValueSize new' o = cellValueSize n x := by
    rw [← length_leafCellGetValue, ← length_leafCellGetValue, hvalue]
  refine ⟨x, hx, hkeySize, ?_⟩
  rw [hs.newLayout.whole o ho, h.layout.whole x hx, hkeySize, hvalueSize, hnewLeaf, hleaf]

theorem Packed.split_branch (h : Packed n len cell ks) (hleaf : n.leaf = false) (hp : 0 < p)
    (hlt : p + 1 < ks.length) (hnew : Fresh new false) :
    ∃ old new', internalNodeSplit n new p = .ok (old, new') ∧
      Packed new' len cell (ks.drop (p + 1)) ∧ new'.leaf = false ∧ old.size = p ∧
        old.leaf = false := by
  obtain ⟨old, new', hsplit, hs, hcells⟩ :=
    internalNodeSplit_spec hp (by rw [h.size]; exact hlt) h.layout hleaf hnew
  have hnewLeaf : new'.leaf = false := hs.newLeaf.trans hnew.leaf
  have hkeys : keys new' = (keys n).drop (p + 1) := by
    have hfst := congrArg (List.map Prod.fst) hcells
    rw [List.map_map, List.map_map, List.map_drop] at hfst
    exact hfst
  refine ⟨old, new', hsplit, hs.packed h hkeys fun o ho => ?_, hnewLeaf, hs.size,
    hs.leaf.trans hleaf⟩
  have hmem : separatorAt new' o ∈ ((offsets n).drop (p + 1)).map (separatorAt n) := by
    rw [← hcells]
    exact List.mem_map_of_mem ho
  obtain ⟨x, hx, heq⟩ := List.mem_map.mp hmem
  have hkey := (Prod.mk.inj heq).1
  have hx := List.mem_of_mem_drop hx
  have hkeySize : cellKeySize new' o = cellKeySize n x := by
    rw [← length_cellGetKey, ← length_cellGetKey, Key.mk.inj hkey]
  refine ⟨x, hx, hkeySize, ?_⟩
  rw [hs.newLayout.whole o ho, h.layout.whole x hx, hkeySize, hnewLeaf, hleaf]
  rfl

end IoScheduler
