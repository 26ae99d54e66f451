import IoScheduler.NodeSplit

/-!
# Pages as pages of a search tree

A laid out page with increasing keys is searched by its keys, gains an entry at
its place when a cell is entered, and takes the separator of a split child
before the pointer that now leads to the right half.
-/
namespace IoScheduler
open Machine Bytes SearchTree

variable {n k m : Node} {off idx slots keySize valueSize pid child : ℕ} {os ts : List ℕ}
  {key value bytes : List UInt8} {found : Bool}

def keys (n : Node) : List Key := (offsets n).map fun o => ⟨cellGetKey n o⟩

def leafEntries (n : Node) : List (Key × List UInt8) := (offsets n).map (entryAt n)

def branchCells (n : Node) : List (Key × ℕ) := (offsets n).map (separatorAt n)

/-- The pids a page holds as children, nulls left out. -/
def childPids (n : Node) : List ℕ := (page n).children.filter (· ≠ 0)

theorem page_leaf (h : n.leaf = true) : page n = .leaf (leafEntries n) := by
  rw [page, if_pos h]
  rfl

theorem page_branch (h : n.leaf = false) : page n = .branch (branchCells n) n.rightmostPid := by
  rw [page, if_neg (by simp [h])]
  rfl

theorem leaf_of_page {es : List (Key × List UInt8)} (h : page n = .leaf es) :
    n.leaf = true ∧ leafEntries n = es := by
  cases hleaf : n.leaf with
  | true =>
      rw [page_leaf hleaf] at h
      exact ⟨rfl, Page.leaf.inj h⟩
  | false =>
      rw [page_branch hleaf] at h
      cases h

theorem branch_of_page {cells : List (Key × ℕ)} {last : ℕ} (h : page n = .branch cells last) :
    n.leaf = false ∧ branchCells n = cells ∧ n.rightmostPid = last := by
  cases hleaf : n.leaf with
  | true =>
      rw [page_leaf hleaf] at h
      cases h
  | false =>
      rw [page_branch hleaf] at h
      exact ⟨rfl, Page.branch.inj h⟩

theorem childPids_leaf (h : n.leaf = true) : childPids n = [] := by
  rw [childPids, page_leaf h]
  rfl

theorem childPids_branch (h : n.leaf = false) :
    childPids n = (kids n.rightmostPid (branchCells n)).filter (· ≠ 0) := by
  rw [childPids, page_branch h]
  rfl

theorem leafEntries_keys : (leafEntries n).map Prod.fst = keys n := List.map_map

theorem branchCells_keys : (branchCells n).map Prod.fst = keys n := List.map_map

theorem length_leafEntries : (leafEntries n).length = n.size := by
  rw [leafEntries, List.length_map, length_offsets]

theorem length_branchCells : (branchCells n).length = n.size := by
  rw [branchCells, List.length_map, length_offsets]

theorem length_keys : (keys n).length = n.size := by
  rw [keys, List.length_map, length_offsets]

theorem getElem?_keys : (keys n)[idx]? = if idx < n.size then some ⟨keyAt n idx⟩ else none := by
  rw [keys, List.getElem?_map, getElem?_offsets]
  split_ifs <;> rfl

theorem mem_keys : (⟨key⟩ : Key) ∈ keys n ↔ ∃ i < n.size, keyAt n i = key := by
  rw [List.mem_iff_getElem?]
  constructor
  · rintro ⟨i, hi⟩
    rw [getElem?_keys] at hi
    split_ifs at hi with hlt
    exact ⟨i, hlt, congrArg Key.bytes (Option.some.inj hi)⟩
  · rintro ⟨i, hlt, rfl⟩
    exact ⟨i, by rw [getElem?_keys, if_pos hlt]⟩

/-- The search of a laid out page with increasing keys. -/
theorem Layout.search (h : Layout n n.size (offsets n) ts) (hsort : (keys n).Pairwise (· < ·))
    (hkey : key.length < 2 ^ 31) (hs : nodeBinSearch n key = .ok (found, idx)) :
    (found = true ∧ idx < n.size ∧ keyAt n idx = key) ∨ found = false ∧ idx ≤ n.size ∧
      (∀ x ∈ (keys n).take idx, x < ⟨key⟩) ∧ ∀ x ∈ (keys n).drop idx, ⟨key⟩ < x := by
  have hsize : n.size < 2 ^ 10 := by
    have hle := h.slots_le
    simp only [slotOffset, sizeofNode, nodeSize] at hle
    omega
  have hlen : ∀ i < n.size, (keyAt n i).length < 2 ^ 31 := fun i hi => by
    have hlt := h.keySize_lt (mem_offsets hi)
    rw [keyAt, length_cellGetKey]
    simp only [nodeSize] at hlt
    omega
  have hget : ∀ i (hi : i < (keys n).length), (keys n)[i] = ⟨keyAt n i⟩ := fun i hi => by
    have hsome : (keys n)[i]? = some ⟨keyAt n i⟩ := by
      rw [getElem?_keys, if_pos (length_keys ▸ hi)]
    rw [List.getElem?_eq_getElem hi] at hsome
    exact Option.some.inj hsome
  rw [List.pairwise_iff_getElem] at hsort
  have hincreasing : ∀ i j, i < j → j < n.size → (⟨keyAt n i⟩ : Key) < ⟨keyAt n j⟩ := by
    intro i j hij hj
    have hj' : j < (keys n).length := by rwa [length_keys]
    have hlt := hsort i j (hij.trans hj') hj' hij
    rwa [hget, hget] at hlt
  rcases nodeBinSearch_sorted hs (by omega) hkey hlen hincreasing with
    ⟨hf, hlt, heq⟩ | ⟨hf, hle, hlow, hhigh⟩
  · exact .inl ⟨hf, hlt, heq⟩
  · refine .inr ⟨hf, hle, fun x hx => ?_, fun x hx => ?_⟩
    · obtain ⟨i, hi, rfl⟩ := List.mem_iff_getElem.mp hx
      rw [List.length_take, length_keys] at hi
      rw [List.getElem_take, hget]
      exact hlow i (by omega)
    · obtain ⟨i, hi, rfl⟩ := List.mem_iff_getElem.mp hx
      rw [List.length_drop, length_keys] at hi
      rw [List.getElem_drop, hget]
      exact hhigh _ (Nat.le_add_right _ _) (by omega)

/-- A page that keeps its cells keeps its keys and what it holds. -/
theorem keys_congr (hos : offsets m = offsets n) (hkept : ∀ o ∈ offsets n, Kept n m o)
    (hwhole : ∀ o ∈ offsets n, Whole n o) : keys m = keys n := by
  rw [keys, keys, hos]
  exact List.map_congr_left fun o ho =>
    congrArg Key.mk ((hkept o ho).getKey (hwhole o ho).keySize_le)

/-- Looking for a place changes no cell. -/
theorem Layout.getFree (h : Layout n n.size (offsets n) ts)
    (hget : nodeGetFreeOffset n keySize valueSize = .ok (k, off)) (hoff : 0 < off) :
    ∃ us, Layout k k.size (offsets k) us ∧ offsets k = offsets n ∧ k.size = n.size ∧
      ∀ o ∈ offsets n, Kept n k o := by
  rcases nodeGetFreeOffset_eq_ok hget hoff with ⟨-, rfl, -⟩ | ⟨-, rfl, hfit, htake⟩
  · exact ⟨ts, h, rfl, rfl, fun _ _ => Agree.rfl⟩
  · cases ts with
    | nil => exact absurd h.chain hoff.ne'
    | cons t ts =>
        have hhead := h.chain.1
        rw [hhead] at hfit
        have hk := takeTombstone_spec htake (hhead ▸ hfit)
        obtain ⟨us, hlayout, hslots, hkept, -⟩ := h.taken hk hfit
        exact ⟨us, hlayout, hslots, hk.size, hkept⟩

/-! ## Entering an entry or a separator -/

theorem CellAdded.entries_eq (h : CellAdded n m off idx (leafCell key value))
    (hn : Layout n n.size (offsets n) ts) (hleaf : n.leaf = true)
    (hlen : key.length + value.length < 2 ^ 32) :
    leafEntries m = (leafEntries n).take idx ++ (⟨key⟩, value) :: (leafEntries n).drop idx := by
  have hold : ∀ o ∈ offsets n, entryAt m o = entryAt n o := fun o ho =>
    (h.kept o ho).entry (hn.whole o ho) hleaf
  have hnew : entryAt m off = (⟨key⟩, value) := (leafCell_read h.loaded hlen).2.2.2
  rw [leafEntries, leafEntries, h.offsets_eq, List.map_append, List.map_cons,
    hnew, ← List.map_take, ← List.map_drop,
    List.map_congr_left fun o ho => hold o (List.mem_of_mem_take ho),
    List.map_congr_left fun o ho => hold o (List.mem_of_mem_drop ho)]

theorem CellAdded.cells_eq (h : CellAdded n m off idx (internalCell key child))
    (hn : Layout n n.size (offsets n) ts) (hlen : key.length < 2 ^ 32) (hchild : child < 2 ^ 64) :
    branchCells m = (branchCells n).take idx ++ (⟨key⟩, child) :: (branchCells n).drop idx := by
  have hold : ∀ o ∈ offsets n, separatorAt m o = separatorAt n o := fun o ho =>
    (h.kept o ho).separator (hn.whole o ho)
  have hnew : separatorAt m off = (⟨key⟩, child) := (internalCell_read h.loaded hlen hchild).2.2
  rw [branchCells, branchCells, h.offsets_eq, List.map_append, List.map_cons,
    hnew, ← List.map_take, ← List.map_drop,
    List.map_congr_left fun o ho => hold o (List.mem_of_mem_take ho),
    List.map_congr_left fun o ho => hold o (List.mem_of_mem_drop ho)]

theorem placedLow_iff (h : Layout n n.size (offsets n) ts) : PlacedLow n keySize valueSize ↔
    newCellSize keySize valueSize ≤ freeSpace n ∨ ∀ o ∈ offsets n ++ ts, n.tombstoneOffset ≤ o := by
  refine or_congr Iff.rfl ⟨fun hlow => hlow ts h.chain, fun hlow us hus => ?_⟩
  rw [← h.chain.unique hus]
  exact hlow

/-- The pointer right of the first `idx` cells now leads to `pid`. -/
structure Redirected (n m : Node) (idx pid : ℕ) : Prop where
  leaf : m.leaf = n.leaf
  root : m.root = n.root
  size : m.size = n.size
  cellOffset : m.cellOffset = n.cellOffset
  tombstoneOffset : m.tombstoneOffset = n.tombstoneOffset
  offsets_eq : offsets m = offsets n
  slotClash : m.slotClash = n.slotClash
  layout : ∀ ts, Layout n n.size (offsets n) ts → Layout m m.size (offsets m) ts
  tombstones : ∀ ts, Layout n n.size (offsets n) ts →
    ∀ t ∈ ts, cellTombstoneSize m t = cellTombstoneSize n t
  cells : branchCells m = (branchCells n).take idx ++
    (redirect pid n.rightmostPid ((branchCells n).drop idx)).1
  last : m.rightmostPid = (redirect pid n.rightmostPid ((branchCells n).drop idx)).2

theorem redirected_last (hidx : n.size ≤ idx) :
    Redirected n { n with rightmostPid := pid } idx pid := by
  have hdrop : (branchCells n).drop idx = [] :=
    List.drop_eq_nil_of_le (by rw [length_branchCells]; exact hidx)
  have htake : (branchCells n).take idx = branchCells n :=
    List.take_of_length_le (by rw [length_branchCells]; exact hidx)
  refine ⟨rfl, rfl, rfl, rfl, rfl, rfl, rfl, fun ts h => ?_, fun _ _ _ _ => rfl, ?_, ?_⟩
  · exact h.congr rfl (fun o ho => ⟨rfl, h.whole o ho⟩) fun _ _ => Agree.rfl
  · rw [hdrop, htake, redirect, List.append_nil]
    rfl
  · rw [hdrop, redirect]

theorem redirected_cell (hset : nodeSetPid n idx pid = .ok m) (hidx : idx < n.size)
    (hleaf : n.leaf = false) (hpid : pid < 2 ^ 64) (hn : Layout n n.size (offsets n) ts) :
    Redirected n m idx pid := by
  obtain ⟨-, hoffsets, hkept, hkey, hcell⟩ := hn.setPid hidx hleaf hset hpid
  have hlayout : ∀ us, Layout n n.size (offsets n) us → Layout m m.size (offsets m) us :=
    fun us hus => (hus.setPid hidx hleaf hset hpid).1
  have hhead : m.leaf = n.leaf ∧ m.root = n.root ∧ m.size = n.size ∧
      m.cellOffset = n.cellOffset ∧ m.tombstoneOffset = n.tombstoneOffset ∧
      m.rightmostPid = n.rightmostPid ∧ m.slotClash = n.slotClash := by
    obtain ⟨-, c, rfl⟩ := nodeSetPid_eq_ok hset
    exact ⟨rfl, rfl, rfl, rfl, rfl, rfl, rfl⟩
  obtain ⟨hmleaf, hroot, hsize, hcellOffset, htombstone, hlast, hslotClash⟩ := hhead
  have htombs : ∀ us, Layout n n.size (offsets n) us →
      ∀ t ∈ us, cellTombstoneSize m t = cellTombstoneSize n t := by
    intro us hus t ht
    obtain ⟨-, c, rfl⟩ := nodeSetPid_eq_ok hset
    have hapart : Apart (t, 8) (cellPtr n idx, (bytes64 pid).length) := by
      rw [length_bytes64]
      exact ((hus.cell_tombstone_apart (mem_offsets hidx) ht).mono_left cell_header).symm.mono_left
        tombstone_header
    exact (agree_store hapart).load32_eq le_rfl (by omega)
  have hold : ∀ o ∈ (offsets n).take idx ++ (offsets n).drop (idx + 1),
      separatorAt m o = separatorAt n o := fun o ho => by
    refine (hkept o ho).separator (hn.whole o ?_)
    rw [offsets_split hidx]
    rcases List.mem_append.mp ho with ho | ho
    · exact List.mem_append_left _ ho
    · exact List.mem_append_right _ (List.mem_cons_of_mem _ ho)
  have hnew : separatorAt m (cellPtr n idx) = (⟨keyAt n idx⟩, pid) := by
    rw [separatorAt, hkey, hcell]
    rfl
  have hdrop : (branchCells n).drop idx = separatorAt n (cellPtr n idx) ::
      ((offsets n).drop (idx + 1)).map (separatorAt n) := by
    rw [branchCells, ← List.map_drop, drop_offsets_cons hidx, List.map_cons]
  refine ⟨hmleaf, hroot, hsize, hcellOffset, htombstone, hoffsets, hslotClash, hlayout, htombs,
    ?_, ?_⟩
  · have hcells : branchCells m = ((offsets n).take idx).map (separatorAt n) ++
        (⟨keyAt n idx⟩, pid) :: ((offsets n).drop (idx + 1)).map (separatorAt n) := by
      rw [branchCells, hoffsets]
      conv_lhs => rw [offsets_split hidx]
      rw [List.map_append, List.map_cons, hnew,
        List.map_congr_left fun o ho => hold o (List.mem_append_left _ ho),
        List.map_congr_left fun o ho => hold o (List.mem_append_right _ ho)]
    rw [hcells, hdrop, branchCells, List.map_take]
    rfl
  · rw [hdrop, hlast]
    rfl

theorem newCellSize_eq (h : keySize + valueSize < 2 ^ 31) :
    newCellSize keySize valueSize = (keySize + valueSize + sizeofCell + 3) / 4 * 4 := by
  have hsum : u32 (keySize + valueSize) = keySize + valueSize := u32_of_lt (by omega)
  rw [newCellSize, hsum, u32_of_lt]
  simp only [sizeofCell]
  omega

/-- A branch takes the separator of a split child, `child` being its left half
and `pid` its right half. -/
theorem ValidPage.link {f : Node} (h : ValidPage n) (hleaf : n.leaf = false) (hidx : idx ≤ n.size)
    (hf : Redirected n f idx pid) (hget : nodeGetFreeOffset f key.length 0 = .ok (k, off))
    (hoff : 0 < off) (hins : nodeInsertInternalCell k off idx key child = .ok m)
    (hslot : m.slotClash = false) (hkey : key.length < 2 ^ 31) (hchild : child < 2 ^ 64) :
    (PlacedLow n key.length 0 → ValidPage m ∧ m.leaf = false ∧
      page m = .branch ((branchCells n).take idx ++ (⟨key⟩, child) ::
        (redirect pid n.rightmostPid ((branchCells n).drop idx)).1)
        (redirect pid n.rightmostPid ((branchCells n).drop idx)).2) ∧
      (¬ PlacedLow n key.length 0 → ¬ ValidPage m) := by
  obtain ⟨hlt, ts, hlayout, hlow⟩ := h
  have hfl := hf.layout ts hlayout
  have hvalid : ValidPage f := by
    refine ⟨hf.cellOffset.trans_lt hlt, ts, hfl, fun o ho => ?_⟩
    rw [hf.offsets_eq] at ho
    rw [hf.cellOffset]
    exact hlow o ho
  have hplaced : PlacedLow f key.length 0 ↔ PlacedLow n key.length 0 := by
    rw [placedLow_iff hfl, placedLow_iff hlayout, hf.offsets_eq, hf.tombstoneOffset, freeSpace,
      freeSpace, hdrOffsetLimit, hdrOffsetLimit, hf.cellOffset, hf.size]
  have hneed : newCellSize key.length 0 = (key.length + 0 + sizeofCell + 3) / 4 * 4 :=
    newCellSize_eq (by omega)
  have hlen : (internalCell key child).length ≤ newCellSize key.length 0 := by
    rw [hneed, length_internalCell]
    omega
  have hroom : newCellSize key.length 0 + nodeSize < 2 ^ 32 := by
    rw [hneed]
    simp only [sizeofCell, nodeSize]
    omega
  have hidxf : idx ≤ f.size := by rwa [hf.size]
  obtain ⟨-, hapart⟩ := nodeInsertCell_slotClash hins hslot
  rw [nodeGetFreeOffset_size hget] at hapart
  rw [← hplaced]
  refine ⟨fun hp => ?_, fun hp => ?_⟩
  · have hcell : IsCell f.leaf (internalCell key child) := by
      rw [hf.leaf, hleaf]
      exact internalCell_isCell (by omega) hchild
    obtain ⟨hm, hadded⟩ := hvalid.insert hget hoff hins hapart hcell hlen hroom hidxf hp
    have hmleaf : m.leaf = false := hadded.leaf.trans (hf.leaf.trans hleaf)
    have hcut : ((branchCells n).take idx).length = idx := by
      rw [List.length_take, length_branchCells, min_eq_left hidx]
    refine ⟨hm, hmleaf, ?_⟩
    rw [page_branch hmleaf, hadded.rightmostPid, hf.last, hadded.cells_eq hfl (by omega) hchild,
      hf.cells, List.take_left' hcut, List.drop_left' hcut]
  · have hpos : 0 < (internalCell key child).length := by
      rw [length_internalCell, sizeofCell]
      omega
    exact hvalid.insert_high hget hoff hins hapart hpos hlen hidxf hp

/-- A leaf takes an entry. -/
theorem ValidPage.enter (h : ValidPage n) (hleaf : n.leaf = true) (hidx : idx ≤ n.size)
    (hget : nodeGetFreeOffset n key.length value.length = .ok (k, off)) (hoff : 0 < off)
    (hins : nodeInsertLeafCell k off idx key value = .ok m)
    (hapart : Apart (off, (leafCell key value).length) (slotArray (n.size + 1)))
    (hsize : key.length + value.length < 2 ^ 31) :
    (PlacedLow n key.length value.length → ValidPage m ∧ m.leaf = true ∧
      leafEntries m = (leafEntries n).take idx ++ (⟨key⟩, value) :: (leafEntries n).drop idx) ∧
      (¬ PlacedLow n key.length value.length → ¬ ValidPage m) := by
  obtain ⟨-, ts, hlayout, -⟩ := id h
  have hneed : newCellSize key.length value.length =
      (key.length + value.length + sizeofCell + 3) / 4 * 4 := newCellSize_eq hsize
  have hlen : (leafCell key value).length ≤ newCellSize key.length value.length := by
    rw [hneed, length_leafCell]
    omega
  have hroom : newCellSize key.length value.length + nodeSize < 2 ^ 32 := by
    rw [hneed]
    simp only [sizeofCell, nodeSize]
    omega
  refine ⟨fun hp => ?_, fun hp => ?_⟩
  · have hcell : IsCell n.leaf (leafCell key value) := by
      rw [hleaf]
      exact leafCell_isCell (by omega)
    obtain ⟨hm, hadded⟩ := h.insert hget hoff hins hapart hcell hlen hroom hidx hp
    exact ⟨hm, hadded.leaf.trans hleaf, hadded.entries_eq hlayout hleaf (by omega)⟩
  · have hpos : 0 < (leafCell key value).length := by
      rw [length_leafCell, sizeofCell]
      omega
    exact h.insert_high hget hoff hins hapart hpos hlen hidx hp

/-! ## Free space below `cell_offset` -/

theorem freeSpace_eq (h : slotOffset n.size ≤ n.cellOffset) (hlt : n.cellOffset < 2 ^ 32) :
    freeSpace n = n.cellOffset - slotOffset n.size := by
  rw [freeSpace, hdrOffsetLimit, u32_of_lt (by omega), sub32_of_le hlt h]

theorem nodeGetFreeOffset_below (h : newCellSize keySize valueSize ≤ freeSpace n) :
    nodeGetFreeOffset n keySize valueSize =
      .ok (n, sub32 n.cellOffset (newCellSize keySize valueSize)) := by
  simp only [nodeGetFreeOffset]
  rw [if_neg (not_lt.mpr h)]

/-- With room for it and its slot a cell is entered below `cell_offset`. -/
theorem ValidPage.cell_below (h : ValidPage n) (hcell : IsCell n.leaf bytes) (hidx : idx ≤ n.size)
    (hlen : bytes.length ≤ newCellSize keySize valueSize) (htop : n.cellOffset ≤ nodeSize)
    (hroom : slotOffset n.size + newCellSize keySize valueSize + 4 ≤ n.cellOffset) :
    ∃ off m, nodeGetFreeOffset n keySize valueSize = .ok (n, off) ∧
      off + newCellSize keySize valueSize = n.cellOffset ∧
      nodeInsertCell n off idx bytes = .ok m ∧ ValidPage m ∧ CellAdded n m off idx bytes ∧
      m.tombstoneOffset = n.tombstoneOffset ∧ m.cellOffset = off ∧ m.slotClash = n.slotClash := by
  obtain ⟨hlt, ts, hlayout, hlow⟩ := h
  have hfree := freeSpace_eq (show slotOffset n.size ≤ n.cellOffset by omega) hlt
  have hplaced : newCellSize keySize valueSize ≤ freeSpace n := by omega
  have hget := nodeGetFreeOffset_below hplaced
  rw [sub32_of_le hlt (by omega)] at hget
  obtain ⟨off, hoff⟩ : ∃ off, off = n.cellOffset - newCellSize keySize valueSize := ⟨_, rfl⟩
  rw [← hoff] at hget
  have hslots : Inside (slotArray (n.size + 1)) := by
    refine ⟨le_rfl, ?_⟩
    simp only [slotArray, slotOffset] at hroom ⊢
    omega
  have hin : Inside (off, bytes.length) := by
    refine ⟨?_, by omega⟩
    simp only [slotOffset] at hroom
    omega
  have hapart : Apart (off, bytes.length) (slotArray (n.size + 1)) := by
    refine .inr ?_
    simp only [slotArray, slotOffset] at hroom ⊢
    omega
  obtain ⟨m, hins, hclash⟩ := nodeInsertCell_isOk hidx hslots hin hapart
  have hspec := nodeInsertCell_spec hins hidx hlayout.slots_le (by omega) hapart
  obtain ⟨hvalid, hadded⟩ := hlayout.insert_at hcell hins hapart hidx (by omega) fun x hx => by
    have hx : n.cellOffset ≤ x.1 := by
      rcases List.mem_append.mp hx with hx | hx
      · obtain ⟨o, ho, rfl⟩ := List.mem_map.mp hx
        exact hlow o (List.mem_append_left _ ho)
      · obtain ⟨t, ht, rfl⟩ := List.mem_map.mp hx
        exact hlow t (List.mem_append_right _ ht)
    omega
  exact ⟨off, m, hget, by omega, hins, hvalid, hadded, hspec.tombstoneOffset, hspec.cellOffset,
    hclash⟩

/-- An entry is taken below `cell_offset`. -/
theorem ValidPage.enter_below (h : ValidPage n) (hleaf : n.leaf = true) (hidx : idx ≤ n.size)
    (hsize : key.length + value.length < 2 ^ 31) (htop : n.cellOffset ≤ nodeSize)
    (hroom : slotOffset n.size + newCellSize key.length value.length + 4 ≤ n.cellOffset) :
    ∃ m, nodeInsertNonfull n idx key value = .ok m ∧ ValidPage m ∧ m.leaf = true ∧
      m.size = n.size + 1 ∧ m.tombstoneOffset = n.tombstoneOffset ∧
      m.cellOffset + newCellSize key.length value.length = n.cellOffset ∧
      m.slotClash = n.slotClash ∧
      leafEntries m = (leafEntries n).take idx ++ (⟨key⟩, value) :: (leafEntries n).drop idx := by
  obtain ⟨-, ts, hlayout, -⟩ := id h
  have hneed := newCellSize_eq hsize
  have hlen : (leafCell key value).length ≤ newCellSize key.length value.length := by
    rw [hneed, length_leafCell]
    omega
  have hcell : IsCell n.leaf (leafCell key value) := by
    rw [hleaf]
    exact leafCell_isCell (by omega)
  obtain ⟨off, m, hget, hoff, hins, hvalid, hadded, htomb, hco, hclash⟩ :=
    h.cell_below hcell hidx hlen htop hroom
  refine ⟨m, ?_, hvalid, hadded.leaf.trans hleaf, hadded.size, htomb, hco ▸ hoff, hclash,
    hadded.entries_eq hlayout hleaf (by omega)⟩
  simp only [nodeInsertNonfull, hget]
  exact hins

/-- A separator is taken below `cell_offset`. -/
theorem ValidPage.separator_below (h : ValidPage n) (hleaf : n.leaf = false) (hidx : idx ≤ n.size)
    (hkey : key.length < 2 ^ 31) (hchild : child < 2 ^ 64) (htop : n.cellOffset ≤ nodeSize)
    (hroom : slotOffset n.size + newCellSize key.length 0 + 4 ≤ n.cellOffset) :
    ∃ off m, nodeGetFreeOffset n key.length 0 = .ok (n, off) ∧
      nodeInsertInternalCell n off idx key child = .ok m ∧ ValidPage m ∧ m.leaf = false ∧
      m.size = n.size + 1 ∧ m.cellOffset + newCellSize key.length 0 = n.cellOffset ∧
      m.rightmostPid = n.rightmostPid ∧
      branchCells m = (branchCells n).take idx ++ (⟨key⟩, child) :: (branchCells n).drop idx := by
  obtain ⟨-, ts, hlayout, -⟩ := id h
  have hneed : newCellSize key.length 0 = (key.length + 0 + sizeofCell + 3) / 4 * 4 :=
    newCellSize_eq (by omega)
  have hlen : (internalCell key child).length ≤ newCellSize key.length 0 := by
    rw [hneed, length_internalCell]
    omega
  have hcell : IsCell n.leaf (internalCell key child) := by
    rw [hleaf]
    exact internalCell_isCell (by omega) hchild
  obtain ⟨off, m, hget, hoff, hins, hvalid, hadded, -, hco, -⟩ :=
    h.cell_below hcell hidx hlen htop hroom
  exact ⟨off, m, hget, hins, hvalid, hadded.leaf.trans hleaf, hadded.size, hco ▸ hoff,
    hadded.rightmostPid, hadded.cells_eq hlayout (by omega) hchild⟩

/-- A place is found below `cell_offset` or in the first tombstone only. -/
theorem nodeGetFreeOffset_pos_iff (hlow : slotOffset n.size ≤ n.cellOffset)
    (hlt : n.cellOffset < 2 ^ 32)
    (hin : n.tombstoneOffset ≠ 0 → Inside (tombstoneExtent n n.tombstoneOffset)) :
    (∃ k off, nodeGetFreeOffset n keySize valueSize = .ok (k, off)) ∧
      ((∃ k off, nodeGetFreeOffset n keySize valueSize = .ok (k, off) ∧ 0 < off) ↔
        newCellSize keySize valueSize ≤ freeSpace n ∨ n.tombstoneOffset ≠ 0 ∧
          newCellSize keySize valueSize ≤ cellTombstoneSize n n.tombstoneOffset) := by
  have hfree := freeSpace_eq hlow hlt
  by_cases hroom : newCellSize keySize valueSize ≤ freeSpace n
  · have hget := nodeGetFreeOffset_below hroom
    have hpos : 0 < sub32 n.cellOffset (newCellSize keySize valueSize) := by
      rw [sub32_of_le hlt (by omega)]
      simp only [slotOffset, sizeofNode] at hlow hfree
      omega
    exact ⟨⟨_, _, hget⟩, iff_of_true ⟨_, _, hget, hpos⟩ (.inl hroom)⟩
  · have hget : nodeGetFreeOffset n keySize valueSize =
        if n.tombstoneOffset ≠ 0 ∧
            newCellSize keySize valueSize ≤ cellTombstoneSize n n.tombstoneOffset then do
          .ok (← takeTombstone n (newCellSize keySize valueSize), n.tombstoneOffset)
        else .ok (n, 0) := if_pos (not_le.mp hroom)
    rw [hget]
    split_ifs with htomb
    · obtain ⟨k, hk⟩ := takeTombstone_isOk (hin htomb.1) htomb.2
      rw [hk]
      exact ⟨⟨k, _, rfl⟩, iff_of_true ⟨k, _, rfl, Nat.pos_of_ne_zero htomb.1⟩ (.inr htomb)⟩
    · refine ⟨⟨n, 0, rfl⟩, iff_of_false ?_ (not_or.mpr ⟨hroom, htomb⟩)⟩
      rintro ⟨k, off, hok, hoff⟩
      obtain ⟨-, rfl⟩ := Prod.mk.inj (Except.ok.inj hok)
      exact absurd hoff (Nat.lt_irrefl 0)

end IoScheduler
