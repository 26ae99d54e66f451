import IoScheduler.NodePlace

/-!
# Splitting a page

Both splits move the cells from an index on, one at a time: the cell is written
below the cells of the new page and entered in its next slot, and the old cell
becomes the first tombstone of its page. The lemmas of a step carry over to the
loop by induction on the cells left. Splitting a valid leaf gives two valid
leaves with its entries cut in two.
-/
namespace IoScheduler
open Machine Bytes SearchTree

variable {n m new n' new' : Node} {j k o off idx i p left slots : ℕ}
  {os ts us live before behind : List ℕ}
  {bytes : List UInt8} {cell : Node → ℕ → List UInt8}

/-! ## One cell becomes a tombstone -/

theorem nodeTupleSetTombstone_eq_ok (h : nodeTupleSetTombstone n live idx = .ok m) :
    Inside (cellPtr n idx, 8) ∧ ∃ c, m = { n with
      body := store n.body (cellPtr n idx)
        (bytes32 (u32 (sizeofCell + cellTotalSize n (cellPtr n idx))) ++
          bytes32 n.tombstoneOffset)
      tombstoneOffset := cellPtr n idx
      tombstoneBytes := u32 (n.tombstoneBytes + (sizeofCell + cellTotalSize n (cellPtr n idx)))
      clash := c } := by
  simp only [nodeTupleSetTombstone, bind_eq_ok, Node.write_eq_ok] at h
  obtain ⟨_, ⟨hin, rfl⟩, h⟩ := h
  rw [← u32_add_right]
  exact ⟨hin, _, (Except.ok.inj h).symm⟩

theorem nodeTupleSetTombstone_clash (h : nodeTupleSetTombstone n live idx = .ok m)
    (hm : m.clash = false) : n.clash = false ∧ Apart (cellPtr n idx, 8) (slotArray n.size) ∧
      ∀ i ∈ live, Apart (cellPtr n idx, 8) (cellExtent n (cellPtr n i)) := by
  simp only [nodeTupleSetTombstone, bind_eq_ok, Node.write_eq_ok] at h
  obtain ⟨_, ⟨-, rfl⟩, h⟩ := h
  obtain rfl := Except.ok.inj h
  exact watch_clash.mp hm

theorem nodeTupleSetTombstone_isOk (hin : Inside (cellPtr n idx, 8)) :
    ∃ m, nodeTupleSetTombstone n live idx = .ok m := by
  have hheader : Inside (cellPtr n idx, (bytes32 (u32 (sizeofCell + cellTotalSize n
      (cellPtr n idx))) ++ bytes32 n.tombstoneOffset).length) := by
    rwa [List.length_append, length_bytes32, length_bytes32]
  simp only [nodeTupleSetTombstone, Node.write_ok hheader]
  exact ⟨_, rfl⟩

/-- What becomes of the rest of the page. -/
structure CellBuried (n m : Node) (idx : ℕ) : Prop where
  size : m.size = n.size
  leaf : m.leaf = n.leaf
  root : m.root = n.root
  rightmostPid : m.rightmostPid = n.rightmostPid
  parentPid : m.parentPid = n.parentPid
  cellOffset : m.cellOffset = n.cellOffset
  slotClash : m.slotClash = n.slotClash
  tombstoneOffset : m.tombstoneOffset = cellPtr n idx
  bytes : m.tombstoneBytes = u32 (n.tombstoneBytes + (sizeofCell + cellTotalSize n (cellPtr n idx)))
  agree : ∀ x : ℕ × ℕ, Apart x (cellPtr n idx, 8) → Agree n.body m.body x.1 x.2
  header : n.tombstoneOffset < 2 ^ 32 →
    cellTombstoneSize m (cellPtr n idx) = u32 (sizeofCell + cellTotalSize n (cellPtr n idx)) ∧
      cellNextOff m (cellPtr n idx) = n.tombstoneOffset

theorem nodeTupleSetTombstone_spec (h : nodeTupleSetTombstone n live idx = .ok m) :
    CellBuried n m idx := by
  obtain ⟨hin, c, rfl⟩ := nodeTupleSetTombstone_eq_ok h
  refine ⟨rfl, rfl, rfl, rfl, rfl, rfl, rfl, rfl, rfl, fun x hx => agree_store ?_, fun hlt => ?_⟩
  · rw [List.length_append, length_bytes32, length_bytes32]
    exact hx
  · exact tombstone_read n.body (cellPtr n idx) (u32_lt _) hlt

theorem Layout.tombstoneOffset_lt (h : Layout n slots os ts) : n.tombstoneOffset < 2 ^ 32 := by
  cases ts with
  | nil =>
      rw [show n.tombstoneOffset = 0 from h.chain]
      norm_num
  | cons t us =>
      have hin := (h.tombstone_inside List.mem_cons_self).2
      simp only [tombstoneExtent, nodeSize] at hin
      rw [h.chain.1]
      omega

/-- A live cell becomes the first tombstone and keeps its extent. -/
theorem Layout.bury (h : Layout n slots (before ++ o :: behind) ts) (ho : cellPtr n idx = o)
    (hset : nodeTupleSetTombstone n live idx = .ok m) :
    Layout m slots (before ++ behind) (o :: ts) ∧ (∀ x ∈ before ++ behind, Kept n m x) ∧
      (∀ i < slots, cellPtr m i = cellPtr n i) ∧ tombstoneExtent m o = cellExtent n o ∧
        ∀ t ∈ ts, Agree n.body m.body t 8 := by
  have hspec := nodeTupleSetTombstone_spec hset
  have hmem : o ∈ before ++ o :: behind := List.mem_append_right _ List.mem_cons_self
  have hin := h.cell_inside hmem
  obtain ⟨hsize, hnext⟩ := hspec.header h.tombstoneOffset_lt
  rw [ho] at hsize hnext
  have hagree : ∀ x : ℕ × ℕ, Apart (cellExtent n o) x → Agree n.body m.body x.1 x.2 :=
    fun x hx => hspec.agree x (by rw [ho]; exact (hx.mono_left cell_header).symm)
  have htotal : u32 (sizeofCell + cellTotalSize n o) = sizeofCell + cellTotalSize n o := by
    refine u32_of_lt ?_
    have hend := hin.2
    simp only [cellExtent, nodeSize] at hend
    omega
  have hextent : tombstoneExtent m o = cellExtent n o := by
    rw [tombstoneExtent, hsize, htotal, cellExtent, max_eq_right (by simp only [sizeofCell]; omega)]
  have hcells := (List.pairwise_append.mp h.blocks_apart).1
  rw [List.map_append, List.map_cons, List.pairwise_append, List.pairwise_cons] at hcells
  have hkept : ∀ x ∈ before ++ behind, Kept n m x := by
    intro x hx
    refine hagree (cellExtent n x) ?_
    rcases List.mem_append.mp hx with hx | hx
    · exact (hcells.2.2 _ (List.mem_map_of_mem hx) _ List.mem_cons_self).symm
    · exact hcells.2.1.1 _ (List.mem_map_of_mem hx)
  have hheaders : ∀ t ∈ ts, Agree n.body m.body t 8 := fun t ht =>
    hagree (t, 8) ((h.cell_tombstone_apart hmem ht).mono tombstone_header)
  have hblocks : (blocks m (before ++ behind) (o :: ts)).Perm
      (blocks n (before ++ o :: behind) ts) := by
    have hnew : (blocks m (before ++ behind) (o :: ts)).Perm
        (cellExtent n o :: blocks m (before ++ behind) ts) := by
      rw [blocks, List.map_cons, hextent]
      exact List.perm_middle
    have hold : (blocks n (before ++ o :: behind) ts).Perm
        (cellExtent n o :: blocks n (before ++ behind) ts) := by
      rw [blocks, blocks, List.map_append, List.map_append, List.map_cons, List.append_assoc,
        List.append_assoc, List.cons_append]
      exact List.perm_middle
    rw [blocks_congr hkept hheaders] at hnew
    exact hnew.trans hold.symm
  refine ⟨⟨⟨by rw [hspec.tombstoneOffset, ho], ?_, ?_⟩, fun x hx => ?_, ?_, fun x hx => ?_⟩, hkept,
    fun i hi => ?_, hextent, hheaders⟩
  · have hlow := hin.1
    simp only [cellExtent, sizeofNode] at hlow
    omega
  · rw [show load32 m.body (o + 4) = n.tombstoneOffset from hnext]
    exact h.chain.congr hheaders
  · rcases List.mem_cons.mp hx with rfl | hx
    · exact h.inside _ List.mem_cons_self
    · exact h.inside x (List.mem_cons_of_mem _ (hblocks.mem_iff.mp hx))
  · exact (pairwise_apart_perm (hblocks.cons _)).mpr h.apart
  · refine (hkept x hx).whole hspec.leaf (h.whole x ?_)
    rcases List.mem_append.mp hx with hx | hx
    · exact List.mem_append_left _ hx
    · exact List.mem_append_right _ (List.mem_cons_of_mem _ hx)
  · have hslots := hagree _ (h.slots_apart (List.mem_append_left _ (List.mem_map_of_mem hmem))).symm
    have hwithin := slot_within hi
    exact hslots.load32_eq hwithin.1 hwithin.2

/-! ## One cell enters the new page -/

structure CellAppended (new new' : Node) (j off : ℕ) (bytes : List UInt8) : Prop where
  size : new'.size = new.size
  leaf : new'.leaf = new.leaf
  root : new'.root = new.root
  rightmostPid : new'.rightmostPid = new.rightmostPid
  parentPid : new'.parentPid = new.parentPid
  tombstoneOffset : new'.tombstoneOffset = new.tombstoneOffset
  cellOffset : new'.cellOffset = off
  inside : Inside (off, bytes.length)
  slots : Inside (slotOffset j, 4)
  slot : cellPtr new' j = off
  loaded : load new'.body off bytes.length = bytes
  agree : ∀ x : ℕ × ℕ, Apart x (slotOffset j, 4) → Apart x (off, bytes.length) →
    Agree new.body new'.body x.1 x.2

theorem appendCell_slotClash (h : appendCell new j bytes = .ok new')
    (hnew : new'.slotClash = false) : new.slotClash = false ∧
      Apart (sub32 new.cellOffset bytes.length, bytes.length) (slotArray (j + 1)) := by
  simp only [appendCell, bind_eq_ok, Node.write_eq_ok, Node.watchCell, Node.watch] at h
  obtain ⟨_, ⟨-, rfl⟩, _, ⟨-, rfl⟩, h⟩ := h
  obtain rfl := Except.ok.inj h
  simpa [slotArray] using hnew

theorem appendCell_clash (h : appendCell new j bytes = .ok new') (hnew : new'.clash = false) :
    new.clash = false ∧
      Apart (sub32 new.cellOffset bytes.length, bytes.length) (slotArray (j + 1)) ∧
      ∀ i < j, Apart (slotOffset j, 4) (cellExtent new (cellPtr new i)) ∧
        Apart (sub32 new.cellOffset bytes.length, bytes.length)
          (cellExtent new (cellPtr new i)) := by
  simp only [appendCell, bind_eq_ok, Node.write_eq_ok, Node.watchCell] at h
  obtain ⟨_, ⟨-, rfl⟩, _, ⟨-, rfl⟩, h⟩ := h
  obtain rfl := Except.ok.inj h
  obtain ⟨hfirst, hslots, hcells⟩ := watch_clash.mp hnew
  obtain ⟨hclash, -, hslot⟩ := watch_clash.mp hfirst
  exact ⟨hclash, hslots, fun i hi => ⟨hslot i (List.mem_range.mpr hi),
    hcells i (List.mem_range.mpr hi)⟩⟩

theorem appendCell_spec (h : appendCell new j bytes = .ok new')
    (hslots : Apart (sub32 new.cellOffset bytes.length, bytes.length) (slotArray (j + 1))) :
    CellAppended new new' j (sub32 new.cellOffset bytes.length) bytes := by
  have hoff : sub32 new.cellOffset bytes.length < 2 ^ 32 := u32_lt _
  simp only [appendCell, bind_eq_ok, Node.write_eq_ok, length_bytes32] at h
  generalize sub32 new.cellOffset bytes.length = off at h hslots hoff ⊢
  obtain ⟨_, ⟨hslot, rfl⟩, _, ⟨hin, rfl⟩, h⟩ := h
  obtain ⟨s, c, rfl⟩ : ∃ s c, new' = { new with
      body := store (store new.body (slotOffset j) (bytes32 off)) off bytes
      cellOffset := off
      slotClash := s
      clash := c } := ⟨_, _, (Except.ok.inj h).symm⟩
  have hself : load (store new.body (slotOffset j) (bytes32 off)) (slotOffset j)
      (bytes32 off).length = bytes32 off := load_store_self
  rw [length_bytes32] at hself
  refine ⟨rfl, rfl, rfl, rfl, rfl, rfl, rfl, hin, hslot, ?_, load_store_self, fun x hx hy => ?_⟩
  · have hapart : Apart (slotOffset j, 4) (off, bytes.length) :=
      (hslots.mono (slot_within (Nat.lt_succ_self j))).symm
    have hkept : load32 (store (store new.body (slotOffset j) (bytes32 off)) off bytes)
        (slotOffset j) = load32 (store new.body (slotOffset j) (bytes32 off)) (slotOffset j) :=
      (agree_store hapart).load32_eq le_rfl le_rfl
    refine hkept.trans ?_
    rw [load32, hself, bytes32, word_bytesOf hoff]
  · have hslot' : Apart x (slotOffset j, (bytes32 off).length) := by rwa [length_bytes32]
    exact (agree_store hslot').trans (agree_store hy)

theorem appendCell_isOk (hslot : Inside (slotOffset j, 4))
    (hin : Inside (sub32 new.cellOffset bytes.length, bytes.length))
    (hapart : Apart (sub32 new.cellOffset bytes.length, bytes.length) (slotArray (j + 1))) :
    ∃ new', appendCell new j bytes = .ok new' ∧ new'.slotClash = new.slotClash := by
  have hslot' : Inside (slotOffset j, (bytes32 (sub32 new.cellOffset bytes.length)).length) := by
    rwa [length_bytes32]
  simp only [appendCell, Node.write_ok hslot', Node.write_ok hin, Node.watchCell, Node.watch]
  refine ⟨_, rfl, ?_⟩
  rw [slotArray] at hapart
  simp [hapart]

/-- A cell written below the others of a page that is being filled. -/
theorem Layout.append (h : Layout new j (slotList new j) []) (hcell : IsCell new.leaf bytes)
    (hlow : ∀ o ∈ slotList new j, new.cellOffset ≤ o) (htop : new.cellOffset ≤ nodeSize)
    (hap : appendCell new j bytes = .ok new')
    (hapart : Apart (sub32 new.cellOffset bytes.length, bytes.length) (slotArray (j + 1))) :
    Layout new' (j + 1) (slotList new' (j + 1)) [] ∧
      slotList new' (j + 1) = slotList new j ++ [new'.cellOffset] ∧
      (∀ o ∈ slotList new' (j + 1), new'.cellOffset ≤ o) ∧ new'.cellOffset ≤ nodeSize ∧
      (∀ o ∈ slotList new j, Kept new new' o) ∧
      load new'.body new'.cellOffset bytes.length = bytes := by
  have hspec := appendCell_spec hap hapart
  have hco := hspec.cellOffset
  have hin := hspec.inside
  obtain ⟨hext, hwhole⟩ := hcell new' _ hspec.leaf hspec.loaded
  have hlen : sizeofCell + cellTotalSize new' _ = bytes.length := (Prod.mk.inj hext).2
  have hle : bytes.length ≤ new.cellOffset := by
    by_contra hgt
    have hend := hin.2
    simp only [sub32, u32, nodeSize, sizeofCell] at hend htop hlen
    omega
  have hoff : sub32 new.cellOffset bytes.length = new.cellOffset - bytes.length :=
    sub32_of_le (by simp only [nodeSize] at htop; omega) hle
  obtain ⟨off, heq⟩ : ∃ off, off = new.cellOffset - bytes.length := ⟨_, rfl⟩
  rw [hoff, ← heq] at hco hin hapart hext hwhole hlen hspec
  rw [hco]
  have hbelow : slotOffset (j + 1) ≤ off := by
    have hstart := hin.1
    simp only [Apart, slotArray, slotOffset, sizeofCell] at hapart hstart hlen ⊢
    omega
  have hslots : slotList new' j = slotList new j := by
    refine slotList_congr fun i hi => ?_
    have hwithin : Within (slotOffset i, 4) (slotArray (j + 1)) := slot_within (by omega)
    refine (hspec.agree (slotOffset i, 4) (.inl ?_) (hapart.mono hwithin).symm).load32_eq
      le_rfl le_rfl
    simp only [slotOffset]
    omega
  have hos : slotList new' (j + 1) = slotList new j ++ [off] := by
    rw [slotList_succ, hslots, hspec.slot]
  have habove : ∀ o ∈ slotList new j, off + bytes.length ≤ o := fun o ho => by
    have hge := hlow o ho
    omega
  have hkept : ∀ o ∈ slotList new j, Kept new new' o := by
    intro o ho
    have hge := habove o ho
    refine hspec.agree (cellExtent new o) (.inr ?_) (.inr hge)
    simp only [slotOffset, cellExtent] at hbelow ⊢
    omega
  have hchain : new.tombstoneOffset = 0 := h.chain
  refine ⟨?_, hos, fun o ho => ?_, by omega, hkept, hspec.loaded⟩
  · have hslotsIn : Inside (slotArray (j + 1)) := by
      refine ⟨le_rfl, ?_⟩
      have hend := hspec.slots.2
      simp only [slotArray, slotOffset] at hend ⊢
      omega
    have hperm : (slotList new j ++ [off]).Perm (off :: slotList new j) := List.perm_append_comm
    rw [hos]
    refine h.insert hkept hspec.leaf hwhole hext hperm (hspec.tombstoneOffset.trans hchain)
      hslotsIn hin (by simp) hapart.symm (fun x hx => ?_) ?_
    · rw [List.map_nil, List.append_nil] at hx
      obtain ⟨o, ho, rfl⟩ := List.mem_map.mp hx
      have hge := habove o ho
      refine ⟨.inl ?_, .inl hge⟩
      simp only [slotArray, cellExtent, slotOffset] at hbelow ⊢
      omega
    · exact h.blocks_apart
  · rw [hos] at ho
    rcases List.mem_append.mp ho with ho | ho
    · exact (Nat.le_add_right _ _).trans (habove o ho)
    · exact (List.mem_singleton.mp ho).ge

/-! ## The loop -/

/-- What both pages of a split keep of their headers. -/
structure SameHead (n m : Node) : Prop where
  size : m.size = n.size
  leaf : m.leaf = n.leaf
  root : m.root = n.root
  rightmostPid : m.rightmostPid = n.rightmostPid
  parentPid : m.parentPid = n.parentPid

theorem SameHead.rfl : SameHead n n := ⟨Eq.refl _, Eq.refl _, Eq.refl _, Eq.refl _, Eq.refl _⟩

theorem SameHead.trans (h : SameHead n m) (k : SameHead m n') : SameHead n n' :=
  ⟨k.size.trans h.size, k.leaf.trans h.leaf, k.root.trans h.root,
    k.rightmostPid.trans h.rightmostPid, k.parentPid.trans h.parentPid⟩

theorem CellBuried.sameHead (h : CellBuried n m idx) : SameHead n m :=
  ⟨h.size, h.leaf, h.root, h.rightmostPid, h.parentPid⟩

theorem CellAppended.sameHead (h : CellAppended new new' j off bytes) : SameHead new new' :=
  ⟨h.size, h.leaf, h.root, h.rightmostPid, h.parentPid⟩

theorem moveCells_succ (h : moveCells cell p (left + 1) k j n new = .ok (n', new')) :
    ∃ new₁ n₁, appendCell new j (cell n k) = .ok new₁ ∧
      nodeTupleSetTombstone n (liveSlots n p k) k = .ok n₁ ∧
        moveCells cell p left (k + 1) (j + 1) n₁ new₁ = .ok (n', new') := by
  simp only [moveCells, bind_eq_ok] at h
  obtain ⟨new₁, hap, n₁, hset, h⟩ := h
  exact ⟨new₁, n₁, hap, hset, h⟩

theorem moveCells_of_step {new₁ n₁ : Node} (hap : appendCell new j (cell n k) = .ok new₁)
    (hset : nodeTupleSetTombstone n (liveSlots n p k) k = .ok n₁) :
    moveCells cell p (left + 1) k j n new = moveCells cell p left (k + 1) (j + 1) n₁ new₁ := by
  simp only [moveCells, hap, hset]
  rfl

/-- How the cells of the leaves, or of the branches, are copied: what is written
for a cell is a cell of the same length that reads the same. -/
structure Copies {α : Type} (leaf : Bool) (cell : Node → ℕ → List UInt8) (read : Node → ℕ → α) :
    Prop where
  isCell : ∀ n k, n.leaf = leaf → Whole n (cellPtr n k) → IsCell leaf (cell n k)
  length : ∀ n k, n.leaf = leaf → Whole n (cellPtr n k) →
    (cell n k).length = sizeofCell + cellTotalSize n (cellPtr n k)
  read_copy : ∀ n k m off, n.leaf = leaf → Whole n (cellPtr n k) →
    load m.body off (cell n k).length = cell n k → read m off = read n (cellPtr n k)
  kept : ∀ n m o, n.leaf = leaf → Whole n o → Kept n m o → read m o = read n o

theorem leaf_copies : Copies true movedLeafCell entryAt := by
  have hsize : ∀ n k, n.leaf = true → Whole n (cellPtr n k) →
      (keyAt n k).length + (leafCellGetValue n (cellPtr n k)).length =
        cellTotalSize n (cellPtr n k) := fun n k hleaf hw => by
    rw [keyAt, length_cellGetKey, length_leafCellGetValue, hw, if_pos hleaf]
  have hlt : ∀ n k, cellTotalSize n (cellPtr n k) < 2 ^ 32 := fun n k => load32_lt
  refine ⟨fun n k hleaf hw => ?_, fun n k hleaf hw => ?_, fun n k m off hleaf hw hload => ?_,
    fun n m o hleaf hw hk => hk.entry hw hleaf⟩
  · exact leafCell_isCell ((hsize n k hleaf hw).trans_lt (hlt n k))
  · rw [movedLeafCell, length_leafCell, hsize n k hleaf hw]
  · exact (leafCell_read hload ((hsize n k hleaf hw).trans_lt (hlt n k))).2.2.2

theorem internal_copies : Copies false movedInternalCell separatorAt := by
  have hsize : ∀ n k, n.leaf = false → Whole n (cellPtr n k) →
      (keyAt n k).length = cellTotalSize n (cellPtr n k) := fun n k hleaf hw => by
    rw [keyAt, length_cellGetKey, hw, if_neg (by simp [hleaf]), Nat.add_zero]
  have hlt : ∀ n k, cellTotalSize n (cellPtr n k) < 2 ^ 32 := fun n k => load32_lt
  refine ⟨fun n k hleaf hw => ?_, fun n k hleaf hw => ?_, fun n k m off hleaf hw hload => ?_,
    fun n m o hleaf hw hk => hk.separator hw⟩
  · exact internalCell_isCell ((hsize n k hleaf hw).trans_lt (hlt n k)) load64_lt
  · rw [movedInternalCell, length_internalCell, hsize n k hleaf hw]
  · exact (internalCell_read hload ((hsize n k hleaf hw).trans_lt (hlt n k)) load64_lt).2.2

/-- A page that is being filled from the top. -/
structure Filling (new : Node) (j : ℕ) : Prop where
  layout : Layout new j (slotList new j) []
  low : ∀ o ∈ slotList new j, new.cellOffset ≤ o
  top : new.cellOffset ≤ nodeSize

/-- The bytes of some cells. -/
def cellBytes (n : Node) (os : List ℕ) : ℕ := (os.map fun o => sizeofCell + cellTotalSize n o).sum

theorem cellBytes_congr (h : ∀ o ∈ os, Kept n m o) : cellBytes m os = cellBytes n os :=
  congrArg List.sum (List.map_congr_left fun o ho =>
    congrArg (sizeofCell + ·) (keptHeader_totalSize (h o ho).header))

/-- One round of the loop, while there is room for the cell and its slot. -/
theorem moveCell_step {α : Type} {leaf : Bool} {read : Node → ℕ → α}
    (hc : Copies leaf cell read) (hn : Layout n slots (os ++ o :: us) ts) (ho : cellPtr n k = o)
    (hleaf : n.leaf = leaf) (hnewLeaf : new.leaf = leaf) (hnew : Filling new j)
    (hroom : slotOffset (j + 1) + (sizeofCell + cellTotalSize n o) ≤ new.cellOffset) :
    ∃ n₁ new₁, appendCell new j (cell n k) = .ok new₁ ∧
      nodeTupleSetTombstone n (liveSlots n p k) k = .ok n₁ ∧
      Filling new₁ (j + 1) ∧ CellBuried n n₁ k ∧ SameHead new new₁ ∧
      new₁.slotClash = new.slotClash ∧
      new₁.cellOffset + (sizeofCell + cellTotalSize n o) = new.cellOffset ∧
      slotList new₁ (j + 1) = slotList new j ++ [new₁.cellOffset] ∧
      (∀ x ∈ slotList new j, Kept new new₁ x) ∧ read new₁ new₁.cellOffset = read n o := by
  have hmem : o ∈ os ++ o :: us := List.mem_append_right _ List.mem_cons_self
  have hwhole : Whole n (cellPtr n k) := ho ▸ hn.whole o hmem
  have hlen := hc.length n k hleaf hwhole
  rw [ho] at hlen
  have htop := hnew.top
  have hin := hn.cell_inside hmem
  have hsub : sub32 new.cellOffset (cell n k).length = new.cellOffset - (cell n k).length :=
    sub32_of_le (by simp only [nodeSize] at htop; omega) (by omega)
  have hslots : slotOffset (j + 1) ≤ new.cellOffset - (cell n k).length := by omega
  have hapart : Apart (sub32 new.cellOffset (cell n k).length, (cell n k).length)
      (slotArray (j + 1)) := by
    rw [hsub]
    exact .inr hslots
  have hplace : Inside (sub32 new.cellOffset (cell n k).length, (cell n k).length) := by
    rw [hsub]
    exact ⟨(Nat.le_add_right _ _).trans hslots, by omega⟩
  have hslot : Inside (slotOffset j, 4) := by
    refine ⟨Nat.le_add_right _ _, ?_⟩
    simp only [slotOffset] at hslots ⊢
    omega
  have hheader : Inside (cellPtr n k, 8) := by
    rw [ho]
    refine ⟨hin.1, ?_⟩
    simp only [Inside, cellExtent, sizeofCell] at hin ⊢
    omega
  obtain ⟨new₁, hap, hclash⟩ := appendCell_isOk hslot hplace hapart
  obtain ⟨n₁, hset⟩ : ∃ n₁, nodeTupleSetTombstone n (liveSlots n p k) k = .ok n₁ :=
    nodeTupleSetTombstone_isOk hheader
  have hspec := appendCell_spec hap hapart
  obtain ⟨hlayout, hlist, hlow, htop', hkept, hloaded⟩ := hnew.layout.append
    (hnewLeaf ▸ hc.isCell n k hleaf hwhole) hnew.low hnew.top hap hapart
  refine ⟨n₁, new₁, hap, hset, ⟨hlayout, hlow, htop'⟩, nodeTupleSetTombstone_spec hset,
    hspec.sameHead, hclash, ?_, hlist, hkept, ?_⟩
  · rw [hspec.cellOffset, hsub]
    omega
  · rw [← ho]
    exact hc.read_copy n k new₁ _ hleaf hwhole hloaded

/-- What the loop leaves of the two pages when it has moved the cells `rest`. -/
structure Moved {α : Type} (read : Node → ℕ → α) (n new n' new' : Node) (slots j : ℕ)
    (os rest ts : List ℕ) : Prop where
  layout : Layout n' slots os (rest.reverse ++ ts)
  kept : ∀ o ∈ os, Kept n n' o
  slots_eq : ∀ i < slots, cellPtr n' i = cellPtr n i
  buried : ∀ o ∈ rest, tombstoneExtent n' o = cellExtent n o
  chained : ∀ t ∈ ts, Agree n.body n'.body t 8
  head : SameHead n n'
  slotClash : n'.slotClash = n.slotClash
  cellOffset : n'.cellOffset = n.cellOffset
  filling : Filling new' (j + rest.length)
  newHead : SameHead new new'
  newSlotClash : new'.slotClash = new.slotClash
  newCellOffset : new'.cellOffset + cellBytes n rest = new.cellOffset
  newKept : ∀ o ∈ slotList new j, Kept new new' o
  entered : ∃ us, slotList new' (j + rest.length) = slotList new j ++ us ∧
    us.map (read new') = rest.map (read n)

theorem moveCells_spec {α : Type} {leaf : Bool} {read : Node → ℕ → α} {rest : List ℕ}
    (hc : Copies leaf cell read) (hn : Layout n slots (os ++ rest) ts)
    (hrest : rest = (List.range' k left).map (cellPtr n)) (hk : k + left ≤ slots)
    (hleaf : n.leaf = leaf) (hnewLeaf : new.leaf = leaf) (hnew : Filling new j)
    (hroom : slotOffset (j + left) + cellBytes n rest ≤ new.cellOffset) :
    ∃ n' new', moveCells cell p left k j n new = .ok (n', new') ∧
      Moved read n new n' new' slots j os rest ts := by
  induction left generalizing k j n new rest ts with
  | zero =>
      obtain rfl : rest = [] := hrest
      rw [List.append_nil] at hn
      exact ⟨n, new, rfl, hn, fun _ _ => Agree.rfl, fun _ _ => rfl, by simp, fun _ _ => Agree.rfl,
        .rfl, rfl, rfl, hnew, .rfl, rfl, rfl, fun _ _ => Agree.rfl, [], (List.append_nil _).symm,
        rfl⟩
  | succ left ih =>
      rw [List.range'_succ, List.map_cons] at hrest
      obtain ⟨o, ho⟩ : ∃ o, cellPtr n k = o := ⟨_, rfl⟩
      subst hrest
      rw [ho] at hn hroom ⊢
      have hsplit : cellBytes n (o :: (List.range' (k + 1) left).map (cellPtr n)) =
          sizeofCell + cellTotalSize n o +
            cellBytes n ((List.range' (k + 1) left).map (cellPtr n)) := List.sum_cons
      have hlater : slotOffset (j + 1) ≤ slotOffset (j + (left + 1)) := by
        simp only [slotOffset]
        omega
      obtain ⟨n₁, new₁, hap, hset, hfilling, hhead, hheadNew, hclash, hoff, hlist, hkeptNew,
          hread⟩ := moveCell_step (p := p) hc hn ho hleaf hnewLeaf hnew (by omega)
      obtain ⟨hburied, hkept, hslots, hextent, hchained⟩ := hn.bury ho hset
      have hptrs : (List.range' (k + 1) left).map (cellPtr n) =
          (List.range' (k + 1) left).map (cellPtr n₁) := by
        refine List.map_congr_left fun i hi => (hslots i ?_).symm
        rw [List.mem_range'_1] at hi
        omega
      have hkeptRest : ∀ x ∈ (List.range' (k + 1) left).map (cellPtr n), Kept n n₁ x := fun x hx =>
        hkept x (List.mem_append_right _ hx)
      have hbytes := cellBytes_congr hkeptRest
      obtain ⟨n', new', hmove, hm⟩ := ih hburied hptrs (by omega) (hhead.leaf.trans hleaf)
        (hheadNew.leaf.trans hnewLeaf) hfilling (by
          rw [show j + 1 + left = j + (left + 1) by omega]
          omega)
      obtain ⟨us, hus, hmap⟩ := hm.entered
      have hlast : new₁.cellOffset ∈ slotList new₁ (j + 1) := by
        rw [hlist]
        exact List.mem_append_right _ (List.mem_singleton_self _)
      have hsub : ∀ x ∈ slotList new j, x ∈ slotList new₁ (j + 1) := fun x hx => by
        rw [hlist]
        exact List.mem_append_left _ hx
      have hlen : j + (o :: (List.range' (k + 1) left).map (cellPtr n)).length =
          j + 1 + ((List.range' (k + 1) left).map (cellPtr n)).length := by
        rw [List.length_cons]
        omega
      refine ⟨n', new', ?_, ?_, fun x hx => ?_, fun i hi => ?_, fun x hx => ?_, fun t ht => ?_,
        hhead.sameHead.trans hm.head, hm.slotClash.trans hhead.slotClash,
        hm.cellOffset.trans hhead.cellOffset, ?_,
        hheadNew.trans hm.newHead, hm.newSlotClash.trans hclash, ?_, fun x hx => ?_,
        new₁.cellOffset :: us, ?_, ?_⟩
      · rw [moveCells_of_step hap hset]
        exact hmove
      · rw [List.reverse_cons, List.append_assoc]
        exact hm.layout
      · exact (hkept x (List.mem_append_left _ hx)).trans (hm.kept x hx)
      · exact (hm.slots_eq i hi).trans (hslots i hi)
      · rcases List.mem_cons.mp hx with rfl | hx
        · rw [tombstoneExtent_congr (hm.chained x List.mem_cons_self), hextent]
        · rw [hm.buried x hx, (hkeptRest x hx).extent]
      · exact (hchained t ht).trans (hm.chained t (List.mem_cons_of_mem _ ht))
      · rw [hlen]
        exact hm.filling
      · have hmoved := hm.newCellOffset
        omega
      · exact (hkeptNew x hx).trans (hm.newKept x (hsub x hx))
      · rw [hlen, hus, hlist, List.append_assoc]
        rfl
      · rw [List.map_cons, List.map_cons, hmap]
        refine congrArg₂ List.cons ?_ (List.map_congr_left fun x hx => ?_)
        · rw [← hread]
          exact hc.kept new₁ new' _ (hheadNew.leaf.trans hnewLeaf) (hfilling.layout.whole _ hlast)
            (hm.newKept _ hlast)
        · exact hc.kept n n₁ x hleaf
            (hn.whole x (List.mem_append_right _ (List.mem_cons_of_mem _ hx))) (hkeptRest x hx)

/-! ## A page is split -/

theorem Layout.shrink {fewer : ℕ} (h : Layout n slots os ts) (hle : fewer ≤ slots) :
    Layout n fewer os ts := by
  have hwithin : Within (slotArray fewer) (slotArray slots) :=
    ⟨le_rfl, Nat.add_le_add_left (Nat.mul_le_mul_left 4 hle) _⟩
  refine ⟨h.chain, fun x hx => ?_, ?_, h.whole⟩
  · rcases List.mem_cons.mp hx with rfl | hx
    · have hin := h.inside _ List.mem_cons_self
      exact ⟨le_rfl, hwithin.2.trans hin.2⟩
    · exact h.inside x (List.mem_cons_of_mem _ hx)
  · exact List.pairwise_cons.mpr
      ⟨fun x hx => (h.slots_apart hx).mono_left hwithin, h.blocks_apart⟩

theorem Layout.resize {size : ℕ} (h : Layout n slots os ts) :
    Layout { n with size } slots os ts :=
  h.congr rfl (fun o ho => ⟨rfl, h.whole o ho⟩) fun _ _ => Agree.rfl

/-- The slots and the cells of a laid out page fit in it. -/
theorem Layout.room (h : Layout n slots os ts) : slotOffset slots + cellBytes n os ≤ nodeSize := by
  have hsum := sum_le_of_pairwise_apart h.apart h.inside
  rw [List.map_cons, List.sum_cons, blocks, List.map_append, List.sum_append, List.map_map] at hsum
  have hcells : (os.map (Prod.snd ∘ cellExtent n)).sum = cellBytes n os := rfl
  simp only [slotArray, sizeofNode, nodeSize] at hsum
  simp only [slotOffset, sizeofNode, nodeSize]
  omega

/-- A page from `node_init`, as far as its layout goes. -/
structure Fresh (n : Node) (leaf : Bool) : Prop where
  size : n.size = 0
  leaf : n.leaf = leaf
  cellOffset : n.cellOffset = nodeSize
  tombstoneOffset : n.tombstoneOffset = 0

theorem nodeInit_fresh {leaf root : Bool} : Fresh (nodeInit n leaf root) leaf :=
  ⟨rfl, rfl, rfl, rfl⟩

theorem Fresh.filling {leaf : Bool} (h : Fresh n leaf) : Filling n 0 := by
  refine ⟨⟨h.tombstoneOffset, fun x hx => ?_, List.pairwise_singleton _ _, by simp [slotList]⟩,
    by simp [slotList], h.cellOffset.le⟩
  rw [List.mem_singleton.mp hx]
  exact ⟨le_rfl, by simp only [slotArray, sizeofNode, nodeSize]; omega⟩

theorem nodeInit_valid {leaf root : Bool} : ValidPage (nodeInit n leaf root) := by
  have hfilling := (nodeInit_fresh : Fresh (nodeInit n leaf root) leaf).filling
  refine ⟨hfilling.top.trans_lt (by norm_num [nodeSize]), [], hfilling.layout, fun o ho => ?_⟩
  rw [List.append_nil] at ho
  exact hfilling.low o ho

theorem drop_offsets : (offsets n).drop p = (List.range' p (n.size - p)).map (cellPtr n) := by
  rw [offsets, slotList, ← List.map_drop, List.range_eq_range', List.drop_range', Nat.zero_add,
    Nat.mul_one]

theorem take_slotList (h : ∀ i < n.size, cellPtr m i = cellPtr n i) (hp : p ≤ n.size) :
    slotList m p = (offsets n).take p := by
  rw [slotList_congr fun i hi => h i (hi.trans_le hp), offsets, slotList, slotList,
    ← List.map_take, List.take_range, min_eq_left hp]

/-- The pages after a split that keeps the cells before `p` and moves those from
`q` on: the cells from `p` on are the first tombstones of the old page, the last
of them in front, and the new page holds the moved ones in order. -/
structure SplitPages (n new old new' : Node) (p q : ℕ) (ts : List ℕ) : Prop where
  size : old.size = p
  leaf : old.leaf = n.leaf
  root : old.root = n.root
  rightmostPid : old.rightmostPid = n.rightmostPid
  parentPid : old.parentPid = n.parentPid
  cellOffset : old.cellOffset = n.cellOffset
  slotClash : old.slotClash = n.slotClash
  layout : Layout old old.size (offsets old) (((offsets n).drop p).reverse ++ ts)
  offsets_eq : offsets old = (offsets n).take p
  kept : ∀ o ∈ (offsets n).take p, Kept n old o
  buried : ∀ o ∈ (offsets n).drop p, tombstoneExtent old o = cellExtent n o
  chained : ∀ t ∈ ts, tombstoneExtent old t = tombstoneExtent n t
  newSize : new'.size = n.size - q
  newLeaf : new'.leaf = new.leaf
  newRoot : new'.root = new.root
  newRightmostPid : new'.rightmostPid = new.rightmostPid
  newParentPid : new'.parentPid = new.parentPid
  newLayout : Layout new' new'.size (offsets new') []
  newLow : ∀ o ∈ offsets new', new'.cellOffset ≤ o
  newCellOffset : new'.cellOffset + cellBytes n ((offsets n).drop q) = nodeSize
  newTombstoneOffset : new'.tombstoneOffset = 0
  newSlotClash : new'.slotClash = new.slotClash

theorem leafNodeSplit_spec (hp : p < n.size) (hn : Layout n n.size (offsets n) ts)
    (hleaf : n.leaf = true) (hnew : Fresh new true) :
    ∃ old new', leafNodeSplit n new p = .ok (old, new') ∧
      SplitPages n new old new' p p ts ∧
      (offsets new').map (entryAt new') = ((offsets n).drop p).map (entryAt n) := by
  have hsize : n.size < 2 ^ 10 := by
    have hle := hn.slots_le
    simp only [slotOffset, sizeofNode, nodeSize] at hle
    omega
  have hsplit : offsets n = (offsets n).take p ++ (offsets n).drop p :=
    (List.take_append_drop p _).symm
  have hn' := hn
  rw [hsplit] at hn'
  have hroom : slotOffset (0 + (n.size - p)) + cellBytes n ((offsets n).drop p) ≤
      new.cellOffset := by
    have hfit := hn.room
    rw [hsplit, cellBytes, List.map_append, List.sum_append] at hfit
    simp only [slotOffset, cellBytes, hnew.cellOffset] at hfit ⊢
    omega
  obtain ⟨old, filled, hmove, hm⟩ := moveCells_spec (p := p) leaf_copies hn' drop_offsets
    (by omega) hleaf hnew.leaf hnew.filling hroom
  have hlen : ((offsets n).drop p).length = n.size - p := by
    rw [List.length_drop, length_offsets]
  have hfilling := hm.filling
  obtain ⟨us, hus, hmap⟩ := hm.entered
  rw [Nat.zero_add, hlen] at hfilling hus
  have hofNew : us = slotList filled (n.size - p) := hus.symm
  have hofOld : offsets { old with size := p } = (offsets n).take p :=
    take_slotList hm.slots_eq hp.le
  refine ⟨{ old with size := p }, { filled with size := n.size - p }, ?_, ⟨rfl, hm.head.leaf,
    hm.head.root, hm.head.rightmostPid, hm.head.parentPid, hm.cellOffset, hm.slotClash, ?_,
    hofOld, hm.kept, hm.buried, fun t ht => tombstoneExtent_congr (hm.chained t ht), rfl,
    hm.newHead.leaf, hm.newHead.root, hm.newHead.rightmostPid, hm.newHead.parentPid,
    hfilling.layout.resize, hfilling.low, ?_, hfilling.layout.chain, hm.newSlotClash⟩, ?_⟩
  · have hsub : sub32 n.size p = n.size - p := sub32_of_le (by omega) hp.le
    have hsub' : sub32 n.size (n.size - p) = p := by
      rw [sub32_of_le (by omega) (Nat.sub_le _ _)]
      omega
    have hsum : u32 (n.size - p + p) = n.size := by
      rw [u32_of_lt (by omega)]
      omega
    simp only [leafNodeSplit, hmove, hsub, hsub', bind_eq_ok, assert_eq_ok, hnew.size, hsum]
    exact ⟨(), by omega, (), trivial, _, rfl, (), by omega, (), trivial, rfl⟩
  · rw [hofOld]
    exact (hm.layout.shrink hp.le).resize
  · rw [← hnew.cellOffset]
    exact hm.newCellOffset
  · rw [← hmap, hofNew]
    rfl

/-- The partition cell of a branch goes to neither page. -/
theorem internalNodeSplit_spec (hp : 0 < p) (hq : p + 1 < n.size)
    (hn : Layout n n.size (offsets n) ts) (hleaf : n.leaf = false) (hnew : Fresh new false) :
    ∃ old new', internalNodeSplit n new p = .ok (old, new') ∧
      SplitPages n new old new' p (p + 1) ts ∧
      (offsets new').map (separatorAt new') = ((offsets n).drop (p + 1)).map (separatorAt n) := by
  have hsize : n.size < 2 ^ 10 := by
    have hle := hn.slots_le
    simp only [slotOffset, sizeofNode, nodeSize] at hle
    omega
  have hlt : p < n.size := by omega
  have hsplit := offsets_split hlt
  have hn' := hn
  rw [hsplit] at hn'
  have hmem : cellPtr n p ∈ offsets n := mem_offsets hlt
  have hheader : Inside (cellPtr n p, 8) := by
    have hin := hn.cell_inside hmem
    refine ⟨hin.1, ?_⟩
    simp only [Inside, cellExtent, sizeofCell] at hin ⊢
    omega
  obtain ⟨n₁, hset⟩ : ∃ n₁, nodeTupleSetTombstone n (liveSlots n p p) p = .ok n₁ :=
    nodeTupleSetTombstone_isOk hheader
  have hhead := nodeTupleSetTombstone_spec hset
  obtain ⟨hburied, hkept, hslots, hextent, hchained⟩ := hn'.bury rfl hset
  have hkeptRest : ∀ x ∈ (offsets n).drop (p + 1), Kept n n₁ x := fun x hx =>
    hkept x (List.mem_append_right _ hx)
  have hptrs : (offsets n).drop (p + 1) =
      (List.range' (p + 1) (n.size - (p + 1))).map (cellPtr n₁) := by
    rw [drop_offsets]
    refine List.map_congr_left fun i hi => (hslots i ?_).symm
    rw [List.mem_range'_1] at hi
    omega
  have hbytes : cellBytes n₁ ((offsets n).drop (p + 1)) = cellBytes n ((offsets n).drop (p + 1)) :=
    cellBytes_congr hkeptRest
  have hroom : slotOffset (0 + (n.size - (p + 1))) + cellBytes n₁ ((offsets n).drop (p + 1)) ≤
      new.cellOffset := by
    have hfit := hn.room
    rw [hsplit, cellBytes, List.map_append, List.sum_append, List.map_cons, List.sum_cons] at hfit
    rw [hbytes]
    simp only [slotOffset, cellBytes, hnew.cellOffset] at hfit ⊢
    omega
  obtain ⟨old, filled, hmove, hm⟩ := moveCells_spec (p := p) internal_copies hburied hptrs
    (by omega) (hhead.leaf.trans hleaf) hnew.leaf hnew.filling hroom
  have hlen : ((offsets n).drop (p + 1)).length = n.size - (p + 1) := by
    rw [List.length_drop, length_offsets]
  have hfilling := hm.filling
  obtain ⟨us, hus, hmap⟩ := hm.entered
  rw [Nat.zero_add, hlen] at hfilling hus
  have hofNew : us = slotList filled (n.size - (p + 1)) := hus.symm
  have hslotsOld : ∀ i < n.size, cellPtr old i = cellPtr n i := fun i hi =>
    (hm.slots_eq i hi).trans (hslots i hi)
  have hofOld : offsets { old with size := p } = (offsets n).take p :=
    take_slotList hslotsOld hlt.le
  have hrest : ((offsets n).drop p).reverse ++ ts =
      ((offsets n).drop (p + 1)).reverse ++ (cellPtr n p :: ts) := by
    rw [drop_offsets_cons hlt, List.reverse_cons, List.append_assoc]
    rfl
  refine ⟨{ old with size := p }, { filled with size := n.size - (p + 1) }, ?_, ⟨rfl,
    hm.head.leaf.trans hhead.leaf, hm.head.root.trans hhead.root,
    hm.head.rightmostPid.trans hhead.rightmostPid, hm.head.parentPid.trans hhead.parentPid,
    hm.cellOffset.trans hhead.cellOffset, hm.slotClash.trans hhead.slotClash, ?_, hofOld,
    fun o ho => ?_, fun o ho => ?_, fun t ht => ?_, rfl, hm.newHead.leaf, hm.newHead.root,
    hm.newHead.rightmostPid, hm.newHead.parentPid, hfilling.layout.resize, hfilling.low, ?_,
    hfilling.layout.chain, hm.newSlotClash⟩, ?_⟩
  · have hnext : u32 (p + 1) = p + 1 := u32_of_lt (by omega)
    have hsub : sub32 n.size (p + 1) = n.size - (p + 1) := sub32_of_le (by omega) (by omega)
    have hsucc : u32 (n.size - (p + 1) + 1) = n.size - p := by
      rw [u32_of_lt (by omega)]
      omega
    have hsub' : sub32 n.size (n.size - p) = p := by
      rw [sub32_of_le (by omega) (Nat.sub_le _ _)]
      omega
    have hsum : u32 (n.size - (p + 1) + p) = sub32 n.size 1 := by
      rw [u32_of_lt (by omega), sub32_of_le (by omega) (by omega)]
      omega
    have hsize₁ : n₁.size = n.size := hhead.size
    simp only [internalNodeSplit, hset, bind_eq_ok, assert_eq_ok, hnew.size, hnext, hsub, hsucc,
      hsub', hsum, hmove, hsize₁, Except.ok.injEq, exists_eq_left']
    exact ⟨(), by omega, (), trivial, (), hp, (), by omega, (), trivial, trivial⟩
  · rw [hofOld, hrest]
    exact (hm.layout.shrink hlt.le).resize
  · exact (hkept o (List.mem_append_left _ ho)).trans (hm.kept o ho)
  · rw [drop_offsets_cons hlt] at ho
    rcases List.mem_cons.mp ho with rfl | ho
    · exact (tombstoneExtent_congr (hm.chained _ List.mem_cons_self)).trans hextent
    · exact (hm.buried o ho).trans (hkeptRest o ho).extent
  · exact (tombstoneExtent_congr (hm.chained t (List.mem_cons_of_mem _ ht))).trans
      (tombstoneExtent_congr (hchained t ht))
  · rw [← hnew.cellOffset, ← hbytes]
    exact hm.newCellOffset
  · rw [← List.map_congr_left fun x hx => internal_copies.kept n n₁ x hleaf
      (hn.whole x (List.mem_of_mem_drop hx)) (hkeptRest x hx), ← hmap, hofNew]
    rfl

/-- The halves of a page with a low `cell_offset`. -/
theorem SplitPages.valid {old : Node} {q : ℕ} (h : SplitPages n new old new' p q ts)
    (hlt : n.cellOffset < 2 ^ 32)
    (hlow : ∀ o ∈ offsets n ++ ts, n.cellOffset ≤ o) : ValidPage old ∧ ValidPage new' := by
  refine ⟨⟨h.cellOffset.trans_lt hlt, _, h.layout, fun o ho => ?_⟩, ?_, [], h.newLayout,
    fun o ho => ?_⟩
  · rw [h.offsets_eq] at ho
    rw [h.cellOffset]
    refine hlow o ?_
    simp only [List.mem_append, List.mem_reverse] at ho ⊢
    rcases ho with ho | ho | ho
    · exact .inl (List.mem_of_mem_take ho)
    · exact .inl (List.mem_of_mem_drop ho)
    · exact .inr ho
  · have hsum := h.newCellOffset
    simp only [nodeSize] at hsum
    omega
  · rw [List.append_nil] at ho
    exact h.newLow o ho

/-- A half with fewer cells reads as the first cells of the page. -/
theorem SplitPages.oldCells {α : Type} {leaf : Bool} {read : Node → ℕ → α} {old : Node} {q : ℕ}
    (h : SplitPages n new old new' p q ts) (hc : Copies leaf cell read) (hleaf : n.leaf = leaf)
    (hn : Layout n n.size (offsets n) ts) :
    (offsets old).map (read old) = ((offsets n).map (read n)).take p := by
  rw [h.offsets_eq, ← List.map_take]
  exact List.map_congr_left fun o ho =>
    hc.kept n old o hleaf (hn.whole o (List.mem_of_mem_take ho)) (h.kept o ho)

end IoScheduler
