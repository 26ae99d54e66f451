import IoScheduler.NodeReuse

/-!
# Deleting a key

`node_delete_key` makes the cell of the key the first tombstone and moves the
slots behind its slot down by one. The first eight bytes of the dead cell are
all that changes outside the slot array, so the other entries keep their order
and their bytes, and the chain grows by the dead cell.
-/
namespace IoScheduler
open Machine Bytes SearchTree

variable {n m : Node} {idx slots : ℕ} {os ts : List ℕ} {key : List UInt8}

/-! ## Closing a slot -/

/-- The slot array after the slots behind one were moved down. -/
theorem slots_closed {b : ℕ → UInt8} {size : ℕ} (hidx : idx < size) :
    let c := store b (slotOffset idx) (load b (slotOffset (idx + 1)) (4 * (size - (idx + 1))))
    (∀ i < idx, load32 c (slotOffset i) = load32 b (slotOffset i)) ∧
      (∀ i, idx ≤ i → i + 1 < size → load32 c (slotOffset i) = load32 b (slotOffset (i + 1))) ∧
      ∀ x : ℕ × ℕ, Apart (slotArray size) x → Agree b c x.1 x.2 := by
  intro c
  refine ⟨fun i hi => ?_, fun i hi hlt => ?_, fun x hx => ?_⟩
  · have hapart : Apart (slotOffset i, 4)
        (slotOffset idx, (load b (slotOffset (idx + 1)) (4 * (size - (idx + 1)))).length) :=
      .inl (by simp only [slotOffset]; omega)
    exact (agree_store hapart).load32_eq le_rfl le_rfl
  · have hmoved : load c (slotOffset idx + 4 * (i - idx)) 4 =
        load b (slotOffset (idx + 1) + 4 * (i - idx)) 4 := load_store_load (by omega)
    rw [load32, load32,
      show slotOffset i = slotOffset idx + 4 * (i - idx) by simp only [slotOffset]; omega, hmoved,
      show slotOffset (i + 1) = slotOffset (idx + 1) + 4 * (i - idx) by
        simp only [slotOffset]; omega]
  · apply agree_store
    refine hx.symm.mono ⟨Nat.le_add_right _ _, ?_⟩
    simp only [slotArray, slotOffset, length_load]
    omega

/-- The offsets of a page that lost a slot. -/
theorem offsets_erase (hsize : m.size + 1 = n.size) (hidx : idx < n.size)
    (hlow : ∀ i < idx, cellPtr m i = cellPtr n i)
    (hhigh : ∀ i, idx ≤ i → i + 1 < n.size → cellPtr m i = cellPtr n (i + 1)) :
    offsets m = (offsets n).take idx ++ (offsets n).drop (idx + 1) := by
  rw [← List.eraseIdx_eq_take_drop_succ]
  refine List.ext_getElem? fun i => ?_
  rw [List.getElem?_eraseIdx, getElem?_offsets, getElem?_offsets, getElem?_offsets]
  by_cases hi : i < idx
  · rw [if_pos hi, if_pos (by omega), if_pos (by omega), hlow i hi]
  · rw [if_neg hi]
    by_cases hm : i < m.size
    · rw [if_pos hm, if_pos (by omega), hhigh i (by omega) (by omega)]
    · rw [if_neg hm, if_neg (by omega)]

/-- A page whose slots from one on were moved down. -/
structure SlotClosed (n m : Node) (idx : ℕ) : Prop where
  size : m.size + 1 = n.size
  leaf : m.leaf = n.leaf
  cellOffset : m.cellOffset = n.cellOffset
  tombstoneOffset : m.tombstoneOffset = n.tombstoneOffset
  tombstoneBytes : m.tombstoneBytes = n.tombstoneBytes
  slotClash : m.slotClash = n.slotClash
  offsets_eq : offsets m = (offsets n).take idx ++ (offsets n).drop (idx + 1)
  agree : ∀ x : ℕ × ℕ, Apart (slotArray n.size) x → Agree n.body m.body x.1 x.2

/-- What `node_delete_key` does once the key was found. -/
theorem nodeDeleteKey_eq_ok {dead : Node} (hs : nodeBinSearch n key = .ok (true, idx))
    (hidx : idx < n.size) (hslots : slotOffset n.size ≤ nodeSize)
    (hset : nodeTupleSetTombstone n ((List.range n.size).filter (· ≠ idx)) idx = .ok dead) :
    ∃ m, nodeDeleteKey n key = .ok (0, m) ∧ SlotClosed dead m idx := by
  simp only [slotOffset, sizeofNode, nodeSize] at hslots
  have hsize : dead.size = n.size := (nodeTupleSetTombstone_spec hset).size
  have hget : nodeGetCell n key = .ok (some idx) :=
    bind_eq_ok.mpr ⟨_, hs, bind_eq_ok.mpr ⟨(), assert_eq_ok.mpr hidx, rfl⟩⟩
  have hnext : u32 (idx + 1) = idx + 1 := u32_of_lt (by omega)
  have hsub : sub32 dead.size (idx + 1) = dead.size - (idx + 1) :=
    sub32_of_le (by omega) (by omega)
  have hone : sub32 dead.size 1 = dead.size - 1 := sub32_of_le (by omega) (by omega)
  have hmove : Inside (slotOffset idx,
      (load dead.body (slotOffset (idx + 1)) (4 * (dead.size - (idx + 1)))).length) := by
    refine ⟨Nat.le_add_right _ _, ?_⟩
    simp only [slotOffset, length_load, sizeofNode, nodeSize]
    omega
  rw [← hsize] at hidx
  obtain ⟨hlow, hhigh, hagree⟩ := slots_closed (b := dead.body) hidx
  have hpred : dead.size - 1 + 1 = dead.size := by omega
  refine ⟨{ dead.watch ((List.range n.size).filter (· ≠ idx)) 0
      (slotOffset idx, 4 * (dead.size - (idx + 1))) with
        body := store dead.body (slotOffset idx)
          (load dead.body (slotOffset (idx + 1)) (4 * (dead.size - (idx + 1))))
        size := dead.size - 1 }, ?_,
    ⟨hpred, rfl, rfl, rfl, rfl, rfl, offsets_erase hpred hidx hlow hhigh, hagree⟩⟩
  refine bind_eq_ok.mpr ⟨_, hs, bind_eq_ok.mpr ⟨_, hget, bind_eq_ok.mpr ⟨_, hset, ?_⟩⟩⟩
  simp only [hnext, hsub, Node.write_ok hmove]
  refine bind_eq_ok.mpr ⟨_, rfl, ?_⟩
  simp only [Node.watch, hone]

/-! ## Deleting -/

/-- The page after the cell of a slot was deleted: the other cells are kept in
order, and the dead one is the first tombstone. -/
structure CellDeleted (n m : Node) (idx : ℕ) (ts : List ℕ) : Prop where
  size : m.size + 1 = n.size
  leaf : m.leaf = n.leaf
  cellOffset : m.cellOffset = n.cellOffset
  slotClash : m.slotClash = n.slotClash
  offsets_eq : offsets m = (offsets n).take idx ++ (offsets n).drop (idx + 1)
  kept : ∀ o ∈ offsets m, Kept n m o
  layout : Layout m m.size (offsets m) (cellPtr n idx :: ts)
  deleted : tombstoneExtent m (cellPtr n idx) = cellExtent n (cellPtr n idx)
  chained : ∀ t ∈ ts, Agree n.body m.body t 8
  bytes : m.tombstoneBytes = u32 (n.tombstoneBytes + (cellExtent n (cellPtr n idx)).2)

theorem Layout.delete (h : Layout n n.size (offsets n) ts)
    (hs : nodeBinSearch n key = .ok (true, idx)) (hidx : idx < n.size) :
    ∃ m, nodeDeleteKey n key = .ok (0, m) ∧ CellDeleted n m idx ts := by
  have hin := h.cell_inside (mem_offsets hidx)
  have hheader : Inside (cellPtr n idx, 8) := ⟨hin.1, cell_header.2.trans hin.2⟩
  obtain ⟨dead, hset⟩ : ∃ dead, nodeTupleSetTombstone n ((List.range n.size).filter (· ≠ idx)) idx =
      .ok dead := nodeTupleSetTombstone_isOk hheader
  have hspec := nodeTupleSetTombstone_spec hset
  have hsplit := h
  rw [offsets_split hidx] at hsplit
  obtain ⟨hburied, hkept, hptrs, hextent, hchained⟩ := hsplit.bury rfl hset
  obtain ⟨m, hdel, hclosed⟩ := nodeDeleteKey_eq_ok hs hidx h.slots_le hset
  have hslots : offsets dead = offsets n := by
    rw [offsets, hspec.size]
    exact slotList_congr hptrs
  have hof := hclosed.offsets_eq
  have hagree := hclosed.agree
  rw [hslots] at hof
  rw [hspec.size] at hagree
  have hcells : ∀ o ∈ offsets m, Kept dead m o := by
    rw [hof]
    exact fun o ho => hagree (cellExtent dead o)
      (hburied.slots_apart (List.mem_append_left _ (List.mem_map_of_mem ho)))
  have hheaders : ∀ t ∈ cellPtr n idx :: ts, Agree dead.body m.body t 8 := fun t ht =>
    hagree (t, 8) ((hburied.slots_apart
      (List.mem_append_right _ (List.mem_map_of_mem ht))).mono tombstone_header)
  have hsize : m.size + 1 = n.size := hclosed.size.trans hspec.size
  refine ⟨m, hdel, hsize, hclosed.leaf.trans hspec.leaf, hclosed.cellOffset.trans hspec.cellOffset,
    hclosed.slotClash.trans hspec.slotClash, hof, fun o ho => ?_, ?_, ?_, fun t ht => ?_, ?_⟩
  · exact (hkept o (hof ▸ ho)).trans (hcells o ho)
  · rw [← hof] at hburied
    refine (hburied.shrink (show m.size ≤ n.size by omega)).congr hclosed.tombstoneOffset
      (fun o ho => ?_) hheaders
    exact ⟨(hcells o ho).extent, (hcells o ho).whole hclosed.leaf (hburied.whole o ho)⟩
  · exact (tombstoneExtent_congr (hheaders _ List.mem_cons_self)).trans hextent
  · exact (hchained t ht).trans (hheaders t (List.mem_cons_of_mem _ ht))
  · exact hclosed.tombstoneBytes.trans hspec.bytes

/-- The other entries of a leaf are those before and behind the deleted one. -/
theorem CellDeleted.entries_eq (h : CellDeleted n m idx ts) (hn : Layout n n.size (offsets n) ts)
    (hsort : (keys n).Pairwise (· < ·)) (hleaf : n.leaf = true) (hidx : idx < n.size) :
    leafEntries m = (leafEntries n).filter fun e => e.1 ≠ ⟨keyAt n idx⟩ := by
  have hsub : ∀ o ∈ offsets m, o ∈ offsets n := by
    rw [h.offsets_eq]
    intro o ho
    rcases List.mem_append.mp ho with ho | ho
    · exact List.mem_of_mem_take ho
    · exact List.mem_of_mem_drop ho
  have hread : leafEntries m = (offsets m).map (entryAt n) :=
    List.map_congr_left fun o ho => (h.kept o ho).entry (hn.whole o (hsub o ho)) hleaf
  have hsplit : leafEntries n = ((offsets n).take idx).map (entryAt n) ++
      entryAt n (cellPtr n idx) :: ((offsets n).drop (idx + 1)).map (entryAt n) := by
    rw [leafEntries, ← List.map_cons, ← List.map_append, ← offsets_split hidx]
  have hkeys := hsort
  rw [← leafEntries_keys, hsplit, List.map_append, List.map_cons, List.pairwise_append,
    List.pairwise_cons] at hkeys
  have hleft : ∀ e ∈ ((offsets n).take idx).map (entryAt n), e.1 ≠ ⟨keyAt n idx⟩ := fun e he =>
    (hkeys.2.2 _ (List.mem_map_of_mem he) _ List.mem_cons_self).ne
  have hright : ∀ e ∈ ((offsets n).drop (idx + 1)).map (entryAt n), e.1 ≠ ⟨keyAt n idx⟩ :=
    fun e he => (hkeys.2.1.1 _ (List.mem_map_of_mem he)).ne'
  have hself : ¬ (entryAt n (cellPtr n idx)).1 ≠ ⟨keyAt n idx⟩ := fun hne => hne rfl
  rw [hread, h.offsets_eq, List.map_append, hsplit, List.filter_append,
    List.filter_cons_of_neg (by simpa using hself),
    List.filter_eq_self.mpr fun e he => decide_eq_true (hleft e he),
    List.filter_eq_self.mpr fun e he => decide_eq_true (hright e he)]

/-- The outcomes of a deletion: the entry of the key goes and is not found any
more, or the key was missing and the page is as before. -/
inductive Deletion (n : Node) (key : List UInt8) (ts : List ℕ) : ℕ → Node → Prop
  | deleted {idx : ℕ} {m : Node} : idx < n.size → keyAt n idx = key → CellDeleted n m idx ts →
      leafEntries m = ((leafEntries n).filter fun e => e.1 ≠ ⟨key⟩) →
      nodeGetCell m key = .ok none → Deletion n key ts 0 m
  | missing : Deletion n key ts 1 n

/-- A deletion goes through for every key, and returns `0` for the stored ones. -/
theorem nodeDeleteKey_deletion (h : Layout n n.size (offsets n) ts) (hleaf : n.leaf = true)
    (hsort : (keys n).Pairwise (· < ·)) (hkey : key.length < 2 ^ 32) :
    ∃ ret m, nodeDeleteKey n key = .ok (ret, m) ∧ (ret = 0 ↔ (⟨key⟩ : Key) ∈ keys n) ∧
      Deletion n key ts ret m := by
  by_cases hmem : (⟨key⟩ : Key) ∈ keys n
  · obtain ⟨i, hi, hat⟩ := mem_keys.mp hmem
    have hshort : key.length < 2 ^ 31 := by
      have hlt := h.keySize_lt (mem_offsets hi)
      rw [← hat, keyAt, length_cellGetKey]
      simp only [nodeSize] at hlt
      omega
    obtain ⟨found, idx, hs⟩ : ∃ found idx, nodeBinSearch n key = .ok (found, idx) :=
      nodeBinSearch_isOk h.size_lt
    rcases h.search hsort hshort hs with ⟨rfl, hidx, heq⟩ | ⟨-, -, hleft, hright⟩
    · obtain ⟨m, hdel, hm⟩ := h.delete hs hidx
      have hentries := hm.entries_eq h hsort hleaf hidx
      rw [heq] at hentries
      have hgone : (⟨key⟩ : Key) ∉ keys m := by
        rw [← leafEntries_keys, hentries]
        intro hk
        obtain ⟨e, he, hfst⟩ := List.mem_map.mp hk
        exact absurd hfst (of_decide_eq_true (List.mem_filter.mp he).2)
      obtain ⟨j, hmiss, -⟩ := hm.layout.search_absent hkey hgone
      refine ⟨0, m, hdel, iff_of_true rfl hmem, .deleted hidx heq hm hentries ?_⟩
      exact bind_eq_ok.mpr ⟨_, hmiss, rfl⟩
    · rw [← List.take_append_drop idx (keys n)] at hmem
      rcases List.mem_append.mp hmem with hk | hk
      · exact absurd (hleft _ hk) (lt_irrefl _)
      · exact absurd (hright _ hk) (lt_irrefl _)
  · obtain ⟨j, hmiss, -⟩ := h.search_absent hkey hmem
    refine ⟨1, n, ?_, iff_of_false Nat.one_ne_zero hmem, .missing⟩
    exact bind_eq_ok.mpr ⟨_, hmiss, rfl⟩

/-- The first of two entries is deleted. -/
theorem nodeDeleteKey_deletion_first : ∃ n m, leafEntries n = [(⟨[1]⟩, [5]), (⟨[3]⟩, [])] ∧
    nodeDeleteKey n [1] = .ok (0, m) ∧ leafEntries m = [(⟨[3]⟩, [])] ∧
    nodeGetCell m [1] = .ok none := by
  have hpage : ∃ n, (do
      let n ← nodeInsertNonfull (nodeInit zeroPage true true) 0 [3] []
      nodeInsertNonfull n 0 [1] [5]) = .ok n ∧
        decide (WellFormedWith n [] ∧ n.leaf = true ∧
          leafEntries n = [(⟨[1]⟩, [5]), (⟨[3]⟩, [])]) = true :=
    exists_ok_of_any (by decide +kernel)
  obtain ⟨n, -, hn⟩ := hpage
  obtain ⟨hwell, hleaf, hold⟩ := of_decide_eq_true hn
  have hmem : (⟨[1]⟩ : Key) ∈ keys n := by
    rw [← leafEntries_keys, hold]
    exact List.mem_cons_self
  obtain ⟨ret, m, hdel, hret, hm⟩ := @nodeDeleteKey_deletion n [] [1] hwell.1 hleaf
    hwell.2.2.2 (by decide)
  obtain rfl : ret = 0 := hret.mpr hmem
  cases hm with
  | deleted _ _ _ hentries hgone =>
      rw [hold] at hentries
      exact ⟨n, m, hold, hdel, hentries, hgone⟩

end IoScheduler
