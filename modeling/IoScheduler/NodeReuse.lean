import IoScheduler.NodeViews
import IoScheduler.Btree

/-!
# Cells in the place of tombstones

`node_is_full` walks the whole chain of tombstones and `node_get_free_offset`
looks at its head only, so they disagree on a page whose first tombstone is too
small and a later one is not. A cell that takes the place of a tombstone moves
`cell_offset` there, which is right only when no block lies lower.
-/
namespace IoScheduler
open Machine Bytes SearchTree

variable {n m : Node} {off idx need keySize valueSize fuel : ℕ} {ts : List ℕ}
  {key value : List UInt8}

/-- Slots, cells and chained tombstones apart in a page, whatever the cells hold. -/
structure Spread (n : Node) (ts : List ℕ) : Prop where
  chain : Chain n.body n.tombstoneOffset ts
  inside : ∀ x ∈ slotArray n.size :: blocks n (offsets n) ts, Inside x
  apart : (slotArray n.size :: blocks n (offsets n) ts).Pairwise Apart

theorem Layout.spread (h : Layout n n.size (offsets n) ts) : Spread n ts :=
  ⟨h.chain, h.inside, h.apart⟩

theorem Spread.tombstone_inside (h : Spread n ts) {t : ℕ} (ht : t ∈ ts) :
    Inside (tombstoneExtent n t) :=
  h.inside _ (List.mem_cons_of_mem _ (List.mem_append_right _ (List.mem_map_of_mem ht)))

/-- Every tombstone takes at least its header. -/
theorem Spread.length_le (h : Spread n ts) : 8 * ts.length ≤ nodeSize := by
  have hsum := sum_le_of_pairwise_apart h.apart h.inside
  rw [List.map_cons, List.sum_cons, blocks, List.map_append, List.sum_append] at hsum
  have hheaders : ts.length • 8 ≤ ((ts.map (tombstoneExtent n)).map Prod.snd).sum := by
    have hcount := List.card_nsmul_le_sum ((ts.map (tombstoneExtent n)).map Prod.snd) 8
      fun x hx => by
        obtain ⟨y, hy, rfl⟩ := List.mem_map.mp hx
        obtain ⟨t, -, rfl⟩ := List.mem_map.mp hy
        exact le_max_left _ _
    rwa [List.length_map, List.length_map] at hcount
  rw [smul_eq_mul] at hheaders
  omega

/-- The walk of `node_is_full` sees every tombstone. -/
theorem noTombstoneFits_spec (h : Chain n.body off ts) (hfuel : ts.length < fuel) :
    noTombstoneFits n need fuel off = .ok (decide (∀ t ∈ ts, cellTombstoneSize n t < need)) := by
  induction ts generalizing off fuel with
  | nil =>
      obtain ⟨fuel, rfl⟩ := Nat.exists_eq_succ_of_ne_zero (Nat.ne_of_gt hfuel)
      obtain rfl : off = 0 := h
      rw [noTombstoneFits, if_pos rfl]
      simp
  | cons t ts ih =>
      obtain ⟨fuel, rfl⟩ :=
        Nat.exists_eq_succ_of_ne_zero (Nat.ne_of_gt ((Nat.zero_le _).trans_lt hfuel))
      obtain ⟨rfl, hne, htail⟩ := h
      rw [noTombstoneFits, if_neg hne]
      split_ifs with hfits
      · have hnot : ¬ ∀ t ∈ off :: ts, cellTombstoneSize n t < need := fun hall =>
          absurd (hall off List.mem_cons_self) (not_lt.mpr hfits)
        rw [decide_eq_false hnot]
      · rw [cellNextOff, ih htail (by simpa using hfuel)]
        simp only [List.mem_cons, forall_eq_or_imp, not_le.mp hfits, true_and]

theorem nodeIsFull_spec (h : Spread n ts) : nodeIsFull n keySize valueSize =
    .ok (decide (freeSpace n < newCellSize keySize valueSize ∧
      ∀ t ∈ ts, cellTombstoneSize n t < newCellSize keySize valueSize)) := by
  have hlen := h.length_le
  simp only [nodeSize] at hlen
  simp only [nodeIsFull]
  split_ifs with hfree
  · rw [noTombstoneFits_spec h.chain (by omega)]
    simp only [hfree, true_and]
  · simp only [hfree, false_and, decide_false]

/-- The two functions decide alike exactly when the first tombstone is large
enough whenever some tombstone is and the free space is not. -/
theorem nodeIsFull_iff_place (h : Spread n ts) (hlow : slotOffset n.size ≤ n.cellOffset)
    (hlt : n.cellOffset < 2 ^ 32) :
    ∃ full k off, nodeIsFull n keySize valueSize = .ok full ∧
      nodeGetFreeOffset n keySize valueSize = .ok (k, off) ∧
      ((full = false ↔ off ≠ 0) ↔
        (freeSpace n < newCellSize keySize valueSize →
          (∃ t ∈ ts, newCellSize keySize valueSize ≤ cellTombstoneSize n t) →
          newCellSize keySize valueSize ≤ cellTombstoneSize n n.tombstoneOffset)) := by
  have hhead : n.tombstoneOffset ≠ 0 ↔ n.tombstoneOffset ∈ ts := by
    cases ts with
    | nil => exact iff_of_false (fun hne => hne h.chain) List.not_mem_nil
    | cons t ts =>
        obtain ⟨hfirst, hne, -⟩ := h.chain
        rw [hfirst]
        exact iff_of_true hne List.mem_cons_self
  have hnonempty : (∃ t ∈ ts, newCellSize keySize valueSize ≤ cellTombstoneSize n t) →
      n.tombstoneOffset ≠ 0 := by
    rintro ⟨t, ht, -⟩ hzero
    rw [h.chain.unique (show Chain n.body n.tombstoneOffset [] from hzero)] at ht
    cases ht
  have hin : n.tombstoneOffset ≠ 0 → Inside (tombstoneExtent n n.tombstoneOffset) := fun hne =>
    h.tombstone_inside (hhead.mp hne)
  have htotal : (∃ k off, nodeGetFreeOffset n keySize valueSize = .ok (k, off)) ∧ (_ ↔ _) :=
    nodeGetFreeOffset_pos_iff hlow hlt hin
  obtain ⟨⟨k, off, hget⟩, hplace⟩ := htotal
  have hoff : off ≠ 0 ↔ newCellSize keySize valueSize ≤ freeSpace n ∨ n.tombstoneOffset ≠ 0 ∧
      newCellSize keySize valueSize ≤ cellTombstoneSize n n.tombstoneOffset := by
    rw [← hplace]
    refine ⟨fun hne => ⟨k, off, hget, Nat.pos_of_ne_zero hne⟩, ?_⟩
    rintro ⟨k', off', hget', hpos⟩
    rw [(Prod.mk.inj (Except.ok.inj (hget.symm.trans hget'))).2]
    exact hpos.ne'
  refine ⟨_, k, off, nodeIsFull_spec h, hget, ?_⟩
  rw [decide_eq_false_iff_not, hoff]
  by_cases hfree : newCellSize keySize valueSize ≤ freeSpace n
  · exact iff_of_true (iff_of_true (fun hfull => absurd hfree (not_le.mpr hfull.1)) (.inl hfree))
      fun hless => absurd hfree (not_le.mpr hless)
  · have hless : freeSpace n < newCellSize keySize valueSize := not_le.mp hfree
    have hwalk : ¬ (freeSpace n < newCellSize keySize valueSize ∧
        ∀ t ∈ ts, cellTombstoneSize n t < newCellSize keySize valueSize) ↔
        ∃ t ∈ ts, newCellSize keySize valueSize ≤ cellTombstoneSize n t := by
      simp [hless]
    rw [hwalk]
    refine ⟨fun hagree _ hfits => ((hagree.mp hfits).resolve_left hfree).2, fun hfirst => ?_⟩
    refine ⟨fun hfits => .inr ⟨hnonempty hfits, hfirst hless hfits⟩, fun hor => ?_⟩
    obtain ⟨hne, hfits⟩ := hor.resolve_left hfree
    exact ⟨n.tombstoneOffset, hhead.mp hne, hfits⟩

/-- The left half of a split leaf chains two cells, the later one first. -/
theorem nodeIsFull_iff_place_after_split : ∃ t, Inserted t ∧
    (t.node 1).tombstoneOffset ≠ 0 ∧ freeSpace (t.node 1) < newCellSize 1 980 ∧
    nodeIsFull (t.node 1) 1 980 = .ok false ∧
    ∃ k off, nodeGetFreeOffset (t.node 1) 1 980 = .ok (k, off) ∧ off ≠ 0 := by
  obtain ⟨t, ht, ⟨hlayout, hlow, hlt⟩, hne, hless, hfits, hfull⟩ := exists_inserted
    ([1, 2, 3, 4, 5].map fun k => ([k], List.replicate 983 k))
    (fun t => (Layout (t.node 1) (t.node 1).size (offsets (t.node 1))
        [cellPtr (t.node 1) 3, cellPtr (t.node 1) 2] ∧
        slotOffset (t.node 1).size ≤ (t.node 1).cellOffset ∧ (t.node 1).cellOffset < 2 ^ 32) ∧
      (t.node 1).tombstoneOffset ≠ 0 ∧ freeSpace (t.node 1) < newCellSize 1 980 ∧
      newCellSize 1 980 ≤ cellTombstoneSize (t.node 1) (t.node 1).tombstoneOffset ∧
      nodeIsFull (t.node 1) 1 980 = .ok false)
    (by decide +kernel)
  obtain ⟨full, k, off, hfull', hget, hiff⟩ := nodeIsFull_iff_place hlayout.spread hlow hlt
  obtain rfl : false = full := Except.ok.inj (hfull.symm.trans hfull')
  exact ⟨t, ht, hne, hless, hfull, k, off, hget, (hiff.mpr fun _ _ => hfits).mp rfl⟩

/-- A leaf cut after its first cell, the last of the others being the smallest:
a cell that would fit the second tombstone finds no place. -/
theorem later_tombstone_ignored : ∃ t, Inserted t ∧
    Spread (t.node 1) [cellPtr (t.node 1) 2, cellPtr (t.node 1) 1] ∧
    slotOffset (t.node 1).size ≤ (t.node 1).cellOffset ∧
    nodeIsFull (t.node 1) 1 983 = .ok false ∧
    ∃ k, nodeGetFreeOffset (t.node 1) 1 983 = .ok (k, 0) := by
  obtain ⟨t, ht, hlayout, hlow, hfull, hget⟩ := exists_inserted
    [([1], List.replicate 1983 1), ([2], List.replicate 983 2), ([3], List.replicate 883 3),
      ([4], List.replicate 983 4)]
    (fun t => Layout (t.node 1) (t.node 1).size (offsets (t.node 1))
        [cellPtr (t.node 1) 2, cellPtr (t.node 1) 1] ∧
      slotOffset (t.node 1).size ≤ (t.node 1).cellOffset ∧
      nodeIsFull (t.node 1) 1 983 = .ok false ∧
      (nodeGetFreeOffset (t.node 1) 1 983).toOption.any fun place => place.2 = 0)
    (by decide +kernel)
  obtain ⟨⟨k, off⟩, hget, hoff⟩ := exists_ok_of_any hget
  cases of_decide_eq_true hoff
  exact ⟨t, ht, hlayout.spread, hlow, hfull, k, hget⟩

/-! ## A cell takes the place of the first tombstone -/

/-- A valid page with increasing keys. -/
def WellFormed (n : Node) : Prop := ValidPage n ∧ (keys n).Pairwise (· < ·)

/-- The same with the tombstones at hand, which can be computed. -/
def WellFormedWith (n : Node) (ts : List ℕ) : Prop :=
  Layout n n.size (offsets n) ts ∧ n.cellOffset < 2 ^ 32 ∧
    (∀ o ∈ offsets n ++ ts, n.cellOffset ≤ o) ∧ (keys n).Pairwise (· < ·)

instance : Decidable (WellFormedWith n ts) := inferInstanceAs (Decidable (_ ∧ _ ∧ _ ∧ _))

theorem WellFormedWith.wellFormed (h : WellFormedWith n ts) : WellFormed n :=
  ⟨⟨h.2.1, ts, h.1, h.2.2.1⟩, h.2.2.2⟩

/-- The next insert for a new entry is served by the first tombstone. -/
structure ServedByTombstone (n : Node) (key value : List UInt8) : Prop where
  absent : (⟨key⟩ : Key) ∉ keys n
  free : freeSpace n < newCellSize key.length value.length
  tombstone : n.tombstoneOffset ≠ 0
  fits : newCellSize key.length value.length ≤ cellTombstoneSize n n.tombstoneOffset

instance : Decidable (ServedByTombstone n key value) :=
  decidable_of_iff (_ ∧ _ ∧ _ ∧ _)
    ⟨fun ⟨a, f, t, s⟩ => ⟨a, f, t, s⟩, fun ⟨a, f, t, s⟩ => ⟨a, f, t, s⟩⟩

theorem keyCompare_eq_zero {a b : List UInt8} (ha : a.length < 2 ^ 32) (hb : b.length < 2 ^ 32)
    (h : keyCompare a b = 0) : a = b := by
  unfold keyCompare at h
  split_ifs at h with hc
  · have hlen : a.length = b.length := by
      simp only [toInt32, sub32, u32] at h
      split_ifs at h <;> omega
    rcases memcmp_spec a b with ⟨hneg, -⟩ | ⟨hpos, -⟩ | ⟨-, hlt, hgt⟩
    · exact absurd hc hneg.ne
    · exact absurd hc hpos.ne'
    · refine rank_injective (le_antisymm (not_lt.mp fun h => ?_) (not_lt.mp fun h => ?_))
      · exact absurd (hgt.mp h) (by omega)
      · exact absurd (hlt.mp h) (by omega)
  · exact absurd h hc

/-- The search does not find a key that is not there. -/
theorem Layout.search_absent (h : Layout n n.size (offsets n) ts) (hkey : key.length < 2 ^ 32)
    (habsent : (⟨key⟩ : Key) ∉ keys n) :
    ∃ idx, nodeBinSearch n key = .ok (false, idx) ∧ idx ≤ n.size := by
  have hslots := h.slots_le
  simp only [slotOffset, sizeofNode, nodeSize] at hslots
  obtain ⟨found, idx, hs⟩ : ∃ found idx, nodeBinSearch n key = .ok (found, idx) :=
    nodeBinSearch_isOk (by omega)
  rcases nodeBinSearch_spec hs (by omega) with ⟨-, hlt, hc⟩ | ⟨rfl, hle, -⟩
  · have hlen : (keyAt n idx).length < 2 ^ 32 := by
      have hsize := h.keySize_lt (mem_offsets hlt)
      rw [keyAt, length_cellGetKey]
      simp only [nodeSize] at hsize
      omega
    exact absurd (mem_keys.mpr ⟨idx, hlt, keyCompare_eq_zero hlen hkey hc⟩) habsent
  · exact ⟨idx, hs, hle⟩

/-- An entry that goes where the search missed it keeps the keys increasing. -/
theorem Layout.enter_sorted (h : Layout n n.size (offsets n) ts)
    (hsort : (keys n).Pairwise (· < ·)) (hkey : key.length < 2 ^ 31)
    (hs : nodeBinSearch n key = .ok (false, idx))
    (hentries : leafEntries m =
      (leafEntries n).take idx ++ (⟨key⟩, value) :: (leafEntries n).drop idx) :
    (keys m).Pairwise (· < ·) := by
  have hkeys : keys m = (keys n).take idx ++ ⟨key⟩ :: (keys n).drop idx := by
    rw [← leafEntries_keys, hentries, List.map_append, List.map_cons, List.map_take,
      List.map_drop, leafEntries_keys]
  rcases h.search hsort hkey hs with ⟨hf, -⟩ | ⟨-, -, hleft, hright⟩
  · cases hf
  · rw [hkeys]
    refine pairwise_insert ?_ hleft hright
    rwa [List.take_append_drop]

/-- A well-formed leaf takes a new key in the place of its first tombstone and
is well-formed again exactly when that is its lowest block and the sizes add up
without wrapping. -/
theorem reuse_wellFormed_iff (h : WellFormed n) (hleaf : n.leaf = true)
    (hslot : slotOffset n.size + 4 ≤ n.cellOffset) (hkey : key.length < 2 ^ 32)
    (hserved : ServedByTombstone n key value) :
    ∃ idx, nodeBinSearch n key = .ok (false, idx) ∧
      ((∃ m, nodeInsertNonfull n idx key value = .ok m ∧ WellFormed m) ↔
        key.length + value.length < 2 ^ 31 ∧
          ∀ ts, Chain n.body n.tombstoneOffset ts →
            ∀ o ∈ offsets n ++ ts, n.tombstoneOffset ≤ o) := by
  obtain ⟨hvalid, hsort⟩ := h
  obtain ⟨habsent, hfree, htomb, hfit⟩ := hserved
  obtain ⟨hlt, ts, hlayout, hlow⟩ := id hvalid
  obtain ⟨idx, hs, hidx⟩ := hlayout.search_absent hkey habsent
  refine ⟨idx, hs, ?_⟩
  have hmem : n.tombstoneOffset ∈ ts := by
    cases ts with
    | nil => exact absurd hlayout.chain htomb
    | cons t ts => exact hlayout.chain.1 ▸ List.mem_cons_self
  have hin := hlayout.tombstone_inside hmem
  have hstart : n.cellOffset ≤ n.tombstoneOffset := hlow _ (List.mem_append_right _ hmem)
  have hplaced : PlacedLow n key.length value.length ↔ ∀ ts, Chain n.body n.tombstoneOffset ts →
      ∀ o ∈ offsets n ++ ts, n.tombstoneOffset ≤ o :=
    ⟨fun hp => hp.resolve_left (not_le.mpr hfree), .inr⟩
  obtain ⟨k, htake⟩ := takeTombstone_isOk hin hfit
  have hget : nodeGetFreeOffset n key.length value.length = .ok (k, n.tombstoneOffset) := by
    simp only [nodeGetFreeOffset]
    rw [if_pos hfree, if_pos ⟨htomb, hfit⟩, htake]
    rfl
  have hnonfull : nodeInsertNonfull n idx key value =
      nodeInsertLeafCell k n.tombstoneOffset idx key value := by
    simp only [nodeInsertNonfull, hget]
    rfl
  have hapart : Apart (n.tombstoneOffset, (leafCell key value).length)
      (slotArray (n.size + 1)) := by
    refine .inr ?_
    simp only [slotArray, slotOffset] at hslot ⊢
    omega
  rw [hnonfull, ← hplaced]
  constructor
  · rintro ⟨m, hins, hm, -⟩
    -- the whole cell is written inside the page
    have hcell := (nodeInsertCell_inside hins).2
    rw [length_leafCell] at hcell
    simp only [nodeSize, sizeofCell] at hcell
    have hsize : key.length + value.length < 2 ^ 31 := by omega
    refine ⟨hsize, ?_⟩
    by_contra hp
    exact (hvalid.enter hleaf hidx hget (Nat.pos_of_ne_zero htomb) hins hapart hsize).2 hp hm
  · rintro ⟨hsize, hp⟩
    have hneed := newCellSize_eq hsize
    have hk := nodeGetFreeOffset_size hget
    have hextent : n.tombstoneOffset + cellTombstoneSize n n.tombstoneOffset ≤ nodeSize := by
      have hend := hin.2
      simp only [tombstoneExtent] at hend
      omega
    have hcell : Inside (n.tombstoneOffset, (leafCell key value).length) := by
      refine ⟨hin.1, ?_⟩
      rw [length_leafCell]
      simp only
      omega
    have hslots : Inside (slotArray (k.size + 1)) := by
      have hend := hin.2
      refine ⟨le_rfl, ?_⟩
      rw [hk]
      simp only [slotArray, slotOffset, tombstoneExtent] at hslot hend ⊢
      omega
    obtain ⟨m, hins, -⟩ := nodeInsertCell_isOk (hk ▸ hidx) hslots hcell (hk ▸ hapart)
    obtain ⟨hm, -, hentries⟩ :=
      (hvalid.enter hleaf hidx hget (Nat.pos_of_ne_zero htomb) hins hapart hsize).1 hp
    exact ⟨m, hins, hm, hlayout.enter_sorted hsort (by omega) hs hentries⟩

/-- After ascending inserts the first tombstone is the lowest block. -/
theorem reuse_wellFormed_iff_ascending : ∃ t idx m, Inserted t ∧ WellFormed (t.node 1) ∧
    nodeBinSearch (t.node 1) [0] = .ok (false, idx) ∧
    nodeInsertNonfull (t.node 1) idx [0] (List.replicate 983 0) = .ok m ∧ WellFormed m := by
  obtain ⟨t, ht, hwell, hleaf, hslot, hserved, hfirst⟩ := exists_inserted
    ([1, 2, 3, 4, 5].map fun k => ([k], List.replicate 983 k))
    (fun t => WellFormedWith (t.node 1) [cellPtr (t.node 1) 3, cellPtr (t.node 1) 2] ∧
      (t.node 1).leaf = true ∧ slotOffset (t.node 1).size + 4 ≤ (t.node 1).cellOffset ∧
      ServedByTombstone (t.node 1) [0] (List.replicate 983 0) ∧
      ∀ o ∈ offsets (t.node 1) ++ [cellPtr (t.node 1) 3, cellPtr (t.node 1) 2],
        (t.node 1).tombstoneOffset ≤ o)
    (by decide +kernel)
  obtain ⟨idx, hs, hiff⟩ := reuse_wellFormed_iff hwell.wellFormed hleaf hslot (by decide)
    hserved
  obtain ⟨m, hins, hm⟩ := hiff.mpr ⟨by rw [List.length_replicate]; decide, fun ts hts => by
    rw [hts.unique hwell.1.chain]
    exact hfirst⟩
  exact ⟨t, idx, m, ht, hwell.wellFormed, hs, hins, hm⟩

/-- After descending inserts the first tombstone is the highest block: the cell
that takes its place leaves `cell_offset` above a live cell. -/
theorem cell_offset_above_live_cell : ∃ t m, Inserted t ∧ WellFormed (t.node 1) ∧
    (t.node 1).leaf = true ∧ slotOffset (t.node 1).size + 4 ≤ (t.node 1).cellOffset ∧
    ServedByTombstone (t.node 1) [1] (List.replicate 983 1) ∧
    nodeBinSearch (t.node 1) [1] = .ok (false, 0) ∧
    nodeInsertNonfull (t.node 1) 0 [1] (List.replicate 983 1) = .ok m ∧
    (∃ o ∈ offsets m, o < m.cellOffset) ∧ ¬ WellFormed m := by
  obtain ⟨t, ht, hwell, hleaf, hslot, hserved, hs, hins⟩ := exists_inserted
    ([5, 4, 3, 2, 6].map fun k => ([k], List.replicate 983 k))
    (fun t => WellFormedWith (t.node 1) [cellPtr (t.node 1) 3, cellPtr (t.node 1) 2] ∧
      (t.node 1).leaf = true ∧ slotOffset (t.node 1).size + 4 ≤ (t.node 1).cellOffset ∧
      ServedByTombstone (t.node 1) [1] (List.replicate 983 1) ∧
      nodeBinSearch (t.node 1) [1] = .ok (false, 0) ∧
      (nodeInsertNonfull (t.node 1) 0 [1] (List.replicate 983 1)).toOption.any fun m =>
        decide (∃ o ∈ offsets m, o < m.cellOffset))
    (by decide +kernel)
  obtain ⟨m, hins, hm⟩ := exists_ok_of_any hins
  obtain ⟨o, ho, hlt⟩ := of_decide_eq_true hm
  refine ⟨t, m, ht, hwell.wellFormed, hleaf, hslot, hserved, hs, hins, ⟨o, ho, hlt⟩, ?_⟩
  rintro ⟨⟨-, ts, -, hlow⟩, -⟩
  exact absurd (hlow o (List.mem_append_left _ ho)) (not_le.mpr hlt)

end IoScheduler
