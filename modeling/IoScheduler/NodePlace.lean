import IoScheduler.NodeInsert

/-!
# Finding a place for a cell

`node_get_free_offset` takes the place of a cell from below `cell_offset` or
from the first tombstone, and the writers store the offset in `cell_offset` in
both cases. A valid page stays valid exactly when the place is below every
other block of the page: always in the first case, and in the second only when
the first tombstone is the lowest block.
-/
namespace IoScheduler
open Machine Bytes SearchTree

/-- A laid out page whose `cell_offset` is at most the offset of every live cell
and tombstone. -/
def ValidPage (n : Node) : Prop :=
  n.cellOffset < 2 ^ 32 ∧
    ∃ ts, Layout n n.size (offsets n) ts ∧ ∀ o ∈ offsets n ++ ts, n.cellOffset ≤ o

variable {n k m : Node} {off idx need keySize valueSize t pid slots : ℕ} {os ts us : List ℕ}
  {bytes : List UInt8}

theorem Layout.congr (h : Layout n slots os ts)
    (hoff : m.tombstoneOffset = n.tombstoneOffset)
    (hos : ∀ o ∈ os, cellExtent m o = cellExtent n o ∧ Whole m o)
    (hts : ∀ t ∈ ts, Agree n.body m.body t 8) : Layout m slots os ts := by
  have hblocks : blocks m os ts = blocks n os ts := by
    rw [blocks, blocks, List.map_congr_left fun o ho => (hos o ho).1,
      List.map_congr_left fun t ht => tombstoneExtent_congr (hts t ht)]
  refine ⟨?_, hblocks ▸ h.inside, hblocks ▸ h.apart, fun o ho => (hos o ho).2⟩
  rw [hoff]
  exact h.chain.congr hts

/-- The header of a tombstone is a part of it. -/
theorem tombstone_header : Within (t, 8) (tombstoneExtent n t) :=
  ⟨le_rfl, Nat.add_le_add_left (le_max_left _ _) t⟩

theorem cell_header : Within (t, 8) (cellExtent n t) :=
  ⟨le_rfl, by simp only [cellExtent, sizeofCell]; omega⟩

/-! ## Replacing a child pointer -/

theorem nodeSetPid_eq_ok (h : nodeSetPid n idx pid = .ok m) :
    Inside (cellPtr n idx, 8) ∧
      ∃ c, m = { n with body := store n.body (cellPtr n idx) (bytes64 pid), clash := c } := by
  simp only [nodeSetPid, Node.write_eq_ok, length_bytes64] at h
  exact ⟨h.1, _, h.2⟩

theorem nodeSetPid_clash (h : nodeSetPid n idx pid = .ok m) (hm : m.clash = false) :
    n.clash = false ∧ Apart (cellPtr n idx, 8) (slotArray n.size) ∧ ∀ i < n.size, i ≠ idx →
      Apart (cellPtr n idx, 8) (cellExtent n (cellPtr n i)) := by
  simp only [nodeSetPid, Node.write_eq_ok] at h
  obtain ⟨-, rfl⟩ := h
  obtain ⟨hn, hslots, hcells⟩ := watch_clash.mp hm
  exact ⟨hn, hslots, fun i hi hne => hcells i
    (List.mem_filter.mpr ⟨List.mem_range.mpr hi, decide_eq_true hne⟩)⟩

/-- A child pointer is replaced in its own cell. -/
theorem Layout.setPid (h : Layout n n.size (offsets n) ts) (hidx : idx < n.size)
    (hleaf : n.leaf = false) (hset : nodeSetPid n idx pid = .ok m) (hpid : pid < 2 ^ 64) :
    Layout m m.size (offsets m) ts ∧ offsets m = offsets n ∧
      (∀ o ∈ (offsets n).take idx ++ (offsets n).drop (idx + 1), Kept n m o) ∧
      cellGetKey m (cellPtr n idx) = cellGetKey n (cellPtr n idx) ∧
      cellPid m (cellPtr n idx) = pid := by
  obtain ⟨-, c, rfl⟩ := nodeSetPid_eq_ok hset
  set o := cellPtr n idx with ho
  have hmem : o ∈ offsets n := mem_offsets hidx
  have hwhole : Whole n o := h.whole o hmem
  have hagree : ∀ x : ℕ × ℕ, Apart (o, 8) x →
      Agree n.body (store n.body o (bytes64 pid)) x.1 x.2 := fun x hx => by
    have hapart : Apart x (o, (bytes64 pid).length) := by rw [length_bytes64]; exact hx.symm
    exact agree_store hapart
  have hcell : ∀ x : ℕ × ℕ, Apart (cellExtent n o) x →
      Agree n.body (store n.body o (bytes64 pid)) x.1 x.2 := fun x hx =>
    hagree x (hx.mono_left cell_header)
  have hslots : offsets { n with body := store n.body o (bytes64 pid), clash := c } =
      offsets n :=
    offsets_congr rfl (hcell _ (h.slots_apart
      (List.mem_append_left _ (List.mem_map_of_mem hmem))).symm)
  have hcells := (List.pairwise_append.mp h.blocks_apart).1
  rw [offsets_split hidx, List.map_append, List.map_cons, List.pairwise_append,
    List.pairwise_cons] at hcells
  have hkept : ∀ x ∈ (offsets n).take idx ++ (offsets n).drop (idx + 1),
      Kept n { n with body := store n.body o (bytes64 pid), clash := c } x := by
    intro x hx
    refine hcell (cellExtent n x) ?_
    rcases List.mem_append.mp hx with hx | hx
    · exact (hcells.2.2 _ (List.mem_map_of_mem hx) _ List.mem_cons_self).symm
    · exact hcells.2.1.1 _ (List.mem_map_of_mem hx)
  -- the sizes and the key of the cell lie behind its pid
  have htail : Agree n.body (store n.body o (bytes64 pid)) (o + 8) (8 + cellTotalSize n o) :=
    hagree (o + 8, 8 + cellTotalSize n o) (.inl le_rfl)
  have hkeySize : load32 (store n.body o (bytes64 pid)) (o + 8) = cellKeySize n o :=
    htail.load32_eq le_rfl (by omega)
  have htotal : load32 (store n.body o (bytes64 pid)) (o + 12) = cellTotalSize n o :=
    htail.load32_eq (by omega) (by omega)
  have hself : load (store n.body o (bytes64 pid)) o (bytes64 pid).length = bytes64 pid :=
    load_store_self
  refine ⟨?_, hslots, hkept, ?_, ?_⟩
  · rw [hslots]
    refine h.congr rfl (fun x hx => ?_) fun t ht => ?_
    · rw [offsets_split hidx, ← ho] at hx
      rcases List.mem_append.mp hx with hx | hx
      · have hk := hkept x (List.mem_append_left _ hx)
        exact ⟨hk.extent, hk.whole rfl (h.whole x (List.mem_of_mem_take hx))⟩
      · rcases List.mem_cons.mp hx with rfl | hx
        · refine ⟨congrArg (fun s => (o, sizeofCell + s)) htotal, ?_⟩
          simp only [Whole, hleaf, Bool.false_eq_true, if_false, Nat.add_zero] at hwhole ⊢
          exact htotal.trans (hwhole.trans hkeySize.symm)
        · have hk := hkept x (List.mem_append_right _ hx)
          exact ⟨hk.extent, hk.whole rfl (h.whole x (List.mem_of_mem_drop hx))⟩
    · exact hcell (t, 8) ((h.cell_tombstone_apart hmem ht).mono tombstone_header)
  · have hle := hwhole.keySize_le
    rw [cellGetKey, cellGetKey]
    change load _ _ (load32 (store n.body o (bytes64 pid)) (o + 8)) = _
    rw [hkeySize]
    exact (htail.mono (by simp only [sizeofCell]; omega)
      (by simp only [sizeofCell]; omega)).load_eq
  · rw [length_bytes64] at hself
    change word (load (store n.body o (bytes64 pid)) o 8) = pid
    rw [hself, bytes64, word_bytesOf (by omega)]

/-! ## The place -/

theorem nodeGetFreeOffset_eq_ok (h : nodeGetFreeOffset n keySize valueSize = .ok (k, off))
    (hoff : 0 < off) :
    (newCellSize keySize valueSize ≤ freeSpace n ∧ k = n ∧
      off = sub32 n.cellOffset (newCellSize keySize valueSize)) ∨
    (freeSpace n < newCellSize keySize valueSize ∧ off = n.tombstoneOffset ∧
      newCellSize keySize valueSize ≤ cellTombstoneSize n off ∧
        takeTombstone n (newCellSize keySize valueSize) = .ok k) := by
  simp only [nodeGetFreeOffset] at h
  split_ifs at h with hfree htomb
  · obtain ⟨_, hk, h⟩ := bind_eq_ok.mp h
    obtain ⟨rfl, rfl⟩ := Prod.mk.inj (Except.ok.inj h)
    exact .inr ⟨hfree, rfl, htomb.2, hk⟩
  · obtain ⟨-, rfl⟩ := Prod.mk.inj (Except.ok.inj h)
    exact absurd hoff (Nat.lt_irrefl 0)
  · obtain ⟨rfl, rfl⟩ := Prod.mk.inj (Except.ok.inj h)
    exact .inl ⟨not_lt.mp hfree, rfl, rfl⟩

theorem nodeGetFreeOffset_size (h : nodeGetFreeOffset n keySize valueSize = .ok (k, off)) :
    k.size = n.size := by
  simp only [nodeGetFreeOffset] at h
  split_ifs at h
  · obtain ⟨_, hk, h⟩ := bind_eq_ok.mp h
    obtain ⟨rfl, -⟩ := Prod.mk.inj (Except.ok.inj h)
    simp only [takeTombstone] at hk
    split_ifs at hk
    · simp only [bind_eq_ok, Node.write_eq_ok] at hk
      obtain ⟨_, ⟨-, rfl⟩, hk⟩ := hk
      rw [← Except.ok.inj hk]
      rfl
    · rw [← Except.ok.inj hk]
  · rw [← (Prod.mk.inj (Except.ok.inj h)).1]
  · rw [← (Prod.mk.inj (Except.ok.inj h)).1]

/-- The header of a tombstone as it is written. -/
theorem tombstone_read (b : ℕ → UInt8) (off : ℕ) {size next : ℕ} (hsize : size < 2 ^ 32)
    (hnext : next < 2 ^ 32) :
    load32 (store b off (bytes32 size ++ bytes32 next)) off = size ∧
      load32 (store b off (bytes32 size ++ bytes32 next)) (off + 4) = next := by
  have hself : load (store b off (bytes32 size ++ bytes32 next)) off
      (bytes32 size ++ bytes32 next).length = bytes32 size ++ bytes32 next := load_store_self
  exact ⟨load32_part [] _ hself rfl rfl hsize,
    load32_part (bytes32 size) [] hself (by rw [List.append_nil]) (by rw [length_bytes32]) hnext⟩

/-- What taking the first tombstone does to a page: it changes nothing outside
the tombstone, whose rest may become a tombstone in front of the others. -/
structure TombstoneTaken (n k : Node) (need : ℕ) : Prop where
  size : k.size = n.size
  leaf : k.leaf = n.leaf
  root : k.root = n.root
  rightmostPid : k.rightmostPid = n.rightmostPid
  parentPid : k.parentPid = n.parentPid
  slotClash : k.slotClash = n.slotClash
  bytes : k.tombstoneBytes = sub32 n.tombstoneBytes need
  agree : ∀ x : ℕ × ℕ, Apart x (n.tombstoneOffset, cellTombstoneSize n n.tombstoneOffset) →
    Agree n.body k.body x.1 x.2
  rest : (cellTombstoneSize n n.tombstoneOffset - need ≤ sizeofCell ∧
      k.tombstoneOffset = cellNextOff n n.tombstoneOffset) ∨
    sizeofCell < cellTombstoneSize n n.tombstoneOffset - need ∧
      k.tombstoneOffset = n.tombstoneOffset + need ∧ k.tombstoneOffset ≠ 0 ∧
      cellNextOff k k.tombstoneOffset = cellNextOff n n.tombstoneOffset ∧
      cellTombstoneSize k k.tombstoneOffset =
        cellTombstoneSize n n.tombstoneOffset - need - sizeofCell

theorem takeTombstone_spec (h : takeTombstone n need = .ok k)
    (hneed : need ≤ cellTombstoneSize n n.tombstoneOffset) : TombstoneTaken n k need := by
  have hsize : cellTombstoneSize n n.tombstoneOffset < 2 ^ 32 := load32_lt
  have hnext : cellNextOff n n.tombstoneOffset < 2 ^ 32 := load32_lt
  have hdiff : sub32 (cellTombstoneSize n n.tombstoneOffset) need =
      cellTombstoneSize n n.tombstoneOffset - need := sub32_of_le hsize hneed
  simp only [takeTombstone, hdiff] at h
  split_ifs at h with hrest
  · simp only [bind_eq_ok, Node.write_eq_ok] at h
    obtain ⟨_, ⟨hin, rfl⟩, h⟩ := h
    simp only [List.length_append, length_bytes32, Inside, sizeofNode, nodeSize] at hin
    have hoff : u32 (n.tombstoneOffset + need) = n.tombstoneOffset + need := u32_of_lt (by omega)
    obtain ⟨c, hk⟩ : ∃ c, k = { n with
        body := store n.body (n.tombstoneOffset + need)
          (bytes32 (cellTombstoneSize n n.tombstoneOffset - need - sizeofCell) ++
            bytes32 (cellNextOff n n.tombstoneOffset))
        tombstoneOffset := n.tombstoneOffset + need
        tombstoneBytes := sub32 n.tombstoneBytes need
        clash := c } := by
      rw [← Except.ok.inj h, hoff]
      exact ⟨_, rfl⟩
    obtain ⟨hsizeRead, hnextRead⟩ := tombstone_read n.body (n.tombstoneOffset + need)
      (show cellTombstoneSize n n.tombstoneOffset - need - sizeofCell < 2 ^ 32 by omega) hnext
    subst hk
    refine ⟨rfl, rfl, rfl, rfl, rfl, rfl, rfl, fun x hx => agree_store (hx.mono ⟨?_, ?_⟩), .inr
      ⟨hrest, rfl, ?_, hnextRead, hsizeRead⟩⟩
    · exact Nat.le_add_right _ _
    · simp only [List.length_append, length_bytes32, sizeofCell] at hrest ⊢
      omega
    · exact ne_of_gt (show 0 < n.tombstoneOffset + need by omega)
  · obtain rfl := Except.ok.inj h
    exact ⟨rfl, rfl, rfl, rfl, rfl, rfl, rfl, fun _ _ => .rfl, .inl ⟨not_lt.mp hrest, rfl⟩⟩

/-- The first tombstone can be taken when it is large enough. -/
theorem takeTombstone_isOk (hin : Inside (tombstoneExtent n n.tombstoneOffset))
    (hneed : need ≤ cellTombstoneSize n n.tombstoneOffset) :
    ∃ k, takeTombstone n need = .ok k := by
  have hsize : cellTombstoneSize n n.tombstoneOffset < 2 ^ 32 := load32_lt
  have hdiff : sub32 (cellTombstoneSize n n.tombstoneOffset) need =
      cellTombstoneSize n n.tombstoneOffset - need := sub32_of_le hsize hneed
  simp only [takeTombstone, hdiff]
  split_ifs with hrest
  · have hheader : Inside (n.tombstoneOffset + need,
        (bytes32 (cellTombstoneSize n n.tombstoneOffset - need - sizeofCell) ++
          bytes32 (cellNextOff n n.tombstoneOffset)).length) := by
      have hmax := le_max_right 8 (cellTombstoneSize n n.tombstoneOffset)
      simp only [Inside, tombstoneExtent, sizeofCell] at hin hrest ⊢
      simp only [List.length_append, length_bytes32]
      omega
    simp only [Node.write_ok hheader]
    exact ⟨_, rfl⟩
  · exact ⟨_, rfl⟩

/-- Cells and chained tombstones apart in a page, wherever its slots lie. -/
structure BlocksApart (n : Node) (os ts : List ℕ) : Prop where
  chain : Chain n.body n.tombstoneOffset ts
  inside : ∀ x ∈ blocks n os ts, Inside x
  apart : (blocks n os ts).Pairwise Apart

theorem Layout.toBlocksApart (h : Layout n slots os ts) : BlocksApart n os ts :=
  ⟨h.chain, fun x hx => h.inside x (List.mem_cons_of_mem _ hx), h.blocks_apart⟩

/-- The tombstone left of one lies in its rest. -/
theorem tombstoneExtent_rest (hlarge : sizeofCell < cellTombstoneSize n t - need)
    (hleft : cellTombstoneSize k (t + need) = cellTombstoneSize n t - need - sizeofCell) :
    Within (tombstoneExtent k (t + need)) (t + need, cellTombstoneSize n t - need) := by
  refine ⟨le_rfl, Nat.add_le_add_left (max_le ?_ ?_) _⟩
  · simp only [sizeofCell] at hlarge
    omega
  · exact hleft.trans_le (Nat.sub_le _ _)

/-- Taking the first tombstone frees the place taken: the rest of the tombstone
is a part of what is behind it. -/
theorem BlocksApart.taken (h : BlocksApart n os (t :: ts)) (hk : TombstoneTaken n k need)
    (hneed : need ≤ cellTombstoneSize n t) :
    ∃ us, BlocksApart k os us ∧ (∀ o ∈ os, Kept n k o) ∧
      (∀ x ∈ ts, Agree n.body k.body x 8) ∧
      ((cellTombstoneSize n t - need ≤ sizeofCell ∧ us = ts) ∨
        sizeofCell < cellTombstoneSize n t - need ∧ us = (t + need) :: ts ∧
          cellTombstoneSize k (t + need) = cellTombstoneSize n t - need - sizeofCell) ∧
      (∀ x ∈ blocks k os us, Apart (t, need) x) ∧
      ∀ x ∈ blocks k os us, ∃ y ∈ blocks n os (t :: ts), Within x y := by
  obtain ⟨hhead, hne, hchain⟩ := h.chain
  have hblocks := h.apart
  have hsplit : blocks n os (t :: ts) =
      os.map (cellExtent n) ++ tombstoneExtent n t :: ts.map (tombstoneExtent n) := rfl
  have hwithin : Within (t, cellTombstoneSize n t) (tombstoneExtent n t) :=
    ⟨le_rfl, Nat.add_le_add_left (le_max_right _ _) t⟩
  have hagree : ∀ x : ℕ × ℕ, Apart x (tombstoneExtent n t) → Agree n.body k.body x.1 x.2 :=
    fun x hx => hk.agree x (by rw [hhead]; exact hx.mono hwithin)
  rw [hsplit, List.pairwise_append, List.pairwise_cons] at hblocks
  have hcells : ∀ o ∈ os, Apart (cellExtent n o) (tombstoneExtent n t) := fun o ho =>
    hblocks.2.2 _ (List.mem_map_of_mem ho) _ List.mem_cons_self
  have htail : ∀ x ∈ ts, Apart (tombstoneExtent n t) (tombstoneExtent n x) := fun x hx =>
    hblocks.2.1.1 _ (List.mem_map_of_mem hx)
  have hkept : ∀ o ∈ os, Kept n k o := fun o ho => hagree _ (hcells o ho)
  have hheaders : ∀ x ∈ ts, Agree n.body k.body x 8 := fun x hx =>
    hagree (x, 8) ((htail x hx).symm.mono_left tombstone_header)
  have hsame : blocks k os ts = blocks n os ts := blocks_congr hkept hheaders
  have hchain' : Chain k.body (cellNextOff n t) ts := hchain.congr hheaders
  have hplace : ∀ x ∈ blocks n os ts, Apart (t, need) x := by
    intro x hx
    have hpart : Within (t, need) (tombstoneExtent n t) :=
      ⟨le_rfl, Nat.add_le_add_left (hneed.trans (le_max_right _ _)) t⟩
    rcases List.mem_append.mp hx with hx | hx
    · obtain ⟨o, ho, rfl⟩ := List.mem_map.mp hx
      exact (hcells o ho).symm.mono_left hpart
    · obtain ⟨y, hy, rfl⟩ := List.mem_map.mp hx
      exact (htail y hy).mono_left hpart
  have hsub : (blocks n os ts).Sublist (blocks n os (t :: ts)) :=
    List.Sublist.append_left (List.sublist_cons_self _ _) _
  have hrests := hk.rest
  rw [hhead] at hrests
  rcases hrests with ⟨hsmall, hrest⟩ | ⟨hlarge, hrest, hnz, hnext, hleft⟩
  · refine ⟨ts, ⟨?_, ?_, ?_⟩, hkept, hheaders, .inl ⟨hsmall, rfl⟩, ?_, ?_⟩
    · rw [hrest]
      exact hchain'
    · rw [hsame]
      exact fun x hx => h.inside x (hsub.subset hx)
    · rw [hsame]
      exact h.apart.sublist hsub
    · rwa [hsame]
    · rw [hsame]
      exact fun x hx => ⟨x, hsub.subset hx, le_rfl, le_rfl⟩
  · rw [hrest] at hnz hnext hleft
    have hpart := tombstoneExtent_rest hlarge hleft
    have hrestBlocks : blocks k os ((t + need) :: ts) =
        os.map (cellExtent n) ++ tombstoneExtent k (t + need) ::
          ts.map (tombstoneExtent n) := by
      have hb := hsame
      rw [blocks, blocks] at hb
      obtain ⟨hc, ht⟩ := List.append_inj' hb (by rw [List.length_map, List.length_map])
      rw [blocks, List.map_cons, hc, ht]
    have hrestWithin : Within (tombstoneExtent k (t + need)) (tombstoneExtent n t) := by
      refine ⟨(Nat.le_add_right _ _).trans hpart.1, hpart.2.trans ?_⟩
      have hmax : cellTombstoneSize n t ≤ (tombstoneExtent n t).2 := le_max_right _ _
      simp only [tombstoneExtent] at hmax ⊢
      omega
    have hold : ∀ x ∈ blocks k os ((t + need) :: ts),
        ∃ y ∈ blocks n os (t :: ts), Within x y := by
      rw [hrestBlocks, hsplit]
      intro x hx
      rcases List.mem_append.mp hx with hx | hx
      · exact ⟨x, List.mem_append_left _ hx, le_rfl, le_rfl⟩
      · rcases List.mem_cons.mp hx with rfl | hx
        · exact ⟨_, List.mem_append_right _ List.mem_cons_self, hrestWithin⟩
        · exact ⟨x, List.mem_append_right _ (List.mem_cons_of_mem _ hx), le_rfl, le_rfl⟩
    refine ⟨(t + need) :: ts, ⟨⟨hrest, hnz, ?_⟩, fun x hx => ?_, ?_⟩, hkept, hheaders,
      .inr ⟨hlarge, rfl, hleft⟩, ?_, hold⟩
    · rw [show load32 k.body (t + need + 4) = cellNextOff n t from hnext]
      exact hchain'
    · obtain ⟨y, hy, hxy⟩ := hold x hx
      have hin := h.inside y hy
      exact ⟨hin.1.trans hxy.1, hxy.2.trans hin.2⟩
    · rw [hrestBlocks]
      exact pairwise_apart_within h.apart hrestWithin
    · rw [hrestBlocks]
      intro x hx
      rcases List.mem_append.mp hx with hx | hx
      · exact hplace x (List.mem_append_left _ hx)
      · rcases List.mem_cons.mp hx with rfl | hx
        · exact .inl hpart.1
        · exact hplace x (List.mem_append_right _ hx)

/-- Taking the first tombstone leaves a laid out page. -/
theorem Layout.taken (h : Layout n n.size (offsets n) (t :: ts)) (hk : TombstoneTaken n k need)
    (hneed : need ≤ cellTombstoneSize n t) :
    ∃ us, Layout k k.size (offsets k) us ∧ offsets k = offsets n ∧
      (∀ o ∈ offsets n, Kept n k o) ∧ (∀ x ∈ ts, Agree n.body k.body x 8) ∧
      ((cellTombstoneSize n t - need ≤ sizeofCell ∧ us = ts) ∨
        sizeofCell < cellTombstoneSize n t - need ∧ us = (t + need) :: ts ∧
          cellTombstoneSize k (t + need) = cellTombstoneSize n t - need - sizeofCell) ∧
      ∀ x ∈ blocks k (offsets k) us, Apart (t, need) x := by
  obtain ⟨us, hblocks, hkept, hheaders, hus, hplace, hold⟩ := h.toBlocksApart.taken hk hneed
  obtain ⟨hhead, -, -⟩ := h.chain
  have hslots : offsets k = offsets n := by
    refine offsets_congr hk.size (hk.agree (slotArray n.size) ?_)
    rw [hhead]
    exact (h.slots_apart (List.mem_append_right _ List.mem_cons_self)).mono
      ⟨le_rfl, Nat.add_le_add_left (le_max_right _ _) t⟩
  have hslot : slotArray k.size = slotArray n.size := by rw [hk.size]
  refine ⟨us, ⟨hblocks.chain, ?_, ?_, ?_⟩, hslots, hkept, hheaders, hus, ?_⟩
  · rw [hslots, hslot]
    exact List.forall_mem_cons.mpr ⟨h.inside _ List.mem_cons_self, hblocks.inside⟩
  · rw [hslots, hslot]
    refine List.pairwise_cons.mpr ⟨fun x hx => ?_, hblocks.apart⟩
    obtain ⟨y, hy, hxy⟩ := hold x hx
    exact (h.slots_apart hy).mono hxy
  · rw [hslots]
    exact fun o ho => (hkept o ho).whole hk.leaf (h.whole o ho)
  · rwa [hslots]

/-! ## The page after an insertion -/

/-- How a page reads after a cell was entered in it. -/
structure CellAdded (n m : Node) (off idx : ℕ) (bytes : List UInt8) : Prop where
  leaf : m.leaf = n.leaf
  root : m.root = n.root
  rightmostPid : m.rightmostPid = n.rightmostPid
  parentPid : m.parentPid = n.parentPid
  size : m.size = n.size + 1
  offsets_eq : offsets m = (offsets n).take idx ++ off :: (offsets n).drop idx
  kept : ∀ o ∈ offsets n, Kept n m o
  loaded : load m.body off bytes.length = bytes

/-- Entering a cell in a free place below every block. -/
theorem Layout.insert_at (h : Layout n n.size (offsets n) ts) (hcell : IsCell n.leaf bytes)
    (hins : nodeInsertCell n off idx bytes = .ok m)
    (hapart : Apart (off, bytes.length) (slotArray (n.size + 1)))
    (hidx : idx ≤ n.size) (hoff : off < 2 ^ 32)
    (hfree : ∀ x ∈ blocks n (offsets n) ts, off + bytes.length ≤ x.1) :
    ValidPage m ∧ CellAdded n m off idx bytes := by
  have hspec := nodeInsertCell_spec hins hidx h.slots_le hoff hapart
  obtain ⟨hext, hwhole⟩ := hcell m off hspec.leaf hspec.loaded
  have hlen : sizeofCell + cellTotalSize m off = bytes.length := (Prod.mk.inj hext).2
  have hlow : slotOffset (n.size + 1) ≤ off := by
    have hin := hspec.inside.1
    simp only [Apart, slotArray, sizeofCell, slotOffset] at hapart hin hlen ⊢
    omega
  have habove : ∀ x : ℕ × ℕ, off + bytes.length ≤ x.1 → Agree n.body m.body x.1 x.2 := by
    intro x hx
    refine hspec.agree x (.inr ?_) (.inr hx)
    simp only [slotOffset] at hlow ⊢
    omega
  have hkept : ∀ o ∈ offsets n, Kept n m o := fun o ho =>
    habove (cellExtent n o) (hfree _ (List.mem_append_left _ (List.mem_map_of_mem ho)))
  have hheaders : ∀ t ∈ ts, Agree n.body m.body t 8 := fun t ht => by
    have hx : off + bytes.length ≤ (tombstoneExtent n t).1 :=
      hfree _ (List.mem_append_right _ (List.mem_map_of_mem ht))
    exact habove (t, 8) hx
  have htombs : ts.map (tombstoneExtent m) = ts.map (tombstoneExtent n) :=
    List.map_congr_left fun t ht => tombstoneExtent_congr (hheaders t ht)
  have hperm : (offsets m).Perm (off :: offsets n) := by
    rw [hspec.offsets_eq]
    refine List.perm_middle.trans (List.Perm.cons _ ?_)
    rw [List.take_append_drop]
  have hchain : Chain m.body m.tombstoneOffset ts := by
    rw [hspec.tombstoneOffset]
    exact h.chain.congr hheaders
  have hlayout : Layout m (n.size + 1) (offsets m) ts := by
    refine h.insert hkept hspec.leaf hwhole hext hperm hchain hspec.slots hspec.inside
      (fun t ht => ?_) hapart.symm (fun x hx => ?_) ?_
    · rw [tombstoneExtent_congr (hheaders t ht)]
      exact h.tombstone_inside ht
    · rw [htombs] at hx
      have hx := hfree x hx
      refine ⟨.inl ?_, .inl hx⟩
      simp only [slotArray, slotOffset] at hlow ⊢
      omega
    · rw [htombs]
      exact h.blocks_apart
  refine ⟨⟨hspec.cellOffset.trans_lt hoff, ts, hspec.size ▸ hlayout, fun o ho => ?_⟩,
    hspec.leaf, hspec.root, hspec.rightmostPid, hspec.parentPid, hspec.size, hspec.offsets_eq,
    hkept, hspec.loaded⟩
  rw [hspec.cellOffset]
  rcases List.mem_append.mp ho with ho | ho
  · rcases List.mem_cons.mp (hperm.mem_iff.mp ho) with rfl | ho
    · exact le_rfl
    · have hx := hfree _ (List.mem_append_left _ (List.mem_map_of_mem ho))
      exact (Nat.le_add_right _ _).trans hx
  · have hx := hfree _ (List.mem_append_right _ (List.mem_map_of_mem ho))
    exact (Nat.le_add_right _ _).trans hx

/-- The place found for a cell is below every live cell and tombstone: there is
room below `cell_offset`, or the first tombstone is the lowest block. -/
def PlacedLow (n : Node) (keySize valueSize : ℕ) : Prop :=
  newCellSize keySize valueSize ≤ freeSpace n ∨
    ∀ ts, Chain n.body n.tombstoneOffset ts → ∀ o ∈ offsets n ++ ts, n.tombstoneOffset ≤ o

theorem blocks_pos {x : ℕ × ℕ} (hx : x ∈ blocks n os ts) : 8 ≤ x.2 := by
  rcases List.mem_append.mp hx with hx | hx
  · obtain ⟨o, -, rfl⟩ := List.mem_map.mp hx
    simp only [cellExtent, sizeofCell]
    omega
  · obtain ⟨t, -, rfl⟩ := List.mem_map.mp hx
    exact le_max_left _ _

/-- An insertion placed below every block keeps the page valid. -/
theorem ValidPage.insert (h : ValidPage n)
    (hget : nodeGetFreeOffset n keySize valueSize = .ok (k, off)) (hoff : 0 < off)
    (hins : nodeInsertCell k off idx bytes = .ok m)
    (hapart : Apart (off, bytes.length) (slotArray (n.size + 1)))
    (hcell : IsCell n.leaf bytes) (hlen : bytes.length ≤ newCellSize keySize valueSize)
    (hneed : newCellSize keySize valueSize + nodeSize < 2 ^ 32) (hidx : idx ≤ n.size)
    (hlow : PlacedLow n keySize valueSize) : ValidPage m ∧ CellAdded n m off idx bytes := by
  obtain ⟨hlt, ts, hlayout, hts⟩ := h
  have hin := nodeInsertCell_inside hins
  rcases nodeGetFreeOffset_eq_ok hget hoff with ⟨-, rfl, rfl⟩ | ⟨hfree, rfl, hfit, htake⟩
  · have hle : newCellSize keySize valueSize ≤ k.cellOffset := by
      by_contra hgt
      have hend := hin.2
      simp only [sub32, u32, nodeSize] at hend hneed
      omega
    rw [sub32_of_le hlt hle] at hins hin hapart ⊢
    refine hlayout.insert_at hcell hins hapart hidx (by omega) fun x hx => ?_
    have hx : k.cellOffset ≤ x.1 := by
      rcases List.mem_append.mp hx with hx | hx
      · obtain ⟨o, ho, rfl⟩ := List.mem_map.mp hx
        exact hts o (List.mem_append_left _ ho)
      · obtain ⟨t, ht, rfl⟩ := List.mem_map.mp hx
        exact hts t (List.mem_append_right _ ht)
    omega
  · have hlowest := hlow.resolve_left (not_le.mpr hfree) ts hlayout.chain
    obtain ⟨t, ts, rfl⟩ := List.exists_cons_of_ne_nil (l := ts) fun hnil => by
      have hchain := hlayout.chain
      rw [hnil] at hchain
      exact absurd hchain hoff.ne'
    obtain ⟨hhead, -, -⟩ := hlayout.chain
    rw [hhead] at hfit hlowest hoff hin hins hapart ⊢
    have hk := takeTombstone_spec htake (hhead ▸ hfit)
    obtain ⟨us, hkl, hslots, hkept, -, hus, hplace⟩ := hlayout.taken hk hfit
    rw [← hk.size] at hapart
    have hleaf : IsCell k.leaf bytes := by rwa [hk.leaf]
    have hle : idx ≤ k.size := by rwa [hk.size]
    obtain ⟨hvalid, hadded⟩ := hkl.insert_at hleaf hins hapart hle
      (by simp only [Inside, nodeSize] at hin; omega) fun x hx => by
        have hpos := blocks_pos hx
        have hbelow : t ≤ x.1 := by
          rcases List.mem_append.mp hx with hx | hx
          · obtain ⟨o, ho, rfl⟩ := List.mem_map.mp hx
            rw [hslots] at ho
            exact hlowest o (List.mem_append_left _ ho)
          · obtain ⟨u, hu, rfl⟩ := List.mem_map.mp hx
            rcases hus with ⟨-, rfl⟩ | ⟨-, rfl, -⟩
            · exact hlowest u (List.mem_append_right _ (List.mem_cons_of_mem _ hu))
            · rcases List.mem_cons.mp hu with rfl | hu
              · exact Nat.le_add_right _ _
              · exact hlowest u (List.mem_append_right _ (List.mem_cons_of_mem _ hu))
        have hapart := hplace x hx
        simp only [Apart] at hapart
        omega
    refine ⟨hvalid, hadded.leaf.trans hk.leaf, hadded.root.trans hk.root,
      hadded.rightmostPid.trans hk.rightmostPid, hadded.parentPid.trans hk.parentPid, ?_, ?_,
      fun o ho => (hkept o ho).trans (hadded.kept o (by rwa [hslots])), hadded.loaded⟩
    · rw [hadded.size, hk.size]
    · rw [hadded.offsets_eq, hslots]

/-- An insertion placed above a block puts `cell_offset` above it. -/
theorem ValidPage.insert_high (h : ValidPage n)
    (hget : nodeGetFreeOffset n keySize valueSize = .ok (k, off)) (hoff : 0 < off)
    (hins : nodeInsertCell k off idx bytes = .ok m)
    (hapart : Apart (off, bytes.length) (slotArray (n.size + 1)))
    (hpos : 0 < bytes.length) (hlen : bytes.length ≤ newCellSize keySize valueSize)
    (hidx : idx ≤ n.size) (hhigh : ¬ PlacedLow n keySize valueSize) : ¬ ValidPage m := by
  obtain ⟨-, ts, hlayout, -⟩ := h
  obtain ⟨hfree, hblock⟩ := not_or.mp hhigh
  rcases nodeGetFreeOffset_eq_ok hget hoff with ⟨hroom, -⟩ | ⟨-, rfl, hfit, htake⟩
  · exact absurd hroom hfree
  obtain ⟨t, ts, rfl⟩ := List.exists_cons_of_ne_nil (l := ts) fun hnil => by
    have hchain := hlayout.chain
    rw [hnil] at hchain
    exact absurd hchain hoff.ne'
  obtain ⟨hhead, -, hchain⟩ := hlayout.chain
  rw [hhead] at hfit hoff hins hapart
  have hk := takeTombstone_spec htake (hhead ▸ hfit)
  obtain ⟨us, hkl, hslots, hkept, hheaders, hus, hplace⟩ := hlayout.taken hk hfit
  have hin := nodeInsertCell_inside hins
  rw [← hk.size] at hapart
  have hidxk : idx ≤ k.size := by rwa [hk.size]
  have hspec := nodeInsertCell_spec hins hidxk hkl.slots_le
    (by simp only [Inside, nodeSize] at hin; omega) hapart
  have hlow : slotOffset (k.size + 1) ≤ t := by
    have hstart := hin.1
    simp only [Apart, slotArray, slotOffset] at hapart hstart ⊢
    omega
  -- the page reads as before above the place taken and the slots
  have hagree : ∀ x : ℕ × ℕ, t ≤ x.1 → Apart (t, newCellSize keySize valueSize) x →
      Agree k.body m.body x.1 x.2 := by
    intro x hx hplace
    refine hspec.agree x (.inr ?_) (hplace.symm.mono ⟨le_rfl, Nat.add_le_add_left hlen t⟩)
    simp only [slotOffset] at hlow ⊢
    omega
  rintro ⟨-, vs, hvalid, hvs⟩
  rw [hspec.cellOffset] at hvs
  simp only [not_forall, not_le] at hblock
  obtain ⟨ts', hts', o, ho, hlt⟩ := hblock
  obtain rfl := hlayout.chain.unique hts'
  rw [hhead] at hlt
  rcases List.mem_append.mp ho with ho | ho
  · have hmem : o ∈ offsets m := by
      rw [hspec.offsets_eq, hslots]
      rw [← List.take_append_drop idx (offsets n)] at ho
      rcases List.mem_append.mp ho with ho | ho
      · exact List.mem_append_left _ ho
      · exact List.mem_append_right _ (List.mem_cons_of_mem _ ho)
    exact absurd (hvs o (List.mem_append_left _ hmem)) (not_le.mpr hlt)
  · have ho : o ∈ ts := (List.mem_cons.mp ho).resolve_left hlt.ne
    have hnm : ∀ u ∈ ts, t ≤ u → Agree n.body m.body u 8 := fun u hu hle => by
      have hmem : tombstoneExtent k u ∈ blocks k (offsets k) us := by
        refine List.mem_append_right _ (List.mem_map_of_mem ?_)
        rcases hus with ⟨-, rfl⟩ | ⟨-, rfl, -⟩
        · exact hu
        · exact List.mem_cons_of_mem _ hu
      exact (hheaders u hu).trans (hagree (u, 8) hle ((hplace _ hmem).mono tombstone_header))
    have hreach : ∀ ws, Chain m.body (cellNextOff n t) ws → ∃ x ∈ ws, x < t := fun ws hws =>
      hchain.reaches hws hnm ho hlt
    have hvchain := hvalid.chain
    rw [hspec.tombstoneOffset] at hvchain
    rcases hk.rest with ⟨-, hrest⟩ | ⟨-, hrest, hnz, hnext, -⟩
    · rw [hrest, hhead] at hvchain
      obtain ⟨x, hx, hxt⟩ := hreach vs hvchain
      exact absurd (hvs x (List.mem_append_right _ hx)) (not_le.mpr hxt)
    · rw [hrest] at hvchain hnz hnext
      rw [hhead] at hvchain hnz hnext
      cases vs with
      | nil => exact absurd hvchain hnz
      | cons v vs =>
          obtain ⟨rfl, -, hvtail⟩ := hvchain
          have hrem := hagree (t + newCellSize keySize valueSize, 8) (Nat.le_add_right _ _)
            (.inl le_rfl)
          rw [hrem.load32_eq (by omega) le_rfl,
            show load32 k.body (t + newCellSize keySize valueSize + 4) = cellNextOff n t from hnext]
            at hvtail
          obtain ⟨x, hx, hxt⟩ := hreach vs hvtail
          exact absurd (hvs x (List.mem_append_right _ (List.mem_cons_of_mem _ hx)))
            (not_le.mpr hxt)

end IoScheduler
