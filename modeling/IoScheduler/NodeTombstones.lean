import IoScheduler.NodeDelete

/-!
# The books of the tombstones

`node_get_free_offset` carves the first tombstone up without touching any other
block. `tombstone_bytes` is raised by the size of every cell that dies and
lowered by what a new cell asks for, while a rest loses the bytes of a header
and a small rest is dropped, so the total is the sum over the chain exactly as
long as every tombstone that is reused has the size asked for.
-/
namespace IoScheduler
open Machine Bytes SearchTree Transition

variable {n k m : Node} {idx off need keySize valueSize slots : ℕ} {os ts us : List ℕ}
  {key value bytes : List UInt8}

/-- What the place in the first tombstone leaves of the chain: its tail, or the
rest of the tombstone in front of its tail. -/
def RestOf (n k : Node) (t need : ℕ) (ts us : List ℕ) : Prop :=
  us = ts ∨ us = (t + need) :: ts ∧
    Within (tombstoneExtent k (t + need)) (t + need, cellTombstoneSize n t - need)

/-- The place taken from the first tombstone lies in it and is apart from
everything that is left. -/
theorem nodeGetFreeOffset_carves (h : BlocksApart n (offsets n) ts)
    (hsize : keySize + valueSize < 2 ^ 31) (hfree : freeSpace n < newCellSize keySize valueSize)
    (htomb : n.tombstoneOffset ≠ 0)
    (hfit : newCellSize keySize valueSize ≤ cellTombstoneSize n n.tombstoneOffset) :
    ∃ k t rest us, ts = t :: rest ∧ nodeGetFreeOffset n keySize valueSize = .ok (k, t) ∧
      newCellSize keySize valueSize = (sizeofCell + keySize + valueSize + 3) / 4 * 4 ∧
      Within (t, newCellSize keySize valueSize) (tombstoneExtent n t) ∧
      RestOf n k t (newCellSize keySize valueSize) rest us ∧
      (∀ x ∈ rest, Agree n.body k.body x 8) ∧ BlocksApart k (offsets n) us ∧
      (∀ x ∈ blocks k (offsets n) us, Apart (t, newCellSize keySize valueSize) x) ∧
      ∀ o ∈ offsets n, Kept n k o := by
  have hneed : newCellSize keySize valueSize = (sizeofCell + keySize + valueSize + 3) / 4 * 4 := by
    rw [newCellSize_eq hsize, Nat.add_comm (keySize + valueSize) sizeofCell, ← Nat.add_assoc]
  cases ts with
  | nil => exact absurd h.chain htomb
  | cons t rest =>
      have hhead : n.tombstoneOffset = t := h.chain.1
      have hin : Inside (tombstoneExtent n t) :=
        h.inside _ (List.mem_append_right _ List.mem_cons_self)
      rw [← hhead] at hin
      obtain ⟨k, htake⟩ := takeTombstone_isOk hin hfit
      have hget : nodeGetFreeOffset n keySize valueSize = .ok (k, n.tombstoneOffset) := by
        simp only [nodeGetFreeOffset]
        rw [if_pos hfree, if_pos ⟨htomb, hfit⟩, htake]
        rfl
      have hk := takeTombstone_spec htake hfit
      rw [hhead] at hget hfit
      obtain ⟨us, hblocks, hkept, hheaders, hus, hplace, -⟩ := h.taken hk hfit
      refine ⟨k, t, rest, us, rfl, hget, hneed, ⟨le_rfl, ?_⟩, ?_, hheaders, hblocks, hplace, hkept⟩
      · exact Nat.add_le_add_left (hfit.trans (le_max_right _ _)) t
      · rcases hus with ⟨-, rfl⟩ | ⟨hlarge, rfl, hleft⟩
        · exact .inl rfl
        · exact .inr ⟨rfl, tombstoneExtent_rest hlarge hleft⟩

/-- Two large entries and the deletion of the first: the next entry goes to the
start of the dead cell. -/
theorem nodeGetFreeOffset_carves_dead_cell : ∃ n k t us,
    nodeGetFreeOffset n 1 500 = .ok (k, t) ∧ cellTombstoneSize n t = 2017 ∧
    BlocksApart k (offsets n) us ∧ ∀ x ∈ blocks k (offsets n) us, Apart (t, 520) x := by
  have hpage : ∃ n, (do
      let n ← nodeInsertNonfull (nodeInit zeroPage true true) 0 [1] (List.replicate 2000 1)
      let n ← nodeInsertNonfull n 1 [2] (List.replicate 1900 2)
      Prod.snd <$> nodeDeleteKey n [1]) = .ok n ∧
        decide (Layout n n.size (offsets n) [2076] ∧ freeSpace n < newCellSize 1 500 ∧
          n.tombstoneOffset = 2076 ∧ cellTombstoneSize n 2076 = 2017) = true :=
    exists_ok_of_any (by decide +kernel)
  obtain ⟨n, -, hn⟩ := hpage
  obtain ⟨hlayout, hfree, hhead, hdead⟩ := of_decide_eq_true hn
  have hneed : newCellSize 1 500 = 520 := by decide
  obtain ⟨k, t, rest, us, hts, hget, -, -, -, -, hblocks, hplace, -⟩ :=
    nodeGetFreeOffset_carves hlayout.toBlocksApart (by decide) hfree (by rw [hhead]; decide)
      (by rw [hhead, hdead]; decide)
  obtain ⟨rfl, -⟩ := List.cons.inj hts
  rw [hneed] at hplace
  exact ⟨n, k, 2076, us, hget, hdead, hblocks, hplace⟩

/-! ## The sum over the chain -/

def chainBytes (n : Node) (ts : List ℕ) : ℕ := (ts.map (cellTombstoneSize n)).sum

/-- `tombstone_bytes` is the sum of `tombstone_size` over the chain. -/
def Balanced (n : Node) : Prop :=
  ∀ ts, Chain n.body n.tombstoneOffset ts → n.tombstoneBytes = chainBytes n ts

theorem Layout.balanced_iff (h : Layout n slots os ts) :
    Balanced n ↔ n.tombstoneBytes = chainBytes n ts := by
  refine ⟨fun hb => hb ts h.chain, fun heq us hus => ?_⟩
  rwa [← h.chain.unique hus]

theorem chainBytes_congr (h : ∀ t ∈ ts, Agree n.body m.body t 8) :
    chainBytes m ts = chainBytes n ts :=
  congrArg List.sum (List.map_congr_left fun t ht => (h t ht).load32_eq le_rfl (by omega))

/-- The tombstones fit in the page. -/
theorem Layout.chainBytes_le (h : Layout n slots os ts) : chainBytes n ts ≤ nodeSize := by
  have hsum := sum_le_of_pairwise_apart h.apart h.inside
  rw [List.map_cons, List.sum_cons, blocks, List.map_append, List.sum_append] at hsum
  have hextents : chainBytes n ts ≤ ((ts.map (tombstoneExtent n)).map Prod.snd).sum := by
    rw [chainBytes, List.map_map]
    exact List.sum_le_sum fun t _ => le_max_right _ _
  omega

/-- A page whose parts are apart after a cell was entered has the tombstones it
had before: the cell and its slot have met none of them, nor another cell. -/
theorem Layout.entered (h : Layout n n.size (offsets n) ts) (hleaf : n.leaf = true)
    (hidx : idx ≤ n.size) (hoff : off < 2 ^ 32)
    (hins : nodeInsertLeafCell n off idx key value = .ok m) (hclash : m.slotClash = false)
    (hm : Spread m us) : us = ts ∧ m.leaf = true ∧ m.tombstoneBytes = n.tombstoneBytes ∧
      chainBytes m ts = chainBytes n ts ∧ Layout m m.size (offsets m) ts := by
  have hspec := nodeInsertCell_spec hins hidx h.slots_le hoff
    (nodeInsertCell_slotClash hins hclash).2
  have hmleaf : m.leaf = true := hspec.leaf.trans hleaf
  have hlen : key.length + value.length < 2 ^ 32 := by
    have hend := hspec.inside.2
    rw [length_leafCell] at hend
    simp only [nodeSize] at hend
    omega
  obtain ⟨hext, hwhole⟩ := leafCell_isCell hlen m off hmleaf hspec.loaded
  have hof := hspec.offsets_eq
  have hmem : off ∈ offsets m := by
    rw [hof]
    exact List.mem_append_right _ List.mem_cons_self
  obtain ⟨hslots, hblocks⟩ := List.pairwise_cons.mp hm.apart
  rw [blocks, List.pairwise_append] at hblocks
  obtain ⟨hcells, -, hcross⟩ := hblocks
  have hagree : ∀ x : ℕ × ℕ, Apart (slotArray m.size) x →
      Apart (off, (leafCell key value).length) x → Agree n.body m.body x.1 x.2 := by
    intro x hx hy
    refine hspec.agree x (hx.symm.mono ⟨Nat.le_add_right _ _, ?_⟩) hy.symm
    rw [hspec.size]
    simp only [slotArray, slotOffset]
    omega
  have hheaders : ∀ t ∈ us, Agree n.body m.body t 8 := by
    intro t ht
    have hx := hslots _ (List.mem_append_right _ (List.mem_map_of_mem ht))
    have hy := hcross _ (List.mem_map_of_mem hmem) _ (List.mem_map_of_mem ht)
    rw [hext] at hy
    exact hagree (t, 8) (hx.mono tombstone_header) (hy.mono tombstone_header)
  have hchain := hm.chain
  rw [hspec.tombstoneOffset] at hchain
  obtain rfl : us = ts := (hchain.congr fun t ht => (hheaders t ht).symm).unique h.chain
  -- the cells that were there are apart from the new one in the new page
  rw [hof, List.map_append, List.map_cons, hext, List.pairwise_append, List.pairwise_cons] at hcells
  have hold : ∀ o ∈ (offsets n).take idx ++ (offsets n).drop idx,
      Apart (off, (leafCell key value).length) (cellExtent m o) := by
    intro o ho
    rcases List.mem_append.mp ho with ho | ho
    · exact (hcells.2.2 _ (List.mem_map_of_mem ho) _ List.mem_cons_self).symm
    · exact hcells.2.1.1 _ (List.mem_map_of_mem ho)
  refine ⟨rfl, hmleaf, hspec.tombstoneBytes, chainBytes_congr hheaders, hm.chain, hm.inside,
    hm.apart, fun o ho => ?_⟩
  have hcase : o = off ∨ o ∈ (offsets n).take idx ++ (offsets n).drop idx := by
    rw [hof] at ho
    exact List.mem_cons.mp (List.perm_middle.mem_iff.mp ho)
  rcases hcase with rfl | hcase
  · exact hwhole
  · have hkept : Kept m n o := Agree.symm (hagree (cellExtent m o)
      (hslots _ (List.mem_append_left _ (List.mem_map_of_mem ho))) (hold o hcase))
    rw [List.take_append_drop] at hcase
    have hw := h.whole o hcase
    rw [Whole, keptHeader_totalSize hkept.header, keptHeader_keySize hkept.header,
      keptHeader_valueSize hkept.header, ← hspec.leaf] at hw
    exact hw

/-! ## One operation on a leaf -/

/-- A guarded insert: the key is missing and a place is found. -/
def enterLeaf (n : Node) (key value : List UInt8) : Option Node :=
  match nodeBinSearch n key, nodeGetFreeOffset n key.length value.length with
  | .ok (false, idx), .ok (_, off) =>
      if off = 0 then none else (nodeInsertNonfull n idx key value).toOption
  | _, _ => none

theorem enterLeaf_eq_some (h : enterLeaf n key value = some m) : ∃ idx k off,
    nodeBinSearch n key = .ok (false, idx) ∧
      nodeGetFreeOffset n key.length value.length = .ok (k, off) ∧ 0 < off ∧
      nodeInsertLeafCell k off idx key value = .ok m := by
  unfold enterLeaf at h
  split at h
  · rename_i idx k off hs hget
    split_ifs at h with hoff
    refine ⟨idx, k, off, hs, hget, Nat.pos_of_ne_zero hoff, ?_⟩
    simp only [nodeInsertNonfull, hget] at h
    change (nodeInsertLeafCell k off idx key value).toOption = some m at h
    cases hins : nodeInsertLeafCell k off idx key value with
    | error e =>
        rw [hins] at h
        cases h
    | ok u =>
        rw [hins] at h
        rw [Option.some.inj h]
  · cases h

/-- Slots, cells and chained tombstones are apart, and no cell was written over
the slots it was entered in. -/
def Parted (n : Node) : Prop := n.slotClash = false ∧ ∃ ts, Spread n ts

/-- A leaf with all its parts apart. -/
def LeafPage (n : Node) : Prop := n.leaf = true ∧ ∃ ts, Layout n n.size (offsets n) ts

/-- The place of the entry, if it is the first tombstone, has the size asked for. -/
def ExactPlace (n : Node) (key value : List UInt8) : Prop :=
  freeSpace n < newCellSize key.length value.length →
    cellTombstoneSize n n.tombstoneOffset = newCellSize key.length value.length

/-- Carving the first tombstone up keeps the books balanced when nothing is left
of it: a rest is worth less than the bytes left over. -/
theorem TombstoneTaken.balanced_iff {t : ℕ} (h : Layout n n.size (offsets n) (t :: ts))
    (hk : TombstoneTaken n k need) (hneed : need ≤ cellTombstoneSize n t) (hb : Balanced n) :
    ∃ us, Layout k k.size (offsets k) us ∧ (Balanced k ↔ cellTombstoneSize n t = need) := by
  obtain ⟨us, hlayout, -, -, hheaders, hus, -⟩ := h.taken hk hneed
  have hsum : n.tombstoneBytes = cellTombstoneSize n t + chainBytes n ts := h.balanced_iff.mp hb
  have hsame : chainBytes k ts = chainBytes n ts := chainBytes_congr hheaders
  have hle : cellTombstoneSize n t + chainBytes n ts ≤ nodeSize := h.chainBytes_le
  simp only [nodeSize] at hle
  have hbytes : k.tombstoneBytes = n.tombstoneBytes - need := by
    rw [hk.bytes]
    exact sub32_of_le (by omega) (by omega)
  refine ⟨us, hlayout, ?_⟩
  rw [hlayout.balanced_iff]
  rcases hus with ⟨hsmall, rfl⟩ | ⟨hlarge, rfl, hleft⟩
  · rw [hsame]
    omega
  · have hcons : chainBytes k ((t + need) :: ts) =
        cellTombstoneSize k (t + need) + chainBytes k ts := rfl
    rw [hcons, hleft, hsame]
    simp only [sizeofCell] at hlarge ⊢
    omega

theorem enterLeaf_balanced_iff (h : LeafPage n) (hb : Balanced n)
    (hins : enterLeaf n key value = some m) (hm : Parted m) :
    LeafPage m ∧ (Balanced m ↔ ExactPlace n key value) := by
  obtain ⟨hleaf, ts, hlayout⟩ := h
  obtain ⟨hclash, vs, hspread⟩ := hm
  obtain ⟨idx, k, off, hs, hget, hoff, hcell⟩ := enterLeaf_eq_some hins
  have hidx : idx ≤ n.size := nodeBinSearch_le hs hlayout.size_lt
  have hlt : off < 2 ^ 32 := by
    have hend := (nodeInsertCell_inside hcell).2
    simp only [nodeSize] at hend
    omega
  rcases nodeGetFreeOffset_eq_ok hget hoff with ⟨hroom, rfl, -⟩ | ⟨hfree, rfl, hfit, htake⟩
  · obtain ⟨-, hmleaf, hbytes, hsum, hlayout'⟩ :=
      hlayout.entered hleaf hidx hlt hcell hclash hspread
    refine ⟨⟨hmleaf, ts, hlayout'⟩, iff_of_true ?_ fun hless => absurd hroom (not_le.mpr hless)⟩
    rw [hlayout'.balanced_iff, hbytes, hsum]
    exact hlayout.balanced_iff.mp hb
  · obtain ⟨t, ts, rfl⟩ := List.exists_cons_of_ne_nil (l := ts) fun hnil => by
      have hchain := hlayout.chain
      rw [hnil] at hchain
      exact absurd hchain hoff.ne'
    have hhead := hlayout.chain.1
    have hk := takeTombstone_spec htake hfit
    rw [hhead] at hfit
    obtain ⟨us, hkl, hiff⟩ := hk.balanced_iff hlayout hfit hb
    obtain ⟨-, hmleaf, hbytes, hsum, hlayout'⟩ :=
      hkl.entered (hk.leaf.trans hleaf) (hk.size ▸ hidx) hlt hcell hclash hspread
    refine ⟨⟨hmleaf, us, hlayout'⟩, ?_⟩
    have hexact : ExactPlace n key value ↔
        cellTombstoneSize n t = newCellSize key.length value.length := by
      unfold ExactPlace
      rw [hhead]
      exact ⟨fun hplace => hplace hfree, fun heq _ => heq⟩
    rw [hexact, ← hiff, hlayout'.balanced_iff, hkl.balanced_iff, hbytes, hsum]

/-- A cell that dies is counted with all its bytes. -/
theorem Layout.balanced_of_buried {fewer o : ℕ} {os' : List ℕ} (h : Layout n slots os ts)
    (hm : Layout m fewer os' (o :: ts)) (hextent : tombstoneExtent m o = cellExtent n o)
    (hchained : ∀ t ∈ ts, Agree n.body m.body t 8)
    (hbytes : m.tombstoneBytes = u32 (n.tombstoneBytes + (cellExtent n o).2))
    (hb : Balanced n) : Balanced m := by
  have hsum := h.balanced_iff.mp hb
  have hcons : chainBytes m (o :: ts) = cellTombstoneSize m o + chainBytes m ts := rfl
  have hsize : max 8 (cellTombstoneSize m o) = (cellExtent n o).2 := congrArg Prod.snd hextent
  have hpos : 16 ≤ (cellExtent n o).2 := by
    simp only [cellExtent, sizeofCell]
    omega
  have hle := hm.chainBytes_le
  rw [hcons, chainBytes_congr hchained] at hle
  simp only [nodeSize] at hle
  rw [hm.balanced_iff, hbytes, hsum, hcons, chainBytes_congr hchained, u32_of_lt (by omega)]
  omega

theorem nodeDeleteKey_balanced {ret : ℕ} (h : LeafPage n)
    (hdel : nodeDeleteKey n key = .ok (ret, m)) : LeafPage m ∧ (Balanced n → Balanced m) := by
  obtain ⟨hleaf, ts, hlayout⟩ := id h
  obtain ⟨found, idx, hs⟩ : ∃ found idx, nodeBinSearch n key = .ok (found, idx) :=
    nodeBinSearch_isOk hlayout.size_lt
  rcases nodeBinSearch_spec hs hlayout.size_lt with ⟨rfl, hidx, -⟩ | ⟨rfl, -, -⟩
  · obtain ⟨m', hdel', hm⟩ := hlayout.delete hs hidx
    obtain rfl : m' = m := (Prod.mk.inj (Except.ok.inj (hdel'.symm.trans hdel))).2
    exact ⟨⟨hm.leaf.trans hleaf, _, hm.layout⟩,
      hlayout.balanced_of_buried hm.layout hm.deleted hm.chained hm.bytes⟩
  · have hsame : nodeDeleteKey n key = .ok (1, n) := bind_eq_ok.mpr ⟨_, hs, rfl⟩
    obtain rfl : n = m := (Prod.mk.inj (Except.ok.inj (hsame.symm.trans hdel))).2
    exact ⟨h, id⟩

/-- The loop of a split buries one cell after the other, and writes no tombstone
to the new page. -/
theorem moveCells_balanced {cell : Node → ℕ → List UInt8} {n' new new' : Node}
    {p left i j : ℕ} {rest : List ℕ} (hn : Layout n slots (os ++ rest) ts)
    (hrest : rest = (List.range' i left).map (cellPtr n)) (hi : i + left ≤ slots)
    (hmove : moveCells cell p left i j n new = .ok (n', new')) :
    (Balanced n → Balanced n') ∧ new'.tombstoneBytes = new.tombstoneBytes := by
  induction left generalizing i j n new rest ts with
  | zero =>
      obtain ⟨rfl, rfl⟩ := Prod.mk.inj (Except.ok.inj hmove)
      exact ⟨id, rfl⟩
  | succ left ih =>
      obtain ⟨new₁, n₁, hap, hset, hmove⟩ := moveCells_succ hmove
      rw [List.range'_succ, List.map_cons] at hrest
      subst hrest
      obtain ⟨hburied, -, hslots, hextent, hchained⟩ := hn.bury rfl hset
      have hptrs : (List.range' (i + 1) left).map (cellPtr n) =
          (List.range' (i + 1) left).map (cellPtr n₁) := by
        refine List.map_congr_left fun a ha => (hslots a ?_).symm
        rw [List.mem_range'_1] at ha
        omega
      obtain ⟨hold, hnew⟩ := ih hburied hptrs (by omega) hmove
      refine ⟨fun hb => hold ?_, hnew.trans ?_⟩
      · exact hn.balanced_of_buried hburied hextent hchained (nodeTupleSetTombstone_spec hset).bytes
          hb
      · simp only [appendCell, bind_eq_ok, Node.write_eq_ok] at hap
        obtain ⟨_, ⟨-, rfl⟩, _, ⟨-, rfl⟩, hap⟩ := hap
        rw [← Except.ok.inj hap]
        rfl

/-- A split whose halves have their slots in the page moves a part of the cells. -/
theorem leafNodeSplit_lt {new old new' : Node} {p : ℕ} (hn : n.size < 2 ^ 31) (hp : p < 2 ^ 32)
    (hsplit : leafNodeSplit n new p = .ok (old, new')) (hold : slotOffset old.size ≤ nodeSize)
    (hnew : slotOffset new'.size ≤ nodeSize) : p < n.size := by
  simp only [leafNodeSplit, bind_eq_ok, assert_eq_ok] at hsplit
  obtain ⟨_, -, _, -, ⟨old₁, new₁⟩, -, _, hpos, _, -, hok⟩ := hsplit
  obtain ⟨rfl, rfl⟩ := Prod.mk.inj (Except.ok.inj hok)
  simp only [slotOffset, sizeofNode, nodeSize] at hold hnew
  by_contra hge
  simp only [sub32, u32] at hold hnew hpos
  omega

theorem leafNodeSplit_balanced {page old new : Node} {p : ℕ} {root : Bool} (h : LeafPage n)
    (hp : p < 2 ^ 32) (hsplit : leafNodeSplit n (nodeInit page true root) p = .ok (old, new))
    (hold : Parted old) (hnew : Parted new) :
    LeafPage old ∧ LeafPage new ∧ (Balanced n → Balanced old ∧ Balanced new) := by
  obtain ⟨hleaf, ts, hlayout⟩ := h
  obtain ⟨-, us, hus⟩ := hold
  obtain ⟨-, vs, hvs⟩ := hnew
  have hlt : p < n.size := leafNodeSplit_lt hlayout.size_lt hp hsplit
    (hus.inside _ List.mem_cons_self).2 (hvs.inside _ List.mem_cons_self).2
  obtain ⟨old', new', hok, hpages, -⟩ := leafNodeSplit_spec hlt hlayout hleaf
    (nodeInit_fresh : Fresh (nodeInit page true root) true)
  obtain ⟨rfl, rfl⟩ := Prod.mk.inj (Except.ok.inj (hok.symm.trans hsplit))
  refine ⟨⟨hpages.leaf.trans hleaf, _, hpages.layout⟩, ⟨hpages.newLeaf, _, hpages.newLayout⟩,
    fun hb => ?_⟩
  have hcells : Layout n n.size ((offsets n).take p ++ (offsets n).drop p) ts := by
    rwa [List.take_append_drop]
  simp only [leafNodeSplit, bind_eq_ok, assert_eq_ok] at hsplit
  obtain ⟨_, -, _, -, ⟨old₁, new₁⟩, hmove, _, -, _, -, hok⟩ := hsplit
  obtain ⟨rfl, rfl⟩ := Prod.mk.inj (Except.ok.inj hok)
  obtain ⟨hkeep, hbytes⟩ := moveCells_balanced hcells drop_offsets (by omega) hmove
  refine ⟨hkeep hb, hpages.newLayout.balanced_iff.mpr ?_⟩
  exact hbytes

theorem nodeInit_balanced (page : Node) (root : Bool) :
    LeafPage (nodeInit page true root) ∧ Balanced (nodeInit page true root) := by
  have hfresh : Fresh (nodeInit page true root) true := nodeInit_fresh
  have hlayout := hfresh.filling.layout
  exact ⟨⟨rfl, [], hlayout⟩, hlayout.balanced_iff.mpr rfl⟩

/-! ## Runs on several leaves -/

inductive LeafOp
  | init (page : Node) (root : Bool)
  | insert (i : ℕ) (key value : List UInt8)
  | delete (i : ℕ) (key : List UInt8)
  | split (i partitionIdx : ℕ) (page : Node) (root : Bool)

/-- A split enters its new leaf, made by `node_init`, behind the others. -/
def leavesStep (s : List Node) : LeafOp → Option (List Node)
  | .init page root => some (s ++ [nodeInit page true root])
  | .insert i key value => do
      let n ← s[i]?
      let m ← enterLeaf n key value
      some (s.set i m)
  | .delete i key => do
      let n ← s[i]?
      let (_, m) ← (nodeDeleteKey n key).toOption
      some (s.set i m)
  | .split i partitionIdx page root => do
      let n ← s[i]?
      let (old, new) ← (leafNodeSplit n (nodeInit page true root) (u32 partitionIdx)).toOption
      some (s.set i old ++ [new])

/-- The parts of every leaf are still apart after the operation. -/
def StaysParted (s : List Node) (a : LeafOp) : Prop :=
  ∀ t, leavesStep s a = some t → ∀ n ∈ t, Parted n

def AllBalanced (s : List Node) : Prop := ∀ n ∈ s, Balanced n

/-- An insert that takes the place of a tombstone takes all of it. -/
def ExactReuse (s : List Node) : LeafOp → Prop
  | .insert i key value => ∀ n, s[i]? = some n → ExactPlace n key value
  | _ => True

variable {s t : List Node} {a : LeafOp} {as : List LeafOp}

theorem toOption_eq_some {α : Type} {x : Except Failure α} {r : α} (h : x.toOption = some r) :
    x = .ok r := by
  cases x with
  | error e => cases h
  | ok y => rw [Option.some.inj h]

/-- What replacing one leaf of several does to what holds of all of them. -/
theorem forall_mem_set {P : Node → Prop} {i : ℕ} (hi : s[i]? = some n) (hs : ∀ x ∈ s, P x) :
    (∀ x ∈ s.set i m, P x) ↔ P m := by
  obtain ⟨hlt, -⟩ := List.getElem?_eq_some_iff.mp hi
  refine ⟨fun h => h m (List.mem_set hlt m), fun hm x hx => ?_⟩
  rcases List.mem_or_eq_of_mem_set hx with hx | rfl
  · exact hs x hx
  · exact hm

/-- Of all operations only an inexact reuse upsets the books. -/
theorem leavesStep_balanced_iff (hs : ∀ n ∈ s, LeafPage n) (hb : AllBalanced s)
    (ha : StaysParted s a) (hstep : leavesStep s a = some t) :
    (∀ n ∈ t, LeafPage n) ∧ (AllBalanced t ↔ ExactReuse s a) := by
  have hparted := ha t hstep
  cases a with
  | init page root =>
      obtain rfl := Option.some.inj hstep
      obtain ⟨hpage, hbook⟩ := nodeInit_balanced page root
      refine ⟨fun n hn => ?_, iff_of_true (fun n hn => ?_) trivial⟩
      · rcases List.mem_append.mp hn with hn | hn
        · exact hs n hn
        · rwa [List.mem_singleton.mp hn]
      · rcases List.mem_append.mp hn with hn | hn
        · exact hb n hn
        · rwa [List.mem_singleton.mp hn]
  | insert i key value =>
      obtain ⟨n, hi, hstep⟩ := Option.bind_eq_some_iff.mp hstep
      obtain ⟨m, hins, hstep⟩ := Option.bind_eq_some_iff.mp hstep
      obtain rfl := Option.some.inj hstep
      have hmem : n ∈ s := List.mem_of_getElem? hi
      obtain ⟨hlt, -⟩ := List.getElem?_eq_some_iff.mp hi
      obtain ⟨hpage, hiff⟩ := enterLeaf_balanced_iff (hs n hmem) (hb n hmem) hins
        (hparted m (List.mem_set hlt m))
      refine ⟨(forall_mem_set hi hs).mpr hpage, (forall_mem_set hi hb).trans (hiff.trans ?_)⟩
      refine ⟨fun hplace n' hn' => ?_, fun hall => hall n hi⟩
      rwa [← Option.some.inj (hi.symm.trans hn')]
  | delete i key =>
      obtain ⟨n, hi, hstep⟩ := Option.bind_eq_some_iff.mp hstep
      obtain ⟨⟨ret, m⟩, hdel, hstep⟩ := Option.bind_eq_some_iff.mp hstep
      obtain rfl := Option.some.inj hstep
      have hmem : n ∈ s := List.mem_of_getElem? hi
      obtain ⟨hpage, hkeep⟩ := nodeDeleteKey_balanced (hs n hmem) (toOption_eq_some hdel)
      exact ⟨(forall_mem_set hi hs).mpr hpage,
        iff_of_true ((forall_mem_set hi hb).mpr (hkeep (hb n hmem))) trivial⟩
  | split i p page root =>
      obtain ⟨n, hi, hstep⟩ := Option.bind_eq_some_iff.mp hstep
      obtain ⟨⟨old, new⟩, hsplit, hstep⟩ := Option.bind_eq_some_iff.mp hstep
      obtain rfl := Option.some.inj hstep
      have hmem : n ∈ s := List.mem_of_getElem? hi
      obtain ⟨hlt, -⟩ := List.getElem?_eq_some_iff.mp hi
      obtain ⟨hold, hnew, hkeep⟩ := leafNodeSplit_balanced (hs n hmem) (u32_lt p)
        (toOption_eq_some hsplit) (hparted old (List.mem_append_left _ (List.mem_set hlt old)))
        (hparted new (List.mem_append_right _ (List.mem_singleton_self _)))
      obtain ⟨hbOld, hbNew⟩ := hkeep (hb n hmem)
      refine ⟨fun x hx => ?_, iff_of_true (fun x hx => ?_) trivial⟩
      · rcases List.mem_append.mp hx with hx | hx
        · exact (forall_mem_set hi hs).mpr hold x hx
        · rwa [List.mem_singleton.mp hx]
      · rcases List.mem_append.mp hx with hx | hx
        · exact (forall_mem_set hi hb).mpr hbOld x hx
        · rwa [List.mem_singleton.mp hx]

theorem balanced_of_exact
    (h : Run leavesStep (fun s a => StaysParted s a ∧ ExactReuse s a) [] as t) :
    (∀ n ∈ t, LeafPage n) ∧ AllBalanced t := by
  induction h with
  | nil => exact ⟨fun n hn => absurd hn List.not_mem_nil, fun n hn => absurd hn List.not_mem_nil⟩
  | snoc _ hc hstep ih =>
      obtain ⟨hpages, hiff⟩ := leavesStep_balanced_iff ih.1 ih.2 hc.1 hstep
      exact ⟨hpages, hiff.mpr hc.2⟩

/-- In a run that keeps the parts of all leaves apart the books are balanced all
the time exactly when no insert leaves a rest of the tombstone it takes. -/
theorem always_balanced_iff :
    (Run leavesStep (fun s a => StaysParted s a ∧ AllBalanced s) [] as t ∧ AllBalanced t) ↔
      Run leavesStep (fun s a => StaysParted s a ∧ ExactReuse s a) [] as t := by
  refine ⟨fun h => ?_, fun h => ⟨?_, (balanced_of_exact h).2⟩⟩
  · obtain ⟨hrun, hend⟩ := h
    induction hrun with
    | nil => exact .nil
    | snoc _ hc hstep ih =>
        have hprefix := ih hc.2
        obtain ⟨hpages, hb⟩ := balanced_of_exact hprefix
        have hiff := (leavesStep_balanced_iff hpages hb hc.1 hstep).2
        exact .snoc hprefix ⟨hc.1, hiff.mp hend⟩ hstep
  · induction h with
    | nil => exact .nil
    | snoc hrun hc hstep ih => exact .snoc ih ⟨hc.1, (balanced_of_exact hrun).2⟩ hstep

/-- Parts that are found apart with one of several chains. -/
def partedAmong (chains : List (List ℕ)) (n : Node) : Bool :=
  !n.slotClash && chains.any fun ts => decide (Layout n n.size (offsets n) ts)

theorem parted_of_partedAmong {chains : List (List ℕ)} (h : partedAmong chains n = true) :
    Parted n := by
  unfold partedAmong at h
  rw [Bool.and_eq_true, Bool.not_eq_true', List.any_eq_true] at h
  obtain ⟨hclash, ts, -, hlayout⟩ := h
  exact ⟨hclash, ts, (of_decide_eq_true hlayout).spread⟩

/-- A dead cell of 2017 bytes serves a cell of 520: its rest holds 1481 bytes
besides its header, and 1497 are counted. -/
theorem rest_counted_with_header : ∃ t n,
    Run leavesStep StaysParted []
      [.init zeroPage true, .insert 0 [1] (List.replicate 2000 1),
        .insert 0 [2] (List.replicate 1900 2), .delete 0 [1],
        .insert 0 [3] (List.replicate 500 3)] t ∧
      n ∈ t ∧ Chain n.body n.tombstoneOffset [2596] ∧ cellTombstoneSize n 2596 = 1481 ∧
      n.tombstoneBytes = 1497 ∧ ¬ AllBalanced t := by
  obtain ⟨t, hrun, ht⟩ := exists_run_of_execute
    [.init zeroPage true, .insert 0 [1] (List.replicate 2000 1),
      .insert 0 [2] (List.replicate 1900 2), .delete 0 [1],
      .insert 0 [3] (List.replicate 500 3)]
    (fun t : List Node => t.any fun n => decide (Chain n.body n.tombstoneOffset [2596] ∧
      cellTombstoneSize n 2596 = 1481 ∧ n.tombstoneBytes = 1497))
    (by decide +kernel : ((execute leavesStep (fun s a => (leavesStep s a).all
      (·.all (partedAmong [[], [2076], [2596]])) = true) [] _).any _) = true)
  obtain ⟨n, hn, hread⟩ := List.any_eq_true.mp ht
  obtain ⟨hchain, hsize, hbytes⟩ := of_decide_eq_true hread
  have hparted : Run leavesStep StaysParted [] _ t := hrun.mono fun s a hall u hu m hm => by
    rw [hu] at hall
    exact parted_of_partedAmong (List.all_eq_true.mp hall m hm)
  refine ⟨t, n, hparted, hn, hchain, hsize, hbytes, fun hb => ?_⟩
  have hsum := hb n hn [2596] hchain
  have hone : chainBytes n [2596] = cellTombstoneSize n 2596 := Nat.add_zero _
  rw [hone, hsize, hbytes] at hsum
  omega

end IoScheduler
