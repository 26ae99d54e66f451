import IoScheduler.BtreeSteps
import IoScheduler.NodeViews

/-!
# The child pointers of a page

A write that meets no live cell and no slot leaves every child pointer of the
page alone, whatever else the page holds. So the writers that did not clash are
known by what they do to the list of the pids: one is entered, one is replaced,
or the list is cut in two.
-/
namespace IoScheduler
open Machine Bytes SearchTree

variable {n m k new n' new' : Node} {off idx need keySize valueSize pid child p i j left : ℕ}
  {key bytes : List UInt8}

def pidAt (n : Node) (i : ℕ) : ℕ := cellPid n (cellPtr n i)

def cellPids (n : Node) : List ℕ := (List.range n.size).map (pidAt n)

theorem branchCells_pids : (branchCells n).map Prod.snd = cellPids n := by
  rw [branchCells, offsets, slotList, List.map_map, List.map_map]
  rfl

theorem length_cellPids : (cellPids n).length = n.size := by
  rw [cellPids, List.length_map, List.length_range]

theorem getElem?_cellPids : (cellPids n)[i]? = if i < n.size then some (pidAt n i) else none := by
  rw [cellPids, List.getElem?_map]
  by_cases h : i < n.size
  · rw [List.getElem?_range h, if_pos h]
    rfl
  · rw [List.getElem?_eq_none (by rw [List.length_range]; omega), if_neg h]
    rfl

theorem mem_cellPids : pid ∈ cellPids n ↔ ∃ i < n.size, pidAt n i = pid := by
  simp only [cellPids, List.mem_map, List.mem_range]

/-- A slot and the header of its cell that stay as they were. -/
theorem pidAt_congr (hslot : Agree n.body m.body (slotOffset i) 4)
    (hcell : Agree n.body m.body (cellPtr n i) (sizeofCell + cellTotalSize n (cellPtr n i))) :
    cellPtr m i = cellPtr n i ∧ pidAt m i = pidAt n i := by
  have hptr : cellPtr m i = cellPtr n i := hslot.load32_eq le_rfl le_rfl
  refine ⟨hptr, ?_⟩
  rw [pidAt, pidAt, hptr]
  exact keptHeader_pid (Kept.header hcell)

theorem cellPids_congr (hsize : m.size = n.size) (h : ∀ i < n.size, pidAt m i = pidAt n i) :
    cellPids m = cellPids n := by
  rw [cellPids, cellPids, hsize]
  exact List.map_congr_left fun i hi => h i (List.mem_range.mp hi)

/-! ## Looking for a place -/

theorem takeTombstone_pids (h : takeTombstone n need = .ok k) (hk : k.clash = false) :
    k.size = n.size ∧ k.rightmostPid = n.rightmostPid ∧ cellPids k = cellPids n := by
  simp only [takeTombstone] at h
  split_ifs at h
  · simp only [bind_eq_ok, Node.write_eq_ok] at h
    obtain ⟨_, ⟨-, rfl⟩, h⟩ := h
    obtain rfl := Except.ok.inj h
    obtain ⟨-, hslots, hcells⟩ := watch_clash.mp hk
    refine ⟨rfl, rfl, cellPids_congr rfl fun i hi => (pidAt_congr (n := n) ?_ ?_).2⟩
    · exact agree_store (hslots.mono (slot_within hi)).symm
    · exact agree_store (hcells i (List.mem_range.mpr hi)).symm
  · obtain rfl := Except.ok.inj h
    exact ⟨rfl, rfl, rfl⟩

theorem nodeGetFreeOffset_pids (h : nodeGetFreeOffset n keySize valueSize = .ok (k, off))
    (hk : k.clash = false) :
    k.size = n.size ∧ k.rightmostPid = n.rightmostPid ∧ cellPids k = cellPids n := by
  simp only [nodeGetFreeOffset] at h
  split_ifs at h
  · obtain ⟨_, htake, h⟩ := bind_eq_ok.mp h
    obtain ⟨rfl, -⟩ := Prod.mk.inj (Except.ok.inj h)
    exact takeTombstone_pids htake hk
  · obtain ⟨rfl, -⟩ := Prod.mk.inj (Except.ok.inj h)
    exact ⟨rfl, rfl, rfl⟩
  · obtain ⟨rfl, -⟩ := Prod.mk.inj (Except.ok.inj h)
    exact ⟨rfl, rfl, rfl⟩

/-! ## One pointer is entered or replaced -/

theorem internalCell_pid (h : load n.body off (internalCell key pid).length = internalCell key pid)
    (hpid : pid < 2 ^ 64) : cellPid n off = pid := by
  have hload := load_part [] (bytes64 pid) (bytes32 key.length ++ (bytes32 key.length ++ key)) h rfl
  simp only [List.length_nil, Nat.add_zero, length_bytes64] at hload
  rw [cellPid, load64, hload, bytes64, word_bytesOf (by omega)]

theorem nodeInsertInternalCell_pids (h : nodeInsertInternalCell n off idx key child = .ok m)
    (hm : m.clash = false) (hidx : idx ≤ n.size) (hsize : slotOffset n.size ≤ nodeSize)
    (hchild : child < 2 ^ 64) :
    m.size = n.size + 1 ∧ slotOffset m.size ≤ nodeSize ∧ m.rightmostPid = n.rightmostPid ∧
      cellPids m = (cellPids n).take idx ++ child :: (cellPids n).drop idx := by
  obtain ⟨-, hslots, hcells⟩ := nodeInsertCell_clash h hm
  have hin := (nodeInsertCell_inside h).2
  have hspec := nodeInsertCell_spec h hidx hsize (by simp only [nodeSize] at hin; omega) hslots
  have hlt : n.size < 2 ^ 10 := by
    simp only [slotOffset, sizeofNode, nodeSize] at hsize
    omega
  have hkept : ∀ o ∈ offsets n, cellPid m o = cellPid n o := by
    intro o ho
    obtain ⟨i, hi, rfl⟩ := List.mem_map.mp ho
    obtain ⟨hmoved, hcell⟩ := hcells i (List.mem_range.mp hi)
    have hslot : 4 * (n.size + 1 - idx) = 4 + 4 * sub32 n.size idx := by
      rw [sub32_of_le (by omega) hidx]
      omega
    have hagree : Kept n m (cellPtr n i) :=
      hspec.agree (cellExtent n (cellPtr n i)) (hslot ▸ hmoved.symm) hcell.symm
    exact keptHeader_pid hagree.header
  have hpids : ∀ n : Node, cellPids n = (offsets n).map (cellPid n) := fun n => by
    rw [cellPids, offsets, slotList, List.map_map]
    rfl
  refine ⟨hspec.size, ?_, hspec.rightmostPid, ?_⟩
  · rw [hspec.size]
    exact hspec.slots.2
  · rw [hpids, hpids, hspec.offsets_eq, List.map_append, List.map_cons,
      internalCell_pid hspec.loaded hchild, ← List.map_take, ← List.map_drop,
      List.map_congr_left fun o ho => hkept o (List.mem_of_mem_take ho),
      List.map_congr_left fun o ho => hkept o (List.mem_of_mem_drop ho)]

theorem nodeSetPid_pids (h : nodeSetPid n idx pid = .ok m) (hm : m.clash = false)
    (hpid : pid < 2 ^ 64) : m.size = n.size ∧ m.rightmostPid = n.rightmostPid ∧
      ∀ q ∈ cellPids m, q = pid ∨ q ∈ cellPids n := by
  obtain ⟨-, hslots, hcells⟩ := nodeSetPid_clash h hm
  obtain ⟨-, c, rfl⟩ := nodeSetPid_eq_ok h
  refine ⟨rfl, rfl, fun q hq => ?_⟩
  obtain ⟨i, hi, rfl⟩ := mem_cellPids.mp hq
  have hi : i < n.size := hi
  have hslot : Agree n.body (store n.body (cellPtr n idx) (bytes64 pid)) (slotOffset i) 4 :=
    agree_store (by rw [length_bytes64]; exact (hslots.mono (slot_within hi)).symm)
  rcases eq_or_ne i idx with rfl | hne
  · have hself : load (store n.body (cellPtr n i) (bytes64 pid)) (cellPtr n i)
        (bytes64 pid).length = bytes64 pid := load_store_self
    have hptr : cellPtr { n with body := store n.body (cellPtr n i) (bytes64 pid), clash := c } i =
        cellPtr n i := hslot.load32_eq le_rfl le_rfl
    rw [length_bytes64] at hself
    refine .inl ?_
    rw [pidAt, hptr]
    change word (load (store n.body (cellPtr n i) (bytes64 pid)) (cellPtr n i) 8) = pid
    rw [hself, bytes64, word_bytesOf (by omega)]
  · refine .inr (mem_cellPids.mpr ⟨i, hi, ?_⟩)
    refine ((pidAt_congr (n := n) hslot (agree_store ?_)).2).symm
    rw [length_bytes64]
    exact (hcells i hi hne).symm

/-! ## The list is cut -/

theorem nodeTupleSetTombstone_pids (h : nodeTupleSetTombstone n (liveSlots n p idx) idx = .ok m)
    (hm : m.clash = false) : m.size = n.size ∧ m.rightmostPid = n.rightmostPid ∧
      ∀ i < n.size, i < p ∨ idx < i → cellPtr m i = cellPtr n i ∧ pidAt m i = pidAt n i := by
  obtain ⟨-, hslots, hcells⟩ := nodeTupleSetTombstone_clash h hm
  have hspec := nodeTupleSetTombstone_spec h
  refine ⟨hspec.size, hspec.rightmostPid, fun i hi hlive => pidAt_congr ?_ ?_⟩
  · exact hspec.agree (slotOffset i, 4) (hslots.mono (slot_within hi)).symm
  · refine hspec.agree (cellExtent n (cellPtr n i)) (hcells i ?_).symm
    exact List.mem_filter.mpr ⟨List.mem_range.mpr hi, decide_eq_true hlive⟩

theorem appendCell_pids (h : appendCell new j (internalCell key pid) = .ok new')
    (hnew : new'.clash = false) (hpid : pid < 2 ^ 64) : new'.size = new.size ∧
      new'.rightmostPid = new.rightmostPid ∧ slotOffset (j + 1) ≤ nodeSize ∧
      pidAt new' j = pid ∧ ∀ i < j, pidAt new' i = pidAt new i := by
  obtain ⟨-, hslots, hcells⟩ := appendCell_clash h hnew
  have hspec := appendCell_spec h hslots
  refine ⟨hspec.size, hspec.rightmostPid, ?_, ?_, fun i hi => (pidAt_congr ?_ ?_).2⟩
  · have hend := hspec.slots.2
    simp only [slotOffset] at hend ⊢
    omega
  · rw [pidAt, hspec.slot]
    exact internalCell_pid hspec.loaded hpid
  · refine hspec.agree (slotOffset i, 4) (.inl ?_) (hslots.mono (slot_within (by omega))).symm
    simp only [slotOffset]
    omega
  · exact hspec.agree (cellExtent new (cellPtr new i)) (hcells i hi).1.symm (hcells i hi).2.symm

/-- The loop of a split that did not clash: the cells before the cut keep their
pids, the others take theirs along. -/
theorem moveCells_pids (h : moveCells movedInternalCell p left i j n new = .ok (n', new'))
    (hn : n'.clash = false) (hnew : new'.clash = false) (hp : p ≤ i) (hi : i + left = n.size) :
    n'.size = n.size ∧ n'.rightmostPid = n.rightmostPid ∧ new'.rightmostPid = new.rightmostPid ∧
      (0 < left → slotOffset (j + left) ≤ nodeSize) ∧ (∀ x < p, pidAt n' x = pidAt n x) ∧
      (∀ x < j, pidAt new' x = pidAt new x) ∧
      ∀ x < left, pidAt new' (j + x) = pidAt n (i + x) := by
  induction left generalizing i j n new with
  | zero =>
      obtain ⟨rfl, rfl⟩ := Prod.mk.inj (Except.ok.inj h)
      exact ⟨rfl, rfl, rfl, fun h => absurd h (lt_irrefl 0), fun _ _ => rfl, fun _ _ => rfl,
        fun _ hx => absurd hx (Nat.not_lt_zero _)⟩
  | succ left ih =>
      obtain ⟨new₁, n₁, hap, hset, hrest⟩ := moveCells_succ h
      obtain ⟨hold, hfresh⟩ := moveCells_follows hrest
      obtain ⟨hsize, hlast, hlive⟩ := nodeTupleSetTombstone_pids hset (hold.clash hn)
      obtain ⟨hnewSize, hnewLast, hfit, hat, hbelow⟩ :=
        appendCell_pids hap (hfresh.clash hnew) load64_lt
      obtain ⟨hs, hl, hl', hf, hkeep, hkeepNew, hmoved⟩ := ih hrest (by omega) (by omega)
      refine ⟨hs.trans hsize, hl.trans hlast, hl'.trans hnewLast, fun _ => ?_, fun x hx => ?_,
        fun x hx => ?_, fun x hx => ?_⟩
      · rcases Nat.eq_zero_or_pos left with rfl | hpos
        · exact hfit
        · have hend := hf hpos
          rwa [show j + (left + 1) = j + 1 + left by omega]
      · exact (hkeep x hx).trans (hlive x (by omega) (.inl hx)).2
      · exact (hkeepNew x (by omega)).trans (hbelow x hx)
      · rcases Nat.eq_zero_or_pos x with rfl | hpos
        · exact (hkeepNew j (by omega)).trans hat
        · obtain ⟨y, rfl⟩ : ∃ y, x = y + 1 := ⟨x - 1, by omega⟩
          have hnext := hmoved y (by omega)
          rw [show j + 1 + y = j + (y + 1) by omega, show i + 1 + y = i + (y + 1) by omega] at hnext
          exact hnext.trans (hlive (i + (y + 1)) (by omega) (.inr (by omega))).2

/-- A branch split that did not clash cuts the list of its pids. -/
theorem internalNodeSplit_pids (h : internalNodeSplit n new p = .ok (n', new'))
    (hn : n'.clash = false) (hnew : new'.clash = false) (hp : p + 1 < n.size)
    (hsize : slotOffset n.size ≤ nodeSize) :
    (slotOffset n'.size ≤ nodeSize ∧ n'.rightmostPid = n.rightmostPid ∧
      cellPids n' = (cellPids n).take p) ∧
    slotOffset new'.size ≤ nodeSize ∧ new'.rightmostPid = new.rightmostPid ∧
      cellPids new' = (cellPids n).drop (p + 1) := by
  simp only [slotOffset, sizeofNode, nodeSize] at hsize
  have hnext : u32 (p + 1) = p + 1 := u32_of_lt (by omega)
  simp only [internalNodeSplit, bind_eq_ok, assert_eq_ok, hnext] at h
  obtain ⟨_, -, _, -, n₁, hset, ⟨old, filled⟩, hmove, _, -, _, -, _, -, h⟩ := h
  obtain ⟨hold, hfilled⟩ := Prod.mk.inj (Except.ok.inj h)
  obtain ⟨hfollows, -⟩ := moveCells_follows hmove
  have hold₁ : old.clash = false := by rwa [← hold] at hn
  have hfilled₁ : filled.clash = false := by rwa [← hfilled] at hnew
  obtain ⟨hs₁, hl₁, hlive⟩ := nodeTupleSetTombstone_pids hset (hfollows.clash hold₁)
  rw [hs₁] at hold hfilled hmove
  obtain ⟨-, hl, hl', hfit, hkeep, -, hmoved⟩ := moveCells_pids hmove hold₁ hfilled₁
    (Nat.le_succ p) (by omega)
  have hnewSize : sub32 n.size (p + 1) = n.size - (p + 1) := sub32_of_le (by omega) (by omega)
  have holdSize : sub32 n.size (u32 (n.size - (p + 1) + 1)) = p := by
    rw [u32_of_lt (by omega), sub32_of_le (by omega) (by omega)]
    omega
  rw [hnewSize] at hold hfilled
  rw [holdSize] at hold
  have hsizeOld : n'.size = p := by rw [← hold]
  have hsizeNew : new'.size = n.size - (p + 1) := by rw [← hfilled]
  have hpidOld : ∀ x < p, pidAt n' x = pidAt n x := by
    intro x hx
    rw [← hold]
    exact (hkeep x hx).trans (hlive x (by omega) (.inl hx)).2
  have hpidNew : ∀ x < n.size - (p + 1), pidAt new' x = pidAt n (p + 1 + x) := by
    intro x hx
    have hat := hmoved x hx
    rw [Nat.zero_add] at hat
    rw [← hfilled]
    exact hat.trans (hlive (p + 1 + x) (by omega) (.inr (by omega))).2
  refine ⟨⟨?_, ?_, ?_⟩, ?_, ?_, ?_⟩
  · rw [hsizeOld]
    simp only [slotOffset, sizeofNode, nodeSize]
    omega
  · rw [← hold]
    exact hl.trans hl₁
  · rw [cellPids, cellPids, hsizeOld, ← List.map_take, List.take_range, min_eq_left (by omega)]
    exact List.map_congr_left fun x hx => hpidOld x (List.mem_range.mp hx)
  · rw [hsizeNew]
    have hend := hfit (by omega)
    rwa [Nat.zero_add] at hend
  · rw [← hfilled]
    exact hl'
  · rw [cellPids, cellPids, hsizeNew, ← List.map_drop, List.range_eq_range', List.range_eq_range',
      List.drop_range', Nat.zero_add, Nat.mul_one]
    refine List.ext_getElem? fun x => ?_
    rw [List.getElem?_map, List.getElem?_map]
    by_cases hx : x < n.size - (p + 1)
    · rw [List.getElem?_range' hx, List.getElem?_range' hx]
      simp only [Option.map_some, Nat.zero_add, Nat.one_mul, hpidNew x hx]
    · rw [List.getElem?_eq_none (by rw [List.length_range']; omega),
        List.getElem?_eq_none (by rw [List.length_range']; omega)]
      rfl

end IoScheduler
