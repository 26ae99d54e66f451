import IoScheduler.NodeReuse

/-!
# A leaf filled by inserts

Without deletions a leaf has no tombstones, and an insert goes through when the
cell fits between the slot array and `cell_offset`. The slot it takes is not
counted, so an exact fit puts the last slot over the new cell; as long as the
slot fits too, every entry stays where the search finds it.
-/
namespace IoScheduler
open Machine Bytes SearchTree Transition

variable {n m t u : Node} {idx : ℕ} {ts : List ℕ} {key value : List UInt8} {root : Bool}
  {a : List UInt8 × List UInt8} {as : List (List UInt8 × List UInt8)}

/-- An insert as the callers do it: the key is missing and the leaf not full. -/
def fillStep (n : Node) (a : List UInt8 × List UInt8) : Option Node :=
  match nodeBinSearch n a.1, nodeIsFull n a.1.length a.2.length with
  | .ok (false, idx), .ok false => (nodeInsertNonfull n idx a.1 a.2).toOption
  | _, _ => none

theorem fillStep_eq_some (h : fillStep n a = some m) : ∃ idx,
    nodeBinSearch n a.1 = .ok (false, idx) ∧ nodeIsFull n a.1.length a.2.length = .ok false ∧
      nodeInsertNonfull n idx a.1 a.2 = .ok m := by
  unfold fillStep at h
  split at h
  · rename_i idx hs hfull
    refine ⟨idx, hs, hfull, ?_⟩
    cases hins : nodeInsertNonfull n idx a.1 a.2 with
    | error e =>
        rw [hins] at h
        cases h
    | ok k =>
        rw [hins] at h
        rw [Option.some.inj h]
  · cases h

/-- The sizes of an entry add up to what an `int` holds. -/
def SizesAdd (a : List UInt8 × List UInt8) : Prop := a.1.length + a.2.length < 2 ^ 31

instance : Decidable (SizesAdd a) := inferInstanceAs (Decidable (_ < _))

/-- The cell and its slot fit between the slot array and `cell_offset`. -/
def SlotFits (n : Node) (a : List UInt8 × List UInt8) : Prop :=
  newCellSize a.1.length a.2.length + 4 ≤ freeSpace n

instance : Decidable (SlotFits n a) := inferInstanceAs (Decidable (_ ≤ _))

/-- No free space is counted wrongly, and the entries are found. -/
def Sound (n : Node) (as : List (List UInt8 × List UInt8)) : Prop :=
  slotOffset n.size ≤ n.cellOffset ∧
    ∀ a ∈ as, ∃ idx, nodeGetCell n a.1 = .ok (some idx) ∧ nodeCellPointers n idx = a

/-- A leaf that holds the entries entered so far, between the slots and the end
of the page. -/
structure Filled (n : Node) (as : List (List UInt8 × List UInt8)) : Prop where
  wellFormed : WellFormed n
  leaf : n.leaf = true
  tombstoneOffset : n.tombstoneOffset = 0
  top : n.cellOffset ≤ nodeSize
  low : slotOffset n.size ≤ n.cellOffset
  entered : ∀ a ∈ as, ((⟨a.1⟩ : Key), a.2) ∈ leafEntries n

theorem filled_start : Filled (nodeInit m true root) [] := by
  refine ⟨⟨nodeInit_valid, List.Pairwise.nil⟩, rfl, rfl, le_rfl, ?_, fun a ha => ?_⟩
  · simp only [nodeInit, slotOffset, sizeofNode, nodeSize]
    norm_num
  · cases ha

/-- Every entry of a well-formed leaf is found. -/
theorem WellFormed.getCell (h : WellFormed n) (hleaf : n.leaf = true)
    (hentry : ((⟨key⟩ : Key), value) ∈ leafEntries n) :
    ∃ idx, nodeGetCell n key = .ok (some idx) ∧ nodeCellPointers n idx = (key, value) := by
  obtain ⟨⟨-, ts, hlayout, -⟩, hsort⟩ := h
  have hslots := hlayout.slots_le
  simp only [slotOffset, sizeofNode, nodeSize] at hslots
  obtain ⟨j, hj⟩ := List.mem_iff_getElem?.mp hentry
  have hj' : (keys n)[j]? = some ⟨key⟩ := by
    rw [← leafEntries_keys, List.getElem?_map, hj]
    rfl
  rw [leafEntries, List.getElem?_map, getElem?_offsets] at hj
  have hlt : j < n.size := by
    by_contra hge
    rw [if_neg hge] at hj
    cases hj
  rw [if_pos hlt] at hj
  have hat : entryAt n (cellPtr n j) = (⟨key⟩, value) := Option.some.inj hj
  have hkey : key.length < 2 ^ 31 := by
    have hsize := hlayout.keySize_lt (mem_offsets hlt)
    have hread : cellGetKey n (cellPtr n j) = key := congrArg (fun e => e.1.bytes) hat
    rw [← hread, length_cellGetKey]
    simp only [nodeSize] at hsize
    omega
  obtain ⟨found, idx, hs⟩ : ∃ found idx, nodeBinSearch n key = .ok (found, idx) :=
    nodeBinSearch_isOk (by omega)
  have hmem : (⟨key⟩ : Key) ∈ (keys n).take idx ++ (keys n).drop idx := by
    rw [List.take_append_drop]
    exact List.mem_of_getElem? hj'
  rcases hlayout.search hsort hkey hs with ⟨rfl, hidx, heq⟩ | ⟨-, -, hleft, hright⟩
  · refine ⟨idx, ?_, ?_⟩
    · exact bind_eq_ok.mpr ⟨_, hs, bind_eq_ok.mpr ⟨(), assert_eq_ok.mpr hidx, rfl⟩⟩
    · have hidx' : (keys n)[idx]? = some ⟨key⟩ := by rw [getElem?_keys, if_pos hidx, heq]
      obtain rfl : idx = j := (List.getElem?_inj (by rwa [length_keys])
        (hsort.imp fun hlt => hlt.ne)).mp (hidx'.trans hj'.symm)
      rw [nodeCellPointers, if_pos hleaf, heq]
      exact congrArg (Prod.mk key) (congrArg Prod.snd hat)
  · rcases List.mem_append.mp hmem with hmem | hmem
    · exact absurd (hleft _ hmem) (lt_irrefl _)
    · exact absurd (hright _ hmem) (lt_irrefl _)

/-- With room for its cell and its slot a new entry goes to its place, and is
found there. -/
theorem nodeInsertNonfull_entered (h : WellFormed n) (hleaf : n.leaf = true)
    (habsent : (⟨key⟩ : Key) ∉ keys n) (htop : n.cellOffset ≤ nodeSize)
    (hroom : slotOffset n.size + (sizeofCell + (key.length + value.length) + 3) / 4 * 4 + 4 ≤
      n.cellOffset) :
    ∃ idx m, nodeBinSearch n key = .ok (false, idx) ∧ nodeInsertNonfull n idx key value = .ok m ∧
      WellFormed m ∧ m.leaf = true ∧ m.size = n.size + 1 ∧
      m.tombstoneOffset = n.tombstoneOffset ∧
      m.cellOffset = n.cellOffset - (sizeofCell + (key.length + value.length) + 3) / 4 * 4 ∧
      leafEntries m = (leafEntries n).take idx ++ (⟨key⟩, value) :: (leafEntries n).drop idx ∧
      ∃ j, nodeGetCell m key = .ok (some j) ∧ nodeCellPointers m j = (key, value) := by
  obtain ⟨hvalid, hsort⟩ := h
  obtain ⟨-, ts, hlayout, -⟩ := id hvalid
  have hsize : key.length + value.length < 2 ^ 31 := by
    simp only [nodeSize] at htop
    omega
  have hneed : newCellSize key.length value.length =
      (sizeofCell + (key.length + value.length) + 3) / 4 * 4 := by
    rw [newCellSize_eq hsize, Nat.add_comm sizeofCell]
  obtain ⟨idx, hs, hidx⟩ := hlayout.search_absent (by omega) habsent
  rw [← hneed] at hroom ⊢
  obtain ⟨m, hins, hm, hmleaf, hmsize, hmtomb, hmco, -, hentries⟩ :=
    hvalid.enter_below hleaf hidx hsize htop hroom
  have hwell : WellFormed m := ⟨hm, hlayout.enter_sorted hsort (by omega) hs hentries⟩
  refine ⟨idx, m, hs, hins, hwell, hmleaf, hmsize, hmtomb, by omega, hentries, ?_⟩
  apply hwell.getCell hmleaf
  rw [hentries]
  exact List.mem_append_right _ List.mem_cons_self

/-- An entry goes between two others. -/
theorem nodeInsertNonfull_entered_between : ∃ n m j, n.size = 2 ∧
    nodeInsertNonfull n 1 [2] [7, 7] = .ok m ∧
    leafEntries m = [(⟨[1]⟩, [5]), (⟨[2]⟩, [7, 7]), (⟨[3]⟩, [])] ∧
    nodeGetCell m [2] = .ok (some j) ∧ nodeCellPointers m j = ([2], [7, 7]) := by
  have hpage : ∃ n, (do
      let n ← nodeInsertNonfull (nodeInit zeroPage true true) 0 [3] []
      nodeInsertNonfull n 0 [1] [5]) = .ok n ∧
        decide (WellFormedWith n [] ∧ n.leaf = true ∧ (⟨[2]⟩ : Key) ∉ keys n ∧ n.size = 2 ∧
          n.cellOffset = 4056 ∧ leafEntries n = [(⟨[1]⟩, [5]), (⟨[3]⟩, [])] ∧
          nodeBinSearch n [2] = .ok (false, 1)) = true :=
    exists_ok_of_any (by decide +kernel)
  obtain ⟨n, -, hn⟩ := hpage
  obtain ⟨hwell, hleaf, habsent, hsize, hco, hold, hat⟩ := of_decide_eq_true hn
  obtain ⟨idx, m, hs, hins, -, -, -, -, -, hentries, j, hfound, hread⟩ :=
    @nodeInsertNonfull_entered n [2] [7, 7] hwell.wellFormed hleaf habsent
      (by rw [hco]; decide) (by rw [hco, hsize]; decide)
  obtain rfl : 1 = idx := (Prod.mk.inj (Except.ok.inj (hat.symm.trans hs))).2
  rw [hold] at hentries
  exact ⟨n, m, j, hsize, hins, hentries, hfound, hread⟩

theorem Filled.sound (h : Filled n as) : Sound n as :=
  ⟨h.low, fun a ha => h.wellFormed.getCell h.leaf (h.entered a ha)⟩

/-- A guarded insert goes below `cell_offset`. -/
theorem Filled.step (h : Filled t as) (hsize : SizesAdd a) (hfit : SlotFits t a)
    (hstep : fillStep t a = some u) : Filled u (as ++ [a]) := by
  obtain ⟨idx, hs, -, hins⟩ := fillStep_eq_some hstep
  obtain ⟨⟨hvalid, hsort⟩, hleaf, htomb, htop, hlow, hentered⟩ := h
  obtain ⟨hlt, ts, hlayout, -⟩ := id hvalid
  have hfree := freeSpace_eq hlow hlt
  simp only [SizesAdd] at hsize
  simp only [SlotFits] at hfit
  have hidx : idx ≤ t.size := nodeBinSearch_le hs hlayout.size_lt
  obtain ⟨m, hins', hm, hmleaf, hmsize, hmtomb, hmco, -, hentries⟩ :=
    hvalid.enter_below hleaf hidx hsize htop (by omega)
  obtain rfl : u = m := Except.ok.inj (hins.symm.trans hins')
  refine ⟨⟨hm, hlayout.enter_sorted hsort (by omega) hs hentries⟩, hmleaf, hmtomb.trans htomb,
    by omega, ?_, fun x hx => ?_⟩
  · rw [hmsize]
    simp only [slotOffset] at hfree hlow ⊢
    omega
  · rw [hentries]
    rcases List.mem_append.mp hx with hx | hx
    · have hold := hentered x hx
      rw [← List.take_append_drop idx (leafEntries t)] at hold
      rcases List.mem_append.mp hold with hold | hold
      · exact List.mem_append_left _ hold
      · exact List.mem_append_right _ (List.mem_cons_of_mem _ hold)
    · rw [List.mem_singleton.mp hx]
      exact List.mem_append_right _ List.mem_cons_self

theorem Filled.run (h : Run fillStep (fun n a => SizesAdd a ∧ SlotFits n a)
    (nodeInit m true root) as t) : Filled t as := by
  induction h with
  | nil => exact filled_start
  | snoc _ hc hstep ih => exact ih.step hc.1 hc.2 hstep

/-! ## The slot of a cell that fits exactly -/

/-- The slots have grown past `cell_offset`. -/
structure Overrun (n : Node) : Prop where
  slots : slotOffset n.size ≤ nodeSize
  past : n.cellOffset < slotOffset n.size
  tombstoneOffset : n.tombstoneOffset = 0

/-- An insert into a leaf without tombstones goes below `cell_offset`: from a
free space that has wrapped, a cell would start outside the page. -/
theorem fillStep_below (hstep : fillStep t a = some u) (hslots : slotOffset t.size ≤ nodeSize)
    (hlt : t.cellOffset < 2 ^ 32) (htomb : t.tombstoneOffset = 0) (hsize : SizesAdd a) :
    newCellSize a.1.length a.2.length ≤ freeSpace t ∧ slotOffset u.size ≤ nodeSize ∧
      u.size = t.size + 1 ∧ u.tombstoneOffset = 0 ∧
      u.cellOffset + newCellSize a.1.length a.2.length = t.cellOffset := by
  obtain ⟨idx, hs, hfull, hins⟩ := fillStep_eq_some hstep
  have hneed := newCellSize_eq hsize
  have hroom : newCellSize a.1.length a.2.length ≤ freeSpace t := by
    by_contra hless
    have hchain : Chain t.body t.tombstoneOffset [] := htomb
    simp only [nodeIsFull, if_pos (not_le.mp hless)] at hfull
    rw [noTombstoneFits_spec hchain (by norm_num)] at hfull
    simp at hfull
  have hidx : idx ≤ t.size := nodeBinSearch_le hs (by
    simp only [slotOffset, sizeofNode, nodeSize] at hslots
    omega)
  simp only [nodeInsertNonfull, nodeGetFreeOffset_below hroom] at hins
  obtain ⟨hgrown, hgrew, hco, htomb'⟩ := nodeInsertCell_header hins hidx hslots
  have hin := (nodeInsertCell_inside hins).2
  refine ⟨hroom, by rwa [hgrew], hgrew, htomb'.trans htomb, ?_⟩
  simp only [SizesAdd] at hsize
  simp only [sizeofCell] at hneed
  simp only [sub32, u32, nodeSize] at hin hco
  omega

/-- An insert that leaves no room for its slot overruns, and so does every
insert after it. -/
theorem Overrun.step (h : Overrun t) (hlt : t.cellOffset < 2 ^ 32) (hsize : SizesAdd a)
    (hstep : fillStep t a = some u) : Overrun u := by
  obtain ⟨-, hslots, hgrew, htomb, hco⟩ := fillStep_below hstep h.slots hlt h.tombstoneOffset hsize
  have hpast := h.past
  refine ⟨hslots, ?_, htomb⟩
  rw [hgrew]
  simp only [slotOffset] at hpast ⊢
  omega

theorem Filled.overrun (h : Filled t as) (hsize : SizesAdd a) (hfit : ¬ SlotFits t a)
    (hstep : fillStep t a = some u) : Overrun u := by
  obtain ⟨⟨⟨hlt, ts, hlayout, -⟩, -⟩, -, htomb, -, hlow, -⟩ := h
  obtain ⟨hroom, hslots, hgrew, htomb', hco⟩ :=
    fillStep_below hstep hlayout.slots_le hlt htomb hsize
  have hfree := freeSpace_eq hlow hlt
  simp only [SlotFits] at hfit
  refine ⟨hslots, ?_, htomb'⟩
  rw [hgrew]
  simp only [slotOffset] at hfree hlow ⊢
  omega

/-- In a leaf filled by inserts the slots stay below the cells and every entry is
found exactly when each insert left room for its slot. -/
theorem sound_iff_slots_fit (h : Run fillStep (fun _ a => SizesAdd a) (nodeInit m true root) as t) :
    Sound t as ↔
      Run fillStep (fun n a => SizesAdd a ∧ SlotFits n a) (nodeInit m true root) as t := by
  refine ⟨fun hsound => ?_, fun hrun => (Filled.run hrun).sound⟩
  have hcases : Run fillStep (fun n a => SizesAdd a ∧ SlotFits n a) (nodeInit m true root) as t ∨
      Overrun t := by
    clear hsound
    induction h with
    | nil => exact .inl .nil
    | @snoc as t u a _ hsize hstep ih =>
        rcases ih with hrun | hover
        · by_cases hfit : SlotFits t a
          · exact .inl (.snoc hrun ⟨hsize, hfit⟩ hstep)
          · exact .inr ((Filled.run hrun).overrun hsize hfit hstep)
        · have hpast := hover.past
          have hslots := hover.slots
          simp only [nodeSize] at hslots
          exact .inr (hover.step (by omega) hsize hstep)
  rcases hcases with hrun | hover
  · exact hrun
  · exact absurd hsound.1 (not_le.mpr hover.past)

theorem sound_iff_slots_fit_two_entries : ∃ t, t.size = 2 ∧
    Sound t [([2], [5]), ([1], [4, 4])] := by
  obtain ⟨t, hrun, hsize⟩ := exists_run_of_execute [([2], [5]), ([1], [4, 4])]
    (fun t : Node => decide (t.size = 2))
    (by decide +kernel : ((execute fillStep (fun n a => SizesAdd a ∧ SlotFits n a)
      (nodeInit zeroPage true true) _).any _) = true)
  exact ⟨t, of_decide_eq_true hsize,
    (sound_iff_slots_fit (hrun.mono fun _ _ h => h.1)).mpr hrun⟩

/-- A cell that takes all of an empty leaf lies over its own slot. -/
theorem exact_fit_overruns : ∃ t,
    Run fillStep (fun _ a => SizesAdd a) (nodeInit zeroPage true true)
      [([1], List.replicate 4023 2)] t ∧
    t.cellOffset < slotOffset t.size ∧ nodeGetCell t [1] = .ok none ∧
    ¬ Sound t [([1], List.replicate 4023 2)] := by
  obtain ⟨t, hrun, ht⟩ := exists_run_of_execute [([1], List.replicate 4023 2)]
    (fun t : Node => decide (t.cellOffset < slotOffset t.size ∧ nodeGetCell t [1] = .ok none))
    (by decide +kernel : ((execute fillStep (fun _ a => SizesAdd a)
      (nodeInit zeroPage true true) _).any _) = true)
  obtain ⟨hover, hget⟩ := of_decide_eq_true ht
  exact ⟨t, hrun, hover, hget, fun hsound => absurd hsound.1 (not_le.mpr hover)⟩

end IoScheduler
