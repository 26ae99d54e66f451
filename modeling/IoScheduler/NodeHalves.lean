import IoScheduler.NodeViews

/-!
# The two halves of a split page

A leaf is cut in two, and the half that keeps its place chains the moved cells
as tombstones. A branch loses no separator either, but its pivot's child and its
last child are left to neither half. Where a page is cut is decided by the bytes
of its first cells, and the half that stays has room for a new cell only below
its `cell_offset` or in the tombstone of its last cell.
-/
namespace IoScheduler
open Machine Bytes SearchTree

variable {n m new : Node} {i p k v : ℕ} {ts : List ℕ} {key : List UInt8}

/-- A valid leaf is cut in two valid leaves, whatever the sizes of its cells. -/
theorem leafNodeSplit_halves (h : ValidPage n) (hleaf : n.leaf = true) (hp : p < n.size)
    (m : Node) (root : Bool) : ∃ ts old new, Chain n.body n.tombstoneOffset ts ∧
      leafNodeSplit n (nodeInit m true root) p = .ok (old, new) ∧
      old.size = p ∧ old.size + new.size = n.size ∧
      offsets old = (offsets n).take p ∧ (∀ o ∈ (offsets n).take p, Kept n old o) ∧
      leafEntries old = (leafEntries n).take p ∧ leafEntries new = (leafEntries n).drop p ∧
      ValidPage old ∧ ValidPage new ∧
      Chain old.body old.tombstoneOffset (((offsets n).drop p).reverse ++ ts) ∧
      (∀ o ∈ (offsets n).drop p, tombstoneExtent old o = cellExtent n o) ∧
      ∀ t ∈ ts, tombstoneExtent old t = tombstoneExtent n t := by
  obtain ⟨hlt, ts, hlayout, hlow⟩ := h
  obtain ⟨old, new, hsplit, hs, hcells⟩ := leafNodeSplit_spec hp hlayout hleaf
    (nodeInit_fresh : Fresh (nodeInit m true root) true)
  obtain ⟨hold, hnew⟩ := hs.valid hlt hlow
  refine ⟨ts, old, new, hlayout.chain, hsplit, hs.size, ?_, hs.offsets_eq, hs.kept,
    hs.oldCells leaf_copies hleaf hlayout, ?_, hold, hnew, hs.layout.chain, hs.buried, hs.chained⟩
  · rw [hs.size, hs.newSize]
    omega
  · rw [leafEntries, leafEntries, hcells, List.map_drop]

/-- A leaf with one entry, cut before it. -/
theorem leafNodeSplit_halves_one_entry : ∃ n old new, leafEntries n = [(⟨[1]⟩, [2])] ∧
    leafNodeSplit n (nodeInit zeroPage true false) 0 = .ok (old, new) ∧ ValidPage old ∧
      ValidPage new ∧ leafEntries new = [(⟨[1]⟩, [2])] := by
  obtain ⟨n, -, hvalid, hleaf, hsize, -, -, -, hentries⟩ :=
    ValidPage.enter_below (nodeInit_valid : ValidPage (nodeInit zeroPage true true)) rfl
      (Nat.zero_le 0) (show [(1 : UInt8)].length + [(2 : UInt8)].length < 2 ^ 31 by decide)
      (by decide) (by decide)
  have hpos : 0 < n.size := hsize ▸ Nat.succ_pos _
  obtain ⟨ts, old, new, -, hsplit, -, -, -, -, -, hnew, hold, hvalidNew, -⟩ :=
    leafNodeSplit_halves hvalid hleaf hpos zeroPage false
  exact ⟨n, old, new, hentries, hsplit, hold, hvalidNew, hnew.trans hentries⟩

/-! ## Branches -/

/-- The separators and the children on the two sides of the pivot. -/
structure CutAtPivot (n old new : Node) (p : ℕ) : Prop where
  keys : keys old = (keys n).take p
  children : kids old.rightmostPid (branchCells old) =
    (kids n.rightmostPid (branchCells n)).take (p + 1)
  newKeys : IoScheduler.keys new = (IoScheduler.keys n).drop (p + 1)
  newChildren : kids new.rightmostPid (branchCells new) =
    (kids n.rightmostPid (branchCells n)).drop (p + 1)

theorem length_kids {P K : Type*} {cells : List (K × P)} {last : P} :
    (kids last cells).length = cells.length + 1 := by
  rw [kids, List.length_append, List.length_map, List.length_singleton]

theorem take_kids {P K : Type*} {cells : List (K × P)} {last x : P} {c : K × P}
    (hc : cells[p]? = some c) :
    (cells.take p).map Prod.snd ++ [x] = (kids last cells).take (p + 1) ↔ x = c.2 := by
  obtain ⟨hlt, rfl⟩ := List.getElem?_eq_some_iff.mp hc
  have htake : (kids last cells).take (p + 1) =
      (cells.take p).map Prod.snd ++ [(cells[p]).2] := by
    rw [kids, List.take_append_of_le_length (by rw [List.length_map]; exact hlt), ← List.map_take,
      List.take_succ_eq_append_getElem hlt, List.map_append]
    rfl
  rw [htake, List.append_right_inj, List.singleton_inj]

theorem drop_kids {P K : Type*} {cells : List (K × P)} {last x : P} (hp : p ≤ cells.length) :
    (cells.drop p).map Prod.snd ++ [x] = (kids last cells).drop p ↔ x = last := by
  rw [kids, List.drop_append_of_le_length (by rw [List.length_map]; exact hp), ← List.map_drop,
    List.append_right_inj, List.singleton_inj]

/-- The pivot's child does not become the last child of the left half, and the
last child of the page does not become that of the right half. -/
theorem internalNodeSplit_children_iff (h : Layout n n.size (offsets n) ts)
    (hleaf : n.leaf = false) (hp : 0 < p) (hq : p + 1 < n.size) (m : Node) (root : Bool) :
    ∃ old new, internalNodeSplit n (nodeInit m false root) p = .ok (old, new) ∧
      (CutAtPivot n old new p ↔
        n.rightmostPid = cellPid n (cellPtr n p) ∧ n.rightmostPid = 0) := by
  obtain ⟨old, new, hsplit, hs, hcells⟩ := internalNodeSplit_spec hp hq h hleaf
    (nodeInit_fresh : Fresh (nodeInit m false root) false)
  have hold : branchCells old = (branchCells n).take p := hs.oldCells internal_copies hleaf h
  have hnew : branchCells new = (branchCells n).drop (p + 1) := by
    rw [branchCells, branchCells, hcells, List.map_drop]
  have hkeys : keys old = (keys n).take p := by
    rw [← branchCells_keys, ← branchCells_keys, hold, List.map_take]
  have hnewKeys : keys new = (keys n).drop (p + 1) := by
    rw [← branchCells_keys, ← branchCells_keys, hnew, List.map_drop]
  have hlast : old.rightmostPid = n.rightmostPid := hs.rightmostPid
  have hnewLast : new.rightmostPid = 0 := hs.newRightmostPid
  have hpivot : (branchCells n)[p]? = some (separatorAt n (cellPtr n p)) := by
    rw [branchCells, List.getElem?_map, getElem?_offsets, if_pos (by omega)]
    rfl
  have hlen : p + 1 ≤ (branchCells n).length := by
    rw [length_branchCells]
    omega
  have hleft : kids old.rightmostPid (branchCells old) =
      (kids n.rightmostPid (branchCells n)).take (p + 1) ↔
        n.rightmostPid = cellPid n (cellPtr n p) := by
    rw [hold, hlast]
    exact take_kids hpivot
  have hright : kids new.rightmostPid (branchCells new) =
      (kids n.rightmostPid (branchCells n)).drop (p + 1) ↔ 0 = n.rightmostPid := by
    rw [hnew, hnewLast]
    exact drop_kids hlen
  refine ⟨old, new, hsplit, fun hcut => ?_, fun hnull => ?_⟩
  · exact ⟨hleft.mp hcut.children, (hright.mp hcut.newChildren).symm⟩
  · exact ⟨hkeys, hleft.mpr hnull.1, hnewKeys, hright.mpr hnull.2.symm⟩

/-- A branch is filled with separators of one byte. -/
theorem exists_branch (cs : List (UInt8 × ℕ)) (last : ℕ) (h : cs.length ≤ 100)
    (hpid : ∀ c ∈ cs, c.2 < 2 ^ 64) : ∃ n, ValidPage n ∧ n.leaf = false ∧
      n.size = cs.length ∧ n.cellOffset + 20 * cs.length = nodeSize ∧ n.rightmostPid = last ∧
      branchCells n = cs.map fun c => (⟨[c.1]⟩, c.2) := by
  induction cs using List.reverseRecOn with
  | nil =>
      obtain ⟨hlt, ts, hlayout, hlow⟩ :=
        (nodeInit_valid : ValidPage (nodeInit zeroPage false false))
      exact ⟨{ nodeInit zeroPage false false with rightmostPid := last },
        ⟨hlt, ts, hlayout.congr rfl (fun o ho => ⟨rfl, hlayout.whole o ho⟩) fun _ _ => Agree.rfl,
          hlow⟩, rfl, rfl, rfl, rfl, rfl⟩
  | append_singleton cs c ih =>
      rw [List.length_append, List.length_singleton] at h ⊢
      obtain ⟨n, hvalid, hleaf, hsize, hco, hlast, hcells⟩ :=
        ih (by omega) fun x hx => hpid x (List.mem_append_left _ hx)
      have hneed : newCellSize [c.1].length 0 = 20 := show newCellSize 1 0 = 20 by decide
      have hlen : (branchCells n).length ≤ n.size := length_branchCells.le
      simp only [nodeSize] at hco
      obtain ⟨-, m, -, -, hm, hmleaf, hmsize, hmco, hmlast, hmcells⟩ :=
        hvalid.separator_below hleaf le_rfl (show [c.1].length < 2 ^ 31 by simp)
          (hpid c (List.mem_append_right _ (List.mem_singleton_self c)))
          (by simp only [nodeSize]; omega)
          (by rw [hneed, hsize]; simp only [slotOffset, sizeofNode]; omega)
      refine ⟨m, hm, hmleaf, by omega, by simp only [nodeSize]; omega, hmlast.trans hlast, ?_⟩
      rw [hmcells, List.take_of_length_le hlen, List.drop_eq_nil_of_le hlen, hcells,
        List.map_append]
      rfl

/-- Three separators, all children null. -/
theorem internalNodeSplit_children_iff_null : ∃ n old new,
    keys n = [⟨[1]⟩, ⟨[2]⟩, ⟨[3]⟩] ∧
      internalNodeSplit n (nodeInit zeroPage false false) 1 = .ok (old, new) ∧
      CutAtPivot n old new 1 := by
  obtain ⟨n, ⟨-, ts, hlayout, -⟩, hleaf, hsize, -, hlast, hcells⟩ :=
    exists_branch [(1, 0), (2, 0), (3, 0)] 0 (by decide) (by decide)
  obtain ⟨old, new, hsplit, hiff⟩ := internalNodeSplit_children_iff hlayout hleaf
    (show 0 < 1 by decide) (show 1 + 1 < n.size by rw [hsize]; decide) zeroPage false
  have hpivot : (branchCells n)[1]? = some (separatorAt n (cellPtr n 1)) := by
    rw [branchCells, List.getElem?_map, getElem?_offsets, if_pos (by rw [hsize]; decide)]
    rfl
  have hnull : cellPid n (cellPtr n 1) = 0 := by
    rw [hcells] at hpivot
    exact (congrArg Prod.snd (Option.some.inj hpivot)).symm
  refine ⟨n, old, new, ?_, hsplit, hiff.mpr ⟨hlast.trans hnull.symm, hlast⟩⟩
  rw [← branchCells_keys, hcells]
  rfl

/-- With three separators and four children the split at the second one gives
the right half a null last child and leaves the second child to neither half. -/
theorem pivot_child_lost : ∃ n old new, n.leaf = false ∧ keys n = [⟨[1]⟩, ⟨[2]⟩, ⟨[3]⟩] ∧
    kids n.rightmostPid (branchCells n) = [10, 11, 12, 13] ∧
    internalNodeSplit n (nodeInit zeroPage false false) 1 = .ok (old, new) ∧
    kids old.rightmostPid (branchCells old) = [10, 13] ∧
    kids new.rightmostPid (branchCells new) = [12, 0] ∧ ¬ CutAtPivot n old new 1 := by
  obtain ⟨n, ⟨-, ts, hlayout, -⟩, hleaf, hsize, -, hlast, hcells⟩ :=
    exists_branch [(1, 10), (2, 11), (3, 12)] 13 (by decide) (by decide)
  obtain ⟨old, new, hsplit, hs, hmoved⟩ := internalNodeSplit_spec (show 0 < 1 by decide)
    (show 1 + 1 < n.size by rw [hsize]; decide) hlayout hleaf
    (nodeInit_fresh : Fresh (nodeInit zeroPage false false) false)
  have hold : branchCells old = (branchCells n).take 1 := hs.oldCells internal_copies hleaf hlayout
  have hnew : branchCells new = (branchCells n).drop 2 := by
    rw [branchCells, branchCells, hmoved, List.map_drop]
  have hlastOld : old.rightmostPid = 13 := hs.rightmostPid.trans hlast
  have hlastNew : new.rightmostPid = 0 := hs.newRightmostPid
  have hkids : kids n.rightmostPid (branchCells n) = [10, 11, 12, 13] := by
    rw [hcells, hlast]
    rfl
  have hkidsNew : kids new.rightmostPid (branchCells new) = [12, 0] := by
    rw [hnew, hcells, hlastNew]
    rfl
  refine ⟨n, old, new, hleaf, ?_, hkids, hsplit, ?_, hkidsNew, fun hcut => ?_⟩
  · rw [← branchCells_keys, hcells]
    rfl
  · rw [hold, hcells, hlastOld]
    rfl
  · have hchildren := hcut.newChildren
    rw [hkids, hkidsNew] at hchildren
    exact absurd hchildren (by decide)

end IoScheduler
