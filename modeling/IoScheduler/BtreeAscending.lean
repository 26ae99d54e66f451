import IoScheduler.BtreeOutcomes
import IoScheduler.NodePacked

/-!
# Ascending keys of equal sizes

Keys that ascend go to the last leaf, and the separators of its halves to the end
of the root. When all cells have one size, and one that needs no alignment, the
pages they go to are packed, and how many calls the two levels hold is a product
of what a page holds: every leaf but the last keeps the cells it is cut at. The
call after those splits the root, and a leaf is then found in two places.
-/
namespace IoScheduler
open Machine Bytes SearchTree Transition

variable {t t' t₁ t₂ : Btree} {c : Crumb} {n m : Node} {l pid cell len i k v d fuel : ℕ}
  {ks es seps : List Key} {x : Key} {key value : List UInt8} {above : List ℕ}
  {a : List UInt8 × List UInt8} {as : List (List UInt8 × List UInt8)} {memory : ℕ → Node}

/-! ## Pages of cells of one size -/

/-- How many cells of a size, each with its slot, fill a page. -/
def pageCells (cell : ℕ) : ℕ := (nodeSize - sizeofNode) / (cell + 4)

/-- Where a full page of such cells is cut. -/
def cutAt (cell : ℕ) : ℕ := (halfPage + cell - 1) / cell

/-- A cell with its slot takes at most a quarter of a page, and no alignment. -/
structure CellSize (cell : ℕ) : Prop where
  aligned : 4 ∣ cell
  header : sizeofCell ≤ cell
  quarter : cell + 4 ≤ quarterPage

theorem le_pageCells : i ≤ pageCells cell ↔ slotOffset i + cell * i ≤ nodeSize := by
  rw [pageCells, Nat.le_div_iff_mul_le (show 0 < cell + 4 by omega), Nat.mul_add,
    Nat.mul_comm i cell]
  simp only [slotOffset, nodeSize, sizeofNode]
  omega

/-- With a page so full that the next cell fits but not its slot, 337 would divide
what a cell and a slot take. -/
theorem CellSize.full_iff (h : CellSize cell) :
    nodeSize < slotOffset i + cell * (i + 1) ↔ pageCells cell ≤ i := by
  have hne : (cell + 4) * (i + 1) ≠ 4044 := by
    obtain ⟨q, hq⟩ := h.aligned
    have hquarter := h.quarter
    have hheader := h.header
    simp only [quarterPage, nodeSize, sizeofNode, sizeofCell] at hquarter hheader
    intro heq
    have hdvd : q + 1 ∣ 1011 := ⟨i + 1, by rw [hq] at heq; linarith⟩
    have hmem : q + 1 ∈ Nat.divisors 1011 := Nat.mem_divisors.mpr ⟨hdvd, by decide⟩
    rw [show Nat.divisors 1011 = {1, 3, 337, 1011} by decide +kernel] at hmem
    simp only [Finset.mem_insert, Finset.mem_singleton] at hmem
    omega
  have hfour : 4 ∣ (cell + 4) * (i + 1) :=
    Dvd.dvd.mul_right ((Nat.dvd_add_right h.aligned).mpr (dvd_refl 4)) _
  have hle : i + 1 ≤ pageCells cell ↔ slotOffset (i + 1) + cell * (i + 1) ≤ nodeSize := le_pageCells
  rw [Nat.add_mul] at hne hfour
  simp only [slotOffset, nodeSize, sizeofNode] at hle ⊢
  omega

theorem CellSize.cut (h : CellSize cell) : 0 < cutAt cell ∧ cutAt cell < pageCells cell ∧
    cell * (cutAt cell - 1) < halfPage ∧ halfPage ≤ cell * cutAt cell := by
  have hquarter := h.quarter
  have hheader := h.header
  simp only [quarterPage, nodeSize, sizeofNode, sizeofCell] at hquarter hheader
  have hdiv := Nat.div_add_mod (halfPage + cell - 1) cell
  have hmod := Nat.mod_lt (halfPage + cell - 1) (show 0 < cell by omega)
  rw [show (halfPage + cell - 1) / cell = cutAt cell from rfl] at hdiv
  simp only [halfPage, nodeSize, sizeofNode] at hdiv hmod ⊢
  have hpos : 0 < cutAt cell := by
    rcases Nat.eq_zero_or_pos (cutAt cell) with hzero | hpos
    · rw [hzero] at hdiv
      omega
    · exact hpos
  obtain ⟨p, hp⟩ : ∃ p, cutAt cell = p + 1 := ⟨cutAt cell - 1, by omega⟩
  rw [hp, Nat.mul_succ] at hdiv
  have hlow : cell * p < 1992 := by omega
  refine ⟨hpos, ?_, ?_, ?_⟩
  · have hfits : p + 2 ≤ pageCells cell := by
      rw [le_pageCells]
      simp only [slotOffset, nodeSize, sizeofNode, Nat.mul_add]
      rcases Nat.lt_or_ge cell 700 with hsmall | hlarge
      · have hmul : 16 * p ≤ cell * p := Nat.mul_le_mul_right p hheader
        omega
      · have hmul : 700 * p ≤ cell * p := Nat.mul_le_mul_right p hlarge
        omega
    omega
  · rw [hp, Nat.add_sub_cancel]
    exact hlow
  · rw [hp, Nat.mul_succ]
    omega

theorem CellSize.newCellSize_eq (h : CellSize cell) {keySize valueSize : ℕ}
    (hcell : sizeofCell + (keySize + valueSize) = cell) : newCellSize keySize valueSize = cell := by
  obtain ⟨q, hq⟩ := h.aligned
  have hquarter := h.quarter
  simp only [quarterPage, nodeSize, sizeofNode] at hquarter
  simp only [sizeofCell] at hcell
  rw [IoScheduler.newCellSize_eq (show keySize + valueSize < 2 ^ 31 by omega), sizeofCell]
  omega

variable {keySize valueSize : ℕ}

theorem Packed.isFull_eq (h : Packed n len cell ks) (hc : CellSize cell)
    (hle : ks.length ≤ pageCells cell) (hneed : newCellSize keySize valueSize = cell) :
    nodeIsFull n keySize valueSize = .ok (decide (pageCells cell ≤ ks.length)) := by
  rw [h.isFull (le_pageCells.mp hle) hneed]
  exact congrArg Except.ok (decide_eq_decide.mpr hc.full_iff)

theorem Packed.room (hlt : ks.length < pageCells cell) :
    slotOffset ks.length + 4 + cell * (ks.length + 1) ≤ nodeSize := by
  have hle := le_pageCells.mp (Nat.succ_le_of_lt hlt)
  simp only [slotOffset] at hle ⊢
  omega

theorem Packed.cellFits (h : Packed n len cell ks) (hlt : ks.length < pageCells cell)
    (hneed : newCellSize keySize valueSize = cell) : CellFits n keySize valueSize := by
  have hfree := h.freeSpace (le_pageCells.mp hlt.le)
  have hroom := Packed.room hlt
  rw [Nat.mul_succ] at hroom
  left
  rw [hneed]
  omega

theorem Packed.cellBytes_eq (h : Packed n len cell ks) {os : List ℕ} (hos : os ⊆ offsets n) :
    cellBytes n os = cell * os.length := by
  rw [cellBytes, List.map_congr_left (g := fun _ => cell) fun o ho => (h.cells o (hos ho)).2,
    List.map_const', List.sum_replicate, smul_eq_mul, Nat.mul_comm]

theorem Packed.partition_eq (h : Packed n len cell ks) (hc : CellSize cell)
    (hfull : ks.length = pageCells cell) : nodePartitionIdx n = cutAt cell := by
  obtain ⟨hpos, hlt, hlow, hhigh⟩ := hc.cut
  exact h.partition hpos (hfull ▸ hlt) hlow hhigh

theorem Packed.reachesHalf (h : Packed n len cell ks) (hc : CellSize cell)
    (hfull : ks.length = pageCells cell) : ReachesHalf n := by
  obtain ⟨-, hlt, -, -⟩ := hc.cut
  rw [← h.valid.partition_lt_iff, h.partition_eq hc hfull, h.size, hfull]
  exact hlt

theorem Packed.fitsRight (h : Packed n len cell ks) (hc : CellSize cell)
    (hfull : ks.length = pageCells cell) (hneed : newCellSize keySize valueSize = cell) :
    FitsRight n keySize valueSize := by
  obtain ⟨hpos, hlt, -, -⟩ := hc.cut
  have hroom := le_pageCells.mp (le_refl (pageCells cell))
  rw [FitsRight, h.partition_eq hc hfull, h.cellBytes_eq (List.drop_subset _ _), List.length_drop,
    length_offsets, h.size, hfull, hneed]
  have hone : cell * (pageCells cell - cutAt cell) + cell ≤ cell * pageCells cell := by
    rw [← Nat.mul_succ]
    exact Nat.mul_le_mul_left _ (by omega)
  simp only [slotOffset] at hroom ⊢
  omega

/-! ## The way to the last leaf -/

/-- The root over the last leaf `l`, with its separators. -/
structure RootAbove (t : Btree) (k l : ℕ) (seps : List Key) : Prop where
  bound : 0 < t.root ∧ t.root < t.brk
  leaf : (t.node t.root).leaf = false
  packed : Packed (t.node t.root) k (sizeofCell + k) seps
  last : (t.node t.root).rightmostPid = l

/-- The last leaf `l` with its keys, which is the root or under it. -/
structure RightEdge (t : Btree) (k v l : ℕ) (es seps : List Key) (above : List ℕ) : Prop where
  bound : 0 < l ∧ l < t.brk
  leaf : (t.node l).leaf = true
  packed : Packed (t.node l) k (sizeofCell + (k + v)) es
  up : (above = [] ∧ l = t.root ∧ seps = []) ∨ above = [t.root] ∧ RootAbove t k l seps

/-- Keys of `k` and values of `v` bytes, neither of which needs alignment, in cells
of at most a quarter page. -/
structure EqualSizes (k v : ℕ) : Prop where
  leaf : CellSize (sizeofCell + (k + v))
  branch : CellSize (sizeofCell + k)

theorem equalSizes (hk : 4 ∣ k) (hv : 4 ∣ v) (hquarter : AtMostQuarter (k + v)) :
    EqualSizes k v := by
  simp only [AtMostQuarter, quarterPage, nodeSize, sizeofNode, sizeofCell] at hquarter
  constructor
  · refine ⟨?_, Nat.le_add_right _ _, ?_⟩
    · simp only [sizeofCell]
      omega
    · simp only [quarterPage, nodeSize, sizeofNode, sizeofCell]
      omega
  · refine ⟨?_, Nat.le_add_right _ _, ?_⟩
    · simp only [sizeofCell]
      omega
    · simp only [quarterPage, nodeSize, sizeofNode, sizeofCell]
      omega

theorem EqualSizes.lt (h : EqualSizes k v) : k + v < 2 ^ 31 := by
  have hquarter := h.leaf.quarter
  simp only [quarterPage, nodeSize, sizeofNode, sizeofCell] at hquarter
  omega

theorem RightEdge.descend (h : RightEdge t k v l es seps above) (hkey : key.length < 2 ^ 31)
    (hk : k < 2 ^ 31) (hlt : ∀ x ∈ seps, x < ⟨key⟩) :
    IoScheduler.descend t key 15 [] t.root = .ok (some (l :: above)) := by
  have hleaf : ∀ room above, IoScheduler.descend t key room above l = .ok (some (l :: above)) := by
    intro room above
    rw [IoScheduler.descend, Btree.deref, if_pos h.bound]
    refine bind_eq_ok.mpr ⟨t.node l, rfl, ?_⟩
    rw [if_pos h.leaf]
  rcases h.up with ⟨rfl, hroot, -⟩ | ⟨rfl, hup⟩
  · rw [← hroot]
    exact hleaf 15 []
  · have hchild : childAt (t.node t.root) seps.length = .ok l := by
      rw [childAt, if_neg (by rw [hup.packed.size]; exact lt_irrefl _), hup.last]
      exact bind_eq_ok.mpr ⟨(), assert_eq_ok.mpr h.bound.1.ne', rfl⟩
    rw [IoScheduler.descend, Btree.deref, if_pos hup.bound]
    refine bind_eq_ok.mpr ⟨t.node t.root, rfl, ?_⟩
    rw [if_neg (by rw [hup.leaf]; exact Bool.false_ne_true)]
    exact bind_eq_ok.mpr ⟨_, hup.packed.search hkey hk hlt,
      bind_eq_ok.mpr ⟨l, hchild, hleaf 14 [t.root]⟩⟩

/-- The separator of a full last leaf. -/
theorem RightEdge.separator (h : RightEdge t k v l es seps above) (hs : EqualSizes k v)
    (hfull : es.length = pageCells (sizeofCell + (k + v))) :
    ∃ x, es[cutAt (sizeofCell + (k + v))]? = some x ∧ x.bytes.length = k ∧
      keyAt (t.node l) (nodePartitionIdx (t.node l)) = x.bytes := by
  obtain ⟨-, hlt, -, -⟩ := hs.leaf.cut
  rw [← hfull] at hlt
  obtain ⟨x, hx⟩ : ∃ x, es[cutAt (sizeofCell + (k + v))]? = some x :=
    ⟨_, List.getElem?_eq_getElem hlt⟩
  have hat : keyAt (t.node l) (cutAt (sizeofCell + (k + v))) = x.bytes ∧ x.bytes.length = k :=
    h.packed.keyAt hx
  exact ⟨x, hx, hat.2, by rw [h.packed.partition_eq hs.leaf hfull, hat.1]⟩

/-- A key above all others finds room as long as a full leaf's separator does. -/
theorem RightEdge.hasRoom (h : RightEdge t k v l es seps above) (hs : EqualSizes k v)
    (hkey : key.length = k) (hvalue : value.length = v) (hseps : ∀ x ∈ seps, x < ⟨key⟩)
    (hes : ∀ x ∈ es, x < ⟨key⟩) (hle : es.length ≤ pageCells (sizeofCell + (k + v)))
    (hopen : es.length = pageCells (sizeofCell + (k + v)) →
      seps.length < pageCells (sizeofCell + k)) :
    HasRoom t key value ∧ CutsLeafInside t key value := by
  have hlt := hs.lt
  have hneed : newCellSize key.length value.length = sizeofCell + (k + v) :=
    hs.leaf.newCellSize_eq (by rw [hkey, hvalue])
  have hisFull := h.packed.isFull_eq hs.leaf hle hneed
  have hdescend := h.descend (show key.length < 2 ^ 31 by omega) (by omega) hseps
  have hpath : ∀ pid above', IoScheduler.descend t key 15 [] t.root = .ok (some (pid :: above')) →
      pid = l ∧ above' = above := fun pid above' h' => by
    obtain ⟨rfl, rfl⟩ := List.cons.inj (Option.some.inj (Except.ok.inj (hdescend.symm.trans h')))
    exact ⟨rfl, rfl⟩
  have hfull : nodeIsFull (t.node l) key.length value.length = .ok true →
      es.length = pageCells (sizeofCell + (k + v)) := fun hyes =>
    hle.antisymm (of_decide_eq_true (Except.ok.inj (hisFull.symm.trans hyes)))
  constructor
  · intro pid above' h'
    obtain ⟨rfl, rfl⟩ := hpath pid above' h'
    constructor
    · intro hno
      have hfree := of_decide_eq_false (Except.ok.inj (hisFull.symm.trans hno))
      exact h.packed.cellFits (not_le.mp hfree) hneed
    · intro hyes
      obtain ⟨x, hx, hxlen, hxkey⟩ := h.separator hs (hfull hyes)
      have hless : keyCompare (keyAt (t.node pid) (nodePartitionIdx (t.node pid))) key < 0 := by
        rw [hxkey]
        exact (keyCompare_spec (by omega) (by omega)).1.mpr (hes x (List.mem_of_getElem? hx))
      constructor
      · rw [HalfFits, if_pos hless]
        exact h.packed.fitsRight hs.leaf (hfull hyes) hneed
      · intro q hq
        rcases h.up with ⟨rfl, -⟩ | ⟨rfl, hup⟩
        · cases hq
        · obtain rfl : t.root = q := Option.some.inj hq
          have hroom := hopen (hfull hyes)
          have hsep : newCellSize x.bytes.length 0 = sizeofCell + k :=
            hs.branch.newCellSize_eq (by rw [hxlen]; rfl)
          rw [hxkey, hup.packed.isFull_eq hs.branch hroom.le hsep,
            decide_eq_false (not_le.mpr hroom)]
          exact ⟨rfl, hup.packed.cellFits hroom hsep⟩
  · intro pid above' h' hyes
    obtain ⟨rfl, rfl⟩ := hpath pid above' h'
    exact h.packed.reachesHalf hs.leaf (hfull hyes)

/-! ## One call -/

/-- The pages hold no more than they can, and the leaves before the last one what
they were cut at. -/
structure EdgeAt (t : Btree) (k v : ℕ) (es seps : List Key) (count : ℕ) : Prop where
  edge : ∃ l above, RightEdge t k v l es seps above
  cells : es.length ≤ pageCells (sizeofCell + (k + v))
  separators : seps.length ≤ pageCells (sizeofCell + k)
  sorted : (seps ++ es.drop 1).Pairwise (· < ·)
  count : cutAt (sizeofCell + (k + v)) * seps.length + es.length = count

theorem Packed.enter (h : Packed (t.node pid) k (sizeofCell + (k + v)) es) (hs : EqualSizes k v)
    (hleaf : (t.node pid).leaf = true) (hkey : key.length = k) (hvalue : value.length = v)
    (hlt : es.length < pageCells (sizeofCell + (k + v))) (hless : ∀ x ∈ es, x < ⟨key⟩)
    (hins : insertLeaf t pid key value = .ok t') :
    Packed (t'.node pid) k (sizeofCell + (k + v)) (es ++ [⟨key⟩]) ∧ (t'.node pid).leaf = true := by
  have hsmall := hs.lt
  obtain ⟨off, m, hget, -, hcell, hm, hmleaf⟩ := h.append_entry hleaf hkey
    (show sizeofCell + (k + value.length) = _ by rw [hvalue])
    (hs.leaf.newCellSize_eq (by rw [hkey, hvalue])) (Packed.room hlt)
  have hsearch := h.search (show key.length < 2 ^ 31 by omega) (by omega) hless
  obtain ⟨n', off', found, idx, m', hget', -, hsearch', hcell', rfl⟩ := insertLeaf_eq_ok hins
  obtain ⟨rfl, rfl⟩ := Prod.mk.inj (Except.ok.inj (hget.symm.trans hget'))
  obtain ⟨rfl, rfl⟩ := Prod.mk.inj (Except.ok.inj (hsearch.symm.trans hsearch'))
  obtain rfl := Except.ok.inj (hcell.symm.trans hcell')
  rw [show ∀ count, ({ t.set pid m with count } : Btree).node pid = (t.set pid m).node pid from
    fun _ => rfl, Btree.set_node_self]
  exact ⟨hm, hmleaf⟩

theorem Packed.right_half {new old new' : Node} {p : ℕ} (h : Packed n len cell ks)
    (hleaf : n.leaf = true) (hp : p < ks.length) (hnew : Fresh new true)
    (hsplit : leafNodeSplit n new p = .ok (old, new')) :
    Packed new' len cell (ks.drop p) ∧ new'.leaf = true := by
  obtain ⟨old₁, new₁, hsplit₁, hpacked, hnewLeaf, -⟩ := h.split_leaf hleaf hp hnew
  obtain ⟨-, rfl⟩ := Prod.mk.inj (Except.ok.inj (hsplit₁.symm.trans hsplit))
  exact ⟨hpacked, hnewLeaf⟩

/-- The last leaf has room. -/
theorem RightEdge.enter (h : RightEdge t k v l es seps above) (hs : EqualSizes k v)
    (hkey : key.length = k) (hvalue : value.length = v) (hes : ∀ x ∈ es, x < ⟨key⟩)
    (hlt : es.length < pageCells (sizeofCell + (k + v)))
    (hins : insertLeaf t l key value = .ok t') :
    RightEdge t' k v l (es ++ [⟨key⟩]) seps above := by
  obtain ⟨hpacked, hleaf⟩ := h.packed.enter hs h.leaf hkey hvalue hlt hes hins
  obtain ⟨hroot, hbrk, -⟩ := insertLeaf_fields hins
  refine ⟨by rw [hbrk]; exact h.bound, hleaf, hpacked, ?_⟩
  rw [hroot]
  refine h.up.imp id fun ⟨habove, hup⟩ => ⟨habove, ?_⟩
  have hne : t.root ≠ l := by
    intro heq
    have hleaf := h.leaf
    rw [← heq, hup.leaf] at hleaf
    cases hleaf
  have hpage := insertLeaf_node_of_ne hins hne
  refine ⟨by rw [hroot, hbrk]; exact hup.bound, ?_, ?_, ?_⟩
  · rw [hroot, hpage]
    exact hup.leaf
  · rw [hroot, hpage]
    exact hup.packed
  · rw [hroot, hpage]
    exact hup.last

/-- A separator above those of the page goes to its end. -/
theorem Packed.link (h : Packed n k (sizeofCell + k) seps) (hs : EqualSizes k v)
    (hleaf : n.leaf = false) (hkey : key.length = k)
    (hlt : seps.length < pageCells (sizeofCell + k)) {k' : Node} {off child : ℕ}
    (hchild : child < 2 ^ 64) (hget : nodeGetFreeOffset n key.length 0 = .ok (k', off))
    (hins : nodeInsertInternalCell k' off seps.length key child = .ok m) :
    Packed m k (sizeofCell + k) (seps ++ [⟨key⟩]) ∧ m.leaf = false ∧
      m.rightmostPid = n.rightmostPid := by
  obtain ⟨off', m', hget', -, hins', hm, hmleaf, hlast⟩ := h.append_separator hleaf hkey rfl
    (hs.branch.newCellSize_eq (by rw [hkey]; rfl)) hchild (Packed.room hlt)
  obtain ⟨rfl, rfl⟩ := Prod.mk.inj (Except.ok.inj (hget'.symm.trans hget))
  obtain rfl := Except.ok.inj (hins'.symm.trans hins)
  exact ⟨hm, hmleaf, hlast⟩

/-- A full last leaf is cut: the half to the right is the last leaf then, and the
separator is at the end of a root with room, or in a new root. -/
theorem RightEdge.split (h : RightEdge t k v l es seps above) (hs : EqualSizes k v)
    (hkey : key.length = k) (hes : ∀ x ∈ es, x < ⟨key⟩)
    (hsorted : (seps ++ es.drop 1).Pairwise (· < ·))
    (hfull : es.length = pageCells (sizeofCell + (k + v)))
    (hopen : seps.length < pageCells (sizeofCell + k)) (hplan : SplitPlanned t t₁ d l c)
    (hc : c = splitCrumb t l key) (hsplit : splitPath t₁ c above = .ok t₂) :
    c.fNode = c.newNode ∧ t₂.brk ≤ t₁.brk + 1 ∧ ∃ x ∈ es,
      (seps ++ [x] ++ (es.drop (cutAt (sizeofCell + (k + v)))).drop 1).Sublist
        (seps ++ es.drop 1) ∧
      RightEdge t₂ k v c.newNode (es.drop (cutAt (sizeofCell + (k + v)))) (seps ++ [x])
        [t₂.root] := by
  obtain ⟨x, hx, hxlen, hxkey⟩ := h.separator hs hfull
  obtain ⟨hpos, hcutlt, -, -⟩ := hs.leaf.cut
  have hsmall := hs.lt
  have hmem : x ∈ es := List.mem_of_getElem? hx
  have hnode := hplan.node
  have hnewNode := hplan.newNode
  have hbrk := hplan.brk
  have hbound := h.bound
  have hpage := hplan.oldPage h.bound.2
  have hcut : c.partitionIdx = cutAt (sizeofCell + (k + v)) := by
    rw [hplan.partitionIdx, h.packed.partition_eq hs.leaf hfull]
  have hpk : partitionKey t₁ c = x.bytes := by rw [hplan.partitionKey_eq h.bound.2, hxkey]
  have hleaf₁ : (t₁.node c.node).leaf = true := by rw [hpage, h.leaf]
  have hchild : c.node < 2 ^ 64 := by
    have hle := hplan.valid.bound
    omega
  -- the separator is above those of the root, and goes with the cells behind it
  have hdrop : (es.drop (cutAt (sizeofCell + (k + v)))) =
      x :: (es.drop (cutAt (sizeofCell + (k + v)))).drop 1 := by
    obtain ⟨hlt, rfl⟩ := List.getElem?_eq_some_iff.mp hx
    rw [List.drop_drop]
    exact List.drop_eq_getElem_cons hlt
  have hsub : (es.drop (cutAt (sizeofCell + (k + v)))).Sublist (es.drop 1) := by
    obtain ⟨j, hj⟩ : ∃ j, cutAt (sizeofCell + (k + v)) = 1 + j :=
      ⟨cutAt (sizeofCell + (k + v)) - 1, by omega⟩
    rw [hj, ← List.drop_drop]
    exact List.drop_sublist _ _
  have hseps : ∀ z ∈ seps, z < ⟨x.bytes⟩ := fun z hz =>
    (List.pairwise_append.mp hsorted).2.2 z hz x (hsub.subset (hdrop ▸ List.mem_cons_self))
  refine ⟨?_, ?_⟩
  · rw [hc]
    simp only [splitCrumb]
    rw [hxkey]
    exact if_pos ((keyCompare_spec (by omega) (by omega)).1.mpr (hes x hmem))
  refine (?_ : t₂.brk ≤ t₁.brk + 1 ∧ RightEdge t₂ k v c.newNode
    (es.drop (cutAt (sizeofCell + (k + v)))) (seps ++ [x]) [t₂.root]).imp id fun hedge =>
      ⟨x, hmem, ?_, hedge⟩
  swap
  · rw [List.append_assoc, List.singleton_append, ← hdrop]
    exact hsub.append_left seps
  have hhalf : ∀ {n page old new : Node}, Packed n k (sizeofCell + (k + v)) es → n.leaf = true →
      Fresh page true → leafNodeSplit n page c.partitionIdx = .ok (old, new) →
        Packed new k (sizeofCell + (k + v)) (es.drop (cutAt (sizeofCell + (k + v)))) ∧
          new.leaf = true := fun hn hleaf hfresh hsplit =>
    hn.right_half hleaf (by rw [hfull]; exact hcutlt) hfresh (hcut ▸ hsplit)
  rcases h.up with ⟨rfl, hroot, rfl⟩ | ⟨rfl, hup⟩
  · -- a new root over the two halves
    obtain ⟨r, old, new, hr⟩ := splitPath_nil_eq_ok hsplit hplan.isFull (by omega) (by omega)
      (by omega) hleaf₁
    obtain ⟨k', off, hget, -, hins⟩ := hr.place
    rw [hpk] at hget hins
    have hinit : Packed (nodeInit (t₁.node t₁.brk) false true) k (sizeofCell + k) [] :=
      nodeInit_fresh.packed
    obtain ⟨hrpacked, hrleaf, -⟩ := hinit.link hs rfl hxlen hopen hchild hget hins
    obtain ⟨hpacked, hleaf⟩ := hhalf
      (h.packed.header t₁.brk (t.node l).rightmostPid false) h.leaf ⟨rfl, rfl, rfl, rfl⟩
      (by rw [← hpage]; have hh := hr.halves; rw [hplan.newPage] at hh; exact hh)
    have hbrk₂ := hr.brk
    have hroot₂ := hr.root
    refine ⟨by omega, ⟨by omega, by omega⟩, by rw [hr.newPage]; exact hleaf,
      by rw [hr.newPage]; exact hpacked, .inr ⟨rfl, ?_⟩⟩
    have hrootPage : t₂.node t₂.root = { r with rightmostPid := c.newNode } := by
      rw [hroot₂, hr.rootPage]
    refine ⟨by omega, by rw [hrootPage]; exact hrleaf, ?_, by rw [hrootPage]⟩
    rw [hrootPage]
    exact hrpacked.header r.parentPid c.newNode r.root
  · -- the root takes the separator
    have hbroot := hup.bound
    have hqpage : t₁.node t.root = t.node t.root := hplan.same _ hup.bound.2
    have hne : t.root ≠ l := by
      intro heq
      have hleaf := h.leaf
      rw [← heq, hup.leaf] at hleaf
      cases hleaf
    have hsep : newCellSize x.bytes.length 0 = sizeofCell + k :=
      hs.branch.newCellSize_eq (by rw [hxlen]; rfl)
    obtain ⟨idx, f, m, old, new, hl⟩ := splitPath_open_eq_ok hsplit hplan.isFull
      (by rw [hqpage, hpk, hup.packed.isFull_eq hs.branch hopen.le hsep,
        decide_eq_false (not_le.mpr hopen)])
      (by omega) (by omega) (by omega) (by omega) (by rw [hqpage]; exact hup.leaf) hleaf₁
    obtain ⟨found, hsearch⟩ := hl.search
    rw [hqpage, hpk, hup.packed.search (by omega) (by omega) hseps] at hsearch
    obtain ⟨-, rfl⟩ := Prod.mk.inj (Except.ok.inj hsearch)
    have hf : f = { t.node t.root with rightmostPid := c.newNode } := by
      rcases hl.pointer with ⟨hlt, -⟩ | ⟨-, hf⟩
      · rw [hqpage, hup.packed.size] at hlt
        exact absurd hlt (lt_irrefl _)
      · rw [hf, hqpage]
    obtain ⟨k', off, hget, -, hins⟩ := hl.place
    rw [hpk, hf] at hget
    rw [hpk] at hins
    obtain ⟨hmpacked, hmleaf, hlast⟩ := Packed.link (v := v)
      (hup.packed.header (t.node t.root).parentPid c.newNode (t.node t.root).root) hs hup.leaf
      hxlen hopen hchild hget hins
    obtain ⟨hpacked, hleaf⟩ := hhalf h.packed h.leaf (nodeInit_fresh (n := t.node t.brk))
      (by rw [← hpage, ← hplan.newPage]; exact hl.halves)
    have hbrk₂ := hl.brk
    have hroot₂ : t₂.root = t.root := hl.root.trans hplan.root
    refine ⟨by omega, ⟨by omega, by omega⟩, by rw [hl.newPage]; exact hleaf,
      by rw [hl.newPage]; exact hpacked, .inr ⟨rfl, ?_⟩⟩
    have hrootPage : t₂.node t₂.root = m := by rw [hroot₂, hl.parentPage]
    refine ⟨by omega, by rw [hrootPage]; exact hmleaf, by rw [hrootPage]; exact hmpacked, ?_⟩
    rw [hrootPage]
    exact hlast

/-- How many entries the leaves under a root hold. -/
def treeCells (k v : ℕ) : ℕ :=
  cutAt (sizeofCell + (k + v)) * pageCells (sizeofCell + k) + pageCells (sizeofCell + (k + v))

/-- What a call for a key above all others makes of the edge. -/
theorem EdgeAt.insert {count ret : ℕ} (h : EdgeAt t k v es seps count) (hs : EqualSizes k v)
    (hsound : SoundTree t d) (hkey : key.length = k) (hvalue : value.length = v)
    (hless : ∀ x ∈ es ++ seps, x < ⟨key⟩) (hlt : count < treeCells k v)
    (hins : btreeInsert t key value = .ok (ret, t')) :
    ∃ es' seps', EdgeAt t' k v es' seps' (count + 1) ∧
      ∀ x ∈ es' ++ seps', x ∈ es ++ seps ∨ x = ⟨key⟩ := by
  obtain ⟨⟨l, above, hedge⟩, hcells, hbelow, hsorted, hcount⟩ := h
  have hsmall := hs.lt
  have hes : ∀ x ∈ es, x < ⟨key⟩ := fun x hx => hless x (List.mem_append_left _ hx)
  have hseps : ∀ x ∈ seps, x < ⟨key⟩ := fun x hx => hless x (List.mem_append_right _ hx)
  have hpath := hedge.descend (show key.length < 2 ^ 31 by omega) (by omega) hseps
  have hneed : newCellSize key.length value.length = sizeofCell + (k + v) :=
    hs.leaf.newCellSize_eq (by rw [hkey, hvalue])
  have hisFull := hedge.packed.isFull_eq hs.leaf hcells hneed
  rcases btreeInsert_eq_ok hins with ⟨hnone, -⟩ | ⟨pid, above', t₁, c, t₂, hdescend, hplan, hsplit,
    hleafIns, rfl⟩
  · cases hpath.symm.trans hnone
  obtain ⟨rfl, rfl⟩ := List.cons.inj (Option.some.inj (Except.ok.inj (hdescend.symm.trans hpath)))
  rcases planLeaf_eq_ok hedge.bound.2 hplan with ⟨hfull, rfl, -, hf, hnot⟩ | ⟨hfull, hbrk, ht₁, hc⟩
  · -- the leaf has room
    rcases hsplit with ⟨hyes, -⟩ | ⟨-, rfl⟩
    · exact absurd (hnot.symm.trans hyes) (by decide)
    have hroom := not_le.mp (of_decide_eq_false (Except.ok.inj (hisFull.symm.trans hfull)))
    rw [hf] at hleafIns
    refine ⟨es ++ [⟨key⟩], seps, ⟨⟨pid, above', hedge.enter hs hkey hvalue hes hroom hleafIns⟩, ?_,
      hbelow, ?_, ?_⟩, fun x hx => ?_⟩
    · rw [List.length_append, List.length_singleton]
      omega
    · have hsub : ((es ++ [(⟨key⟩ : Key)]).drop 1).Sublist (es.drop 1 ++ [(⟨key⟩ : Key)]) := by
        cases es with
        | nil => exact List.nil_sublist _
        | cons x es => exact List.Sublist.refl _
      refine List.Pairwise.sublist (hsub.append_left seps) ?_
      rw [← List.append_assoc]
      refine List.pairwise_append.mpr ⟨hsorted, List.pairwise_singleton _ _, fun x hx y hy => ?_⟩
      obtain rfl := List.mem_singleton.mp hy
      rcases List.mem_append.mp hx with hx | hx
      · exact hseps x hx
      · exact hes x (List.mem_of_mem_drop hx)
    · rw [List.length_append, List.length_singleton]
      omega
    · simp only [List.mem_append, List.mem_singleton] at hx ⊢
      tauto
  · -- the leaf is full, and the root has room for its separator
    have hend := hcells.antisymm
      (of_decide_eq_true (Except.ok.inj (hisFull.symm.trans hfull)))
    obtain ⟨hpos, hcutlt, -, -⟩ := hs.leaf.cut
    have hopen : seps.length < pageCells (sizeofCell + k) := by
      rw [treeCells] at hlt
      exact Nat.lt_of_mul_lt_mul_left (a := cutAt (sizeofCell + (k + v))) (by omega)
    have hplanned := hsound.valid.splitPlanned hbrk ht₁ hc
    rcases hsplit with ⟨-, hsplit⟩ | ⟨hno, -⟩
    swap
    · exact absurd (hno.symm.trans hplanned.isFull) (by decide)
    obtain ⟨hf, -, x, hx, hsub, hedge₂⟩ :=
      hedge.split hs hkey hes hsorted hend hopen hplanned hc hsplit
    rw [hf] at hleafIns
    have hdrop : ∀ y ∈ es.drop (cutAt (sizeofCell + (k + v))), y ∈ es := fun y hy =>
      List.mem_of_mem_drop hy
    have hlen : (es.drop (cutAt (sizeofCell + (k + v)))).length <
        pageCells (sizeofCell + (k + v)) := by
      rw [List.length_drop]
      omega
    refine ⟨es.drop (cutAt (sizeofCell + (k + v))) ++ [⟨key⟩], seps ++ [x],
      ⟨⟨c.newNode, [t₂.root], hedge₂.enter hs hkey hvalue (fun y hy => hes y (hdrop y hy)) hlen
        hleafIns⟩, ?_, ?_, ?_, ?_⟩, fun y hy => ?_⟩
    · rw [List.length_append, List.length_singleton]
      omega
    · rw [List.length_append, List.length_singleton]
      omega
    · have hne : es.drop (cutAt (sizeofCell + (k + v))) ≠ [] := by
        rw [← List.length_pos_iff, List.length_drop]
        omega
      rw [List.drop_append_of_le_length (List.length_pos_iff.mpr hne), ← List.append_assoc]
      refine List.pairwise_append.mpr ⟨hsorted.sublist hsub, List.pairwise_singleton _ _,
        fun y hy z hz => ?_⟩
      obtain rfl := List.mem_singleton.mp hz
      rcases List.mem_append.mp (hsub.subset hy) with hy | hy
      · exact hseps y hy
      · exact hes y (List.mem_of_mem_drop hy)
    · rw [List.length_append, List.length_append, List.length_singleton, List.length_singleton,
        List.length_drop, Nat.mul_succ]
      omega
    · simp only [List.mem_append, List.mem_singleton] at hy ⊢
      rcases hy with (hy | rfl) | hy | rfl
      · exact .inl (.inl (hdrop y hy))
      · exact .inr rfl
      · exact .inl (.inr hy)
      · exact .inl (.inl hx)

/-! ## Runs -/

/-- Calls for ascending keys, with cells of one size. -/
structure Ascending (k v : ℕ) (as : List (List UInt8 × List UInt8)) : Prop where
  aligned : 4 ∣ k ∧ 4 ∣ v
  quarter : AtMostQuarter (k + v)
  sizes : ∀ a ∈ as, a.1.length = k ∧ a.2.length = v
  ascending : as.Pairwise fun a b => keyCompare a.1 b.1 < 0

theorem Ascending.init (h : Ascending k v (as ++ [a])) : Ascending k v as ∧
    (a.1.length = k ∧ a.2.length = v) ∧ ∀ x ∈ as.map fun a => (⟨a.1⟩ : Key), x < ⟨a.1⟩ := by
  have hsizes := fun b hb => h.sizes b (List.mem_append_left _ hb)
  have hlast := h.sizes a (List.mem_append_right _ (List.mem_singleton_self a))
  have hlt := h.quarter.lt
  obtain ⟨hold, -, hless⟩ := List.pairwise_append.mp h.ascending
  refine ⟨⟨h.aligned, h.quarter, hsizes, hold⟩, hlast, fun x hx => ?_⟩
  obtain ⟨b, hb, rfl⟩ := List.mem_map.mp hx
  have hsize := hsizes b hb
  exact (keyCompare_spec (by omega) (by omega)).1.mp (hless b hb a (List.mem_singleton_self a))

/-- The call returns 0. -/
def Enters (t : Btree) (a : List UInt8 × List UInt8) : Prop :=
  ∃ t', btreeInsert t a.1 a.2 = .ok (0, t')

theorem btreeInit_edge : EdgeAt (btreeInit memory) k v [] [] 0 := by
  have hnode : (btreeInit memory).node 1 = nodeInit (memory 1) true true :=
    Function.update_self 1 _ memory
  refine ⟨⟨1, [], ⟨Nat.one_pos, Nat.lt_succ_self 1⟩, ?_, ?_, .inl ⟨rfl, rfl, rfl⟩⟩, Nat.zero_le _,
    Nat.zero_le _, List.Pairwise.nil, rfl⟩
  · rw [hnode]
    rfl
  · rw [hnode]
    exact nodeInit_fresh.packed

/-- As many ascending calls as the leaves under a root hold entries all go through. -/
theorem Ascending.run (h : Ascending k v as) (hlen : as.length ≤ treeCells k v) : ∃ t d es seps,
    Run insertStep (fun t a => FindsRoom t a ∧ Enters t a) (btreeInit memory) as t ∧
      SoundTree t d ∧ ((t.entries d).map plain).Perm as ∧ EdgeAt t k v es seps as.length ∧
        ∀ x ∈ es ++ seps, x ∈ as.map fun a => (⟨a.1⟩ : Key) := by
  induction as using List.reverseRecOn with
  | nil =>
      refine ⟨btreeInit memory, 0, [], [], .nil, btreeInit_sound, ?_, btreeInit_edge,
        fun x hx => absurd hx List.not_mem_nil⟩
      have hcount : (btreeInit memory).count = (Btree.entries (btreeInit memory) 0).length :=
        btreeInit_sound.count
      rw [List.length_eq_zero_iff.mp hcount.symm]
      exact List.Perm.nil
  | append_singleton as a ih =>
      obtain ⟨hold, ⟨hkey, hvalue⟩, hless⟩ := h.init
      rw [List.length_append, List.length_singleton] at hlen
      obtain ⟨t, d, es, seps, hrun, hsound, hperm, hedge, hmem⟩ := ih hold (by omega)
      have hs := equalSizes h.aligned.1 h.aligned.2 h.quarter
      have hsmall := hs.lt
      have hbelow : ∀ x ∈ es ++ seps, x < ⟨a.1⟩ := fun x hx => hless x (hmem x hx)
      have habsent : ⟨a.1⟩ ∉ (t.entries d).map Prod.fst := absent_of_perm hperm fun hin => by
        obtain ⟨b, hb, heq⟩ := List.mem_map.mp hin
        have hlt : (⟨b.1⟩ : Key) < ⟨a.1⟩ := hless ⟨b.1⟩ (List.mem_map.mpr ⟨b, hb, rfl⟩)
        rw [heq] at hlt
        exact lt_irrefl _ hlt
      obtain ⟨l, above, hright⟩ := hedge.edge
      obtain ⟨hroom, hcut⟩ := hright.hasRoom hs hkey hvalue
        (fun x hx => hbelow x (List.mem_append_right _ hx))
        (fun x hx => hbelow x (List.mem_append_left _ hx)) hedge.cells fun hfull => by
          have hcount := hedge.count
          rw [treeCells] at hlen
          exact Nat.lt_of_mul_lt_mul_left (a := cutAt (sizeofCell + (k + v))) (by omega)
      obtain ⟨t', hins, -⟩ := hsound.insert_isOk (by omega) hroom hcut habsent
      obtain ⟨-, d', hsound', hentered⟩ := hsound.insert (by omega) hroom habsent hins
      obtain ⟨es', seps', hedge', hmem'⟩ :=
        hedge.insert hs hsound hkey hvalue hbelow (by omega) hins
      have hfinds : FindsRoom t a := ⟨⟨by omega, by omega⟩, hroom⟩
      refine ⟨t', d', es', seps', hrun.snoc ⟨hfinds, t', hins⟩ (insertStep_of_ok hins), hsound', ?_,
        ?_, fun x hx => ?_⟩
      · exact hentered.perm hperm
      · rw [List.length_append, List.length_singleton]
        exact hedge'
      · rw [List.map_append, List.map_singleton]
        rcases hmem' x hx with hx | rfl
        · exact List.mem_append_left _ (hmem x hx)
        · exact List.mem_append_right _ (List.mem_singleton_self _)

theorem SoundTree.walk_ascending (h : SoundTree t d) (hperm : ((t.entries d).map plain).Perm as)
    (hasc : Ascending k v as) : (t.entries d).map plain = as := by
  have hlt := hasc.quarter.lt
  have hsorted : ((t.entries d).map plain).Pairwise fun a b => (⟨a.1⟩ : Key) < ⟨b.1⟩ :=
    List.pairwise_map.mpr (List.pairwise_map.mp h.valid.ordered.sorted.1)
  have hsorted' : as.Pairwise fun a b => (⟨a.1⟩ : Key) < ⟨b.1⟩ :=
    hasc.ascending.imp_of_mem fun ha hb hless => by
      have hsize := hasc.sizes _ ha
      have hsize' := hasc.sizes _ hb
      exact (keyCompare_spec (by omega) (by omega)).1.mp hless
  exact hperm.eq_of_pairwise (fun a b _ _ hab hba => absurd (hab.trans hba) (lt_irrefl _)) hsorted
    hsorted'

/-- As many calls for ascending keys as the leaves under a root hold entries all
return 0, and the walk meets their entries in order. -/
theorem ascending_walked (h : Ascending k v as) (hlen : as.length ≤ treeCells k v) :
    ∃ t, Run insertStep Enters (btreeInit memory) as t ∧
      (∀ fuel ≥ 2, walk t fuel t.root = some as) ∧ t.count = as.length := by
  obtain ⟨t, d, es, seps, hrun, hsound, hperm, -, -⟩ := h.run hlen
  have hwalk := hsound.walk_ascending hperm h
  have hdepth := hsound.depth
  refine ⟨t, hrun.mono fun _ _ ha => ha.2, fun fuel hfuel => ?_, ?_⟩
  · rw [hsound.walk_entries (by omega), hwalk]
  · rw [hsound.count, ← hperm.length_eq, List.length_map]

/-! ## The calls of the test -/

/-- What `%.*d` prints of a number below `10 ^ digits`. -/
def decimal : ℕ → ℕ → List UInt8
  | 0, _ => []
  | digits + 1, i => .ofNat (48 + i / 10 ^ digits % 10) :: decimal digits i

theorem length_decimal {digits i : ℕ} : (decimal digits i).length = digits := by
  induction digits with
  | zero => rfl
  | succ digits ih => rw [decimal, List.length_cons, ih]

theorem rank_append_lt {xs ys zs : List UInt8} :
    rank (zs ++ xs) < rank (zs ++ ys) ↔ rank xs < rank ys := by
  induction zs with
  | nil => rfl
  | cons z zs ih =>
      rw [List.cons_append, List.cons_append, rank_cons_lt, ih]
      exact ⟨fun h => h.elim (fun hz => absurd hz (UInt8.lt_irrefl z)) And.right,
        fun h => .inr ⟨rfl, h⟩⟩

theorem decimal_lt {digits i j : ℕ} {xs : List UInt8} (h : i % 10 ^ digits < j % 10 ^ digits) :
    rank (decimal digits i ++ xs) < rank (decimal digits j ++ xs) := by
  induction digits with
  | zero => omega
  | succ digits ih =>
      have hi := Nat.mod_lt (i / 10 ^ digits) (show 0 < 10 by norm_num)
      have hj := Nat.mod_lt (j / 10 ^ digits) (show 0 < 10 by norm_num)
      have hpow : 0 < 10 ^ digits := by positivity
      have hi' := Nat.mod_lt i hpow
      have hj' := Nat.mod_lt j hpow
      have hdigit : ∀ x < 10, (48 + x) % 2 ^ 8 = 48 + x := fun x hx => Nat.mod_eq_of_lt (by omega)
      rw [Nat.mod_pow_succ, Nat.mod_pow_succ] at h
      rw [decimal, decimal, List.cons_append, List.cons_append, rank_cons_lt,
        UInt8.lt_iff_toNat_lt, ← UInt8.toNat_inj, UInt8.toNat_ofNat', UInt8.toNat_ofNat',
        hdigit _ hi, hdigit _ hj]
      rcases Nat.lt_trichotomy (i / 10 ^ digits % 10) (j / 10 ^ digits % 10) with hlt | heq | hgt
      · exact .inl (by omega)
      · rw [heq] at h ⊢
        exact .inr ⟨rfl, ih (by omega)⟩
      · have hmul : 10 ^ digits * (j / 10 ^ digits % 10 + 1) ≤
          10 ^ digits * (i / 10 ^ digits % 10) := Nat.mul_le_mul_left _ hgt
        rw [Nat.mul_succ] at hmul
        omega

/-- The key `key-0x…` of 16 bytes and the value `value-0x…` of 64, whose last 46
bytes the loop never writes. -/
def testEntry (rest : List UInt8) (i : ℕ) : List UInt8 × List UInt8 :=
  ([107, 101, 121, 45, 48, 120] ++ (decimal 9 i ++ [0]),
    [118, 97, 108, 117, 101, 45, 48, 120] ++ (decimal 9 i ++ 0 :: rest))

/-- The calls of the first rounds of the test's loop. -/
def testEntries (rest : List UInt8) (rounds : ℕ) : List (List UInt8 × List UInt8) :=
  (List.range rounds).map fun i => testEntry rest (i + 1)

theorem testEntries_ascending {rest : List UInt8} (hrest : rest.length = 46) {rounds : ℕ}
    (hrounds : rounds < 10 ^ 9) : Ascending 16 64 (testEntries rest rounds) := by
  have hsizes : ∀ i, (testEntry rest i).1.length = 16 ∧ (testEntry rest i).2.length = 64 := by
    intro i
    simp only [testEntry, List.length_append, List.length_cons, List.length_nil, length_decimal,
      hrest]
    exact ⟨trivial, trivial⟩
  refine ⟨by decide, by decide, fun a ha => ?_, ?_⟩
  · obtain ⟨i, -, rfl⟩ := List.mem_map.mp ha
    exact hsizes (i + 1)
  · refine List.pairwise_map.mpr (List.pairwise_lt_range.imp_of_mem fun {i j} _ hj hlt => ?_)
    have hj := List.mem_range.mp hj
    have hi := hsizes (i + 1)
    have hj' := hsizes (j + 1)
    refine (keyCompare_spec (by omega) (by omega)).1.mpr (Key.lt_iff.mpr ?_)
    have hless : rank (decimal 9 (i + 1) ++ [0]) < rank (decimal 9 (j + 1) ++ [0]) :=
      decimal_lt (by rw [Nat.mod_eq_of_lt (by omega), Nat.mod_eq_of_lt (by omega)]; omega)
    exact rank_append_lt.mpr hless

/-- A root holds 112 separators of the test, and a full leaf of 40 cells is cut at 21. -/
theorem treeCells_test : treeCells 16 64 = 2392 := by decide

theorem ascending_walked_test : ∃ t, Run insertStep Enters (btreeInit fun _ => zeroPage)
    (testEntries (List.replicate 46 0) 2392) t ∧
      (∀ fuel ≥ 2, walk t fuel t.root = some (testEntries (List.replicate 46 0) 2392)) ∧
        t.count = (testEntries (List.replicate 46 0) 2392).length :=
  ascending_walked (testEntries_ascending List.length_replicate (by norm_num)) (by
    rw [treeCells_test, testEntries, List.length_map, List.length_range])

end IoScheduler
