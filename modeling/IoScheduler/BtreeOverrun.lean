import IoScheduler.BtreeAscending
import IoScheduler.BtreeTall
import IoScheduler.NodePids

/-!
# The call that splits the root

Once the root is full of separators the next ascending call splits it.
`internal_node_split` leaves the `rightmost_pid` of the old page as it is, while
the last leaf goes with its own separator to the new page: the leaf is then under
both, and the walk meets its entries twice.
-/
namespace IoScheduler
open Machine Bytes SearchTree Transition

variable {t t' t₁ : Btree} {c child : Crumb} {n m new : Node}
  {l p q len cell off idx k v d fuel : ℕ} {ks es seps : List Key} {x : Key}
  {key value : List UInt8} {a : List UInt8 × List UInt8} {as : List (List UInt8 × List UInt8)}
  {memory : ℕ → Node}

/-! ## What a walk meets twice -/

theorem exists_mem_of_mapM {α β : Type*} {f : α → Option β} {xs : List α} {ys : List β}
    (h : xs.mapM f = some ys) {x : α} (hx : x ∈ xs) : ∃ y ∈ ys, f x = some y := by
  induction xs generalizing ys with
  | nil => cases hx
  | cons z xs ih =>
      rw [List.mapM_cons] at h
      obtain ⟨y, hy, h⟩ := Option.bind_eq_some_iff.mp h
      obtain ⟨ys', hys, h⟩ := Option.bind_eq_some_iff.mp h
      obtain rfl := Option.some.inj h
      rcases List.mem_cons.mp hx with rfl | hx
      · exact ⟨y, List.mem_cons_self, hy⟩
      · obtain ⟨w, hw, hfw⟩ := ih hys hx
        exact ⟨w, List.mem_cons_of_mem _ hw, hfw⟩

/-- A walk through a branch is one through each of its pointers. -/
theorem walk_branch {ws : List (List UInt8 × List UInt8)} (h : walk t (fuel + 1) p = some ws)
    (hbranch : (t.node p).leaf = false) :
    ∃ below, (pointers (t.node p)).mapM (walk t fuel) = some below ∧ ws = below.flatten := by
  rw [walk, Btree.deref] at h
  split_ifs at h
  · simp only [Except.toOption, Option.bind_eq_bind, Option.bind_some, hbranch,
      Bool.false_eq_true, if_false] at h
    obtain ⟨below, hbelow, h⟩ := Option.bind_eq_some_iff.mp h
    exact ⟨below, hbelow, (Option.some.inj h).symm⟩
  · cases h

theorem walk_leaf {ws : List (List UInt8 × List UInt8)} (h : walk t fuel p = some ws)
    (hleaf : (t.node p).leaf = true) (hsize : 0 < (t.node p).size) :
    nodeCellPointers (t.node p) 0 ∈ ws := by
  cases fuel with
  | zero => cases h
  | succ fuel =>
      rw [walk, Btree.deref] at h
      split_ifs at h
      · simp only [Except.toOption, Option.bind_eq_bind, Option.bind_some, hleaf, if_true] at h
        rw [← Option.some.inj h]
        exact List.mem_map_of_mem (List.mem_range.mpr hsize)
      · cases h

/-- What a leaf holds is met on the way through each branch that points to it. -/
theorem walk_under {ws : List (List UInt8 × List UInt8)} (h : walk t fuel p = some ws)
    (hbranch : (t.node p).leaf = false) (hq : q ∈ pointers (t.node p))
    (hleaf : (t.node q).leaf = true) (hsize : 0 < (t.node q).size) :
    nodeCellPointers (t.node q) 0 ∈ ws := by
  cases fuel with
  | zero => cases h
  | succ fuel =>
      obtain ⟨below, hbelow, rfl⟩ := walk_branch h hbranch
      obtain ⟨ws', hmem, hws'⟩ := exists_mem_of_mapM hbelow hq
      exact List.mem_flatten.mpr ⟨ws', hmem, walk_leaf hws' hleaf hsize⟩

/-- A leaf under both branches below the root. -/
structure TwicePlaced (t : Btree) (p q l : ℕ) : Prop where
  root : (t.node t.root).leaf = false
  branches : pointers (t.node t.root) = [p, q]
  left : (t.node p).leaf = false ∧ l ∈ pointers (t.node p)
  right : (t.node q).leaf = false ∧ l ∈ pointers (t.node q)
  leaf : (t.node l).leaf = true
  size : 0 < (t.node l).size

theorem TwicePlaced.not_nodup {ws : List (List UInt8 × List UInt8)} (h : TwicePlaced t p q l)
    (hwalk : walk t fuel t.root = some ws) : ¬ ws.Nodup := by
  cases fuel with
  | zero => cases hwalk
  | succ fuel =>
      obtain ⟨below, hbelow, rfl⟩ := walk_branch hwalk h.root
      rw [h.branches] at hbelow
      simp only [List.mapM_cons, List.mapM_nil, Option.bind_eq_bind, Option.bind_eq_some_iff,
        Option.pure_def] at hbelow
      obtain ⟨us, hus, rest, ⟨vs, hvs, last, hlast, hrest⟩, hall⟩ := hbelow
      obtain rfl := Option.some.inj hlast
      obtain rfl := Option.some.inj hrest
      obtain rfl := Option.some.inj hall
      have hmem := walk_under hus h.left.1 h.left.2 h.leaf h.size
      have hmem' := walk_under hvs h.right.1 h.right.2 h.leaf h.size
      intro hnodup
      rw [List.flatten_cons, List.flatten_cons, List.flatten_nil, List.append_nil] at hnodup
      exact (List.nodup_append.mp hnodup).2.2 _ hmem _ hmem' rfl

/-! ## Splitting the root -/

theorem Packed.cut_branch (h : Packed n len cell ks) (hleaf : n.leaf = false) (hp : 0 < p)
    (hlt : p + 1 < ks.length) (hnew : Fresh new false) : ∃ old new',
      internalNodeSplit n new p = .ok (old, new') ∧ Packed new' len cell (ks.drop (p + 1)) ∧
        new'.leaf = false ∧ old.size = p ∧ old.leaf = false ∧
          old.rightmostPid = n.rightmostPid := by
  obtain ⟨old, new', hsplit, hpacked, hnewLeaf, hsize, holdLeaf⟩ :=
    h.split_branch hleaf hp hlt hnew
  obtain ⟨old₁, new₁, hsplit₁, hs, -⟩ :=
    internalNodeSplit_spec hp (by rw [h.size]; exact hlt) h.layout hleaf hnew
  obtain ⟨rfl, rfl⟩ := Prod.mk.inj (Except.ok.inj (hsplit₁.symm.trans hsplit))
  exact ⟨old₁, new₁, hsplit, hpacked, hnewLeaf, hsize, holdLeaf, hs.rightmostPid⟩

/-- A crumb of a full branch is written. -/
theorem splitNode_packed (hfull : c.isFull = true) (hcut : c.partitionIdx = p)
    (hleaf : (t.node c.node).leaf = false) (h : Packed (t.node c.node) len cell ks)
    (hnew : Fresh (t.node c.newNode) false) (hp : 0 < p) (hlt : p + 1 < ks.length) :
    ∃ t₁ old new, splitNode t c = .ok t₁ ∧
      t₁.node = ((t.set c.node old).set c.newNode new).node ∧ t₁.root = t.root ∧
        t₁.brk = t.brk ∧ Packed new len cell (ks.drop (p + 1)) ∧ new.leaf = false ∧
          old.leaf = false ∧ old.rightmostPid = (t.node c.node).rightmostPid := by
  obtain ⟨old, new, hsplit, hpacked, hnewLeaf, hsize, holdLeaf, hlast⟩ :=
    h.cut_branch hleaf hp hlt hnew
  have hks := h.size
  have hsmall := h.layout.size_lt
  have hnewSize := hpacked.size
  rw [List.length_drop] at hnewSize
  have hcount : sub32 (t.node c.node).size 1 = u32 (old.size + new.size) := by
    rw [sub32_of_le (by omega) (by omega), u32_of_lt (by omega)]
    omega
  refine ⟨{ (t.set c.node old).set c.newNode new with
    internalSplits := t.internalSplits + 1
    emptyHalf := t.emptyHalf || p == 0 || decide ((t.node c.node).size ≤ p + 1) }, old, new, ?_,
    rfl, rfl, rfl, hpacked, hnewLeaf, holdLeaf, hlast⟩
  rw [splitNode, if_pos hfull, if_neg (by rw [hleaf]; exact Bool.false_ne_true), splitInternal,
    hcut]
  simp only [bind_eq_ok, assert_eq_ok]
  exact ⟨(), by omega, (), hnew.leaf, (old, new), hsplit, (), hcount, rfl⟩

/-- A separator goes to the end of a branch, with its pointer. -/
theorem Packed.append_pid (h : Packed n k (sizeofCell + k) seps) (hs : EqualSizes k v)
    (hleaf : n.leaf = false) (hkey : key.length = k)
    (hlt : seps.length < pageCells (sizeofCell + k)) {pid : ℕ} (hpid : pid < 2 ^ 64) :
    ∃ off m, nodeGetFreeOffset n key.length 0 = .ok (n, off) ∧ 0 < off ∧
      nodeInsertInternalCell n off seps.length key pid = .ok m ∧ m.leaf = false ∧
        m.size = seps.length + 1 ∧ ∃ i < m.size, cellPid m (cellPtr m i) = pid := by
  have hsmall := hs.lt
  have hneed : newCellSize key.length 0 = sizeofCell + k :=
    hs.branch.newCellSize_eq (by rw [hkey]; rfl)
  have hroom := Packed.room hlt
  have hco := h.cellOffset
  rw [Nat.mul_succ] at hroom
  have hcell : IsCell n.leaf (internalCell key pid) := by
    rw [hleaf]
    exact internalCell_isCell (by omega) hpid
  have hlen : (internalCell key pid).length ≤ newCellSize key.length 0 := by
    rw [length_internalCell, hneed, hkey]
  obtain ⟨off, m, hget, hoff, hins, -, hadded, -⟩ := h.valid.cell_below hcell h.size.ge hlen
    (by omega) (by rw [hneed, h.size]; omega)
  have hpos : 0 < off := by
    rw [hneed] at hoff
    simp only [slotOffset, sizeofNode] at hroom
    omega
  refine ⟨off, m, hget, hpos, hins, hadded.leaf.trans hleaf, ?_, ?_⟩
  · rw [hadded.size, h.size]
  · have hmem : off ∈ offsets m := by
      rw [hadded.offsets_eq]
      exact List.mem_append_right _ List.mem_cons_self
    obtain ⟨i, hi, hat⟩ := List.mem_map.mp hmem
    exact ⟨i, List.mem_range.mp hi, by rw [hat]; exact internalCell_pid hadded.loaded hpid⟩

/-- The separator of a child goes to the end of a branch, with a pointer to it. -/
theorem linkChild_end (h : Packed (t.node c.fNode) k (sizeofCell + k) seps) (hs : EqualSizes k v)
    (hleaf : (t.node c.fNode).leaf = false) (hlt : seps.length < pageCells (sizeofCell + k))
    (hkey : partitionKey t child = x.bytes) (hx : x.bytes.length = k)
    (hless : ∀ z ∈ seps, z < x) (hchild : child.node < 2 ^ 64) :
    ∃ m, linkChild t c child = .ok (t.set c.fNode m) ∧ m.leaf = false ∧
      child.node ∈ pointers m := by
  have hsmall := hs.lt
  have hsearch : nodeBinSearch (t.node c.fNode) x.bytes = .ok (false, seps.length) :=
    h.search (by omega) (by omega) hless
  obtain ⟨off, m, hget, hoff, hins, hmleaf, -, i, hi, hpid⟩ :=
    (h.header (t.node c.fNode).parentPid child.newNode (t.node c.fNode).root).append_pid hs hleaf
      hx hlt hchild
  refine ⟨m, ?_, hmleaf, ?_⟩
  · simp only [linkChild, hkey, bind_eq_ok]
    refine ⟨_, hsearch, ?_⟩
    dsimp only
    rw [if_neg (by rw [h.size]; exact lt_irrefl _)]
    simp only [bind_eq_ok, assert_eq_ok]
    exact ⟨_, rfl, _, hget, (), hoff, m, hins, rfl⟩
  · rw [← hpid]
    exact List.mem_append_left _ (List.mem_map_of_mem (List.mem_range.mpr hi))

/-- The plan that splits the root too. -/
structure RootPlanned (t₁ u : Btree) (c top : Crumb) (y : Key) : Prop where
  crumbs : planCrumbs t₁ c [] [t₁.root] = .ok (u, top, [c])
  isFull : top.isFull = true
  node : top.node = t₁.root
  newNode : top.newNode = t₁.brk
  fNode : top.fNode = t₁.brk
  partitionIdx : top.partitionIdx = nodePartitionIdx (t₁.node t₁.root)
  partitionKey : IoScheduler.partitionKey u top = y.bytes
  same : ∀ p < t₁.brk, u.node p = t₁.node p
  fresh : u.node t₁.brk = nodeInit (t₁.node t₁.brk) false false
  brk : u.brk = t₁.brk + 1

theorem rootPlanned {y : Key} (hc : c.isFull = true) (hlt : t₁.root < t₁.brk)
    (hbrk : t₁.brk < 2 ^ 64) (hfull : nodeIsFull (t₁.node t₁.root) (partitionKey t₁ c).length 0 =
      .ok true) (hy : keyAt (t₁.node t₁.root) (nodePartitionIdx (t₁.node t₁.root)) = y.bytes)
    (hless : keyCompare y.bytes (partitionKey t₁ c) < 0) :
    ∃ u top, RootPlanned t₁ u c top y := by
  have hsame : ∀ p < t₁.brk, ((notePartition t₁ t₁.root
      (nodePartitionIdx (t₁.node t₁.root))).withNew false false).node p = t₁.node p := fun p hp =>
    Btree.withNew_node (t := notePartition t₁ t₁.root _) hp
  refine ⟨_, splitCrumb t₁ t₁.root (partitionKey t₁ c), ?_, rfl, rfl, rfl, ?_, rfl, ?_, hsame, ?_,
    rfl⟩
  · rw [planCrumbs, if_pos hc, planNode_full hlt hbrk hfull]
    rfl
  · simp only [splitCrumb]
    rw [hy]
    exact if_pos hless
  · rw [partitionKey, show (splitCrumb t₁ t₁.root (partitionKey t₁ c)).node = t₁.root from rfl,
      hsame _ hlt]
    exact hy
  · exact Btree.withNew_node_brk (t := notePartition t₁ t₁.root _)

theorem TwicePlaced.congr (h : TwicePlaced t p q l) (hroot : t'.root = t.root)
    (hnode : ∀ r ∈ [t.root, p, q, l], t'.node r = t.node r) : TwicePlaced t' p q l := by
  simp only [List.forall_mem_cons] at hnode
  obtain ⟨hr, hp, hq, hl, -⟩ := hnode
  refine ⟨?_, ?_, ?_, ?_, ?_, ?_⟩
  · rw [hroot, hr]
    exact h.root
  · rw [hroot, hr]
    exact h.branches
  · rw [hp]
    exact h.left
  · rw [hq]
    exact h.right
  · rw [hl]
    exact h.leaf
  · rw [hl]
    exact h.size

/-- A new root points to the page that was split and to its new half. -/
theorem RootAdded.pointers_eq {r : Node} (h : RootAdded t t' c r) (hs : EqualSizes k v)
    (hkey : (partitionKey t c).length = k) (hnode : c.node < 2 ^ 64) :
    r.leaf = false ∧ pointers { r with rightmostPid := c.newNode } = [c.node, c.newNode] := by
  have hinit : Packed (nodeInit (t.node t.brk) false true) k (sizeofCell + k) [] :=
    nodeInit_fresh.packed
  obtain ⟨-, hlt, -, -⟩ := hs.branch.cut
  obtain ⟨off, m, hget, -, hins, hleaf, hsize, i, hi, hpid⟩ :=
    hinit.append_pid hs rfl hkey (show 0 < _ by omega) hnode
  obtain ⟨n, off', hget', -, hins'⟩ := h.place
  obtain ⟨rfl, rfl⟩ := Prod.mk.inj (Except.ok.inj (hget.symm.trans hget'))
  obtain rfl := Except.ok.inj (hins.symm.trans hins')
  have hone : m.size = 1 := hsize
  obtain rfl : i = 0 := by omega
  refine ⟨hleaf, ?_⟩
  show (List.range m.size).map (fun i => cellPid m (cellPtr m i)) ++ [c.newNode] = _
  rw [hone, ← hpid]
  rfl

/-- The last leaf and the root above it are split: the new page of the root points
to the leaf, and so does the old one. -/
theorem SoundCrumb.splits_root (h : SoundCrumb t c) (hs : EqualSizes k v)
    (hup : RootAbove t k c.node seps) (hpk : partitionKey t c = x.bytes)
    (hx : x.bytes.length = k) (hless : ∀ z ∈ seps, z < x)
    (hfull : seps.length = pageCells (sizeofCell + k))
    (hcut : cutAt (sizeofCell + k) + 1 < pageCells (sizeofCell + k)) (hbrk : t.brk + 2 < 2 ^ 64) :
    ∃ t' q old new, splitPath t c [t.root] = .ok t' ∧ TwicePlaced t' t.root q c.node ∧
      t.root ≠ c.newNode ∧ t'.root ≠ c.newNode ∧ q ≠ c.newNode ∧ t'.node c.newNode = new ∧
        SoundHalves (t.node c.node) old new := by
  have hsmall := hs.lt
  have hnode := h.node
  have hnewNode := h.newNode
  have hne := h.ne
  have hbound := hup.bound
  obtain ⟨hpos, hlt, -, -⟩ := hs.branch.cut
  have hrootNode : t.root ≠ c.node := by
    intro heq
    have hleaf := h.leaf
    rw [← heq, hup.leaf] at hleaf
    cases hleaf
  have hrootNew : t.root ≠ c.newNode := by
    intro heq
    have hleaf := h.fresh.leaf
    rw [← heq, hup.leaf] at hleaf
    cases hleaf
  -- the plan
  obtain ⟨y, hy⟩ : ∃ y, seps[cutAt (sizeofCell + k)]? = some y :=
    ⟨_, List.getElem?_eq_getElem (by omega)⟩
  obtain ⟨hyat, hylen⟩ : keyAt (t.node t.root) (cutAt (sizeofCell + k)) = y.bytes ∧
    y.bytes.length = k := hup.packed.keyAt hy
  have hidx := hup.packed.partition_eq hs.branch hfull
  have hisFull : nodeIsFull (t.node t.root) (partitionKey t c).length 0 = .ok true := by
    rw [hpk, hup.packed.isFull_eq hs.branch hfull.le
      (hs.branch.newCellSize_eq (by rw [hx]; rfl)), decide_eq_true hfull.ge]
  obtain ⟨u, top, hu⟩ := rootPlanned (y := y) h.isFull hbound.2 (by omega) hisFull
    (by rw [hidx, hyat]) (by
      rw [hpk]
      exact (keyCompare_spec (by omega) (by omega)).1.mpr (hless y (List.mem_of_getElem? hy)))
  have htopNode := hu.node
  have htopNew := hu.newNode
  have hubrk := hu.brk
  -- the new root
  have hinit : Packed (nodeInit (u.node u.brk) false true) k (sizeofCell + k) [] :=
    nodeInit_fresh.packed
  have hneed : newCellSize (partitionKey u top).length 0 = sizeofCell + k := by
    rw [hu.partitionKey, hylen]
    exact hs.branch.newCellSize_eq rfl
  obtain ⟨w, hw⟩ := splitRoot_isOk (t := u) (c := top) (by omega) (by omega)
    (by rw [hu.partitionKey]; omega) (hinit.cellFits (show 0 < _ by omega) hneed)
  obtain ⟨r, hr⟩ := splitRoot_spec hw (by omega) (by omega) (by omega)
  obtain ⟨hrleaf, hpointers⟩ := hr.pointers_eq hs (by rw [hu.partitionKey, hylen]) (by omega)
  have hwpage : ∀ p < t.brk, p ≠ t.root → w.node p = t.node p := fun p hp hne => by
    rw [hr.others p (by omega) (by omega) (by omega), hu.same p hp]
  have hwroot : w.node top.node = { t.node t.root with parentPid := u.brk, root := false } := by
    rw [hr.oldPage, htopNode, hu.same _ hbound.2]
  -- the old root is split
  have hwfresh : Fresh (w.node top.newNode) false := by
    rw [hr.newPage, htopNew, hu.fresh]
    exact ⟨rfl, rfl, rfl, rfl⟩
  obtain ⟨w₁, rold, rnew, hsplitRoot, hnode₁, hroot₁, hbrk₁, hpacked₁, hleafNew, hleafOld, hlast⟩ :=
    splitNode_packed (t := w) (c := top) (p := cutAt (sizeofCell + k)) hu.isFull
      (by rw [hu.partitionIdx, hidx]) (by rw [hwroot]; exact hup.leaf)
      (by rw [hwroot]; exact hup.packed.header u.brk _ false) hwfresh hpos (by omega)
  have hw₁page : ∀ p < t.brk, p ≠ t.root → w₁.node p = t.node p := fun p hp hne => by
    rw [hnode₁, Btree.set_node_of_ne (by omega), Btree.set_node_of_ne (by omega), hwpage p hp hne]
  have hw₁new : w₁.node top.fNode = rnew := by
    rw [hu.fNode, ← htopNew, hnode₁, Btree.set_node_self]
  -- the leaf's separator goes to the end of its right half
  have hdropped : (seps.drop (cutAt (sizeofCell + k) + 1)).length < pageCells (sizeofCell + k) := by
    rw [List.length_drop]
    omega
  have hpk₁ : partitionKey w₁ c = x.bytes := by
    rw [partitionKey, hw₁page _ hnode hrootNode.symm]
    exact hpk
  rw [← hw₁new] at hpacked₁ hleafNew
  obtain ⟨m, hlink, hmleaf, hmem⟩ := linkChild_end hpacked₁ hs hleafNew hdropped hpk₁ hx
    (fun z hz => hless z (List.mem_of_mem_drop hz)) (by omega)
  -- the leaf is split
  have hw₂page : ∀ p < t.brk, p ≠ t.root → (w₁.set top.fNode m).node p = t.node p :=
    fun p hp hne => by
      rw [Btree.set_node_of_ne (by rw [hu.fNode]; omega), hw₁page p hp hne]
  have hold := hw₂page _ hnode hrootNode.symm
  have hnew := hw₂page _ hnewNode hrootNew.symm
  obtain ⟨old, new, hcutLeaf, hhalves⟩ := h.sound.halves h.leaf h.right h.fresh h.slotClash
  obtain ⟨t', hdown, hnode', hroot', hbrk'⟩ := writeDown_leaf (t := w₁.set top.fNode m) h.isFull
    (by rw [hold]; exact h.leaf) (by rw [hnew]; exact h.fresh.leaf)
    (by rw [hold, h.partitionIdx]; exact h.right.le) hne
    (by rw [hold, hnew, h.partitionIdx]; exact hcutLeaf) hhalves.oldLeaf
    (by rw [hold]; exact hhalves.size)
  have hsize : 0 < old.size := by
    obtain ⟨-, ts, hlayout, -⟩ := h.sound.valid
    obtain ⟨old₁, new₁, hcut₁, hs₁, -⟩ := leafNodeSplit_spec h.right hlayout h.leaf h.fresh
    obtain ⟨rfl, -⟩ := Prod.mk.inj (Except.ok.inj (hcut₁.symm.trans hcutLeaf))
    rw [hs₁.size]
    exact nodePartitionIdx_pos (Nat.zero_lt_of_lt h.right)
  have hpage : ∀ p, p ≠ c.node → p ≠ c.newNode → t'.node p = (w₁.set top.fNode m).node p :=
    fun p hp hp' => by
      rw [hnode', Btree.set_node_of_ne hp', Btree.set_node_of_ne hp]
  have hleft : t'.node t.root = rold := by
    rw [hpage _ hrootNode hrootNew, Btree.set_node_of_ne (by rw [hu.fNode]; omega), hnode₁,
      Btree.set_node_of_ne (by omega), ← htopNode, Btree.set_node_self]
  have hright : t'.node t.brk = m := by
    rw [hpage _ (by omega) (by omega), ← hu.fNode, Btree.set_node_self]
  have hroot : t'.root = u.brk := by rw [hroot', ← hr.root, ← hroot₁]; rfl
  have hrootPage : t'.node t'.root = { r with rightmostPid := top.newNode } := by
    rw [hroot, hpage _ (by omega) (by omega), Btree.set_node_of_ne (by rw [hu.fNode]; omega),
      hnode₁, Btree.set_node_of_ne (by omega), Btree.set_node_of_ne (by omega), hr.rootPage]
  have holdPage : t'.node c.node = old := by
    rw [hnode', Btree.set_node_of_ne hne.symm, Btree.set_node_self]
  refine ⟨t', t.brk, old, new, bind_eq_ok.mpr ⟨_, hu.crumbs, ?_⟩, ⟨?_, ?_, ?_, ?_, ?_, ?_⟩,
    hrootNew, by omega, by omega, by rw [hnode', Btree.set_node_self], hhalves⟩
  · dsimp only
    rw [if_pos hu.isFull]
    refine bind_eq_ok.mpr ⟨w, hw, bind_eq_ok.mpr ⟨w₁, hsplitRoot, ?_⟩⟩
    have hbranch : (w₁.node top.node).leaf = false := by
      rw [hnode₁, Btree.set_node_of_ne (by omega), Btree.set_node_self, hleafOld]
    rw [if_neg (by rw [hbranch]; exact Bool.false_ne_true)]
    exact bind_eq_ok.mpr ⟨_, hlink, hdown⟩
  · rw [hrootPage]
    exact hrleaf
  · rw [hrootPage, hpointers, htopNode, htopNew]
  · rw [hleft]
    refine ⟨hleafOld, List.mem_append_right _ (List.mem_singleton.mpr ?_)⟩
    rw [hlast, hwroot]
    exact hup.last.symm
  · rw [hright]
    exact ⟨hmleaf, hmem⟩
  · rw [holdPage]
    exact hhalves.oldLeaf
  · rw [holdPage]
    exact hsize

theorem mem_drop_one {α : Type*} {xs : List α} {y : α} {i : ℕ} (h : xs[i]? = some y)
    (hi : 0 < i) : y ∈ xs.drop 1 :=
  List.mem_iff_getElem?.mpr ⟨i - 1, by rw [List.getElem?_drop, show 1 + (i - 1) = i by omega, h]⟩

/-- A call for a key above all others, when the last leaf and the root are full:
the last leaf ends up under both halves of the root. -/
theorem RightEdge.splits_root (h : RightEdge t k v l es seps [t.root]) (hup : RootAbove t k l seps)
    (hv : ValidAt t d) (hpages : SoundPages t) (hs : EqualSizes k v) (hkey : key.length = k)
    (hvalue : value.length = v) (hes : ∀ x ∈ es, x < ⟨key⟩) (hless : ∀ x ∈ seps, x < ⟨key⟩)
    (hsorted : (seps ++ es.drop 1).Pairwise (· < ·))
    (hfull : es.length = pageCells (sizeofCell + (k + v)))
    (hroot : seps.length = pageCells (sizeofCell + k))
    (hcut : cutAt (sizeofCell + k) + 1 < pageCells (sizeofCell + k))
    (hbrk : t.brk + 3 < 2 ^ 64) :
    ∃ t', btreeInsert t key value = .ok (0, t') ∧ ∃ p q, TwicePlaced t' p q l := by
  obtain ⟨x, hx, hxlen, hxkey⟩ := h.separator hs hfull
  have hsmall := hs.lt
  have hbound := h.bound
  have hupBound := hup.bound
  have hneed : newCellSize key.length value.length = sizeofCell + (k + v) :=
    hs.leaf.newCellSize_eq (by rw [hkey, hvalue])
  have hpos := (hs.leaf.cut).1
  have hne : t.root ≠ l := by
    intro heq
    have hleaf := h.leaf
    rw [← heq, hup.leaf] at hleaf
    cases hleaf
  -- the leaf is planned
  have hdescend := h.descend (show key.length < 2 ^ 31 by omega) (by omega) hless
  have hisFull : nodeIsFull (t.node l) key.length value.length = .ok true := by
    rw [h.packed.isFull_eq hs.leaf hfull.le hneed, decide_eq_true hfull.ge]
  obtain ⟨t₁, ht₁⟩ : ∃ t₁, t₁ =
    (notePartition t l (nodePartitionIdx (t.node l))).withNew true false := ⟨_, rfl⟩
  obtain ⟨c, hc⟩ : ∃ c, c = splitCrumb t l key := ⟨_, rfl⟩
  have hplanLeaf : planLeaf t key value l = .ok (t₁, c) := by
    rw [ht₁, hc]
    exact bind_eq_ok.mpr ⟨true, hisFull, planSplit_isOk (t := notePartition t l _) (by
      show t.brk < 2 ^ 64
      omega) hbound.2⟩
  have hplan := hv.splitPlanned (show t.brk < 2 ^ 64 by omega) ht₁ hc
  have hright : nodePartitionIdx (t.node l) < (t.node l).size :=
    h.packed.valid.partition_lt_iff.mpr (h.packed.reachesHalf hs.leaf hfull)
  have hcrumb := hplan.soundCrumb hpages hbound.1 hbound.2 h.leaf hright
  have hpk : partitionKey t₁ c = x.bytes := by rw [hplan.partitionKey_eq hbound.2, hxkey]
  have hbrk₁ := hplan.brk
  have hnode := hplan.node
  have hnewNode := hplan.newNode
  have hcNode : c.fNode = c.newNode := by
    rw [hc]
    simp only [splitCrumb]
    rw [hxkey]
    exact if_pos ((keyCompare_spec (by omega) (by omega)).1.mpr (hes x (List.mem_of_getElem? hx)))
  -- the root is split with it
  have hup₁ : RootAbove t₁ k c.node seps := by
    have hpage := hplan.same _ hupBound.2
    rw [hnode]
    refine ⟨by rw [hplan.root]; omega, ?_, ?_, ?_⟩
    · rw [hplan.root, hpage]
      exact hup.leaf
    · rw [hplan.root, hpage]
      exact hup.packed
    · rw [hplan.root, hpage]
      exact hup.last
  have hbelow : ∀ z ∈ seps, z < x := fun z hz =>
    (List.pairwise_append.mp hsorted).2.2 z hz x (mem_drop_one hx hpos)
  obtain ⟨t₂, q, old, new, hsplit, htwice, hne₁, hne₂, hne₃, hnewPage, hhalves⟩ :=
    hcrumb.splits_root hs hup₁ hpk hxlen hbelow hroot hcut (by omega)
  rw [hplan.root] at hsplit
  -- the entry goes to the right half
  have holdPage := hplan.oldPage hbound.2
  have hfits : CellFits (t₂.node c.newNode) key.length value.length := by
    rw [hnewPage]
    refine hhalves.fitsRight _ _ ?_
    rw [holdPage]
    exact h.packed.fitsRight hs.leaf hfull hneed
  obtain ⟨t', hins, -⟩ := SoundPage.insertLeaf (by rw [hnewPage]; exact hhalves.newSound)
    (by rw [hnewPage]; exact hhalves.newLeaf) hfits (by omega)
  obtain ⟨hroot', -⟩ := insertLeaf_fields hins
  refine ⟨t', ?_, t₁.root, q, hnode ▸ htwice.congr hroot' fun r hr => ?_⟩
  · rw [btreeInsert]
    refine bind_eq_ok.mpr ⟨_, hdescend, ?_⟩
    dsimp only
    refine bind_eq_ok.mpr ⟨(t₁, c), hplanLeaf, ?_⟩
    dsimp only
    rw [if_pos hplan.isFull, hcNode]
    exact bind_eq_ok.mpr ⟨t₂, hsplit, bind_eq_ok.mpr ⟨t', hins, rfl⟩⟩
  · refine insertLeaf_node_of_ne hins ?_
    simp only [List.mem_cons, List.not_mem_nil, or_false] at hr
    rcases hr with rfl | rfl | rfl | rfl
    · exact hne₂
    · exact hne₁
    · exact hne₃
    · exact hcrumb.ne.symm

/-! ## The call after the last that fits -/

theorem EdgeAt.overrun {count : ℕ} (h : EdgeAt t k v es seps count) (hs : EqualSizes k v)
    (hcount : count = treeCells k v) :
    es.length = pageCells (sizeofCell + (k + v)) ∧ seps.length = pageCells (sizeofCell + k) := by
  obtain ⟨-, hcells, hseps, -, hsum⟩ := h
  obtain ⟨hpos, -, -, -⟩ := hs.leaf.cut
  have hmul : cutAt (sizeofCell + (k + v)) * seps.length ≤
      cutAt (sizeofCell + (k + v)) * pageCells (sizeofCell + k) := Nat.mul_le_mul_left _ hseps
  rw [treeCells] at hcount
  have heq : cutAt (sizeofCell + (k + v)) * seps.length =
      cutAt (sizeofCell + (k + v)) * pageCells (sizeofCell + k) := by omega
  exact ⟨by omega, Nat.eq_of_mul_eq_mul_left hpos heq⟩

theorem Ascending.nodup (h : Ascending k v as) : as.Nodup := by
  have hlt := h.quarter.lt
  refine h.ascending.imp_of_mem fun {a b} ha hb hless heq => ?_
  have hsize := h.sizes a ha
  have hsize' := h.sizes b hb
  have hkey := (keyCompare_spec (by omega) (by omega)).1.mp hless
  rw [heq] at hkey
  exact lt_irrefl _ hkey

/-- As many calls for ascending keys as the leaves under a root hold entries go
through, and so does one more; but then no walk meets what was inserted. -/
theorem ascending_overrun (h : Ascending k v (as ++ [a])) (hlen : as.length = treeCells k v)
    (hcut : cutAt (sizeofCell + k) + 1 < pageCells (sizeofCell + k)) :
    ∃ t, Run insertStep Enters (btreeInit memory) (as ++ [a]) t ∧
      ∀ fuel es, walk t fuel t.root = some es → ¬ es.Perm (as ++ [a]) := by
  obtain ⟨hold, ⟨hkey, hvalue⟩, hless⟩ := h.init
  obtain ⟨t, d, es, seps, hrun, hsound, -, hedge, hmem⟩ : ∃ t d es seps,
    Run insertStep _ (btreeInit memory) as t ∧ _ := hold.run hlen.le
  have hs := equalSizes h.aligned.1 h.aligned.2 h.quarter
  obtain ⟨hes, hseps⟩ := hedge.overrun hs hlen
  obtain ⟨-, hbranch, -, -⟩ := hs.branch.cut
  obtain ⟨l, above, hright⟩ := hedge.edge
  have hbrk := hsound.brk
  have hlength := hsound.length_le
  rcases id hright.up with ⟨-, -, rfl⟩ | ⟨rfl, hup⟩
  · rw [List.length_nil] at hseps
    omega
  obtain ⟨t', hins, p, q, htwice⟩ := hright.splits_root hup hsound.valid hsound.pages hs hkey hvalue
    (fun x hx => hless x (hmem x (List.mem_append_left _ hx)))
    (fun x hx => hless x (hmem x (List.mem_append_right _ hx))) hedge.sorted hes hseps hcut
    (by omega)
  have hentered : Run insertStep Enters (btreeInit memory) as t := hrun.mono fun _ _ hb => hb.2
  exact ⟨t', hentered.snoc ⟨t', hins⟩ (insertStep_of_ok hins), fun fuel ws hwalk hperm =>
    htwice.not_nodup hwalk (hperm.nodup_iff.mpr h.nodup)⟩

/-- The test calls 104857600 times. -/
theorem ascending_overrun_test : ∃ t, Run insertStep Enters (btreeInit fun _ => zeroPage)
    (testEntries (List.replicate 46 0) 2392 ++ [testEntry (List.replicate 46 0) 2393]) t ∧
      ∀ fuel es, walk t fuel t.root = some es →
        ¬ es.Perm (testEntries (List.replicate 46 0) 2392 ++
          [testEntry (List.replicate 46 0) 2393]) := by
  have hascending : Ascending 16 64 (testEntries (List.replicate 46 0) 2393) :=
    testEntries_ascending List.length_replicate (by norm_num)
  rw [testEntries, List.range_succ, List.map_append, List.map_singleton] at hascending
  exact ascending_overrun hascending (by
    rw [treeCells_test, testEntries, List.length_map, List.length_range]) (by decide)

end IoScheduler
