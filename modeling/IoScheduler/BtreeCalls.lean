import IoScheduler.BtreeInsert
import IoScheduler.NodeReuse

/-!
# Calls that go through

A call on a tree of sound pages fails no assertion when the cells it enters fit
their pages, a full leaf has a cell to the right of where it is cut, and the
parent of a full leaf is not full itself. The pages are sound again afterwards.
-/
namespace IoScheduler
open Machine Bytes SearchTree

variable {t t' t₁ t₂ : Btree} {n k m f r old new : Node} {c child : Crumb}
  {d pid p q idx off : ℕ} {above : List ℕ} {key value : List UInt8}

/-! ## Entering an entry or a separator -/

theorem SoundPage.search (h : SoundPage n) (hk : k.size = n.size) (key : List UInt8) :
    ∃ found idx, nodeBinSearch k key = .ok (found, idx) ∧ idx ≤ n.size := by
  obtain ⟨-, ts, hlayout, -⟩ := h.valid
  have hlt : k.size < 2 ^ 31 := hk ▸ hlayout.size_lt
  obtain ⟨found, idx, hs⟩ : ∃ found idx, nodeBinSearch k key = .ok (found, idx) :=
    nodeBinSearch_isOk hlt
  refine ⟨found, idx, hs, ?_⟩
  rcases nodeBinSearch_spec hs hlt with ⟨-, hidx, -⟩ | ⟨-, hidx, -⟩ <;> omega

/-- A sound leaf takes an entry that fits. -/
theorem SoundPage.insertLeaf (h : SoundPage (t.node pid)) (hleaf : (t.node pid).leaf = true)
    (hfits : CellFits (t.node pid) key.length value.length)
    (hsize : key.length + value.length < 2 ^ 31) :
    ∃ t', IoScheduler.insertLeaf t pid key value = .ok t' ∧ SoundPage (t'.node pid) := by
  obtain ⟨hcell, hlen⟩ := leafCell_fits (n := t.node pid) hleaf hsize
  obtain ⟨k, off, hget, hoff, htakes⟩ := h.takes hfits hcell hlen
  obtain ⟨found, idx, hs, hidx⟩ := h.search (nodeGetFreeOffset_size hget) key
  obtain ⟨m, hins, hm⟩ := htakes idx hidx
  refine ⟨{ t.set pid m with count := u32 (t.count + 1) }, ?_, ?_⟩
  · simp only [IoScheduler.insertLeaf, bind_eq_ok, assert_eq_ok]
    exact ⟨_, hget, (), hoff, _, hs, m, hins, rfl⟩
  · show SoundPage ((t.set pid m).node pid)
    rwa [Btree.set_node_self]

/-- A sound branch takes the separator of a child when it fits. -/
theorem SoundPage.linkChild (h : SoundPage (t.node c.fNode))
    (hleaf : (t.node c.fNode).leaf = false)
    (hfits : CellFits (t.node c.fNode) (partitionKey t child).length 0)
    (hkey : (partitionKey t child).length < 2 ^ 31) (hnode : child.node < 2 ^ 64)
    (hnew : child.newNode < 2 ^ 64) : ∃ m, IoScheduler.linkChild t c child =
      .ok (t.set c.fNode m) := by
  obtain ⟨-, ts, hlayout, -⟩ := h.valid
  obtain ⟨found, idx, hs, hidx⟩ := h.search rfl (partitionKey t child)
  obtain ⟨f, hpointer, hredirected⟩ : ∃ f,
      ((idx < (t.node c.fNode).size ∧ nodeSetPid (t.node c.fNode) idx child.newNode = .ok f) ∨
        ¬ idx < (t.node c.fNode).size ∧
          f = { t.node c.fNode with rightmostPid := child.newNode }) ∧
      Redirected (t.node c.fNode) f idx child.newNode := by
    by_cases hlt : idx < (t.node c.fNode).size
    · have hin := hlayout.cell_inside (mem_offsets hlt)
      have hheader : Inside (cellPtr (t.node c.fNode) idx, (bytes64 child.newNode).length) := by
        rw [length_bytes64]
        refine ⟨hin.1, ?_⟩
        simp only [Inside, cellExtent, sizeofCell] at hin ⊢
        omega
      obtain ⟨f, hset⟩ : ∃ f, nodeSetPid (t.node c.fNode) idx child.newNode = .ok f :=
        ⟨_, Node.write_ok hheader⟩
      exact ⟨f, .inl ⟨hlt, hset⟩, redirected_cell hset hlt hleaf hnew hlayout⟩
    · exact ⟨_, .inr ⟨hlt, rfl⟩, redirected_last (not_lt.mp hlt)⟩
  obtain ⟨hcell, hlen⟩ := internalCell_fits (n := f) (hredirected.leaf.trans hleaf) hkey hnode
  obtain ⟨k, off, hget, hoff, htakes⟩ :=
    (h.redirected hredirected).takes (hfits.redirected h.valid hredirected) hcell hlen
  obtain ⟨m, hins, -⟩ := htakes idx (by rwa [hredirected.size])
  refine ⟨m, bind_eq_ok.mpr ⟨_, hs, ?_⟩⟩
  dsimp only
  rcases hpointer with ⟨hlt, hset⟩ | ⟨hge, hf⟩
  · rw [if_pos hlt]
    simp only [bind_eq_ok, assert_eq_ok]
    exact ⟨f, hset, _, hget, (), hoff, m, hins, rfl⟩
  · rw [if_neg hge]
    simp only [bind_eq_ok, assert_eq_ok]
    exact ⟨f, congrArg Except.ok hf.symm, _, hget, (), hoff, m, hins, rfl⟩

/-! ## Splitting a leaf -/

/-- A crumb whose page is a sound leaf with cells on both sides of the index. -/
structure SoundCrumb (t : Btree) (c : Crumb) : Prop where
  isFull : c.isFull = true
  sound : SoundPage (t.node c.node)
  leaf : (t.node c.node).leaf = true
  partitionIdx : c.partitionIdx = nodePartitionIdx (t.node c.node)
  right : nodePartitionIdx (t.node c.node) < (t.node c.node).size
  node : c.node < t.brk
  newNode : c.newNode < t.brk
  ne : c.newNode ≠ c.node
  fresh : Fresh (t.node c.newNode) true
  slotClash : (t.node c.newNode).slotClash = false

theorem SoundCrumb.partitionKey_eq (h : SoundCrumb t c) :
    partitionKey t c = keyAt (t.node c.node) (nodePartitionIdx (t.node c.node)) := by
  rw [partitionKey, h.partitionIdx]

theorem SoundCrumb.key_length (h : SoundCrumb t c) : (partitionKey t c).length < 2 ^ 31 := by
  rw [h.partitionKey_eq]
  exact h.sound.valid.key_length h.right

/-- The separator of the leaf fits in an empty page. -/
theorem SoundCrumb.separator_fits {page : Node} {leaf root : Bool} (h : SoundCrumb t c) :
    CellFits (nodeInit page leaf root) (partitionKey t c).length 0 := by
  rw [h.partitionKey_eq]
  exact h.sound.valid.separator_fits (nodePartitionIdx_pos ((Nat.zero_le _).trans_lt h.right))
    h.right

/-- The last page of a plan is written once its split is known. -/
theorem writeDown_leaf (hfull : c.isFull = true) (hleaf : (t.node c.node).leaf = true)
    (hnewLeaf : (t.node c.newNode).leaf = true) (hcut : c.partitionIdx ≤ (t.node c.node).size)
    (hne : c.newNode ≠ c.node) (hsplit : leafNodeSplit (t.node c.node) (t.node c.newNode)
      c.partitionIdx = .ok (old, new)) (hold : old.leaf = true)
    (hsize : (t.node c.node).size = u32 (old.size + new.size)) :
    ∃ t', writeDown t [c] = .ok t' ∧ t'.node = ((t.set c.node old).set c.newNode new).node ∧
      t'.root = t.root ∧ t'.brk = t.brk := by
  obtain ⟨t₁, hnode, hpages, hroot, hbrk⟩ : ∃ t₁, splitNode t c = .ok t₁ ∧
      t₁.node = ((t.set c.node old).set c.newNode new).node ∧ t₁.root = t.root ∧
        t₁.brk = t.brk := by
    refine ⟨{ (t.set c.node old).set c.newNode new with
      emptyHalf := t.emptyHalf || c.partitionIdx == 0 ||
        decide ((t.node c.node).size ≤ c.partitionIdx) }, ?_, rfl, rfl, rfl⟩
    rw [splitNode, if_pos hfull, if_pos hleaf]
    simp only [splitLeaf, bind_eq_ok, assert_eq_ok]
    exact ⟨(), hcut, (), hnewLeaf, (old, new), hsplit, (), hsize, rfl⟩
  have hpage : (t₁.node c.node).leaf = true := by
    rw [hpages, Btree.set_node_of_ne hne.symm, Btree.set_node_self, hold]
  refine ⟨t₁, ?_, hpages, hroot, hbrk⟩
  simp only [writeDown, hnode, hpage, bind, Except.bind, if_true]

theorem splitRoot_isOk (hbrk : t.brk < 2 ^ 64) (hnode : c.node < t.brk)
    (hkey : (partitionKey t c).length < 2 ^ 31)
    (hfits : CellFits (nodeInit (t.node t.brk) false true) (partitionKey t c).length 0) :
    ∃ t', splitRoot t c = .ok t' := by
  have hkey' : partitionKey (t.withNew false true) c = partitionKey t c := by
    rw [partitionKey, partitionKey, Btree.withNew_node hnode]
  have hinit : SoundPage (nodeInit (t.node t.brk) false true) := nodeInit_sound
  obtain ⟨hcell, hlen⟩ := internalCell_fits (n := nodeInit (t.node t.brk) false true) rfl hkey
    (hnode.trans hbrk)
  obtain ⟨k, off, hget, hoff, htakes⟩ := hinit.takes hfits hcell hlen
  obtain ⟨m, hins, -⟩ := htakes 0 (Nat.zero_le _)
  rw [← hkey'] at hget hins
  rw [← Btree.withNew_node_brk] at hget
  exact ⟨_, bind_eq_ok.mpr ⟨_, newNode_isOk hbrk, bind_eq_ok.mpr ⟨_, hget, bind_eq_ok.mpr
    ⟨(), assert_eq_ok.mpr hoff, bind_eq_ok.mpr ⟨m, hins, rfl⟩⟩⟩⟩⟩

/-- The root's leaf splits under a new root. -/
theorem SoundCrumb.splitPath_nil (h : SoundCrumb t c) (hbrk : t.brk < 2 ^ 64) :
    ∃ t', splitPath t c [] = .ok t' := by
  obtain ⟨t₂, hroot⟩ := splitRoot_isOk hbrk h.node h.key_length h.separator_fits
  obtain ⟨r, hr⟩ := splitRoot_spec hroot h.node h.newNode h.ne
  have hfresh : Fresh (t₂.node c.newNode) true := by
    rw [hr.newPage]
    exact ⟨h.fresh.size, h.fresh.leaf, h.fresh.cellOffset, h.fresh.tombstoneOffset⟩
  obtain ⟨old, new, hsplit, hs⟩ : ∃ old new, leafNodeSplit
      { t.node c.node with parentPid := t.brk, root := false } (t₂.node c.newNode)
      (nodePartitionIdx (t.node c.node)) = .ok (old, new) ∧ SoundHalves (t.node c.node) old new :=
    h.sound.halves_relinked h.leaf h.right hfresh (by rw [hr.newPage]; exact h.slotClash)
  rw [← hr.oldPage, ← h.partitionIdx] at hsplit
  obtain ⟨t', hdown, -⟩ := writeDown_leaf (t := t₂) h.isFull (by rw [hr.oldPage]; exact h.leaf)
    (by rw [hr.newPage]; exact h.fresh.leaf)
    (by rw [hr.oldPage, h.partitionIdx]; exact h.right.le) h.ne hsplit hs.oldLeaf
    (by rw [hr.oldPage]; exact hs.size)
  refine ⟨t', bind_eq_ok.mpr ⟨(t, c, []), rfl, ?_⟩⟩
  dsimp only
  rw [if_pos h.isFull]
  exact bind_eq_ok.mpr ⟨t₂, hroot, hdown⟩

/-- A leaf splits under a parent that has room for the separator. -/
theorem SoundCrumb.splitPath_cons (h : SoundCrumb t c) (hq : SoundPage (t.node q))
    (hbranch : (t.node q).leaf = false) (hqnode : q ≠ c.node) (hqnew : q ≠ c.newNode)
    (hopen : nodeIsFull (t.node q) (partitionKey t c).length 0 = .ok false)
    (hfits : CellFits (t.node q) (partitionKey t c).length 0) (hbrk : t.brk ≤ 2 ^ 64) :
    ∃ t', splitPath t c (q :: above) = .ok t' := by
  have hkey := h.key_length
  obtain ⟨t₁, top, hplan, htopFull, htopNode, htopTarget, hnode₁, -, -⟩ := planNode_open hopen
  have hcrumbs : planCrumbs t c [] (q :: above) = .ok (t₁, top, [c]) := by
    rw [planCrumbs, if_pos h.isFull, hplan]
    exact planCrumbs_open htopFull
  have hkey₁ : partitionKey t₁ c = partitionKey t c := by rw [partitionKey, partitionKey, hnode₁]
  obtain ⟨m, hlink⟩ : ∃ m, linkChild t₁ top c = .ok (t₁.set top.fNode m) :=
    SoundPage.linkChild (by rw [htopTarget, hnode₁]; exact hq)
      (by rw [htopTarget, hnode₁]; exact hbranch)
      (by rw [htopTarget, hnode₁, hkey₁]; exact hfits) (by rw [hkey₁]; exact hkey)
      (h.node.trans_le hbrk) (h.newNode.trans_le hbrk)
  rw [htopTarget] at hlink
  have hold : (t₁.set q m).node c.node = t.node c.node := by
    rw [Btree.set_node_of_ne hqnode.symm, hnode₁]
  have hnew : (t₁.set q m).node c.newNode = t.node c.newNode := by
    rw [Btree.set_node_of_ne hqnew.symm, hnode₁]
  obtain ⟨old, new, hsplit, hs⟩ := h.sound.halves h.leaf h.right h.fresh h.slotClash
  obtain ⟨t', hdown, -⟩ := writeDown_leaf (t := t₁.set q m) h.isFull (by rw [hold]; exact h.leaf)
    (by rw [hnew]; exact h.fresh.leaf) (by rw [hold, h.partitionIdx]; exact h.right.le) h.ne
    (by rw [hold, hnew, h.partitionIdx]; exact hsplit) hs.oldLeaf (by rw [hold]; exact hs.size)
  refine ⟨t', bind_eq_ok.mpr ⟨(t₁, top, [c]), hcrumbs, ?_⟩⟩
  dsimp only
  rw [if_neg (by rw [htopFull]; exact Bool.false_ne_true)]
  have hsame : splitNode t₁ top = .ok t₁ := by
    rw [splitNode, if_neg (by rw [htopFull]; exact Bool.false_ne_true)]
  have hflag : (t₁.node top.node).leaf = false := by rw [htopNode, hnode₁, hbranch]
  refine bind_eq_ok.mpr ⟨t₁, rfl, ?_⟩
  rw [writeDown]
  simp only [hsame, hflag, bind, Except.bind, Bool.false_eq_true, if_false, hlink]
  exact hdown

/-! ## Every page is sound -/

/-- Every page handed out is sound. -/
def SoundPages (t : Btree) : Prop := ∀ p, 0 < p → p < t.brk → SoundPage (t.node p)

theorem SoundPages.insertLeaf (h : SoundPages t) (hpos : 0 < pid) (hlt : pid < t.brk)
    (hleaf : (t.node pid).leaf = true) (hfits : CellFits (t.node pid) key.length value.length)
    (hsize : key.length + value.length < 2 ^ 31)
    (hins : IoScheduler.insertLeaf t pid key value = .ok t') : SoundPages t' := by
  obtain ⟨k, off, found, idx, m, hget, hoff, hs, hcell, ht'⟩ := insertLeaf_eq_ok hins
  obtain ⟨-, hbrk, -⟩ := insertLeaf_fields hins
  have hsound := h pid hpos hlt
  obtain ⟨hkind, hlen⟩ := leafCell_fits (n := t.node pid) hleaf hsize
  have hidx : idx ≤ (t.node pid).size := by
    obtain ⟨found', idx', hs', hle⟩ := hsound.search (nodeGetFreeOffset_size hget) key
    obtain ⟨-, rfl⟩ := Prod.mk.inj (Except.ok.inj (hs.symm.trans hs'))
    exact hle
  intro p hp hplt
  rcases eq_or_ne p pid with rfl | hne
  · have hpage : t'.node p = m := by rw [ht']; exact Btree.set_node_self
    rw [hpage]
    exact hsound.taken hfits hkind hlen hget hidx hcell
  · rw [insertLeaf_node_of_ne hins hne]
    exact h p hp (hbrk ▸ hplt)

theorem SplitPlanned.soundPages (h : SplitPlanned t t₁ d pid c) (hpages : SoundPages t) :
    SoundPages t₁ := by
  have hbrk := h.brk
  intro p hp hlt
  rcases Nat.lt_succ_iff_lt_or_eq.mp (hbrk ▸ hlt) with hlt | rfl
  · rw [h.same p hlt]
    exact hpages p hp hlt
  · rw [h.fresh]
    exact nodeInit_sound

theorem SplitPlanned.soundCrumb (h : SplitPlanned t t₁ d pid c) (hpages : SoundPages t)
    (hpos : 0 < pid) (hlt : pid < t.brk) (hleaf : (t.node pid).leaf = true)
    (hright : nodePartitionIdx (t.node pid) < (t.node pid).size) : SoundCrumb t₁ c := by
  have hpage := h.oldPage hlt
  have hnode := h.node
  have hnewNode := h.newNode
  have hbrk := h.brk
  refine ⟨h.isFull, ?_, ?_, ?_, ?_, by omega, by omega, by omega, ?_, ?_⟩
  · rw [hpage]
    exact hpages pid hpos hlt
  · rw [hpage, hleaf]
  · rw [hpage, h.partitionIdx]
  · rwa [hpage]
  · rw [h.newPage]
    exact nodeInit_fresh
  · rw [h.newPage]
    rfl

/-- The pages are sound after a leaf has been split under a new root. -/
theorem SoundCrumb.rootSplit (h : SoundCrumb t c) (hpages : SoundPages t)
    (hs : RootSplit t t' c r old new) :
    SoundPages t' ∧ SoundHalves (t.node c.node) old new := by
  have hhalves : SoundHalves (t.node c.node) old new := by
    obtain ⟨old', new', hsplit, hsound⟩ : ∃ old' new', leafNodeSplit
        { t.node c.node with parentPid := t.brk, root := false }
        { t.node c.newNode with parentPid := t.brk } (nodePartitionIdx (t.node c.node)) =
          .ok (old', new') ∧ SoundHalves (t.node c.node) old' new' :=
      h.sound.halves_relinked h.leaf h.right ⟨h.fresh.size, h.fresh.leaf, h.fresh.cellOffset,
        h.fresh.tombstoneOffset⟩ h.slotClash
    rw [← h.partitionIdx] at hsplit
    obtain ⟨rfl, rfl⟩ := Prod.mk.inj (Except.ok.inj (hs.halves.symm.trans hsplit))
    exact hsound
  have hr : SoundPage r := by
    obtain ⟨k, off, hget, -, hins⟩ := hs.place
    have hinit : SoundPage (nodeInit (t.node t.brk) false true) := nodeInit_sound
    obtain ⟨hcell, hlen⟩ := internalCell_fits (n := nodeInit (t.node t.brk) false true) rfl
      h.key_length (h.node.trans hs.bound)
    exact hinit.taken h.separator_fits hcell hlen hget (Nat.zero_le _) hins
  refine ⟨fun p hp hlt => ?_, hhalves⟩
  rw [hs.brk] at hlt
  rcases Nat.lt_succ_iff_lt_or_eq.mp hlt with hlt | rfl
  · by_cases hpn : p = c.node
    · rw [hpn, hs.oldPage]
      exact hhalves.oldSound
    by_cases hpn' : p = c.newNode
    · rw [hpn', hs.newPage]
      exact hhalves.newSound
    rw [hs.others p hlt hpn hpn']
    exact hpages p hp hlt
  · rw [hs.rootPage]
    exact hr.relink _ _ _

/-- The pages are sound after a leaf has been split under its parent. -/
theorem SoundCrumb.linkedSplit (h : SoundCrumb t c) (hpages : SoundPages t) (hpos : 0 < q)
    (hlt : q < t.brk) (hbranch : (t.node q).leaf = false)
    (hfits : CellFits (t.node q) (partitionKey t c).length 0) (hbrk : t.brk ≤ 2 ^ 64)
    (hs : LinkedSplit t t' c q idx f m old new) :
    SoundPages t' ∧ SoundHalves (t.node c.node) old new := by
  have hhalves : SoundHalves (t.node c.node) old new := by
    obtain ⟨old', new', hsplit, hsound⟩ := h.sound.halves h.leaf h.right h.fresh h.slotClash
    rw [← h.partitionIdx] at hsplit
    obtain ⟨rfl, rfl⟩ := Prod.mk.inj (Except.ok.inj (hs.halves.symm.trans hsplit))
    exact hsound
  have hm : SoundPage m := by
    have hq := hpages q hpos hlt
    obtain ⟨-, ts, hlayout, -⟩ := hq.valid
    have hredirected : Redirected (t.node q) f idx c.newNode := by
      rcases hs.pointer with ⟨hidx, hset⟩ | ⟨hidx, rfl⟩
      · exact redirected_cell hset hidx hbranch (h.newNode.trans_le hbrk) hlayout
      · exact redirected_last (not_lt.mp hidx)
    have hidx : idx ≤ (t.node q).size := by
      obtain ⟨found, hsearch⟩ := hs.search
      obtain ⟨found', idx', hs', hle⟩ := hq.search rfl (partitionKey t c)
      obtain ⟨-, rfl⟩ := Prod.mk.inj (Except.ok.inj (hsearch.symm.trans hs'))
      exact hle
    obtain ⟨k, off, hget, -, hins⟩ := hs.place
    obtain ⟨hcell, hlen⟩ := internalCell_fits (n := f) (hredirected.leaf.trans hbranch)
      h.key_length (h.node.trans_le hbrk)
    exact (hq.redirected hredirected).taken (hfits.redirected hq.valid hredirected) hcell hlen
      hget (by rwa [hredirected.size]) hins
  refine ⟨fun p hp hplt => ?_, hhalves⟩
  rw [hs.brk] at hplt
  by_cases hpq : p = q
  · rw [hpq, hs.parentPage]
    exact hm
  by_cases hpn : p = c.node
  · rw [hpn, hs.oldPage]
    exact hhalves.oldSound
  by_cases hpn' : p = c.newNode
  · rw [hpn', hs.newPage]
    exact hhalves.newSound
  rw [hs.others p hpq hpn hpn']
  exact hpages p hp hplt

/-- A full leaf has been split, and the half for the key has room for the entry. -/
structure HalfReady (t t' : Btree) (c : Crumb) (key value : List UInt8) : Prop where
  pages : SoundPages t'
  pos : 0 < c.fNode
  lt : c.fNode < t'.brk
  leaf : (t'.node c.fNode).leaf = true
  fits : CellFits (t'.node c.fNode) key.length value.length
  internalSplits : t'.internalSplits = t.internalSplits

theorem HalfFits.ready (hs : SoundHalves (t.node pid) old new) (hc : c = splitCrumb t pid key)
    (hfits : HalfFits (t.node pid) key value) (hold : t'.node c.node = old)
    (hnew : t'.node c.newNode = new) : (t'.node c.fNode).leaf = true ∧
      CellFits (t'.node c.fNode) key.length value.length := by
  have hf : c.fNode = if keyCompare (keyAt (t.node pid) (nodePartitionIdx (t.node pid))) key < 0
      then c.newNode else c.node := by
    rw [hc]
    rfl
  rw [hf]
  rw [HalfFits] at hfits
  split_ifs at hfits ⊢ with hright
  · rw [hnew]
    exact ⟨hs.newLeaf, hs.fitsRight _ _ hfits⟩
  · rw [hold]
    exact ⟨hs.oldLeaf, hs.fitsLeft _ _ hfits⟩

theorem splitCrumb_fNode (hc : c = splitCrumb t pid key) (hpos : 0 < pid) (hlt : pid < t.brk) :
    0 < c.fNode ∧ c.fNode < t.brk + 1 := by
  have hf : c.fNode = t.brk ∨ c.fNode = pid := by
    rw [hc, splitCrumb]
    exact ite_eq_or_eq ..
  omega

theorem SplitPlanned.root_ready (h : SplitPlanned t t₁ d pid c) (hc : c = splitCrumb t pid key)
    (hpages : SoundPages t) (hpos : 0 < pid) (hlt : pid < t.brk)
    (hleaf : (t.node pid).leaf = true) (hfits : HalfFits (t.node pid) key value)
    (hsplit : splitPath t₁ c [] = .ok t₂) :
    HalfReady t t₂ c key value ∧ t₂.wildPartition = t₁.wildPartition := by
  have hpage := h.oldPage hlt
  have hnode := h.node
  have hnewNode := h.newNode
  have hbrk := h.brk
  obtain ⟨r, old, new, hr⟩ := splitPath_nil_eq_ok hsplit h.isFull (by omega) (by omega) (by omega)
    (by rw [hpage, hleaf])
  have hright : nodePartitionIdx (t.node pid) < (t.node pid).size := by
    obtain ⟨-, ts, hlayout, -⟩ := (hpages pid hpos hlt).valid
    have hhalves := hr.halves
    rw [hpage, h.partitionIdx] at hhalves
    exact leafNodeSplit_nonempty (n := { t.node pid with parentPid := t₁.brk, root := false })
      hlayout.size_lt nodePartitionIdx_le hhalves
  obtain ⟨hsound, hhalves⟩ := (h.soundCrumb hpages hpos hlt hleaf hright).rootSplit
    (h.soundPages hpages) hr
  rw [hpage] at hhalves
  obtain ⟨hhalfLeaf, hhalfFits⟩ := hfits.ready hhalves hc hr.oldPage hr.newPage
  obtain ⟨hfpos, hflt⟩ := splitCrumb_fNode hc hpos hlt
  have hbrk₂ := hr.brk
  exact ⟨⟨hsound, hfpos, by omega, hhalfLeaf, hhalfFits,
    hr.internalSplits.trans h.internalSplits⟩, hr.wildPartition⟩

theorem SplitPlanned.under_ready (h : SplitPlanned t t₁ d pid c) (hc : c = splitCrumb t pid key)
    (hpages : SoundPages t) (hpos : 0 < pid) (hlt : pid < t.brk)
    (hleaf : (t.node pid).leaf = true) (hfits : HalfFits (t.node pid) key value) (hqpos : 0 < q)
    (hqlt : q < t.brk) (hbranch : (t.node q).leaf = false)
    (hopen : nodeIsFull (t.node q) (partitionKey t₁ c).length 0 = .ok false)
    (hqfits : CellFits (t.node q) (partitionKey t₁ c).length 0)
    (hsplit : splitPath t₁ c (q :: above) = .ok t₂) :
    HalfReady t t₂ c key value ∧ t₂.wildPartition =
      (t₁.wildPartition || decide ((t.node q).size ≤ nodePartitionIdx (t.node q))) := by
  have hpage := h.oldPage hlt
  have hqpage : t₁.node q = t.node q := h.same q hqlt
  have hnode := h.node
  have hnewNode := h.newNode
  have hbrk := h.brk
  have hqpid : q ≠ pid := by
    rintro rfl
    exact absurd (hbranch.symm.trans hleaf) (by decide)
  rw [← hqpage] at hbranch hopen hqfits
  obtain ⟨idx, f, m, old, new, hs⟩ := splitPath_open_eq_ok hsplit h.isFull hopen (by omega)
    (by omega) (by omega) (by omega) hbranch (by rw [hpage, hleaf])
  have hright : nodePartitionIdx (t.node pid) < (t.node pid).size := by
    obtain ⟨-, ts, hlayout, -⟩ := (hpages pid hpos hlt).valid
    have hhalves := hs.halves
    rw [hpage, h.partitionIdx] at hhalves
    exact leafNodeSplit_nonempty hlayout.size_lt nodePartitionIdx_le hhalves
  obtain ⟨hsound, hhalves⟩ := (h.soundCrumb hpages hpos hlt hleaf hright).linkedSplit
    (h.soundPages hpages) hqpos (by omega) hbranch hqfits h.valid.bound hs
  rw [hpage] at hhalves
  obtain ⟨hhalfLeaf, hhalfFits⟩ := hfits.ready hhalves hc hs.oldPage hs.newPage
  obtain ⟨hfpos, hflt⟩ := splitCrumb_fNode hc hpos hlt
  have hbrk₂ := hs.brk
  rw [← hqpage]
  exact ⟨⟨hsound, hfpos, by omega, hhalfLeaf, hhalfFits,
    hs.internalSplits.trans h.internalSplits⟩, hs.wildPartition⟩

/-! ## A whole call -/

/-- The pages a call for an entry writes to have room for it: the leaf the
descent leads to, or a half of it and the parent that takes the separator. -/
def HasRoom (t : Btree) (key value : List UInt8) : Prop :=
  ∀ pid above, descend t key 15 [] t.root = .ok (some (pid :: above)) →
    (nodeIsFull (t.node pid) key.length value.length = .ok false →
      CellFits (t.node pid) key.length value.length) ∧
    (nodeIsFull (t.node pid) key.length value.length = .ok true →
      HalfFits (t.node pid) key value ∧ ∀ q ∈ above.head?,
        nodeIsFull (t.node q) (keyAt (t.node pid) (nodePartitionIdx (t.node pid))).length 0 =
          .ok false ∧
        CellFits (t.node q) (keyAt (t.node pid) (nodePartitionIdx (t.node pid))).length 0)

theorem HasRoom.placesLow (h : HasRoom t key value) : PlacesLow t key value := by
  intro pid above hdescend
  obtain ⟨hopen, hfull⟩ := h pid above hdescend
  refine ⟨fun hyes => (hopen hyes).placedLow, fun hyes => ?_⟩
  obtain ⟨hhalf, hparent⟩ := hfull hyes
  exact ⟨hhalf.placedLow, fun q hq => (hparent q hq).2.placedLow⟩

/-- A call that finds room splits no branch and keeps every page sound. -/
theorem ValidAt.insert_sound {ret : ℕ} (hv : ValidAt t d) (hpages : SoundPages t)
    (hroom : HasRoom t key value) (hsize : key.length + value.length < 2 ^ 31)
    (hins : btreeInsert t key value = .ok (ret, t')) :
    SoundPages t' ∧ t'.internalSplits = t.internalSplits := by
  rcases btreeInsert_eq_ok hins with ⟨-, -, rfl⟩ | ⟨pid, above, t₁, c, t₂, hdescend, hplan, hsplit,
    hleafIns, -⟩
  · exact ⟨hpages, rfl⟩
  have hvisits := descend_visits hdescend .root
  obtain ⟨_, _, hpath, hleaf⟩ := descend_leaf hdescend
  obtain ⟨rfl, rfl⟩ := List.cons.inj hpath
  obtain ⟨hopen, hfull⟩ := hroom pid above hdescend
  obtain ⟨e, hfocus⟩ := hv.focus (by omega) hvisits
  obtain ⟨J, A, B, C, D, hJ, hctx⟩ := hfocus.context hv.ordered (Set.mem_univ _)
  obtain ⟨hpos, hlt, -⟩ := hv.pages pid hctx.mem_pids
  obtain ⟨-, -, -, hsame, -⟩ := insertLeaf_fields hleafIns
  rcases planLeaf_eq_ok hlt hplan with ⟨hno, rfl, -, hf, hnot⟩ | ⟨hyes, hbrk, ht₁, hc⟩
  · rcases hsplit with ⟨hyes, -⟩ | ⟨-, rfl⟩
    · exact absurd (hnot.symm.trans hyes) (by decide)
    rw [hf] at hleafIns
    exact ⟨hpages.insertLeaf hpos hlt hleaf (hopen hno) hsize hleafIns, hsame⟩
  have hplanned := hv.splitPlanned hbrk ht₁ hc
  obtain ⟨hhalf, hparent⟩ := hfull hyes
  rcases hsplit with ⟨-, hsplit⟩ | ⟨hnot, -⟩
  swap
  · exact absurd (hnot.symm.trans hplanned.isFull) (by decide)
  have hready : HalfReady t t₂ c key value := by
    cases above with
    | nil => exact (hplanned.root_ready hc hpages hpos hlt hleaf hhalf hsplit).1
    | cons q above =>
        obtain ⟨i, J, A, B, C, D, -, hq, hturn⟩ := hv.leafUnder (by omega) hvisits hleaf
        obtain ⟨hqpos, hqlt, -⟩ := hv.pages q hq.mem_pids
        obtain ⟨hqopen, hqfits⟩ := hparent q rfl
        rw [← hplanned.partitionKey_eq hlt] at hqopen hqfits
        exact (hplanned.under_ready hc hpages hpos hlt hleaf hhalf hqpos hqlt hturn.branch hqopen
          hqfits hsplit).1
  exact ⟨hready.pages.insertLeaf hready.pos hready.lt hready.leaf hready.fits hsize hleafIns,
    hsame.trans hready.internalSplits⟩

/-! ## A call that goes through -/

/-- The cells before the last one already take half a page. -/
def ReachesHalf (n : Node) : Prop := halfPage ≤ cellBytes n ((offsets n).take (n.size - 1))

instance {n : Node} : Decidable (ReachesHalf n) := inferInstanceAs (Decidable (_ ≤ _))

/-- There is a cell to the right of where a page is cut exactly when the cells
before the last one take half a page. -/
theorem ValidPage.partition_lt_iff (h : ValidPage n) :
    nodePartitionIdx n < n.size ↔ ReachesHalf n := by
  obtain ⟨-, ts, hlayout, -⟩ := h
  have hcells : ∀ o ∈ offsets n, sizeofCell + cellTotalSize n o ≤ nodeSize := fun o ho => by
    have hin := (hlayout.cell_inside ho).2
    simp only [cellExtent] at hin
    omega
  obtain ⟨hle, hbefore, hafter⟩ := nodePartitionIdx_spec hcells
  constructor
  · intro hlt
    exact (hafter hlt).trans (cellBytes_take_mono (by omega))
  · intro hhalf
    by_contra hnot
    rcases Nat.eq_zero_or_pos n.size with hzero | hpos
    · rw [ReachesHalf, hzero, Nat.zero_sub, List.take_zero] at hhalf
      exact absurd (show halfPage ≤ 0 from hhalf) (by decide)
    · exact absurd hhalf (not_le.mpr (hbefore (n.size - 1) (by omega)))

/-- A full leaf that a call for an entry splits reaches half a page before its
last cell. -/
def CutsLeafInside (t : Btree) (key value : List UInt8) : Prop :=
  ∀ pid above, descend t key 15 [] t.root = .ok (some (pid :: above)) →
    nodeIsFull (t.node pid) key.length value.length = .ok true → ReachesHalf (t.node pid)

/-- A full leaf that a call for an entry splits, and the parent of it, reach half
a page before their last cell. -/
def CutsInside (t : Btree) (key value : List UInt8) : Prop :=
  ∀ pid above, descend t key 15 [] t.root = .ok (some (pid :: above)) →
    nodeIsFull (t.node pid) key.length value.length = .ok true →
      ReachesHalf (t.node pid) ∧ ∀ q ∈ above.head?, ReachesHalf (t.node q)

theorem CutsInside.leaf (h : CutsInside t key value) : CutsLeafInside t key value :=
  fun pid above hdescend hfull => (h pid above hdescend hfull).1

theorem childAt_isOk (h : n.rightmostPid ≠ 0) : ∃ q, childAt n idx = .ok q := by
  rw [childAt]
  split_ifs
  · exact ⟨_, rfl⟩
  · exact ⟨n.rightmostPid, bind_eq_ok.mpr ⟨(), assert_eq_ok.mpr h, rfl⟩⟩

theorem SoundPage.isFull_isOk (h : SoundPage n) {keySize valueSize : ℕ} :
    ∃ full, nodeIsFull n keySize valueSize = .ok full := by
  obtain ⟨-, ts, hlayout, -⟩ := h.valid
  exact ⟨_, nodeIsFull_spec hlayout.spread⟩

/-- The descent for a key that is no separator comes to a leaf. -/
theorem ValidAt.descend_isOk (hv : ValidAt t d) (hkey : key.length < 2 ^ 31)
    (hsep : ⟨key⟩ ∉ separators t.view d t.root) (hdepth : d ≤ 15) :
    ∃ pid above, descend t key 15 [] t.root = .ok (some (pid :: above)) := by
  have hdown : ∀ e room above p, e ≤ room → Focus t.view ⟨key⟩ d t.root e p →
      ∃ pid above', descend t key room above p = .ok (some (pid :: above')) := by
    intro e
    induction e with
    | zero =>
        intro room above p _ hfocus
        obtain ⟨J, A, B, C, D, -, hc⟩ := hfocus.context hv.ordered (Set.mem_univ _)
        obtain ⟨hpos, hlt, -⟩ := hv.pages p hc.mem_pids
        have hleaf : (t.node p).leaf = true := by
          by_contra hnot
          obtain ⟨e', he, -⟩ := hc.branch_sorted (eq_false_of_ne_true hnot)
          exact absurd he (Nat.succ_ne_zero e').symm
        refine ⟨p, above, ?_⟩
        rw [descend, Btree.deref, if_pos ⟨hpos, hlt⟩]
        refine bind_eq_ok.mpr ⟨t.node p, rfl, ?_⟩
        rw [if_pos hleaf]
    | succ e ih =>
        intro room above p hroom hfocus
        obtain ⟨J, A, B, C, D, -, hc⟩ := hfocus.context hv.ordered (Set.mem_univ _)
        obtain ⟨hpos, hlt, hvalid⟩ := hv.pages p hc.mem_pids
        have hbranch : (t.node p).leaf = false := by
          by_contra hnot
          obtain ⟨he, -⟩ := hc.leaf_sorted (eq_true_of_ne_false hnot)
          exact absurd he (Nat.succ_ne_zero e)
        obtain ⟨-, -, hsort⟩ := hc.branch_sorted hbranch
        obtain ⟨found, idx, hs⟩ : ∃ found idx, nodeBinSearch (t.node p) key = .ok (found, idx) := by
          obtain ⟨-, ts, hlayout, -⟩ := hvalid
          exact nodeBinSearch_isOk hlayout.size_lt
        have hview : t.view p = .branch (branchCells (t.node p)) (t.node p).rightmostPid :=
          page_branch hbranch
        obtain rfl : found = false := by
          rcases hvalid.place hsort hkey hs with ⟨-, hmem⟩ | ⟨hf, -⟩
          · refine absurd (hfocus.separators_subset ?_) hsep
            rw [separators, hview, Page.seps, branchCells_keys]
            exact List.mem_append_left _ hmem
          · exact hf
        have hlast : (t.node p).rightmostPid ∈ t.pids d := by
          refine hc.pids_subset (pids_child_subset ?_ mem_pids_self)
          rw [hview]
          exact List.mem_append_right _ (List.mem_singleton_self _)
        obtain ⟨q, hchild⟩ : ∃ q, childAt (t.node p) idx = .ok q :=
          childAt_isOk (hv.pages _ hlast).1.ne'
        obtain ⟨r, rfl⟩ : ∃ r, room = r + 1 := ⟨room - 1, by omega⟩
        obtain ⟨pid, above', hrest⟩ := ih r (p :: above) q (Nat.le_of_succ_le_succ hroom)
          (hfocus.trans (hv.turn hc hkey hbranch hs hchild).focus)
        refine ⟨pid, above', ?_⟩
        rw [descend, Btree.deref, if_pos ⟨hpos, hlt⟩]
        refine bind_eq_ok.mpr ⟨t.node p, rfl, ?_⟩
        rw [if_neg (by rw [hbranch]; exact Bool.false_ne_true)]
        exact bind_eq_ok.mpr ⟨(false, idx), hs, bind_eq_ok.mpr ⟨q, hchild, hrest⟩⟩
  exact hdown d 15 [] t.root hdepth .here

/-- A call for a new key that finds room and cuts its leaf inside goes through; it
takes a slot past the end of a page only where the parent is cut. -/
theorem ValidAt.insert_isOk (hv : ValidAt t d) (hpages : SoundPages t) (hdepth : d ≤ 15)
    (hbrk : t.brk + 1 < 2 ^ 64) (hsep : ⟨key⟩ ∉ separators t.view d t.root)
    (hsize : key.length + value.length < 2 ^ 31) (hroom : HasRoom t key value)
    (hcut : CutsLeafInside t key value) : ∃ t', btreeInsert t key value = .ok (0, t') ∧
      (CutsInside t key value → t'.wildPartition = t.wildPartition) := by
  obtain ⟨pid, above, hdescend⟩ := hv.descend_isOk (by omega) hsep hdepth
  have hvisits := descend_visits hdescend .root
  obtain ⟨_, _, hpath, hleaf⟩ := descend_leaf hdescend
  obtain ⟨rfl, rfl⟩ := List.cons.inj hpath
  obtain ⟨hopen, hfull⟩ := hroom pid above hdescend
  obtain ⟨e, hfocus⟩ := hv.focus (by omega) hvisits
  obtain ⟨J, A, B, C, D, hJ, hctx⟩ := hfocus.context hv.ordered (Set.mem_univ _)
  obtain ⟨hpos, hlt, hvalid⟩ := hv.pages pid hctx.mem_pids
  obtain ⟨full, hisFull⟩ : ∃ full, nodeIsFull (t.node pid) key.length value.length = .ok full :=
    (hpages pid hpos hlt).isFull_isOk
  cases full with
  | false =>
      have hplan : planLeaf t key value pid =
          .ok (t,
            { node := pid, newNode := 0, fNode := pid, partitionIdx := 0, isFull := false }) :=
        bind_eq_ok.mpr ⟨false, hisFull, rfl⟩
      obtain ⟨t', hins, -⟩ := (hpages pid hpos hlt).insertLeaf hleaf (hopen hisFull) hsize
      exact ⟨t', bind_eq_ok.mpr ⟨_, hdescend, bind_eq_ok.mpr ⟨_, hplan, bind_eq_ok.mpr
        ⟨t, rfl, bind_eq_ok.mpr ⟨t', hins, rfl⟩⟩⟩⟩, fun _ => (insertLeaf_fields hins).2.2.2.2⟩
  | true =>
      obtain ⟨hhalf, hparent⟩ := hfull hisFull
      have hright := hvalid.partition_lt_iff.mpr (hcut pid above hdescend hisFull)
      obtain ⟨t₁, ht₁⟩ : ∃ t₁, t₁ =
        (notePartition t pid (nodePartitionIdx (t.node pid))).withNew true false := ⟨_, rfl⟩
      obtain ⟨c, hc⟩ : ∃ c, c = splitCrumb t pid key := ⟨_, rfl⟩
      have hplan : planLeaf t key value pid = .ok (t₁, c) := by
        rw [ht₁, hc]
        exact bind_eq_ok.mpr ⟨true, hisFull, planSplit_isOk (t := notePartition t pid _)
          (Nat.lt_of_succ_lt hbrk) hlt⟩
      have hplanned := hv.splitPlanned (Nat.lt_of_succ_lt hbrk) ht₁ hc
      have hcrumb := hplanned.soundCrumb hpages hpos hlt hleaf hright
      have hbrk₁ := hplanned.brk
      obtain ⟨t₂, hsplit, hready, hwild⟩ : ∃ t₂, splitPath t₁ c above = .ok t₂ ∧
          HalfReady t t₂ c key value ∧
            (CutsInside t key value → t₂.wildPartition = t₁.wildPartition) := by
        cases above with
        | nil =>
            obtain ⟨t₂, hsplit⟩ := hcrumb.splitPath_nil (by omega)
            obtain ⟨hready, hwild⟩ := hplanned.root_ready hc hpages hpos hlt hleaf hhalf hsplit
            exact ⟨t₂, hsplit, hready, fun _ => hwild⟩
        | cons q above =>
            obtain ⟨i, J, A, B, C, D, -, hq, hturn⟩ := hv.leafUnder (by omega) hvisits hleaf
            obtain ⟨hqpos, hqlt, hqvalid⟩ := hv.pages q hq.mem_pids
            obtain ⟨hqopen, hqfits⟩ := hparent q rfl
            rw [← hplanned.partitionKey_eq hlt] at hqopen hqfits
            have hqpage : t₁.node q = t.node q := hplanned.same q hqlt
            have hqpid : q ≠ pid := by
              rintro rfl
              exact absurd (hturn.branch.symm.trans hleaf) (by decide)
            have hnode := hplanned.node
            have hnewNode := hplanned.newNode
            obtain ⟨t₂, hsplit⟩ : ∃ t₂, splitPath t₁ c (q :: above) = .ok t₂ :=
              hcrumb.splitPath_cons (by rw [hqpage]; exact hpages q hqpos hqlt)
                (by rw [hqpage]; exact hturn.branch) (by omega) (by omega)
                (by rw [hqpage]; exact hqopen) (by rw [hqpage]; exact hqfits) (by omega)
            obtain ⟨hready, hwild⟩ := hplanned.under_ready hc hpages hpos hlt hleaf hhalf hqpos
              hqlt hturn.branch hqopen hqfits hsplit
            refine ⟨t₂, hsplit, hready, fun hinside => ?_⟩
            have hqcut := hqvalid.partition_lt_iff.mpr
              ((hinside pid (q :: above) hdescend hisFull).2 q rfl)
            rw [hwild, decide_eq_false (not_le.mpr hqcut), Bool.or_false]
      obtain ⟨t', hins, -⟩ :=
        (hready.pages _ hready.pos hready.lt).insertLeaf hready.leaf hready.fits hsize
      refine ⟨t', bind_eq_ok.mpr ⟨_, hdescend, bind_eq_ok.mpr ⟨_, hplan, ?_⟩⟩, fun hinside => ?_⟩
      · dsimp only
        rw [if_pos hplanned.isFull]
        exact bind_eq_ok.mpr ⟨t₂, hsplit, bind_eq_ok.mpr ⟨t', hins, rfl⟩⟩
      · rw [(insertLeaf_fields hins).2.2.2.2, hwild hinside, hplanned.wildPartition,
          decide_eq_false (not_le.mpr hright), Bool.or_false]

end IoScheduler
