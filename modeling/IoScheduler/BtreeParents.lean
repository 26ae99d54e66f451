import IoScheduler.BtreeSteps
import IoScheduler.NodeViews

/-!
# Parent links

Only the split of the root writes parent links. A tree that has split nothing but
its first root, a leaf, is a leaf or a root over two leaves, and these links are
right; the leaf that any later split adds has no parent.
-/
namespace IoScheduler
open Machine Bytes SearchTree Transition

variable {t t' : Btree} {c : Crumb} {r old new : Node} {memory : ℕ → Node}
  {a : List UInt8 × List UInt8}

/-- The pages some way down from the root leads to. -/
inductive Btree.Reaches (t : Btree) : ℕ → Prop
  | root : Reaches t t.root
  | child {p q : ℕ} : Reaches t p → q ∈ childPids (t.node p) → Reaches t q

/-- The leaf a call leads to has room or is the root, and then the separator of
its halves fits in an empty page with its slot. -/
def KeepsParents (t : Btree) (a : List UInt8 × List UInt8) : Prop :=
  ∀ pid above, descend t a.1 15 [] t.root = .ok (some (pid :: above)) →
    nodeIsFull (t.node pid) a.1.length a.2.length = .ok true → pid = t.root ∧
      sizeofNode + sizeofCell + (keyAt (t.node pid) (nodePartitionIdx (t.node pid))).length + 4 ≤
        nodeSize

instance : Decidable (KeepsParents t a) :=
  match h : descend t a.1 15 [] t.root with
  | .ok (some (pid :: above)) =>
      decidable_of_iff (nodeIsFull (t.node pid) a.1.length a.2.length = .ok true → pid = t.root ∧
        sizeofNode + sizeofCell + (keyAt (t.node pid) (nodePartitionIdx (t.node pid))).length + 4 ≤
          nodeSize)
        ⟨fun hk p ab hd => by rw [h] at hd; cases hd; exact hk, fun hk => hk pid above h⟩
  | .ok (some []) => isTrue fun p ab hd => by rw [h] at hd; cases hd
  | .ok none => isTrue fun p ab hd => by rw [h] at hd; cases hd
  | .error e => isTrue fun p ab hd => by rw [h] at hd; cases hd

/-- A root that is a leaf, or one over two leaves. -/
inductive Shallow (t : Btree) : Prop
  | leafRoot : t.root < t.brk → (t.node t.root).leaf = true → (t.node t.root).parentPid = 0 →
      Shallow t
  | twoLeaves {x y : ℕ} : x < t.brk → y < t.brk → (t.node t.root).leaf = false →
      (t.node t.root).parentPid = 0 → childPids (t.node t.root) ⊆ [x, y] →
      (t.node x).leaf = true → (t.node y).leaf = true →
      (t.node x).parentPid = t.root → (t.node y).parentPid = t.root → Shallow t

/-- Writing to a leaf keeps the links. -/
theorem Shallow.insertLeaf {pid : ℕ} {key value : List UInt8} (h : Shallow t)
    (hleaf : (t.node pid).leaf = true) (hins : insertLeaf t pid key value = .ok t') :
    Shallow t' := by
  obtain ⟨k, off, found, idx, m, hget, -, -, hins, ht'⟩ := insertLeaf_eq_ok hins
  have hm : (t.node pid).Follows m :=
    (nodeGetFreeOffset_follows hget).trans (nodeInsertCell_follows hins)
  have hnode : t'.node = (t.set pid m).node := by rw [ht']
  have hroot : t'.root = t.root := by rw [ht']; rfl
  have hbrk : t'.brk = t.brk := by rw [ht']; rfl
  have hkeep : ∀ p, (t'.node p).leaf = (t.node p).leaf ∧
      (t'.node p).parentPid = (t.node p).parentPid := fun p => by
    rw [hnode]
    rcases eq_or_ne p pid with rfl | hne
    · rw [Btree.set_node_self]
      exact ⟨hm.leaf, hm.parentPid⟩
    · rw [Btree.set_node_of_ne hne]
      exact ⟨rfl, rfl⟩
  cases h with
  | leafRoot hlt hrootLeaf hparent =>
      refine .leafRoot (by omega) ?_ ?_
      · rw [hroot, (hkeep _).1, hrootLeaf]
      · rw [hroot, (hkeep _).2, hparent]
  | twoLeaves hx hy hbranch hparent hkids hxl hyl hxp hyp =>
      have hne : t.root ≠ pid := by
        rintro rfl
        exact absurd (hbranch.symm.trans hleaf) (by decide)
      refine .twoLeaves (by omega) (by omega) ?_ ?_ ?_ ((hkeep _).1.trans hxl)
        ((hkeep _).1.trans hyl) ?_ ?_
      · rw [hroot, (hkeep _).1, hbranch]
      · rw [hroot, (hkeep _).2, hparent]
      · rw [hroot, hnode, Btree.set_node_of_ne hne]
        exact hkids
      · rw [hroot, (hkeep _).2, hxp]
      · rw [hroot, (hkeep _).2, hyp]

theorem RootSplit.leaves (h : RootSplit t t' c r old new) (hleaf : (t.node c.node).leaf = true)
    (hnewLeaf : (t.node c.newNode).leaf = true) :
    (t'.node c.node).leaf = true ∧ (t'.node c.newNode).leaf = true := by
  obtain ⟨hold, hnew⟩ := leafNodeSplit_follows h.halves
  rw [h.oldPage, h.newPage]
  exact ⟨hold.leaf.trans hleaf, hnew.leaf.trans hnewLeaf⟩

/-- The root made for a split leaf holds its two halves. -/
theorem RootSplit.shallow (h : RootSplit t t' c r old new) (hnode : c.node < t.brk)
    (hnew : c.newNode < t.brk) (hleaf : (t.node c.node).leaf = true)
    (hnewLeaf : (t.node c.newNode).leaf = true)
    (hfit : sizeofNode + sizeofCell + (partitionKey t c).length + 4 ≤ nodeSize) : Shallow t' := by
  obtain ⟨hold, hnew'⟩ := leafNodeSplit_follows h.halves
  obtain ⟨k, off, hget, -, hins⟩ := h.place
  have hkey : (partitionKey t c).length < 2 ^ 31 := by
    simp only [nodeSize] at hfit
    omega
  have hneed := newCellSize_eq (show (partitionKey t c).length + 0 < 2 ^ 31 by omega)
  obtain ⟨off', m, hget', hins', -, hmleaf, -, -, -, hcells⟩ :=
    (nodeInit_valid : ValidPage (nodeInit (t.node t.brk) false true)).separator_below rfl
      (Nat.zero_le 0) hkey (hnode.trans h.bound) le_rfl
      (by simp only [nodeInit, slotOffset, sizeofCell, sizeofNode, nodeSize] at hneed hfit ⊢; omega)
  obtain ⟨rfl, rfl⟩ := Prod.mk.inj (Except.ok.inj (hget.symm.trans hget'))
  obtain rfl : r = m := Except.ok.inj (hins.symm.trans hins')
  have hroot : t'.node t'.root = { r with rightmostPid := c.newNode } := by
    rw [h.root, h.rootPage]
  have hfollow : (nodeInit (t.node t.brk) false true).Follows r := nodeInsertCell_follows hins
  refine .twoLeaves (hnode.trans (h.brk ▸ Nat.lt_succ_self _))
    (hnew.trans (h.brk ▸ Nat.lt_succ_self _)) ?_ ?_ ?_ ?_ ?_ ?_ ?_
  · rw [hroot, hmleaf]
  · rw [hroot, hfollow.parentPid]
    rfl
  · have hkids : kids c.newNode (branchCells r) = [c.node, c.newNode] := by
      rw [hcells]
      rfl
    rw [hroot, childPids_branch (n := { r with rightmostPid := c.newNode }) hmleaf]
    exact fun x hx => hkids ▸ List.mem_of_mem_filter hx
  · exact (h.leaves hleaf hnewLeaf).1
  · exact (h.leaves hleaf hnewLeaf).2
  · rw [h.oldPage, hold.parentPid, h.root]
  · rw [h.newPage, hnew'.parentPid, h.root]

theorem Shallow.step (h : Shallow t) (hkeeps : KeepsParents t a)
    (hstep : insertStep t a = some t') : Shallow t' := by
  obtain ⟨ret, hins⟩ := insertStep_eq_some hstep
  rcases btreeInsert_eq_ok hins with ⟨-, -, rfl⟩ | ⟨pid, above, t₁, c, t₂, hdescend, hplan, hsplit,
    hleaf, -⟩
  · exact h
  obtain ⟨q, rest, hpath, hpidLeaf⟩ := descend_leaf hdescend
  obtain ⟨rfl, rfl⟩ := List.cons.inj hpath
  have hpid : pid < t.brk := descend_lt hdescend (fun _ hq => nomatch hq) pid List.mem_cons_self
  rcases planLeaf_eq_ok hpid hplan with ⟨-, rfl, -, hf, hnot⟩ | ⟨hfull, -, ht₁, hc⟩
  · rcases hsplit with ⟨hyes, -⟩ | ⟨-, rfl⟩
    · exact absurd (hnot.symm.trans hyes) (by decide)
    · rw [hf] at hleaf
      exact h.insertLeaf hpidLeaf hleaf
  · obtain ⟨rfl, hfit⟩ := hkeeps pid above hdescend hfull
    obtain rfl : above = [] := by
      obtain ⟨-, -, ⟨-, hpath⟩ | ⟨hbranch, -⟩⟩ := descend_eq_ok hdescend
      · exact (List.cons.inj hpath).2
      · exact absurd (hbranch.symm.trans hpidLeaf) (by decide)
    have hnode : c.node = t.root := by rw [hc]; rfl
    have hnew : c.newNode = t.brk := by rw [hc]; rfl
    have hisFull : c.isFull = true := by rw [hc]; rfl
    have hbrk : t₁.brk = t.brk + 1 := by rw [ht₁]; rfl
    have hold : t₁.node t.root = t.node t.root := by
      rw [ht₁]
      exact Btree.withNew_node (t := notePartition _ _ _) hpid
    have hfresh : t₁.node t.brk = nodeInit (t.node t.brk) true false := by
      rw [ht₁]
      exact Btree.withNew_node_brk (t := notePartition _ _ _)
    have hkey : partitionKey t₁ c = keyAt (t.node t.root) (nodePartitionIdx (t.node t.root)) := by
      rw [partitionKey, hnode, hold, hc]
      rfl
    rcases hsplit with ⟨-, hsplit⟩ | ⟨hnot, -⟩
    swap
    · exact absurd (hnot.symm.trans hisFull) (by decide)
    have hrootLeaf : (t₁.node c.node).leaf = true := by rw [hnode, hold, hpidLeaf]
    have hnewLeaf : (t₁.node c.newNode).leaf = true := by rw [hnew, hfresh]; rfl
    obtain ⟨r, old, new, hr⟩ := splitPath_nil_eq_ok hsplit hisFull (by omega) (by omega)
      (by omega) hrootLeaf
    have hshallow := hr.shallow (by omega) (by omega) hrootLeaf hnewLeaf (by rwa [hkey])
    obtain ⟨hleft, hright⟩ := hr.leaves hrootLeaf hnewLeaf
    refine hshallow.insertLeaf ?_ hleaf
    rw [hc, splitCrumb]
    dsimp only
    split_ifs
    · rwa [← hnew]
    · rwa [← hnode]

end IoScheduler
