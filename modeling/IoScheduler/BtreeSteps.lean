import IoScheduler.Btree
import IoScheduler.NodeSplit

/-!
# What the steps of an insertion leave alone

Every write to a page keeps its leaf flag and what its ghost flags remember, and
every step of an insertion keeps the pages handed out so far. The inversion
lemmas say once what each step of the plan can do.
-/
namespace IoScheduler
open Machine Bytes

/-! ## Pages -/

/-- `m` is the page `n` after some writes. -/
structure Node.Follows (n m : Node) : Prop where
  leaf : m.leaf = n.leaf
  root : m.root = n.root
  parentPid : m.parentPid = n.parentPid
  slotClash : m.slotClash = false → n.slotClash = false
  clash : m.clash = false → n.clash = false

variable {n m k new n' new' : Node} {off idx need keySize valueSize pid p left i j : ℕ}
  {live : List ℕ} {bytes key value : List UInt8} {cell : Node → ℕ → List UInt8}

theorem Node.Follows.rfl : n.Follows n := ⟨Eq.refl _, Eq.refl _, Eq.refl _, id, id⟩

theorem Node.Follows.trans (h : n.Follows k) (h' : k.Follows m) : n.Follows m :=
  ⟨h'.leaf.trans h.leaf, h'.root.trans h.root, h'.parentPid.trans h.parentPid,
    fun hm => h.slotClash (h'.slotClash hm), fun hm => h.clash (h'.clash hm)⟩

theorem nodeInsertCell_follows (h : nodeInsertCell n off idx bytes = .ok m) : n.Follows m := by
  refine ⟨?_, ?_, ?_, fun hm => (nodeInsertCell_slotClash h hm).1,
    fun hm => (nodeInsertCell_clash h hm).1⟩ <;>
  · simp only [nodeInsertCell, bind_eq_ok, Node.write_eq_ok, Node.watchCell, Node.watch] at h
    obtain ⟨_, ⟨-, rfl⟩, _, ⟨-, rfl⟩, _, ⟨-, rfl⟩, h⟩ := h
    rw [← Except.ok.inj h]

theorem nodeSetPid_follows (h : nodeSetPid n idx pid = .ok m) : n.Follows m := by
  have hclash : m.clash = false → n.clash = false := fun hm => (nodeSetPid_clash h hm).1
  obtain ⟨-, c, hm⟩ := nodeSetPid_eq_ok h
  exact ⟨by rw [hm], by rw [hm], by rw [hm], fun hs => by rwa [hm] at hs, hclash⟩

theorem takeTombstone_follows (h : takeTombstone n need = .ok m) : n.Follows m := by
  simp only [takeTombstone] at h
  split_ifs at h
  · simp only [bind_eq_ok, Node.write_eq_ok] at h
    obtain ⟨_, ⟨-, rfl⟩, h⟩ := h
    obtain rfl := Except.ok.inj h
    exact ⟨rfl, rfl, rfl, id, fun hm => (watch_clash.mp hm).1⟩
  · obtain rfl := Except.ok.inj h
    exact ⟨rfl, rfl, rfl, id, id⟩

theorem nodeGetFreeOffset_follows (h : nodeGetFreeOffset n keySize valueSize = .ok (m, off)) :
    n.Follows m := by
  simp only [nodeGetFreeOffset] at h
  split_ifs at h
  · obtain ⟨k, hk, h⟩ := bind_eq_ok.mp h
    obtain ⟨rfl, -⟩ := Prod.mk.inj (Except.ok.inj h)
    exact takeTombstone_follows hk
  · obtain ⟨rfl, -⟩ := Prod.mk.inj (Except.ok.inj h)
    exact .rfl
  · obtain ⟨rfl, -⟩ := Prod.mk.inj (Except.ok.inj h)
    exact .rfl

theorem nodeTupleSetTombstone_follows (h : nodeTupleSetTombstone n live idx = .ok m) :
    n.Follows m := by
  have hspec := nodeTupleSetTombstone_spec h
  exact ⟨hspec.leaf, hspec.root, hspec.parentPid, fun hm => hspec.slotClash.symm.trans hm,
    fun hm => (nodeTupleSetTombstone_clash h hm).1⟩

theorem appendCell_follows (h : appendCell new j bytes = .ok m) : new.Follows m := by
  refine ⟨?_, ?_, ?_, fun hm => (appendCell_slotClash h hm).1,
    fun hm => (appendCell_clash h hm).1⟩ <;>
  · simp only [appendCell, bind_eq_ok, Node.write_eq_ok, Node.watchCell, Node.watch] at h
    obtain ⟨_, ⟨-, rfl⟩, _, ⟨-, rfl⟩, h⟩ := h
    rw [← Except.ok.inj h]

theorem moveCells_follows (h : moveCells cell p left i j n new = .ok (n', new')) :
    n.Follows n' ∧ new.Follows new' := by
  induction left generalizing i j n new with
  | zero =>
      obtain ⟨rfl, rfl⟩ := Prod.mk.inj (Except.ok.inj h)
      exact ⟨.rfl, .rfl⟩
  | succ left ih =>
      obtain ⟨new₁, n₁, hap, hset, h⟩ := moveCells_succ h
      obtain ⟨hold, hnew⟩ := ih h
      exact ⟨(nodeTupleSetTombstone_follows hset).trans hold, (appendCell_follows hap).trans hnew⟩

theorem leafNodeSplit_follows (h : leafNodeSplit n new p = .ok (n', new')) :
    n.Follows n' ∧ new.Follows new' := by
  simp only [leafNodeSplit, bind_eq_ok] at h
  obtain ⟨_, -, _, -, ⟨old, filled⟩, hmove, _, -, _, -, h⟩ := h
  obtain ⟨rfl, rfl⟩ := Prod.mk.inj (Except.ok.inj h)
  obtain ⟨hold, hnew⟩ := moveCells_follows hmove
  exact ⟨⟨hold.leaf, hold.root, hold.parentPid, hold.slotClash, hold.clash⟩,
    ⟨hnew.leaf, hnew.root, hnew.parentPid, hnew.slotClash, hnew.clash⟩⟩

theorem internalNodeSplit_follows (h : internalNodeSplit n new p = .ok (n', new')) :
    n.Follows n' ∧ new.Follows new' := by
  simp only [internalNodeSplit, bind_eq_ok] at h
  obtain ⟨_, -, _, -, _, hset, ⟨old, filled⟩, hmove, _, -, _, -, _, -, h⟩ := h
  obtain ⟨rfl, rfl⟩ := Prod.mk.inj (Except.ok.inj h)
  obtain ⟨hold, hnew⟩ := moveCells_follows hmove
  have hold := (nodeTupleSetTombstone_follows hset).trans hold
  exact ⟨⟨hold.leaf, hold.root, hold.parentPid, hold.slotClash, hold.clash⟩,
    ⟨hnew.leaf, hnew.root, hnew.parentPid, hnew.slotClash, hnew.clash⟩⟩

/-! ## The tree -/

structure Btree.Follows (t t' : Btree) : Prop where
  brk : t.brk ≤ t'.brk
  leaf : ∀ pid < t.brk, (t'.node pid).leaf = (t.node pid).leaf
  slotClash : ∀ pid < t.brk, (t'.node pid).slotClash = false → (t.node pid).slotClash = false
  clash : ∀ pid < t.brk, (t'.node pid).clash = false → (t.node pid).clash = false
  internalSplits : t.internalSplits ≤ t'.internalSplits
  emptyHalf : t'.emptyHalf = false → t.emptyHalf = false

variable {t t' t'' t₁ : Btree} {c c' top child : Crumb} {below cs : List Crumb} {above : List ℕ}
  {leaf root : Bool} {ret room : ℕ}

theorem Btree.Follows.rfl : t.Follows t :=
  ⟨le_rfl, fun _ _ => Eq.refl _, fun _ _ => id, fun _ _ => id, le_rfl, id⟩

theorem Btree.Follows.trans (h : t.Follows t') (h' : t'.Follows t'') : t.Follows t'' := by
  refine ⟨h.brk.trans h'.brk, fun pid hp => ?_, fun pid hp hc => ?_, fun pid hp hc => ?_,
    h.internalSplits.trans h'.internalSplits, fun he => h.emptyHalf (h'.emptyHalf he)⟩
  · rw [h'.leaf pid (hp.trans_le h.brk), h.leaf pid hp]
  · exact h.slotClash pid hp (h'.slotClash pid (hp.trans_le h.brk) hc)
  · exact h.clash pid hp (h'.clash pid (hp.trans_le h.brk) hc)

@[simp] theorem Btree.set_node_self : (t.set pid m).node pid = m := Function.update_self ..

theorem Btree.set_node_of_ne (h : i ≠ pid) : (t.set pid m).node i = t.node i :=
  Function.update_of_ne h ..

theorem Btree.set_follows (h : (t.node pid).leaf = m.leaf)
    (hslot : m.slotClash = false → (t.node pid).slotClash = false)
    (hclash : m.clash = false → (t.node pid).clash = false) : t.Follows (t.set pid m) := by
  refine ⟨le_rfl, fun i _ => ?_, fun i _ hi => ?_, fun i _ hi => ?_, le_rfl, id⟩ <;>
  · rcases eq_or_ne i pid with rfl | hne
    · simp_all
    · simp_all [Btree.set_node_of_ne hne]

theorem Node.Follows.set (h : (t.node pid).Follows m) : t.Follows (t.set pid m) :=
  Btree.set_follows h.leaf.symm h.slotClash h.clash

/-- The tree after a page was handed out and initialised. -/
def Btree.withNew (t : Btree) (leaf root : Bool) : Btree :=
  { t with
    node := Function.update t.node t.brk (nodeInit (t.node t.brk) leaf root)
    brk := t.brk + 1 }

theorem newNode_eq_ok (h : newNode t leaf root = .ok (t', pid)) :
    t.brk < 2 ^ 64 ∧ pid = t.brk ∧ t' = t.withNew leaf root := by
  by_cases hlt : t.brk < 2 ^ 64
  · simp only [newNode, btreeNodeAlloc, if_pos hlt] at h
    obtain ⟨rfl, rfl⟩ := Prod.mk.inj (Except.ok.inj h)
    exact ⟨hlt, rfl, rfl⟩
  · simp only [newNode, btreeNodeAlloc, if_neg hlt] at h
    cases h

@[simp] theorem Btree.withNew_node_brk :
    (t.withNew leaf root).node t.brk = nodeInit (t.node t.brk) leaf root :=
  Function.update_self ..

theorem Btree.withNew_node (h : pid < t.brk) : (t.withNew leaf root).node pid = t.node pid :=
  Function.update_of_ne h.ne ..

theorem Btree.withNew_follows : t.Follows (t.withNew leaf root) := by
  refine ⟨Nat.le_succ _, fun pid hp => ?_, fun pid hp hc => ?_, fun pid hp hc => ?_, le_rfl, id⟩
  · rw [withNew_node hp]
  · rwa [withNew_node hp] at hc
  · rwa [withNew_node hp] at hc

theorem notePartition_follows : t.Follows (notePartition t pid p) :=
  ⟨le_rfl, fun _ _ => rfl, fun _ _ => id, fun _ _ => id, le_rfl, id⟩

/-! ## The plan -/

/-- The crumb of a page that splits, its new page being the next one handed out. -/
def splitCrumb (t : Btree) (pid : ℕ) (key : List UInt8) : Crumb :=
  { node := pid, newNode := t.brk
    fNode := if keyCompare (keyAt (t.node pid) (nodePartitionIdx (t.node pid))) key < 0 then t.brk
      else pid
    partitionIdx := nodePartitionIdx (t.node pid), isFull := true }

theorem planSplit_eq_ok (hpid : pid < t.brk) (h : planSplit t pid leaf key = .ok (t', c)) :
    t.brk < 2 ^ 64 ∧ t' = t.withNew leaf false ∧ c = splitCrumb t pid key := by
  simp only [planSplit, bind_eq_ok] at h
  obtain ⟨⟨t₁, q⟩, hnew, h⟩ := h
  obtain ⟨hlt, rfl, rfl⟩ := newNode_eq_ok hnew
  obtain ⟨rfl, rfl⟩ := Prod.mk.inj (Except.ok.inj h)
  rw [Btree.withNew_node hpid]
  exact ⟨hlt, rfl, rfl⟩

theorem planLeaf_eq_ok (hpid : pid < t.brk) (h : planLeaf t key value pid = .ok (t', c)) :
    (nodeIsFull (t.node pid) key.length value.length = .ok false ∧ t' = t ∧ c.node = pid ∧
      c.fNode = pid ∧ c.isFull = false) ∨
    nodeIsFull (t.node pid) key.length value.length = .ok true ∧ t.brk < 2 ^ 64 ∧
      t' = (notePartition t pid (nodePartitionIdx (t.node pid))).withNew true false ∧
        c = splitCrumb t pid key := by
  simp only [planLeaf, bind_eq_ok] at h
  obtain ⟨full, hfull, h⟩ := h
  cases full with
  | false =>
      obtain ⟨rfl, rfl⟩ := Prod.mk.inj (Except.ok.inj h)
      exact .inl ⟨hfull, rfl, rfl, rfl, rfl⟩
  | true => exact .inr ⟨hfull, planSplit_eq_ok (t := notePartition _ _ _) hpid h⟩

theorem planNode_eq_ok (hpid : pid < t.brk) (h : planNode t child pid = .ok (t', c)) :
    (nodeIsFull (t.node pid) (partitionKey t child).length 0 = .ok false ∧
      t' = notePartition t pid (nodePartitionIdx (t.node pid)) ∧ c.node = pid ∧ c.fNode = pid ∧
        c.isFull = false) ∨
    nodeIsFull (t.node pid) (partitionKey t child).length 0 = .ok true ∧ t.brk < 2 ^ 64 ∧
      t' = (notePartition t pid (nodePartitionIdx (t.node pid))).withNew false false ∧
        c = splitCrumb t pid (partitionKey t child) := by
  simp only [planNode, bind_eq_ok] at h
  obtain ⟨full, hfull, h⟩ := h
  cases full with
  | false =>
      obtain ⟨rfl, rfl⟩ := Prod.mk.inj (Except.ok.inj h)
      exact .inl ⟨hfull, rfl, rfl, rfl, rfl⟩
  | true => exact .inr ⟨hfull, planSplit_eq_ok (t := notePartition _ _ _) hpid h⟩

theorem planNode_follows (hpid : pid < t.brk) (h : planNode t child pid = .ok (t', c)) :
    t.Follows t' := by
  rcases planNode_eq_ok hpid h with ⟨-, rfl, -⟩ | ⟨-, -, rfl, -⟩
  · exact notePartition_follows
  · exact notePartition_follows.trans Btree.withNew_follows

theorem planLeaf_follows (hpid : pid < t.brk) (h : planLeaf t key value pid = .ok (t', c)) :
    t.Follows t' := by
  rcases planLeaf_eq_ok hpid h with ⟨-, rfl, -⟩ | ⟨-, -, rfl, -⟩
  · exact .rfl
  · exact notePartition_follows.trans Btree.withNew_follows

/-- The crumbs planned so far stay in the plan. -/
theorem planCrumbs_spec (h : planCrumbs t c below above = .ok (t', top, cs))
    (habove : ∀ pid ∈ above, pid < t.brk) : t.Follows t' ∧ c :: below ⊆ top :: cs := by
  induction above generalizing t c below with
  | nil =>
      obtain ⟨rfl, hcrumbs⟩ := Prod.mk.inj (Except.ok.inj h)
      obtain ⟨rfl, rfl⟩ := Prod.mk.inj hcrumbs
      exact ⟨.rfl, List.Subset.refl _⟩
  | cons pid above ih =>
      rw [planCrumbs] at h
      split_ifs at h with hfull
      · simp only [bind_eq_ok] at h
        obtain ⟨⟨t₁, parent⟩, hplan, h⟩ := h
        have hfirst := planNode_follows (habove pid List.mem_cons_self) hplan
        obtain ⟨hrest, hsub⟩ := ih h fun q hq =>
          (habove q (List.mem_cons_of_mem _ hq)).trans_le hfirst.brk
        exact ⟨hfirst.trans hrest, List.Subset.trans (List.subset_cons_self _ _) hsub⟩
      · obtain ⟨rfl, hcrumbs⟩ := Prod.mk.inj (Except.ok.inj h)
        obtain ⟨rfl, rfl⟩ := Prod.mk.inj hcrumbs
        exact ⟨.rfl, List.Subset.refl _⟩

/-! ## Plans that go through -/

theorem newNode_isOk (hbrk : t.brk < 2 ^ 64) :
    newNode t leaf root = .ok (t.withNew leaf root, t.brk) := by
  simp only [newNode, btreeNodeAlloc, if_pos hbrk]
  rfl

theorem planSplit_isOk (hbrk : t.brk < 2 ^ 64) (hpid : pid < t.brk) :
    planSplit t pid leaf key = .ok (t.withNew leaf false, splitCrumb t pid key) := by
  simp only [planSplit, bind_eq_ok]
  refine ⟨_, newNode_isOk hbrk, ?_⟩
  dsimp only
  rw [Btree.withNew_node hpid]
  rfl

theorem planNode_open (hfull : nodeIsFull (t.node pid) (partitionKey t c).length 0 = .ok false) :
    ∃ t₁ top, planNode t c pid = .ok (t₁, top) ∧ top.isFull = false ∧ top.node = pid ∧
      top.fNode = pid ∧ t₁.node = t.node ∧ t₁.brk = t.brk ∧ t₁.root = t.root := by
  simp only [planNode, bind_eq_ok]
  exact ⟨_, _, ⟨false, hfull, rfl⟩, rfl, rfl, rfl, rfl, rfl, rfl⟩

theorem planCrumbs_open (h : c.isFull = false) :
    planCrumbs t c below above = .ok (t, c, below) := by
  cases above with
  | nil => rfl
  | cons pid above => rw [planCrumbs, if_neg (by rw [h]; exact Bool.false_ne_true)]

/-! ## The writes -/

theorem splitRoot_eq_ok (h : splitRoot t c = .ok t') : t.brk < 2 ^ 64 ∧ ∃ k off r,
    nodeGetFreeOffset (nodeInit (t.node t.brk) false true)
        (partitionKey (t.withNew false true) c).length 0 = .ok (k, off) ∧ 0 < off ∧
      nodeInsertInternalCell k off 0 (partitionKey (t.withNew false true) c) c.node = .ok r ∧
      ∃ u v : Btree,
        u = { (t.withNew false true).set t.brk { r with rightmostPid := c.newNode } with
          root := t.brk } ∧
        v = u.set c.newNode { u.node c.newNode with parentPid := t.brk } ∧
        t' = v.set c.node { v.node c.node with parentPid := t.brk, root := false } := by
  simp only [splitRoot, bind_eq_ok, assert_eq_ok] at h
  obtain ⟨⟨t₁, pid⟩, hnew, ⟨k, off⟩, hget, _, hoff, r, hins, h⟩ := h
  obtain ⟨hlt, rfl, rfl⟩ := newNode_eq_ok hnew
  rw [Btree.withNew_node_brk] at hget
  exact ⟨hlt, k, off, r, hget, hoff, hins, _, _, rfl, rfl, (Except.ok.inj h).symm⟩

/-- The tree after a root with the page `r` was put over the page of `c` and its
new page. -/
structure RootAdded (t t' : Btree) (c : Crumb) (r : Node) : Prop where
  bound : t.brk < 2 ^ 64
  place : ∃ k off, nodeGetFreeOffset (nodeInit (t.node t.brk) false true)
    (partitionKey t c).length 0 = .ok (k, off) ∧ 0 < off ∧
      nodeInsertInternalCell k off 0 (partitionKey t c) c.node = .ok r
  root : t'.root = t.brk
  brk : t'.brk = t.brk + 1
  count : t'.count = t.count
  internalSplits : t'.internalSplits = t.internalSplits
  wildPartition : t'.wildPartition = t.wildPartition
  rootPage : t'.node t.brk = { r with rightmostPid := c.newNode }
  oldPage : t'.node c.node = { t.node c.node with parentPid := t.brk, root := false }
  newPage : t'.node c.newNode = { t.node c.newNode with parentPid := t.brk }
  others : ∀ p < t.brk, p ≠ c.node → p ≠ c.newNode → t'.node p = t.node p

theorem splitRoot_spec (h : splitRoot t c = .ok t') (hnode : c.node < t.brk)
    (hnew : c.newNode < t.brk) (hne : c.newNode ≠ c.node) : ∃ r, RootAdded t t' c r := by
  obtain ⟨hlt, k, off, r, hget, hoff, hins, u, v, hu, hv, ht⟩ := splitRoot_eq_ok h
  have hkey : partitionKey (t.withNew false true) c = partitionKey t c := by
    rw [partitionKey, partitionKey, Btree.withNew_node hnode]
  rw [hkey] at hget hins
  have hu_brk : u.node t.brk = { r with rightmostPid := c.newNode } := by
    rw [hu]
    exact Btree.set_node_self
  have hu_old : ∀ p < t.brk, u.node p = t.node p := fun p hp => by
    rw [hu]
    exact (Btree.set_node_of_ne hp.ne).trans (Btree.withNew_node hp)
  have hfields : t'.root = t.brk ∧ t'.brk = t.brk + 1 ∧ t'.count = t.count ∧
      t'.internalSplits = t.internalSplits ∧ t'.wildPartition = t.wildPartition := by
    rw [ht, hv, hu]
    exact ⟨rfl, rfl, rfl, rfl, rfl⟩
  obtain ⟨hroot, hbrk, hcount, hsplits, hwild⟩ := hfields
  refine ⟨r, hlt, ⟨k, off, hget, hoff, hins⟩, hroot, hbrk, hcount, hsplits, hwild, ?_, ?_, ?_,
    fun p hp hpn hpn' => ?_⟩
  · rw [ht, Btree.set_node_of_ne hnode.ne', hv, Btree.set_node_of_ne hnew.ne', hu_brk]
  · rw [ht, Btree.set_node_self, hv, Btree.set_node_of_ne hne.symm, hu_old _ hnode]
  · rw [ht, Btree.set_node_of_ne hne, hv, Btree.set_node_self, hu_old _ hnew]
  · rw [ht, Btree.set_node_of_ne hpn, hv, Btree.set_node_of_ne hpn', hu_old p hp]

theorem splitRoot_follows (h : splitRoot t c = .ok t') : t.Follows t' := by
  obtain ⟨-, k, off, r, hget, -, hins, u, v, hu, hv, rfl⟩ := splitRoot_eq_ok h
  have hroot := (nodeGetFreeOffset_follows hget).trans (nodeInsertCell_follows hins)
  have hset : t.Follows u := by
    rw [hu]
    have hrenamed : ∀ x : Btree, x.Follows { x with root := t.brk } := fun _ =>
      ⟨le_rfl, fun _ _ => rfl, fun _ _ => id, fun _ _ => id, le_rfl, id⟩
    refine Btree.withNew_follows.trans ((Btree.set_follows ?_ ?_ ?_).trans (hrenamed _))
    · rw [Btree.withNew_node_brk]
      exact hroot.leaf.symm
    · rw [Btree.withNew_node_brk]
      exact hroot.slotClash
    · rw [Btree.withNew_node_brk]
      exact hroot.clash
  have hchild : u.Follows v := by
    rw [hv]
    exact Btree.set_follows rfl id id
  exact (hset.trans hchild).trans (Btree.set_follows rfl id id)

theorem splitLeaf_eq_ok (h : splitLeaf t c = .ok t') : ∃ old new,
    leafNodeSplit (t.node c.node) (t.node c.newNode) c.partitionIdx = .ok (old, new) ∧
      (t.node c.newNode).leaf = true ∧ ∃ e, t' = { (t.set c.node old).set c.newNode new with
        emptyHalf := t.emptyHalf || e } ∧
      (e = false → 0 < c.partitionIdx ∧ c.partitionIdx < (t.node c.node).size) := by
  simp only [splitLeaf, bind_eq_ok, assert_eq_ok] at h
  obtain ⟨_, hleaf, ⟨old, new⟩, hsplit, _, -, h⟩ := h
  refine ⟨old, new, hsplit, hleaf,
    c.partitionIdx == 0 || decide ((t.node c.node).size ≤ c.partitionIdx), ?_, ?_⟩
  · rw [← Except.ok.inj h, Bool.or_assoc]
  · simp only [Bool.or_eq_false_iff, beq_eq_false_iff_ne, decide_eq_false_iff_not]
    omega

theorem splitInternal_eq_ok (h : splitInternal t c = .ok t') : ∃ old new,
    internalNodeSplit (t.node c.node) (t.node c.newNode) c.partitionIdx = .ok (old, new) ∧
      (t.node c.newNode).leaf = false ∧ ∃ e, t' = { (t.set c.node old).set c.newNode new with
        internalSplits := t.internalSplits + 1, emptyHalf := t.emptyHalf || e } ∧
      (e = false → 0 < c.partitionIdx ∧ c.partitionIdx + 1 < (t.node c.node).size) := by
  simp only [splitInternal, bind_eq_ok, assert_eq_ok] at h
  obtain ⟨_, hleaf, ⟨old, new⟩, hsplit, _, -, h⟩ := h
  refine ⟨old, new, hsplit, hleaf,
    c.partitionIdx == 0 || decide ((t.node c.node).size ≤ c.partitionIdx + 1), ?_, ?_⟩
  · rw [← Except.ok.inj h, Bool.or_assoc]
  · simp only [Bool.or_eq_false_iff, beq_eq_false_iff_ne, decide_eq_false_iff_not]
    omega

theorem splitNode_eq_ok (h : splitNode t c = .ok t') : (c.isFull = false ∧ t' = t) ∨
    c.isFull = true ∧ c.partitionIdx ≤ (t.node c.node).size ∧
      (((t.node c.node).leaf = true ∧ splitLeaf t c = .ok t') ∨
        (t.node c.node).leaf = false ∧ splitInternal t c = .ok t') := by
  rw [splitNode] at h
  split_ifs at h with hfull hleaf
  · simp only [bind_eq_ok, assert_eq_ok] at h
    obtain ⟨_, hle, h⟩ := h
    exact .inr ⟨hfull, hle, .inl ⟨hleaf, h⟩⟩
  · simp only [bind_eq_ok, assert_eq_ok] at h
    obtain ⟨_, hle, h⟩ := h
    exact .inr ⟨hfull, hle, .inr ⟨eq_false_of_ne_true hleaf, h⟩⟩
  · exact .inl ⟨eq_false_of_ne_true hfull, (Except.ok.inj h).symm⟩

/-- Two pages written one after the other, the new one not the old one. -/
theorem Btree.split_follows (hne : c.newNode ≠ c.node) (hold : (t.node c.node).Follows n)
    (hnew : (t.node c.newNode).Follows m) : t.Follows ((t.set c.node n).set c.newNode m) := by
  refine hold.set.trans (Node.Follows.set ?_)
  rw [Btree.set_node_of_ne hne]
  exact hnew

theorem splitNode_follows (hne : c.isFull = true → c.newNode ≠ c.node)
    (h : splitNode t c = .ok t') : t.Follows t' := by
  rcases splitNode_eq_ok h with ⟨-, rfl⟩ | ⟨hfull, -, ⟨-, hsplit⟩ | ⟨-, hsplit⟩⟩
  · exact .rfl
  · obtain ⟨old, new, hnode, -, e, rfl, -⟩ := splitLeaf_eq_ok hsplit
    obtain ⟨hold, hnew⟩ := leafNodeSplit_follows hnode
    have hpages := Btree.split_follows (hne hfull) hold hnew
    exact ⟨hpages.brk, hpages.leaf, hpages.slotClash, hpages.clash, hpages.internalSplits,
      fun he => (Bool.or_eq_false_iff.mp he).1⟩
  · obtain ⟨old, new, hnode, -, e, rfl, -⟩ := splitInternal_eq_ok hsplit
    obtain ⟨hold, hnew⟩ := internalNodeSplit_follows hnode
    have hpages := Btree.split_follows (hne hfull) hold hnew
    exact ⟨hpages.brk, hpages.leaf, hpages.slotClash, hpages.clash, Nat.le_succ _,
      fun he => (Bool.or_eq_false_iff.mp he).1⟩

theorem linkChild_eq_ok (h : linkChild t c child = .ok t') : ∃ found idx f k off m,
    nodeBinSearch (t.node c.fNode) (partitionKey t child) = .ok (found, idx) ∧
      ((idx < (t.node c.fNode).size ∧ nodeSetPid (t.node c.fNode) idx child.newNode = .ok f) ∨
        ¬ idx < (t.node c.fNode).size ∧
          f = { t.node c.fNode with rightmostPid := child.newNode }) ∧
      nodeGetFreeOffset f (partitionKey t child).length 0 = .ok (k, off) ∧ 0 < off ∧
      nodeInsertInternalCell k off idx (partitionKey t child) child.node = .ok m ∧
      t' = t.set c.fNode m := by
  obtain ⟨⟨found, idx⟩, hsearch, h⟩ := bind_eq_ok.mp h
  dsimp only at h
  split_ifs at h with hidx
  · simp only [bind_eq_ok, assert_eq_ok] at h
    obtain ⟨f, hf, ⟨k, off⟩, hget, _, hoff, m, hins, h⟩ := h
    exact ⟨found, idx, f, k, off, m, hsearch, .inl ⟨hidx, hf⟩, hget, hoff, hins,
      (Except.ok.inj h).symm⟩
  · simp only [bind_eq_ok, assert_eq_ok] at h
    obtain ⟨f, hf, ⟨k, off⟩, hget, _, hoff, m, hins, h⟩ := h
    exact ⟨found, idx, f, k, off, m, hsearch, .inr ⟨hidx, (Except.ok.inj hf).symm⟩, hget, hoff,
      hins, (Except.ok.inj h).symm⟩

theorem linkChild_follows (h : linkChild t c child = .ok t') : t.Follows t' := by
  obtain ⟨_, idx, f, k, off, m, -, hf, hget, -, hins, rfl⟩ := linkChild_eq_ok h
  have hpid : (t.node c.fNode).Follows f := by
    rcases hf with ⟨-, hset⟩ | ⟨-, rfl⟩
    · exact nodeSetPid_follows hset
    · exact ⟨rfl, rfl, rfl, id, id⟩
  exact ((hpid.trans (nodeGetFreeOffset_follows hget)).trans (nodeInsertCell_follows hins)).set

theorem writeDown_cons (h : writeDown t (c :: below) = .ok t'') : ∃ t₁ t₂,
    splitNode t c = .ok t₁ ∧ writeDown t₂ below = .ok t'' ∧
      (((t₁.node c.node).leaf = true ∧ t₂ = t₁) ∨
        (t₁.node c.node).leaf = false ∧ ∃ child rest, below = child :: rest ∧
          linkChild t₁ c child = .ok t₂) := by
  obtain ⟨t₁, hsplit, h⟩ := bind_eq_ok.mp h
  dsimp only at h
  split_ifs at h with hleaf
  · obtain ⟨t₂, hlink, h⟩ := bind_eq_ok.mp h
    exact ⟨t₁, t₂, hsplit, h, .inl ⟨hleaf, (Except.ok.inj hlink).symm⟩⟩
  · cases below with
    | nil => cases h
    | cons child rest =>
        obtain ⟨t₂, hlink, h⟩ := bind_eq_ok.mp h
        exact ⟨t₁, t₂, hsplit, h, .inr ⟨eq_false_of_ne_true hleaf, child, rest, rfl, hlink⟩⟩

theorem writeDown_follows (hne : ∀ c ∈ cs, c.isFull = true → c.newNode ≠ c.node)
    (h : writeDown t cs = .ok t') : t.Follows t' := by
  induction cs generalizing t with
  | nil =>
      obtain rfl := Except.ok.inj h
      exact .rfl
  | cons c below ih =>
      obtain ⟨t₁, t₂, hsplit, hdown, hlink⟩ := writeDown_cons h
      have hfirst := splitNode_follows (hne c List.mem_cons_self) hsplit
      have hrest := ih (fun x hx => hne x (List.mem_cons_of_mem _ hx)) hdown
      rcases hlink with ⟨-, rfl⟩ | ⟨-, child, rest, -, hlink⟩
      · exact hfirst.trans hrest
      · exact (hfirst.trans (linkChild_follows hlink)).trans hrest

/-- Every full branch in a plan is split. -/
theorem writeDown_internalSplits (hne : ∀ c ∈ cs, c.isFull = true → c.newNode ≠ c.node)
    (h : writeDown t cs = .ok t') (hc : c ∈ cs) (hfull : c.isFull = true) (hlt : c.node < t.brk)
    (hleaf : (t.node c.node).leaf = false) : t.internalSplits < t'.internalSplits := by
  induction cs generalizing t with
  | nil => cases hc
  | cons x below ih =>
      obtain ⟨t₁, t₂, hsplit, hdown, hlink⟩ := writeDown_cons h
      have hbelow : ∀ c ∈ below, c.isFull = true → c.newNode ≠ c.node := fun x hx =>
        hne x (List.mem_cons_of_mem _ hx)
      have hfirst := splitNode_follows (hne x List.mem_cons_self) hsplit
      have hlinked : t₁.Follows t₂ := by
        rcases hlink with ⟨-, rfl⟩ | ⟨-, child, rest, -, hlink⟩
        · exact .rfl
        · exact linkChild_follows hlink
      have hmid := hfirst.trans hlinked
      rcases List.mem_cons.mp hc with rfl | hc
      · have hrest := (hlinked.trans (writeDown_follows hbelow hdown)).internalSplits
        rcases splitNode_eq_ok hsplit with ⟨hnot, -⟩ | ⟨-, -, ⟨hyes, -⟩ | ⟨-, hinternal⟩⟩
        · exact absurd (hnot.symm.trans hfull) (by decide)
        · exact absurd (hleaf.symm.trans hyes) (by decide)
        · obtain ⟨old, new, -, -, e, rfl, -⟩ := splitInternal_eq_ok hinternal
          exact hrest
      · have hlater := ih hbelow hdown hc (hlt.trans_le hmid.brk) (by rw [hmid.leaf _ hlt, hleaf])
        exact hmid.internalSplits.trans_lt hlater

/-! ## The descent and the call -/

/-- The pages a descent writes to `breadcrumbs`, the last one first. -/
inductive Btree.Visits (t : Btree) (key : List UInt8) : List ℕ → Prop
  | root : Visits t key [t.root]
  | child {p q idx : ℕ} {above : List ℕ} : Visits t key (p :: above) → (t.node p).leaf = false →
      nodeBinSearch (t.node p) key = .ok (false, idx) → childAt (t.node p) idx = .ok q →
      Visits t key (q :: p :: above)

theorem deref_eq_ok (h : t.deref pid = .ok n) : 0 < pid ∧ pid < t.brk ∧ n = t.node pid := by
  rw [Btree.deref] at h
  split_ifs at h with hp
  exact ⟨hp.1, hp.2, (Except.ok.inj h).symm⟩

theorem descend_eq_ok {path : List ℕ} (h : descend t key room above pid = .ok (some path)) :
    0 < pid ∧ pid < t.brk ∧ (((t.node pid).leaf = true ∧ path = pid :: above) ∨
      (t.node pid).leaf = false ∧ ∃ idx q r, room = r + 1 ∧
        nodeBinSearch (t.node pid) key = .ok (false, idx) ∧
          childAt (t.node pid) idx = .ok q ∧
            descend t key r (pid :: above) q = .ok (some path)) := by
  rw [descend] at h
  obtain ⟨n, hn, h⟩ := bind_eq_ok.mp h
  obtain ⟨hpos, hlt, rfl⟩ := deref_eq_ok hn
  refine ⟨hpos, hlt, ?_⟩
  split_ifs at h with hleaf
  · exact .inl ⟨hleaf, (Option.some.inj (Except.ok.inj h)).symm⟩
  · refine .inr ⟨eq_false_of_ne_true hleaf, ?_⟩
    obtain ⟨⟨found, idx⟩, hsearch, h⟩ := bind_eq_ok.mp h
    cases found with
    | true => cases h
    | false =>
        obtain ⟨q, hchild, h⟩ := bind_eq_ok.mp h
        cases room with
        | zero => cases h
        | succ r => exact ⟨idx, q, r, rfl, hsearch, hchild, h⟩

theorem descend_lt {path : List ℕ} (h : descend t key room above pid = .ok (some path))
    (habove : ∀ q ∈ above, q < t.brk) : ∀ q ∈ path, q < t.brk := by
  induction room generalizing above pid with
  | zero =>
      obtain ⟨-, hlt, ⟨-, rfl⟩ | ⟨-, idx, q, r, hroom, -⟩⟩ := descend_eq_ok h
      · exact List.forall_mem_cons.mpr ⟨hlt, habove⟩
      · cases hroom
  | succ room ih =>
      obtain ⟨-, hlt, ⟨-, rfl⟩ | ⟨-, idx, q, r, hroom, -, -, h⟩⟩ := descend_eq_ok h
      · exact List.forall_mem_cons.mpr ⟨hlt, habove⟩
      · obtain rfl := Nat.succ.inj hroom
        exact ih h (List.forall_mem_cons.mpr ⟨hlt, habove⟩)

theorem descend_leaf {path : List ℕ} (h : descend t key room above pid = .ok (some path)) :
    ∃ q rest, path = q :: rest ∧ (t.node q).leaf = true := by
  induction room generalizing above pid with
  | zero =>
      obtain ⟨-, -, ⟨hleaf, rfl⟩ | ⟨-, idx, q, r, hroom, -⟩⟩ := descend_eq_ok h
      · exact ⟨pid, above, rfl, hleaf⟩
      · cases hroom
  | succ room ih =>
      obtain ⟨-, -, ⟨hleaf, rfl⟩ | ⟨-, idx, q, r, hroom, -, -, h⟩⟩ := descend_eq_ok h
      · exact ⟨pid, above, rfl, hleaf⟩
      · obtain rfl := Nat.succ.inj hroom
        exact ih h

theorem descend_visits {path : List ℕ} (h : descend t key room above pid = .ok (some path))
    (hv : t.Visits key (pid :: above)) : t.Visits key path := by
  induction room generalizing above pid with
  | zero =>
      obtain ⟨-, -, ⟨-, rfl⟩ | ⟨-, idx, q, r, hroom, -⟩⟩ := descend_eq_ok h
      · exact hv
      · cases hroom
  | succ room ih =>
      obtain ⟨-, -, ⟨-, rfl⟩ | ⟨hbranch, idx, q, r, hroom, hs, hchild, h⟩⟩ := descend_eq_ok h
      · exact hv
      · obtain rfl := Nat.succ.inj hroom
        exact ih h (.child hv hbranch hs hchild)

/-- A call that returns 1 has found its key among the separators of a page. -/
theorem descend_none (h : descend t key room above pid = .ok none)
    (hv : t.Visits key (pid :: above)) : ∃ p rest idx, t.Visits key (p :: rest) ∧ 0 < p ∧
      p < t.brk ∧ (t.node p).leaf = false ∧ nodeBinSearch (t.node p) key = .ok (true, idx) := by
  induction room generalizing above pid with
  | zero =>
      rw [descend] at h
      obtain ⟨n, hn, h⟩ := bind_eq_ok.mp h
      obtain ⟨hpos, hlt, rfl⟩ := deref_eq_ok hn
      split_ifs at h with hleaf
      · cases h
      · obtain ⟨⟨found, idx⟩, hs, h⟩ := bind_eq_ok.mp h
        cases found with
        | true => exact ⟨pid, above, idx, hv, hpos, hlt, eq_false_of_ne_true hleaf, hs⟩
        | false =>
            obtain ⟨q, -, h⟩ := bind_eq_ok.mp h
            cases h
  | succ room ih =>
      rw [descend] at h
      obtain ⟨n, hn, h⟩ := bind_eq_ok.mp h
      obtain ⟨hpos, hlt, rfl⟩ := deref_eq_ok hn
      split_ifs at h with hleaf
      · cases h
      · obtain ⟨⟨found, idx⟩, hs, h⟩ := bind_eq_ok.mp h
        cases found with
        | true => exact ⟨pid, above, idx, hv, hpos, hlt, eq_false_of_ne_true hleaf, hs⟩
        | false =>
            obtain ⟨q, hchild, h⟩ := bind_eq_ok.mp h
            exact ih h (.child hv (eq_false_of_ne_true hleaf) hs hchild)

theorem splitPath_eq_ok (h : splitPath t c above = .ok t') : ∃ t₁ top cs t₂,
    planCrumbs t c [] above = .ok (t₁, top, cs) ∧
      ((top.isFull = true ∧ splitRoot t₁ top = .ok t₂) ∨ top.isFull = false ∧ t₂ = t₁) ∧
        writeDown t₂ (top :: cs) = .ok t' := by
  obtain ⟨⟨t₁, top, cs⟩, hplan, h⟩ := bind_eq_ok.mp h
  dsimp only at h
  split_ifs at h with hfull
  · obtain ⟨t₂, hroot, h⟩ := bind_eq_ok.mp h
    exact ⟨t₁, top, cs, t₂, hplan, .inl ⟨hfull, hroot⟩, h⟩
  · obtain ⟨t₂, hsame, h⟩ := bind_eq_ok.mp h
    exact ⟨t₁, top, cs, t₂, hplan, .inr ⟨eq_false_of_ne_true hfull, (Except.ok.inj hsame).symm⟩, h⟩

theorem insertLeaf_eq_ok (h : insertLeaf t pid key value = .ok t') : ∃ k off found idx m,
    nodeGetFreeOffset (t.node pid) key.length value.length = .ok (k, off) ∧ 0 < off ∧
      nodeBinSearch k key = .ok (found, idx) ∧ nodeInsertLeafCell k off idx key value = .ok m ∧
        t' = { t.set pid m with count := u32 (t.count + 1) } := by
  simp only [insertLeaf, bind_eq_ok, assert_eq_ok] at h
  obtain ⟨⟨k, off⟩, hget, _, hoff, ⟨found, idx⟩, hsearch, m, hins, h⟩ := h
  exact ⟨k, off, found, idx, m, hget, hoff, hsearch, hins, (Except.ok.inj h).symm⟩

theorem btreeInsert_eq_ok (h : btreeInsert t key value = .ok (ret, t')) :
    (descend t key 15 [] t.root = .ok none ∧ ret = 1 ∧ t' = t) ∨
      ∃ pid above t₁ c t₂, descend t key 15 [] t.root = .ok (some (pid :: above)) ∧
        planLeaf t key value pid = .ok (t₁, c) ∧
        ((c.isFull = true ∧ splitPath t₁ c above = .ok t₂) ∨ c.isFull = false ∧ t₂ = t₁) ∧
        insertLeaf t₂ c.fNode key value = .ok t' ∧ ret = 0 := by
  obtain ⟨path, hdescend, h⟩ := bind_eq_ok.mp h
  match path, h with
  | none, h =>
      obtain ⟨rfl, rfl⟩ := Prod.mk.inj (Except.ok.inj h)
      exact .inl ⟨hdescend, rfl, rfl⟩
  | some (pid :: above), h =>
      obtain ⟨⟨t₁, c⟩, hplan, h⟩ := bind_eq_ok.mp h
      dsimp only at h
      split_ifs at h with hfull
      · simp only [bind_eq_ok] at h
        obtain ⟨t₂, hsplit, t₃, hins, h⟩ := h
        obtain ⟨rfl, rfl⟩ := Prod.mk.inj (Except.ok.inj h)
        exact .inr ⟨pid, above, t₁, c, t₂, hdescend, hplan, .inl ⟨hfull, hsplit⟩, hins, rfl⟩
      · simp only [bind_eq_ok] at h
        obtain ⟨t₂, hsame, t₃, hins, h⟩ := h
        obtain ⟨rfl, rfl⟩ := Prod.mk.inj (Except.ok.inj h)
        exact .inr ⟨pid, above, t₁, c, t₂, hdescend, hplan,
          .inr ⟨eq_false_of_ne_true hfull, (Except.ok.inj hsame).symm⟩, hins, rfl⟩

theorem insertStep_eq_some {a : List UInt8 × List UInt8} (h : insertStep t a = some t') :
    ∃ ret, btreeInsert t a.1 a.2 = .ok (ret, t') := by
  rw [insertStep] at h
  cases hins : btreeInsert t a.1 a.2 with
  | error e =>
      rw [hins] at h
      cases h
  | ok r =>
      rw [hins] at h
      exact ⟨r.1, by rw [← Option.some.inj h]⟩

theorem insertStep_of_ok (h : btreeInsert t key value = .ok (ret, t')) :
    insertStep t (key, value) = some t' := by
  rw [insertStep, h]
  rfl

theorem insertLeaf_follows (h : insertLeaf t pid key value = .ok t') : t.Follows t' := by
  obtain ⟨k, off, found, idx, m, hget, -, -, hins, rfl⟩ := insertLeaf_eq_ok h
  have hset : t.Follows (t.set pid m) :=
    ((nodeGetFreeOffset_follows hget).trans (nodeInsertCell_follows hins)).set
  exact ⟨hset.brk, hset.leaf, hset.slotClash, hset.clash, hset.internalSplits, hset.emptyHalf⟩

/-- The crumbs of a plan name the page they split apart from the new one. -/
theorem planCrumbs_ne (h : planCrumbs t c below above = .ok (t', top, cs))
    (habove : ∀ pid ∈ above, pid < t.brk)
    (hne : ∀ x ∈ c :: below, x.isFull = true → x.newNode ≠ x.node) :
    ∀ x ∈ top :: cs, x.isFull = true → x.newNode ≠ x.node := by
  induction above generalizing t c below with
  | nil =>
      obtain ⟨rfl, hcrumbs⟩ := Prod.mk.inj (Except.ok.inj h)
      obtain ⟨rfl, rfl⟩ := Prod.mk.inj hcrumbs
      exact hne
  | cons pid above ih =>
      rw [planCrumbs] at h
      split_ifs at h with hfull
      · simp only [bind_eq_ok] at h
        obtain ⟨⟨t₁, parent⟩, hplan, h⟩ := h
        have hpid := habove pid List.mem_cons_self
        have hfirst := planNode_follows hpid hplan
        refine ih h (fun q hq => (habove q (List.mem_cons_of_mem _ hq)).trans_le hfirst.brk)
          (List.forall_mem_cons.mpr ⟨fun hp => ?_, hne⟩)
        rcases planNode_eq_ok hpid hplan with ⟨-, -, -, -, hnot⟩ | ⟨-, -, -, rfl⟩
        · exact absurd (hnot.symm.trans hp) (by decide)
        · exact hpid.ne'
      · obtain ⟨rfl, hcrumbs⟩ := Prod.mk.inj (Except.ok.inj h)
        obtain ⟨rfl, rfl⟩ := Prod.mk.inj hcrumbs
        exact hne

theorem splitPath_follows (h : splitPath t c above = .ok t') (habove : ∀ pid ∈ above, pid < t.brk)
    (hne : c.newNode ≠ c.node) : t.Follows t' := by
  obtain ⟨t₁, top, cs, t₂, hplan, hroot, hdown⟩ := splitPath_eq_ok h
  have hall := planCrumbs_ne hplan habove (by simpa using fun _ => hne)
  have hplanned := (planCrumbs_spec hplan habove).1
  have hrest := writeDown_follows hall hdown
  rcases hroot with ⟨-, hroot⟩ | ⟨-, rfl⟩
  · exact hplanned.trans ((splitRoot_follows hroot).trans hrest)
  · exact hplanned.trans hrest

/-- A plan that splits a branch counts it. -/
theorem splitPath_internalSplits {x : Crumb} {q : ℕ}
    (h : splitPath t c (q :: above) = .ok t') (hq : q < t.brk) (habove : ∀ pid ∈ above, pid < t.brk)
    (hne : c.newNode ≠ c.node) (hc : c.isFull = true) (hplan : planNode t c q = .ok (t₁, x))
    (hx : x.isFull = true) (hleaf : (t.node q).leaf = false) :
    t.internalSplits < t'.internalSplits := by
  obtain ⟨t₂, top, cs, t₃, hcrumbs, hroot, hdown⟩ := splitPath_eq_ok h
  have hall := planCrumbs_ne hcrumbs (List.forall_mem_cons.mpr ⟨hq, habove⟩)
    (by simpa using fun _ => hne)
  have hfirst := planNode_follows hq hplan
  have hnode : x.node = q := by
    rcases planNode_eq_ok hq hplan with ⟨-, -, hnode, -⟩ | ⟨-, -, -, rfl⟩
    · exact hnode
    · rfl
  rw [planCrumbs, if_pos hc] at hcrumbs
  simp only [hplan, bind_eq_ok, Except.ok.injEq, exists_eq_left'] at hcrumbs
  obtain ⟨hsecond, hsub⟩ := planCrumbs_spec hcrumbs fun p hp => (habove p hp).trans_le hfirst.brk
  have hmid : t.Follows t₃ := by
    rcases hroot with ⟨-, hroot⟩ | ⟨-, rfl⟩
    · exact hfirst.trans (hsecond.trans (splitRoot_follows hroot))
    · exact hfirst.trans hsecond
  refine hmid.internalSplits.trans_lt (writeDown_internalSplits hall hdown
    (hsub List.mem_cons_self) hx ?_ ?_)
  · rw [hnode]
    exact hq.trans_le hmid.brk
  · rw [hnode, hmid.leaf q hq, hleaf]

theorem insertStep_follows {a : List UInt8 × List UInt8} (h : insertStep t a = some t') :
    t.Follows t' := by
  obtain ⟨ret, hins⟩ := insertStep_eq_some h
  rcases btreeInsert_eq_ok hins with ⟨-, -, rfl⟩ | ⟨pid, above, t₁, c, t₂, hdescend, hplan, hsplit,
    hleaf, -⟩
  · exact .rfl
  have hpath := descend_lt hdescend fun q hq => nomatch hq
  have hpid := hpath pid List.mem_cons_self
  have hfirst := planLeaf_follows hpid hplan
  have hsplitFollows : t₁.Follows t₂ := by
    rcases hsplit with ⟨hfull, hsplit⟩ | ⟨-, rfl⟩
    · refine splitPath_follows hsplit
        (fun q hq => (hpath q (List.mem_cons_of_mem _ hq)).trans_le hfirst.brk) ?_
      rcases planLeaf_eq_ok hpid hplan with ⟨-, -, -, -, hnot⟩ | ⟨-, -, -, rfl⟩
      · exact absurd (hnot.symm.trans hfull) (by decide)
      · exact hpid.ne'
    · exact .rfl
  exact (hfirst.trans hsplitFollows).trans (insertLeaf_follows hleaf)

/-! ## A leaf splits under a new root -/

/-- The tree after the leaf of `c` was split under a new root: `r` is the root's
page with its separator, `old` and `new` are the halves. -/
structure RootSplit (t t' : Btree) (c : Crumb) (r old new : Node) : Prop where
  bound : t.brk < 2 ^ 64
  place : ∃ k off, nodeGetFreeOffset (nodeInit (t.node t.brk) false true)
    (partitionKey t c).length 0 = .ok (k, off) ∧ 0 < off ∧
      nodeInsertInternalCell k off 0 (partitionKey t c) c.node = .ok r
  halves : leafNodeSplit { t.node c.node with parentPid := t.brk, root := false }
    { t.node c.newNode with parentPid := t.brk } c.partitionIdx = .ok (old, new)
  root : t'.root = t.brk
  brk : t'.brk = t.brk + 1
  count : t'.count = t.count
  internalSplits : t'.internalSplits = t.internalSplits
  wildPartition : t'.wildPartition = t.wildPartition
  rootPage : t'.node t.brk = { r with rightmostPid := c.newNode }
  oldPage : t'.node c.node = old
  newPage : t'.node c.newNode = new
  others : ∀ p < t.brk, p ≠ c.node → p ≠ c.newNode → t'.node p = t.node p

theorem splitPath_nil_eq_ok (h : splitPath t c [] = .ok t') (hfull : c.isFull = true)
    (hnode : c.node < t.brk) (hnew : c.newNode < t.brk) (hne : c.newNode ≠ c.node)
    (hleaf : (t.node c.node).leaf = true) : ∃ r old new, RootSplit t t' c r old new := by
  obtain ⟨t₁, top, cs, t₂, hplan, hroot, hdown⟩ := splitPath_eq_ok h
  obtain ⟨rfl, hcrumbs⟩ := Prod.mk.inj (Except.ok.inj hplan)
  obtain ⟨rfl, rfl⟩ := Prod.mk.inj hcrumbs
  rcases hroot with ⟨-, hroot⟩ | ⟨hnot, -⟩
  swap
  · exact absurd (hnot.symm.trans hfull) (by decide)
  obtain ⟨r, hr⟩ := splitRoot_spec hroot hnode hnew hne
  have ht₂_node := hr.oldPage
  have ht₂_new := hr.newPage
  obtain ⟨t₃, t₄, hsplit, hrest, hlink⟩ := writeDown_cons hdown
  obtain rfl := Except.ok.inj hrest
  have hleaf₂ : (t₂.node c.node).leaf = true := by rw [ht₂_node, hleaf]
  rcases splitNode_eq_ok hsplit with ⟨hnot, -⟩ | ⟨-, -, ⟨-, hsplit⟩ | ⟨hbranch, -⟩⟩
  · exact absurd (hnot.symm.trans hfull) (by decide)
  swap
  · exact absurd (hbranch.symm.trans hleaf₂) (by decide)
  obtain ⟨old, new, hhalves, -, e, ht₃, -⟩ := splitLeaf_eq_ok hsplit
  have hpages : t₃.node = ((t₂.set c.node old).set c.newNode new).node := by rw [ht₃]
  have hsame : t₄ = t₃ := by
    rcases hlink with ⟨-, rfl⟩ | ⟨hbranch, -⟩
    · rfl
    · have hold : old.leaf = (t₂.node c.node).leaf := (leafNodeSplit_follows hhalves).1.leaf
      rw [hpages, Btree.set_node_of_ne hne.symm, Btree.set_node_self, hold] at hbranch
      exact absurd (hbranch.symm.trans hleaf₂) (by decide)
  rw [ht₂_node, ht₂_new] at hhalves
  refine ⟨r, old, new, hr.bound, hr.place, hhalves, ?_, ?_, ?_, ?_, ?_, ?_, ?_, ?_,
    fun p hp hpn hpn' => ?_⟩
  · rw [hsame, ht₃]
    exact hr.root
  · rw [hsame, ht₃]
    exact hr.brk
  · rw [hsame, ht₃]
    exact hr.count
  · rw [hsame, ht₃]
    exact hr.internalSplits
  · rw [hsame, ht₃]
    exact hr.wildPartition
  · rw [hsame, hpages, Btree.set_node_of_ne hnew.ne', Btree.set_node_of_ne hnode.ne', hr.rootPage]
  · rw [hsame, hpages, Btree.set_node_of_ne hne.symm, Btree.set_node_self]
  · rw [hsame, hpages, Btree.set_node_self]
  · rw [hsame, hpages, Btree.set_node_of_ne hpn', Btree.set_node_of_ne hpn,
      hr.others p hp hpn hpn']

/-! ## A leaf splits under its parent -/

/-- The tree after the leaf of `c` was split and its parent `q` took the
separator: `f` is the parent with the pointer redirected, `m` with the separator,
`old` and `new` are the halves. -/
structure LinkedSplit (t t' : Btree) (c : Crumb) (q idx : ℕ) (f m old new : Node) : Prop where
  search : ∃ found, nodeBinSearch (t.node q) (partitionKey t c) = .ok (found, idx)
  pointer : (idx < (t.node q).size ∧ nodeSetPid (t.node q) idx c.newNode = .ok f) ∨
    ¬ idx < (t.node q).size ∧ f = { t.node q with rightmostPid := c.newNode }
  place : ∃ k off, nodeGetFreeOffset f (partitionKey t c).length 0 = .ok (k, off) ∧ 0 < off ∧
    nodeInsertInternalCell k off idx (partitionKey t c) c.node = .ok m
  halves : leafNodeSplit (t.node c.node) (t.node c.newNode) c.partitionIdx = .ok (old, new)
  cut : c.partitionIdx ≤ (t.node c.node).size
  root : t'.root = t.root
  brk : t'.brk = t.brk
  count : t'.count = t.count
  internalSplits : t'.internalSplits = t.internalSplits
  wildPartition : t'.wildPartition =
    (t.wildPartition || decide ((t.node q).size ≤ nodePartitionIdx (t.node q)))
  parentPage : t'.node q = m
  oldPage : t'.node c.node = old
  newPage : t'.node c.newNode = new
  others : ∀ p, p ≠ q → p ≠ c.node → p ≠ c.newNode → t'.node p = t.node p

theorem splitPath_open_eq_ok {q : ℕ} (h : splitPath t c (q :: above) = .ok t')
    (hfull : c.isFull = true)
    (hroom : nodeIsFull (t.node q) (partitionKey t c).length 0 = .ok false) (hq : q < t.brk)
    (hne : c.newNode ≠ c.node) (hnode : q ≠ c.node) (hnew : q ≠ c.newNode)
    (hbranch : (t.node q).leaf = false) (hleaf : (t.node c.node).leaf = true) :
    ∃ idx f m old new, LinkedSplit t t' c q idx f m old new := by
  obtain ⟨t₁, top, cs, t₂, hplan, hroot, hdown⟩ := splitPath_eq_ok h
  rw [planCrumbs, if_pos hfull] at hplan
  obtain ⟨⟨t₃, parent⟩, hnodePlan, hplan⟩ := bind_eq_ok.mp hplan
  dsimp only at hplan
  rcases planNode_eq_ok hq hnodePlan with ⟨-, ht₃, hpn, hpf, hopen⟩ | ⟨hyes, -⟩
  swap
  · exact absurd (Except.ok.inj (hroom.symm.trans hyes)) (by decide)
  obtain ⟨rfl, rfl, rfl⟩ : t₃ = t₁ ∧ parent = top ∧ [c] = cs := by
    cases above with
    | nil =>
        obtain ⟨h₁, h₂⟩ := Prod.mk.inj (Except.ok.inj hplan)
        exact ⟨h₁, (Prod.mk.inj h₂).1, (Prod.mk.inj h₂).2⟩
    | cons p above =>
        rw [planCrumbs, if_neg (by simp [hopen])] at hplan
        obtain ⟨h₁, h₂⟩ := Prod.mk.inj (Except.ok.inj hplan)
        exact ⟨h₁, (Prod.mk.inj h₂).1, (Prod.mk.inj h₂).2⟩
  rcases hroot with ⟨hyes, -⟩ | ⟨-, rfl⟩
  · exact absurd (hopen.symm.trans hyes) (by decide)
  have hpages : t₂.node = t.node := by rw [ht₃]; rfl
  have hkey : partitionKey t₂ c = partitionKey t c := by rw [partitionKey, partitionKey, hpages]
  -- the parent is not split, and takes the separator first
  obtain ⟨t₄, t₅, hsame, hrest, hlink⟩ := writeDown_cons hdown
  rcases splitNode_eq_ok hsame with ⟨-, rfl⟩ | ⟨hyes, -⟩
  swap
  · exact absurd (hopen.symm.trans hyes) (by decide)
  rcases hlink with ⟨hyes, -⟩ | ⟨-, child, rest, hcons, hlink⟩
  · rw [hpn, hpages] at hyes
    exact absurd (hbranch.symm.trans hyes) (by decide)
  obtain ⟨rfl, rfl⟩ := List.cons.inj hcons
  obtain ⟨found, idx, f, k, off, m, hsearch, hpointer, hget, hoff, hins, ht₅⟩ :=
    linkChild_eq_ok hlink
  rw [hpf, hpages, hkey] at hsearch
  rw [hpf, hpages] at hpointer
  rw [hkey] at hget hins
  rw [hpf] at ht₅
  -- then the leaf is split
  obtain ⟨t₆, t₇, hsplit, hend, hlast⟩ := writeDown_cons hrest
  obtain rfl := Except.ok.inj hend
  have hold₅ : t₅.node c.node = t.node c.node := by
    rw [ht₅, Btree.set_node_of_ne hnode.symm, hpages]
  have hnew₅ : t₅.node c.newNode = t.node c.newNode := by
    rw [ht₅, Btree.set_node_of_ne hnew.symm, hpages]
  rcases splitNode_eq_ok hsplit with ⟨hnot, -⟩ | ⟨-, hcut, ⟨-, hsplit⟩ | ⟨hno, -⟩⟩
  · exact absurd (hnot.symm.trans hfull) (by decide)
  swap
  · rw [hold₅] at hno
    exact absurd (hno.symm.trans hleaf) (by decide)
  obtain ⟨old, new, hhalves, -, e, ht₆, -⟩ := splitLeaf_eq_ok hsplit
  rw [hold₅] at hhalves hcut
  rw [hnew₅] at hhalves
  have hfinal : t₇ = t₆ := by
    rcases hlast with ⟨-, hsame⟩ | ⟨-, child, rest, hcons, -⟩
    · exact hsame
    · cases hcons
  have hnode₇ : t₇.node = ((t₅.set c.node old).set c.newNode new).node := by rw [hfinal, ht₆]
  refine ⟨idx, f, m, old, new, ⟨found, hsearch⟩, hpointer, ⟨k, off, hget, hoff, hins⟩, hhalves,
    hcut, ?_, ?_, ?_, ?_, ?_, ?_, ?_, ?_, fun p hpq hpc hpn' => ?_⟩
  · rw [hfinal, ht₆, ht₅, ht₃]
    rfl
  · rw [hfinal, ht₆, ht₅, ht₃]
    rfl
  · rw [hfinal, ht₆, ht₅, ht₃]
    rfl
  · rw [hfinal, ht₆, ht₅, ht₃]
    rfl
  · rw [hfinal, ht₆, ht₅, ht₃]
    rfl
  · rw [hnode₇, Btree.set_node_of_ne hnew, Btree.set_node_of_ne hnode, ht₅, Btree.set_node_self]
  · rw [hnode₇, Btree.set_node_of_ne hne.symm, Btree.set_node_self]
  · rw [hnode₇, Btree.set_node_self]
  · rw [hnode₇, Btree.set_node_of_ne hpn', Btree.set_node_of_ne hpc, ht₅,
      Btree.set_node_of_ne hpq, hpages]

/-- A plan that splits no branch found room in the parent. -/
theorem splitPath_cons_eq_ok {q : ℕ} (h : splitPath t c (q :: above) = .ok t')
    (hfull : c.isFull = true) (hsplits : t'.internalSplits = t.internalSplits) (hq : q < t.brk)
    (habove : ∀ p ∈ above, p < t.brk) (hne : c.newNode ≠ c.node) (hnode : q ≠ c.node)
    (hnew : q ≠ c.newNode) (hbranch : (t.node q).leaf = false)
    (hleaf : (t.node c.node).leaf = true) :
    ∃ idx f m old new, LinkedSplit t t' c q idx f m old new := by
  have hroom : nodeIsFull (t.node q) (partitionKey t c).length 0 = .ok false := by
    obtain ⟨t₁, top, cs, t₂, hplan, -, -⟩ := splitPath_eq_ok h
    rw [planCrumbs, if_pos hfull] at hplan
    obtain ⟨⟨t₃, parent⟩, hnodePlan, -⟩ := bind_eq_ok.mp hplan
    rcases planNode_eq_ok hq hnodePlan with ⟨hopen, -⟩ | ⟨-, -, -, hc⟩
    · exact hopen
    · have hlt := splitPath_internalSplits h hq habove hne hfull hnodePlan (by rw [hc]; rfl)
        hbranch
      exact absurd hsplits hlt.ne'
  exact splitPath_open_eq_ok h hfull hroom hq hne hnode hnew hbranch hleaf

end IoScheduler
