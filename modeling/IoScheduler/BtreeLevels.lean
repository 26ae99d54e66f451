import IoScheduler.NodePids

/-!
# Levels

Every page handed out gets a level: a leaf is at level 0 and a branch one above
every page it points to. A split gives its new page the level of the old one, and
a new root is one above the page that split. So all ways down from the root to a
leaf are equally long, whatever became of the keys, as long as no write clashed
and every split left both halves with a cell.
-/
namespace IoScheduler
open Machine Bytes SearchTree Transition

variable {t t' t₁ : Btree} {c child top : Crumb} {below cs : List Crumb} {n m old new : Node}
  {level level' : ℕ → ℕ} {bound bound' l p q pid room : ℕ} {above path : List ℕ} {leaf : Bool}
  {key value : List UInt8} {memory : ℕ → Node} {a : List UInt8 × List UInt8}

/-- A page `n` at level `l` whose pointers lead one level down. -/
structure PageAt (bound : ℕ) (level : ℕ → ℕ) (n : Node) (l : ℕ) : Prop where
  leaf : n.leaf = true ↔ l = 0
  slots : n.leaf = false → slotOffset n.size ≤ nodeSize
  cells : n.leaf = false → ∀ q ∈ cellPids n, 0 < q ∧ q < bound ∧ level q + 1 = l
  last : n.leaf = false → n.rightmostPid ≠ 0 →
    n.rightmostPid < bound ∧ level n.rightmostPid + 1 = l

structure Leveled (t : Btree) (level : ℕ → ℕ) : Prop where
  bound : t.brk ≤ 2 ^ 64
  root : 0 < t.root ∧ t.root < t.brk
  flag : ∀ p, 0 < p → p < t.brk → ((t.node p).root = true ↔ p = t.root)
  page : ∀ p, 0 < p → p < t.brk → PageAt t.brk level (t.node p) (level p)

/-- No write so far has met a live cell or a slot, and no half was left empty. -/
structure Undisturbed (t : Btree) : Prop where
  clash : ∀ p < t.brk, (t.node p).clash = false
  halves : t.emptyHalf = false

instance : Decidable (Undisturbed t) :=
  decidable_of_iff ((∀ p < t.brk, (t.node p).clash = false) ∧ t.emptyHalf = false)
    ⟨fun h => ⟨h.1, h.2⟩, fun h => ⟨h.clash, h.halves⟩⟩

theorem Btree.Follows.undisturbed (h : t.Follows t') (h' : Undisturbed t') : Undisturbed t :=
  ⟨fun p hp => h.clash p hp (h'.clash p (hp.trans_le h.brk)), h.emptyHalf h'.halves⟩

theorem PageAt.mono (h : PageAt bound level n l) (hb : bound ≤ bound')
    (hlevel : ∀ q < bound, level' q = level q) : PageAt bound' level' n l := by
  refine ⟨h.leaf, h.slots, fun hleaf q hq => ?_, fun hleaf hne => ?_⟩
  · obtain ⟨hpos, hlt, hl⟩ := h.cells hleaf q hq
    exact ⟨hpos, hlt.trans_le hb, by rw [hlevel q hlt, hl]⟩
  · obtain ⟨hlt, hl⟩ := h.last hleaf hne
    exact ⟨hlt.trans_le hb, by rw [hlevel _ hlt, hl]⟩

/-- A leaf has no pointers to go wrong. -/
theorem PageAt.of_leaf (h : PageAt bound level n l) (hleaf : n.leaf = true)
    (hm : m.leaf = n.leaf) : PageAt bound level m l := by
  have hm' : m.leaf = true := hm.trans hleaf
  refine ⟨by rw [hm]; exact h.leaf, fun hf => ?_, fun hf => ?_, fun hf => ?_⟩ <;>
  · rw [hm'] at hf
    cases hf

/-- Where a missed search leads. -/
theorem PageAt.childAt {idx : ℕ} (h : PageAt bound level n l) (hleaf : n.leaf = false)
    (hchild : IoScheduler.childAt n idx = .ok q) : 0 < q ∧ q < bound ∧ level q + 1 = l := by
  rw [IoScheduler.childAt] at hchild
  split_ifs at hchild with hidx
  · obtain rfl := Except.ok.inj hchild
    exact h.cells hleaf _ (mem_cellPids.mpr ⟨idx, hidx, rfl⟩)
  · obtain ⟨_, hne, hlast⟩ := bind_eq_ok.mp hchild
    obtain rfl := Except.ok.inj hlast
    have hne := assert_eq_ok.mp hne
    exact ⟨Nat.pos_of_ne_zero hne, h.last hleaf hne⟩

theorem pageAt_nodeInit (hleaf : leaf = true ↔ l = 0) :
    PageAt bound level (nodeInit n leaf false) l := by
  refine ⟨hleaf, fun _ => ?_, fun _ q hq => ?_, fun _ hne => absurd rfl hne⟩
  · simp only [nodeInit, slotOffset, sizeofNode, nodeSize]
    norm_num
  · cases hq

theorem Leveled.congr (h : Leveled t level) (hnode : t'.node = t.node) (hbrk : t'.brk = t.brk)
    (hroot : t'.root = t.root) : Leveled t' level := by
  refine ⟨hbrk ▸ h.bound, by rw [hroot, hbrk]; exact h.root, ?_, ?_⟩
  · rw [hnode, hbrk, hroot]
    exact h.flag
  · rw [hnode, hbrk]
    exact h.page

theorem Leveled.set (h : Leveled t level) (hm : PageAt t.brk level m (level pid))
    (hroot : m.root = (t.node pid).root) : Leveled (t.set pid m) level := by
  refine ⟨h.bound, h.root, fun p hpos hp => ?_, fun p hpos hp => ?_⟩
  · rcases eq_or_ne p pid with rfl | hne
    · rw [Btree.set_node_self, hroot]
      exact h.flag p hpos hp
    · rw [Btree.set_node_of_ne hne]
      exact h.flag p hpos hp
  · rcases eq_or_ne p pid with rfl | hne
    · rw [Btree.set_node_self]
      exact hm
    · rw [Btree.set_node_of_ne hne]
      exact h.page p hpos hp

/-- A fresh page may be given any level its flag allows. -/
theorem Leveled.withNew (h : Leveled t level) (hlt : t.brk < 2 ^ 64) (hleaf : leaf = true ↔ l = 0) :
    Leveled (t.withNew leaf false) (Function.update level t.brk l) := by
  have hagree : ∀ q < t.brk, Function.update level t.brk l q = level q := fun q hq =>
    Function.update_of_ne hq.ne ..
  have hbrk : (t.withNew leaf false).brk = t.brk + 1 := rfl
  refine ⟨hlt, ⟨h.root.1, h.root.2.trans (Nat.lt_succ_self _)⟩, fun p hpos hp => ?_,
    fun p hpos hp => ?_⟩
  · rcases Nat.lt_succ_iff_lt_or_eq.mp hp with hp | rfl
    · rw [Btree.withNew_node hp]
      exact h.flag p hpos hp
    · rw [Btree.withNew_node_brk]
      exact iff_of_false Bool.noConfusion h.root.2.ne'
  · rcases Nat.lt_succ_iff_lt_or_eq.mp hp with hp | rfl
    · rw [Btree.withNew_node hp, hagree p hp]
      exact (h.page p hpos hp).mono (Nat.le_succ _) hagree
    · rw [Btree.withNew_node_brk, Function.update_self]
      exact pageAt_nodeInit hleaf

/-! ## The plan -/

/-- A crumb whose pages are at one level. -/
structure CrumbAt (t : Btree) (level : ℕ → ℕ) (c : Crumb) : Prop where
  node : 0 < c.node ∧ c.node < t.brk
  new : c.isFull = true → (0 < c.newNode ∧ c.newNode < t.brk) ∧ c.newNode ≠ c.node ∧
    level c.newNode = level c.node
  target : c.fNode = c.node ∨ c.isFull = true ∧ c.fNode = c.newNode

/-- What a crumb says of the one below it. -/
def Above (level : ℕ → ℕ) (c child : Crumb) : Prop :=
  level child.node + 1 = level c.node ∧ child.isFull = true

theorem CrumbAt.mono (h : CrumbAt t level c) (hbrk : t.brk ≤ t'.brk)
    (hlevel : ∀ q < t.brk, level' q = level q) : CrumbAt t' level' c := by
  refine ⟨⟨h.node.1, h.node.2.trans_le hbrk⟩, fun hfull => ?_, h.target⟩
  obtain ⟨⟨hpos, hlt⟩, hne, hl⟩ := h.new hfull
  exact ⟨⟨hpos, hlt.trans_le hbrk⟩, hne, by rw [hlevel _ hlt, hlevel _ h.node.2, hl]⟩

theorem CrumbAt.target_level (h : CrumbAt t level c) :
    0 < c.fNode ∧ c.fNode < t.brk ∧ level c.fNode = level c.node := by
  rcases h.target with heq | ⟨hfull, heq⟩
  · rw [heq]
    exact ⟨h.node.1, h.node.2, rfl⟩
  · rw [heq]
    obtain ⟨⟨hpos, hlt⟩, -, hl⟩ := h.new hfull
    exact ⟨hpos, hlt, hl⟩

theorem splitCrumb_at (hpos : 0 < pid) (hpid : pid < t.brk) (hbrk : t.brk < t'.brk)
    (hlevel : level t.brk = level pid) : CrumbAt t' level (splitCrumb t pid key) := by
  refine ⟨⟨hpos, hpid.trans hbrk⟩, fun _ => ⟨⟨hpos.trans hpid, hbrk⟩, hpid.ne', hlevel⟩, ?_⟩
  by_cases hright : keyCompare (keyAt (t.node pid) (nodePartitionIdx (t.node pid))) key < 0
  · exact .inr ⟨rfl, if_pos hright⟩
  · exact .inl (if_neg hright)

/-- The pages visited on the way down are one level apart. -/
theorem descend_levels (h : descend t key room above pid = .ok (some path)) (hl : Leveled t level)
    (habove : (pid :: above).IsChain (fun p q => level p + 1 = level q))
    (hlt : ∀ q ∈ above, 0 < q ∧ q < t.brk) :
    path.IsChain (fun p q => level p + 1 = level q) ∧ (∀ q ∈ path, 0 < q ∧ q < t.brk) ∧
      path.getLast? = (pid :: above).getLast? := by
  induction room generalizing above pid with
  | zero =>
      obtain ⟨hpos, hpid, ⟨-, rfl⟩ | ⟨-, idx, q, r, hroom, -⟩⟩ := descend_eq_ok h
      · exact ⟨habove, List.forall_mem_cons.mpr ⟨⟨hpos, hpid⟩, hlt⟩, rfl⟩
      · cases hroom
  | succ room ih =>
      obtain ⟨hpos, hpid, ⟨-, rfl⟩ | ⟨hbranch, idx, q, r, hroom, hs, hchild, h⟩⟩ := descend_eq_ok h
      · exact ⟨habove, List.forall_mem_cons.mpr ⟨⟨hpos, hpid⟩, hlt⟩, rfl⟩
      obtain rfl := Nat.succ.inj hroom
      obtain ⟨-, -, hdown⟩ := (hl.page pid hpos hpid).childAt hbranch hchild
      obtain ⟨hchain, hmem, hend⟩ := ih h (List.isChain_cons_cons.mpr ⟨hdown, habove⟩)
        (List.forall_mem_cons.mpr ⟨⟨hpos, hpid⟩, hlt⟩)
      exact ⟨hchain, hmem, hend.trans List.getLast?_cons_cons⟩

/-- The tree and the levels after a full page was given a sibling. -/
theorem Leveled.plan {x : Crumb} (h : Leveled t level) (hpos : 0 < pid) (hpid : pid < t.brk)
    (hlt : t.brk < 2 ^ 64) (hleaf : (t.node pid).leaf = leaf)
    (ht : t' = (notePartition t pid p).withNew leaf false) (hx : x = splitCrumb t pid key) :
    ∃ level', (∀ q < t.brk, level' q = level q) ∧ Leveled t' level' ∧ CrumbAt t' level' x := by
  have hnote : Leveled (notePartition t pid p) level := h.congr rfl rfl rfl
  have hagree : ∀ q < t.brk, Function.update level t.brk (level pid) q = level q := fun q hq =>
    Function.update_of_ne hq.ne ..
  refine ⟨Function.update level t.brk (level pid), hagree, ?_, ?_⟩
  · rw [ht]
    refine hnote.withNew hlt ?_
    rw [← hleaf]
    exact (h.page pid hpos hpid).leaf
  · rw [hx]
    refine splitCrumb_at hpos hpid ?_ ?_
    · rw [ht]
      exact Nat.lt_succ_self _
    · rw [Function.update_self, hagree pid hpid]

theorem planLeaf_levels (h : planLeaf t key value pid = .ok (t', c)) (hl : Leveled t level)
    (hpos : 0 < pid) (hpid : pid < t.brk) (hleaf : (t.node pid).leaf = true) :
    ∃ level', (∀ q < t.brk, level' q = level q) ∧ Leveled t' level' ∧ CrumbAt t' level' c ∧
      c.node = pid ∧ t'.root = t.root := by
  rcases planLeaf_eq_ok hpid h with ⟨-, rfl, hnode, hf, hnot⟩ | ⟨-, hlt, ht, hc⟩
  · refine ⟨level, fun _ _ => rfl, hl, ⟨by rw [hnode]; exact ⟨hpos, hpid⟩, fun hfull => ?_,
      .inl (hf.trans hnode.symm)⟩, hnode, rfl⟩
    exact absurd (hnot.symm.trans hfull) (by decide)
  · obtain ⟨level', hagree, hl', hat⟩ := hl.plan hpos hpid hlt hleaf ht hc
    exact ⟨level', hagree, hl', hat, by rw [hc]; rfl, by rw [ht]; rfl⟩

theorem planNode_levels (h : planNode t child pid = .ok (t', c)) (hl : Leveled t level)
    (hpos : 0 < pid) (hpid : pid < t.brk) (hleaf : (t.node pid).leaf = false) :
    ∃ level', (∀ q < t.brk, level' q = level q) ∧ Leveled t' level' ∧ CrumbAt t' level' c ∧
      c.node = pid ∧ t'.root = t.root := by
  rcases planNode_eq_ok hpid h with ⟨-, rfl, hnode, hf, hnot⟩ | ⟨-, hlt, ht, hc⟩
  · refine ⟨level, fun _ _ => rfl, hl.congr rfl rfl rfl, ⟨by rw [hnode]; exact ⟨hpos, hpid⟩,
      fun hfull => ?_, .inl (hf.trans hnode.symm)⟩, hnode, rfl⟩
    exact absurd (hnot.symm.trans hfull) (by decide)
  · obtain ⟨level', hagree, hl', hat⟩ := hl.plan hpos hpid hlt hleaf ht hc
    exact ⟨level', hagree, hl', hat, by rw [hc]; rfl, by rw [ht]; rfl⟩

/-- The plan is made on the way up: each crumb is one level above the last one,
and a full one at the top is the root's. -/
theorem planCrumbs_levels (h : planCrumbs t c below above = .ok (t', top, cs))
    (hl : Leveled t level) (hat : ∀ x ∈ c :: below, CrumbAt t level x)
    (hchain : (c :: below).IsChain (Above level))
    (hpath : (c.node :: above).IsChain fun p q => level p + 1 = level q)
    (habove : ∀ q ∈ above, 0 < q ∧ q < t.brk) :
    ∃ level', (∀ q < t.brk, level' q = level q) ∧ Leveled t' level' ∧
      (∀ x ∈ top :: cs, CrumbAt t' level' x) ∧ (top :: cs).IsChain (Above level') ∧
      t'.root = t.root ∧ (top.isFull = true → some top.node = (c.node :: above).getLast?) := by
  induction above generalizing t c below level with
  | nil =>
      obtain ⟨rfl, hcrumbs⟩ := Prod.mk.inj (Except.ok.inj h)
      obtain ⟨rfl, rfl⟩ := Prod.mk.inj hcrumbs
      exact ⟨level, fun _ _ => rfl, hl, hat, hchain, rfl, fun _ => rfl⟩
  | cons pid above ih =>
      rw [planCrumbs] at h
      split_ifs at h with hfull
      swap
      · obtain ⟨rfl, hcrumbs⟩ := Prod.mk.inj (Except.ok.inj h)
        obtain ⟨rfl, rfl⟩ := Prod.mk.inj hcrumbs
        exact ⟨level, fun _ _ => rfl, hl, hat, hchain, rfl, fun hyes => absurd hyes hfull⟩
      obtain ⟨⟨t₁, parent⟩, hplan, h⟩ := bind_eq_ok.mp h
      obtain ⟨hpos, hpid⟩ := habove pid List.mem_cons_self
      obtain ⟨hstep, hrest⟩ := List.isChain_cons_cons.mp hpath
      have hbranch : (t.node pid).leaf = false := by
        have hpage := (hl.page pid hpos hpid).leaf
        cases hleaf : (t.node pid).leaf with
        | false => rfl
        | true =>
            have hzero := hpage.mp hleaf
            omega
      obtain ⟨level₁, hagree, hl₁, hat₁, hnode, hroot⟩ := planNode_levels hplan hl hpos hpid hbranch
      have hbrk := (planNode_follows hpid hplan).brk
      have hc := hat c List.mem_cons_self
      have hagreePath : ∀ q ∈ pid :: above, level₁ q = level q := fun q hq =>
        hagree q (habove q hq).2
      have hagreeCrumb : ∀ x ∈ c :: below, level₁ x.node = level x.node := fun x hx =>
        hagree x.node (hat x hx).node.2
      have hchain₁ : (parent :: c :: below).IsChain (Above level₁) := by
        refine List.isChain_cons_cons.mpr ⟨⟨?_, hfull⟩, ?_⟩
        · rw [hnode, hagreePath pid List.mem_cons_self, hagreeCrumb c List.mem_cons_self]
          exact hstep
        · refine hchain.imp_of_mem_imp fun x y hx hy hxy => ⟨?_, hxy.2⟩
          rw [hagreeCrumb x hx, hagreeCrumb y hy]
          exact hxy.1
      have hpath₁ : (parent.node :: above).IsChain fun p q => level₁ p + 1 = level₁ q := by
        rw [hnode]
        refine hrest.imp_of_mem_imp fun x y hx hy hxy => ?_
        rw [hagreePath x hx, hagreePath y hy]
        exact hxy
      obtain ⟨level₂, hagree₂, hl₂, hat₂, hchain₂, hroot₂, htop⟩ := ih h hl₁
        (List.forall_mem_cons.mpr ⟨hat₁, fun x hx => (hat x hx).mono hbrk hagree⟩) hchain₁ hpath₁
        fun q hq => ⟨(habove q (List.mem_cons_of_mem _ hq)).1,
          (habove q (List.mem_cons_of_mem _ hq)).2.trans_le hbrk⟩
      refine ⟨level₂, fun q hq => (hagree₂ q (hq.trans_le hbrk)).trans (hagree q hq), hl₂, hat₂,
        hchain₂, hroot₂.trans hroot, fun hyes => ?_⟩
      rw [htop hyes, hnode, List.getLast?_cons_cons]

/-! ## The writes -/

theorem splitNode_levels (h : splitNode t c = .ok t') (hl : Leveled t level)
    (hc : CrumbAt t level c) (hu : Undisturbed t') :
    Leveled t' level ∧ t'.brk = t.brk ∧ t'.root = t.root := by
  rcases splitNode_eq_ok h with ⟨-, rfl⟩ | ⟨hfull, -, hsplit⟩
  · exact ⟨hl, rfl, rfl⟩
  obtain ⟨⟨hpos, hlt⟩, hne, hsame⟩ := hc.new hfull
  have hpage := hl.page c.node hc.node.1 hc.node.2
  have hfresh := hl.page c.newNode hpos hlt
  rcases hsplit with ⟨hleaf, hsplit⟩ | ⟨hbranch, hsplit⟩
  · obtain ⟨old, new, hnode, hnewLeaf, e, ht, -⟩ := splitLeaf_eq_ok hsplit
    obtain ⟨hold, hnew⟩ := leafNodeSplit_follows hnode
    refine ⟨?_, by rw [ht]; rfl, by rw [ht]; rfl⟩
    have hfirst := hl.set (hpage.of_leaf hleaf hold.leaf) hold.root
    have hsecond : PageAt (t.set c.node old).brk level new (level c.newNode) :=
      hfresh.of_leaf hnewLeaf hnew.leaf
    refine (hfirst.set hsecond ?_).congr (by rw [ht]) (by rw [ht]) (by rw [ht])
    rw [Btree.set_node_of_ne hne]
    exact hnew.root
  · obtain ⟨old, new, hnode, hnewBranch, e, ht, hcut⟩ := splitInternal_eq_ok hsplit
    obtain ⟨hold, hnew⟩ := internalNodeSplit_follows hnode
    have hbrk : t'.brk = t.brk := by rw [ht]; rfl
    have hpages : t'.node = ((t.set c.node old).set c.newNode new).node := by rw [ht]
    have hhalves := hu.halves
    rw [ht] at hhalves
    obtain ⟨-, hp⟩ := hcut (Bool.or_eq_false_iff.mp hhalves).2
    have holdClash : old.clash = false := by
      have hclash := hu.clash c.node (hbrk ▸ hc.node.2)
      rwa [hpages, Btree.set_node_of_ne hne.symm, Btree.set_node_self] at hclash
    have hnewClash : new.clash = false := by
      have hclash := hu.clash c.newNode (hbrk ▸ hlt)
      rwa [hpages, Btree.set_node_self] at hclash
    obtain ⟨⟨hslots, hlast, hcells⟩, hslots', hlast', hcells'⟩ :=
      internalNodeSplit_pids hnode holdClash hnewClash hp (hpage.slots hbranch)
    refine ⟨?_, hbrk, by rw [ht]; rfl⟩
    have hfirst : PageAt t.brk level old (level c.node) := by
      refine ⟨by rw [hold.leaf]; exact hpage.leaf, fun _ => hslots, fun _ q hq => ?_,
        fun _ hne => ?_⟩
      · rw [hcells] at hq
        exact hpage.cells hbranch q (List.mem_of_mem_take hq)
      · rw [hlast] at hne ⊢
        exact hpage.last hbranch hne
    have hsecond : PageAt t.brk level new (level c.newNode) := by
      refine ⟨by rw [hnew.leaf]; exact hfresh.leaf, fun _ => hslots', fun _ q hq => ?_,
        fun _ hne => ?_⟩
      · rw [hcells'] at hq
        rw [hsame]
        exact hpage.cells hbranch q (List.mem_of_mem_drop hq)
      · rw [hlast'] at hne ⊢
        exact hfresh.last hnewBranch hne
    refine ((hl.set hfirst hold.root).set hsecond ?_).congr hpages hbrk (by rw [ht])
    rw [Btree.set_node_of_ne hne]
    exact hnew.root

theorem linkChild_levels (h : linkChild t c child = .ok t') (hl : Leveled t level)
    (hc : CrumbAt t level c) (hchild : CrumbAt t level child) (habove : Above level c child)
    (hu : Undisturbed t') : Leveled t' level ∧ t'.brk = t.brk ∧ t'.root = t.root := by
  obtain ⟨found, idx, f, k, off, m, hs, hf, hget, -, hins, ht⟩ := linkChild_eq_ok h
  obtain ⟨hpos, hlt, hlevel⟩ := hc.target_level
  obtain ⟨hdown, hfull⟩ := habove
  obtain ⟨⟨hnewPos, hnewLt⟩, -, hnewLevel⟩ := hchild.new hfull
  have hpage := hl.page c.fNode hpos hlt
  have hbranch : (t.node c.fNode).leaf = false := by
    cases hleaf : (t.node c.fNode).leaf with
    | false => rfl
    | true =>
        have hzero := hpage.leaf.mp hleaf
        omega
  have hm : m.clash = false := by
    have hclash := hu.clash c.fNode (by rw [ht]; exact hlt)
    rwa [ht, Btree.set_node_self] at hclash
  have hk : k.clash = false := (nodeInsertCell_follows hins).clash hm
  have hfclash : f.clash = false := (nodeGetFreeOffset_follows hget).clash hk
  have hslots := hpage.slots hbranch
  have hsize : (t.node c.fNode).size < 2 ^ 31 := by
    simp only [slotOffset, sizeofNode, nodeSize] at hslots
    omega
  have hidx := nodeBinSearch_le hs hsize
  -- the page once its pointer right of the separator leads to the new page
  obtain ⟨hfsize, hflast, hfcells, hfollows⟩ : f.size = (t.node c.fNode).size ∧
      (f.rightmostPid = (t.node c.fNode).rightmostPid ∨ f.rightmostPid = child.newNode) ∧
      (∀ q ∈ cellPids f, q = child.newNode ∨ q ∈ cellPids (t.node c.fNode)) ∧
      (t.node c.fNode).Follows f := by
    rcases hf with ⟨-, hset⟩ | ⟨-, rfl⟩
    · obtain ⟨hfs, hfl, hfc⟩ := nodeSetPid_pids hset hfclash (hnewLt.trans_le hl.bound)
      exact ⟨hfs, .inl hfl, hfc, nodeSetPid_follows hset⟩
    · exact ⟨rfl, .inr rfl, fun q hq => .inr hq, rfl, rfl, rfl, id, id⟩
  obtain ⟨hksize, hklast, hkcells⟩ := nodeGetFreeOffset_pids hget hk
  obtain ⟨-, hmslots, hmlast, hmcells⟩ := nodeInsertInternalCell_pids hins hm (by omega)
    (by rw [hksize, hfsize]; exact hslots) (hchild.node.2.trans_le hl.bound)
  have hall := (hfollows.trans (nodeGetFreeOffset_follows hget)).trans (nodeInsertCell_follows hins)
  refine ⟨?_, by rw [ht]; rfl, by rw [ht]; rfl⟩
  rw [ht]
  refine hl.set ⟨by rw [hall.leaf]; exact hpage.leaf, fun _ => hmslots, fun _ q hq => ?_,
    fun _ hne => ?_⟩ hall.root
  · have hcase : q = child.node ∨ q = child.newNode ∨ q ∈ cellPids (t.node c.fNode) := by
      rw [hmcells, hkcells] at hq
      rcases List.mem_append.mp hq with hq | hq
      · exact .inr (hfcells q (List.mem_of_mem_take hq))
      · rcases List.mem_cons.mp hq with rfl | hq
        · exact .inl rfl
        · exact .inr (hfcells q (List.mem_of_mem_drop hq))
    rcases hcase with rfl | rfl | hq
    · exact ⟨hchild.node.1, hchild.node.2, by omega⟩
    · exact ⟨hnewPos, hnewLt, by omega⟩
    · exact hpage.cells hbranch q hq
  · rw [hmlast, hklast] at hne ⊢
    rcases hflast with heq | heq
    · rw [heq] at hne ⊢
      exact hpage.last hbranch hne
    · rw [heq]
      exact ⟨hnewLt, by omega⟩

theorem writeDown_levels (h : writeDown t cs = .ok t') (hl : Leveled t level)
    (hat : ∀ x ∈ cs, CrumbAt t level x) (hchain : cs.IsChain (Above level)) (hu : Undisturbed t') :
    Leveled t' level ∧ t'.brk = t.brk ∧ t'.root = t.root := by
  induction cs generalizing t with
  | nil =>
      obtain rfl := Except.ok.inj h
      exact ⟨hl, rfl, rfl⟩
  | cons c below ih =>
      obtain ⟨t₁, t₂, hsplit, hdown, hlink⟩ := writeDown_cons h
      have hc := hat c List.mem_cons_self
      have hfollow : t₂.Follows t' := writeDown_follows
        (fun x hx hfull => ((hat x (List.mem_cons_of_mem _ hx)).new hfull).2.1) hdown
      have hu₂ := hfollow.undisturbed hu
      have hu₁ : Undisturbed t₁ := by
        rcases hlink with ⟨-, rfl⟩ | ⟨-, child, rest, -, hlink⟩
        · exact hu₂
        · exact (linkChild_follows hlink).undisturbed hu₂
      obtain ⟨hl₁, hbrk₁, hroot₁⟩ := splitNode_levels hsplit hl hc hu₁
      have hstep : Leveled t₂ level ∧ t₂.brk = t₁.brk ∧ t₂.root = t₁.root := by
        rcases hlink with ⟨-, rfl⟩ | ⟨-, child, rest, rfl, hlink⟩
        · exact ⟨hl₁, rfl, rfl⟩
        · refine linkChild_levels hlink hl₁ (hc.mono hbrk₁.ge fun _ _ => rfl)
            ((hat child ?_).mono hbrk₁.ge fun _ _ => rfl) (List.isChain_cons_cons.mp hchain).1 hu₂
          exact List.mem_cons_of_mem _ List.mem_cons_self
      obtain ⟨hl₂, hbrk₂, hroot₂⟩ := hstep
      obtain ⟨hl', hbrk', hroot'⟩ := ih hdown hl₂ (fun x hx =>
        (hat x (List.mem_cons_of_mem _ hx)).mono (by omega) fun _ _ => rfl) hchain.tail
      exact ⟨hl', by omega, by omega⟩

/-- A new root is one level above the page that split. -/
theorem splitRoot_levels (h : splitRoot t c = .ok t') (hl : Leveled t level)
    (hc : CrumbAt t level c) (hfull : c.isFull = true) (hroot : c.node = t.root)
    (hu : Undisturbed t') : Leveled t' (Function.update level t.brk (level t.root + 1)) ∧
      t'.root = t.brk ∧ t'.brk = t.brk + 1 := by
  obtain ⟨⟨hnewPos, hnewLt⟩, hne, hsame⟩ := hc.new hfull
  have hnodeLt := hc.node.2
  obtain ⟨r, hr⟩ := splitRoot_spec h hnodeLt hnewLt hne
  obtain ⟨k, off, hget, -, hins⟩ := hr.place
  have hlt := hr.bound
  have hbrk := hr.brk
  have hrootPage := hr.rootPage
  have hagree : ∀ q < t.brk, Function.update level t.brk (level t.root + 1) q = level q :=
    fun q hq => Function.update_of_ne hq.ne ..
  have hrclash : r.clash = false := by
    have hclash := hu.clash t.brk (by omega)
    rwa [hrootPage] at hclash
  have hk := (nodeInsertCell_follows hins).clash hrclash
  obtain ⟨hksize, hklast, hkcells⟩ := nodeGetFreeOffset_pids hget hk
  have hkzero : k.size = 0 := hksize
  obtain ⟨-, hrslots, hrlast, hrcells⟩ := nodeInsertInternalCell_pids hins hrclash (Nat.zero_le _)
    (by rw [hkzero]; decide) (hnodeLt.trans_le hl.bound)
  have hrfollow := (nodeGetFreeOffset_follows hget).trans (nodeInsertCell_follows hins)
  refine ⟨⟨by omega, ?_, fun p hpos hp => ?_, fun p hpos hp => ?_⟩, hr.root, hbrk⟩
  · rw [hr.root]
    exact ⟨by omega, by omega⟩
  · rw [hr.root]
    rcases Nat.lt_succ_iff_lt_or_eq.mp (show p < t.brk + 1 by omega) with hp | rfl
    · refine iff_of_false (fun hflag => ?_) hp.ne
      rcases eq_or_ne p c.node with rfl | hpn
      · rw [hr.oldPage] at hflag
        cases hflag
      · have hold : (t.node p).root = true := by
          rcases eq_or_ne p c.newNode with rfl | hpn'
          · rwa [hr.newPage] at hflag
          · rwa [hr.others p hp hpn hpn'] at hflag
        exact hpn (((hl.flag p hpos hp).mp hold).trans hroot.symm)
    · rw [hrootPage]
      exact iff_of_true hrfollow.root rfl
  · rcases Nat.lt_succ_iff_lt_or_eq.mp (show p < t.brk + 1 by omega) with hp | rfl
    · have hpage := (hl.page p hpos hp).mono (show t.brk ≤ t'.brk by omega) hagree
      rw [hagree p hp]
      rcases eq_or_ne p c.node with rfl | hpn
      · rw [hr.oldPage]
        exact ⟨hpage.leaf, hpage.slots, hpage.cells, hpage.last⟩
      · rcases eq_or_ne p c.newNode with rfl | hpn'
        · rw [hr.newPage]
          exact ⟨hpage.leaf, hpage.slots, hpage.cells, hpage.last⟩
        · rw [hr.others p hp hpn hpn']
          exact hpage
    · rw [hrootPage, Function.update_self]
      have hbranch : r.leaf = false := hrfollow.leaf
      refine ⟨?_, fun _ => hrslots, fun _ q hq => ?_, fun _ _ => ?_⟩
      · change r.leaf = true ↔ _
        rw [hbranch]
        exact iff_of_false Bool.noConfusion (Nat.succ_ne_zero _)
      · have hq : q ∈ cellPids r := hq
        rw [hrcells, hkcells] at hq
        obtain rfl : q = c.node := by simpa [cellPids, nodeInit] using hq
        exact ⟨hc.node.1, by omega, by rw [hagree _ hnodeLt, hroot]⟩
      · exact ⟨by change c.newNode < _; omega, by
          change Function.update level t.brk _ c.newNode + 1 = _
          rw [hagree _ hnewLt, hsame, hroot]⟩

theorem splitPath_levels (h : splitPath t c above = .ok t') (hl : Leveled t level)
    (hc : CrumbAt t level c)
    (hpath : (c.node :: above).IsChain fun p q => level p + 1 = level q)
    (habove : ∀ q ∈ above, 0 < q ∧ q < t.brk) (hend : (c.node :: above).getLast? = some t.root)
    (hu : Undisturbed t') :
    ∃ level', (∀ q < t.brk, level' q = level q) ∧ Leveled t' level' ∧ CrumbAt t' level' c ∧
      (t'.root = t.root ∨ t'.root ≠ t.root ∧ level' t'.root = level t.root + 1) := by
  obtain ⟨t₁, top, cs, t₂, hplan, hroot, hdown⟩ := splitPath_eq_ok h
  have hlt : ∀ q ∈ above, q < t.brk := fun q hq => (habove q hq).2
  obtain ⟨level₁, hagree, hl₁, hat, hchain, hsame, htop⟩ := planCrumbs_levels hplan hl
    (by simpa using hc) (List.isChain_singleton _) hpath habove
  obtain ⟨hfirst, hsub⟩ := planCrumbs_spec hplan hlt
  have hmem : c ∈ top :: cs := hsub List.mem_cons_self
  have hfollow : t₂.Follows t' :=
    writeDown_follows (fun x hx hf => ((hat x hx).new hf).2.1) hdown
  have hu₂ := hfollow.undisturbed hu
  rcases hroot with ⟨hyes, hroot⟩ | ⟨-, rfl⟩
  · have hnode : top.node = t₁.root := by
      rw [hsame]
      exact Option.some.inj ((htop hyes).trans hend)
    obtain ⟨hl₂, hroot₂, hbrk₂⟩ :=
      splitRoot_levels hroot hl₁ (hat top List.mem_cons_self) hyes hnode hu₂
    have hagree₂ : ∀ q < t₁.brk, Function.update level₁ t₁.brk (level₁ t₁.root + 1) q = level₁ q :=
      fun q hq => Function.update_of_ne hq.ne ..
    have hat₂ : ∀ x ∈ top :: cs,
        CrumbAt t₂ (Function.update level₁ t₁.brk (level₁ t₁.root + 1)) x :=
      fun x hx => (hat x hx).mono (by omega) hagree₂
    have hchain₂ : (top :: cs).IsChain
        (Above (Function.update level₁ t₁.brk (level₁ t₁.root + 1))) := by
      refine hchain.imp_of_mem_imp fun x y hx hy hxy => ⟨?_, hxy.2⟩
      rw [hagree₂ _ (hat x hx).node.2, hagree₂ _ (hat y hy).node.2]
      exact hxy.1
    obtain ⟨hl', hbrk', hroot'⟩ := writeDown_levels hdown hl₂ hat₂ hchain₂ hu
    refine ⟨_, fun q hq => (hagree₂ q (hq.trans_le hfirst.brk)).trans (hagree q hq), hl',
      (hat₂ c hmem).mono hbrk'.ge fun _ _ => rfl, .inr ⟨?_, ?_⟩⟩
    · rw [hroot', hroot₂]
      have hbound := hl.root.2
      have hgrown := hfirst.brk
      omega
    · rw [hroot', hroot₂, Function.update_self, hsame, hagree _ hl.root.2]
  · obtain ⟨hl', hbrk', hroot'⟩ := writeDown_levels hdown hl₁ hat hchain hu
    exact ⟨level₁, hagree, hl', (hat c hmem).mono hbrk'.ge fun _ _ => rfl,
      .inl (hroot'.trans hsame)⟩

theorem insertLeaf_levels (h : insertLeaf t pid key value = .ok t') (hl : Leveled t level)
    (hpos : 0 < pid) (hpid : pid < t.brk) (hzero : level pid = 0) :
    Leveled t' level ∧ t'.root = t.root := by
  obtain ⟨k, off, found, idx, m, hget, -, -, hins, ht⟩ := insertLeaf_eq_ok h
  have hfollow := (nodeGetFreeOffset_follows hget).trans (nodeInsertCell_follows hins)
  have hpage := hl.page pid hpos hpid
  have hset := hl.set (hpage.of_leaf (hpage.leaf.mpr hzero) hfollow.leaf) hfollow.root
  rw [ht]
  exact ⟨hset.congr rfl rfl rfl, rfl⟩

/-- A call keeps the levels and adds one at the top when the root splits. -/
theorem insertStep_levels (h : insertStep t a = some t') (hl : Leveled t level)
    (hu : Undisturbed t') : ∃ level', Leveled t' level' ∧
      (t'.root = t.root ∧ level' t'.root = level t.root ∨
        t'.root ≠ t.root ∧ level' t'.root = level t.root + 1) := by
  obtain ⟨ret, hins⟩ := insertStep_eq_some h
  rcases btreeInsert_eq_ok hins with ⟨-, -, rfl⟩ | ⟨pid, above, t₁, c, t₂, hdescend, hplan, hsplit,
    hleaf, -⟩
  · exact ⟨level, hl, .inl ⟨rfl, rfl⟩⟩
  obtain ⟨q, rest, hpath, hpidLeaf⟩ := descend_leaf hdescend
  obtain ⟨rfl, rfl⟩ := List.cons.inj hpath
  obtain ⟨hchain, hmem, hend⟩ := descend_levels hdescend hl (List.isChain_singleton _)
    fun q hq => nomatch hq
  obtain ⟨hpos, hpid⟩ := hmem pid List.mem_cons_self
  have hzero : level pid = 0 := (hl.page pid hpos hpid).leaf.mp hpidLeaf
  obtain ⟨level₁, hagree, hl₁, hat, hnode, hroot⟩ := planLeaf_levels hplan hl hpos hpid hpidLeaf
  have hfirst := planLeaf_follows hpid hplan
  have hu₂ := (insertLeaf_follows hleaf).undisturbed hu
  have hagreePath : ∀ q ∈ pid :: above, level₁ q = level q := fun q hq => hagree q (hmem q hq).2
  have hsplitLevels : ∃ level₂, (∀ q < t₁.brk, level₂ q = level₁ q) ∧
      Leveled t₂ level₂ ∧ CrumbAt t₂ level₂ c ∧
      (t₂.root = t₁.root ∨ t₂.root ≠ t₁.root ∧ level₂ t₂.root = level₁ t₁.root + 1) := by
    rcases hsplit with ⟨hfull, hsplit⟩ | ⟨-, rfl⟩
    · have habove : ∀ q ∈ above, 0 < q ∧ q < t₁.brk := fun q hq =>
        ⟨(hmem q (List.mem_cons_of_mem _ hq)).1,
          (hmem q (List.mem_cons_of_mem _ hq)).2.trans_le hfirst.brk⟩
      refine splitPath_levels hsplit hl₁ hat ?_ habove ?_ hu₂
      · rw [hnode]
        refine hchain.imp_of_mem_imp fun x y hx hy hxy => ?_
        rw [hagreePath x hx, hagreePath y hy]
        exact hxy
      · rw [hnode, hroot, hend]
        rfl
    · exact ⟨level₁, fun _ _ => rfl, hl₁, hat, .inl rfl⟩
  obtain ⟨level₂, hagree₂, hl₂, hat₂, hroot₂⟩ := hsplitLevels
  obtain ⟨htpos, htlt, htlevel⟩ := hat₂.target_level
  have hbottom : level₂ c.fNode = 0 := by
    rw [htlevel, hnode, hagree₂ _ (hpid.trans_le hfirst.brk), hagree _ hpid, hzero]
  obtain ⟨hl', hroot'⟩ := insertLeaf_levels hleaf hl₂ htpos htlt hbottom
  have hbound := hl₁.root.2
  have hlevel : level₁ t₁.root = level t.root := by rw [hroot, hagree _ hl.root.2]
  refine ⟨level₂, hl', ?_⟩
  rw [hroot', ← hlevel, ← hroot]
  exact hroot₂.imp (fun hsame => ⟨hsame, by rw [hsame, hagree₂ _ hbound]⟩) id

theorem btreeInit_leveled : Leveled (btreeInit memory) fun _ => 0 := by
  have hnode : (btreeInit memory).node 1 = nodeInit (memory 1) true true := rfl
  refine ⟨show 2 ≤ 2 ^ 64 by norm_num, ⟨Nat.one_pos, Nat.lt_succ_self 1⟩, fun p hpos hp => ?_,
    fun p hpos hp => ?_⟩
  · obtain rfl : p = 1 := by
      change p < 2 at hp
      omega
    rw [hnode]
    exact iff_of_true rfl rfl
  · obtain rfl : p = 1 := by
      change p < 2 at hp
      omega
    rw [hnode]
    refine ⟨iff_of_true rfl rfl, fun hf => ?_, fun hf => ?_, fun hf => ?_⟩ <;> cases hf

/-- The pages some way of so many steps down from the root leads to. -/
inductive Btree.ReachesAt (t : Btree) : ℕ → ℕ → Prop
  | root : ReachesAt t 0 t.root
  | child {d p q : ℕ} : ReachesAt t d p → q ∈ childPids (t.node p) → ReachesAt t (d + 1) q

theorem PageAt.down (h : PageAt bound level n l) (hq : q ∈ childPids n) :
    0 < q ∧ q < bound ∧ level q + 1 = l := by
  cases hleaf : n.leaf with
  | true =>
      rw [childPids_leaf hleaf] at hq
      cases hq
  | false =>
      rw [childPids_branch hleaf] at hq
      obtain ⟨hmem, hne⟩ := List.mem_filter.mp hq
      have hne : q ≠ 0 := of_decide_eq_true hne
      rcases List.mem_append.mp hmem with hcell | hlast
      · exact h.cells hleaf q (branchCells_pids ▸ hcell)
      · obtain rfl := List.mem_singleton.mp hlast
        exact ⟨Nat.pos_of_ne_zero hne, h.last hleaf hne⟩

/-- Going down a step is going down a level. -/
theorem Leveled.depth {d : ℕ} (h : Leveled t level) (hp : t.ReachesAt d p) :
    0 < p ∧ p < t.brk ∧ level p + d = level t.root := by
  induction hp with
  | root => exact ⟨h.root.1, h.root.2, rfl⟩
  | child _ hq ih =>
      obtain ⟨hpos, hlt, hlevel⟩ := ih
      obtain ⟨hqpos, hqlt, hdown⟩ := (h.page _ hpos hlt).down hq
      exact ⟨hqpos, hqlt, by omega⟩

end IoScheduler
