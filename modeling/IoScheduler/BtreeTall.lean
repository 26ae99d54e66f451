import IoScheduler.BtreeSteps
import IoScheduler.NodePacked

/-!
# Ascending keys of equal size

With keys of 984 bytes a branch holds four separators, and with values of 1000
bytes a leaf holds two entries. When the keys ascend, only the pages on the way
down to the last leaf change, and a full one is followed by a new page with two
cells. So the numbers of their cells are the digits of a counter that every
insert moves on by one: a digit goes from 4 back to 2 and carries one.
-/
namespace IoScheduler
open Machine Bytes SearchTree

variable {t t' t₁ : Btree} {c child : Crumb} {cs below : List Crumb} {n m : Node}
  {pid bottom top mid l p cell : ℕ} {ks done : List Key} {k k' x y : Key} {leaf : Bool}
  {up up' rest seg u v : List (ℕ × List Key)} {moved : List (List Key)} {key value : List UInt8}

/-- A branch on the way down to `child`, the last of its children. -/
structure BranchPage (t : Btree) (child pid : ℕ) (ks : List Key) : Prop where
  bound : 0 < pid ∧ pid < t.brk
  leaf : (t.node pid).leaf = false
  packed : Packed (t.node pid) 984 1000 ks
  cells : ks.length ≤ 4
  last : (t.node pid).rightmostPid = child ∧ child ≠ 0

/-- The branches above the page `bottom` up to `top`, with their keys. -/
def Climb (t : Btree) (bottom : ℕ) : List (ℕ × List Key) → ℕ → Prop
  | [], top => bottom = top
  | (pid, ks) :: up, top => BranchPage t bottom pid ks ∧ Climb t pid up top

theorem climb_append : Climb t bottom (u ++ v) top ↔
    ∃ mid, Climb t bottom u mid ∧ Climb t mid v top := by
  induction u generalizing bottom with
  | nil => simp [Climb]
  | cons b u ih =>
      obtain ⟨pid, ks⟩ := b
      simp only [List.cons_append, Climb, ih]
      constructor
      · rintro ⟨hb, mid, hu, hv⟩
        exact ⟨mid, ⟨hb, hu⟩, hv⟩
      · rintro ⟨mid, ⟨hb, hu⟩, hv⟩
        exact ⟨hb, mid, hu, hv⟩

theorem Climb.congr (h : Climb t bottom up top) (hbrk : t.brk ≤ t'.brk)
    (hnode : ∀ p ∈ up.map Prod.fst, t'.node p = t.node p) : Climb t' bottom up top := by
  induction up generalizing bottom with
  | nil => exact h
  | cons b up ih =>
      obtain ⟨pid, ks⟩ := b
      obtain ⟨hb, hup⟩ := h
      have hsame : t'.node pid = t.node pid := hnode pid List.mem_cons_self
      constructor
      · exact ⟨⟨hb.bound.1, hb.bound.2.trans_le hbrk⟩, by rw [hsame]; exact hb.leaf,
          by rw [hsame]; exact hb.packed, hb.cells, by rw [hsame]; exact hb.last⟩
      · exact ih hup fun p hp => hnode p (List.mem_cons_of_mem _ hp)

/-- A key above those of the page goes to the last child. -/
theorem BranchPage.step (h : BranchPage t bottom pid ks) (hkey : key.length < 2 ^ 31)
    (hlt : ∀ x ∈ ks, x < ⟨key⟩) : nodeBinSearch (t.node pid) key = .ok (false, ks.length) ∧
      childAt (t.node pid) ks.length = .ok bottom := by
  constructor
  · exact h.packed.search hkey (by norm_num) hlt
  · rw [childAt, if_neg (by rw [h.packed.size]; exact lt_irrefl _), h.last.1, assert,
      if_pos h.last.2]
    rfl

theorem Climb.descend (h : Climb t bottom up t.root) (hkey : key.length < 2 ^ 31)
    (hlt : ∀ b ∈ up, ∀ x ∈ b.2, x < ⟨key⟩) (hroom : up.length ≤ 15) :
    IoScheduler.descend t key 15 [] t.root =
      IoScheduler.descend t key (15 - up.length) (up.map Prod.fst) bottom := by
  induction up generalizing bottom with
  | nil =>
      rw [show t.root = bottom from Eq.symm h]
      rfl
  | cons b up ih =>
      obtain ⟨pid, ks⟩ := b
      obtain ⟨hb, hup⟩ := h
      rw [List.length_cons] at hroom
      obtain ⟨hs, hchild⟩ := hb.step hkey (hlt _ List.mem_cons_self)
      obtain ⟨r, hr⟩ : ∃ r, 15 - up.length = r + 1 := ⟨15 - up.length - 1, by omega⟩
      have hr' : 15 - ((pid, ks) :: up).length = r := by
        rw [List.length_cons]
        omega
      rw [ih hup (fun b hb => hlt b (List.mem_cons_of_mem _ hb)) (by omega), hr, hr',
        IoScheduler.descend, Btree.deref, if_pos hb.bound]
      simp [hb.leaf, hs, hchild, bind, Except.bind]

/-! ## The counter -/

/-- What the numbers of cells, those of the lower pages first, count. -/
def weight : List (List Key) → ℕ
  | [] => 0
  | ks :: up => ks.length + 3 * weight up

theorem weight_carry {full next a b : List (List Key)} (hlen : next.length = full.length)
    (hfull : ∀ ks ∈ full, ks.length = 4) (hnext : ∀ ks ∈ next, ks.length = 2)
    (hrest : weight b = weight a + 1) : weight (next ++ b) = weight (full ++ a) + 1 := by
  induction full generalizing next with
  | nil =>
      rw [List.length_nil, List.length_eq_zero_iff] at hlen
      rw [hlen]
      exact hrest
  | cons ks full ih =>
      cases next with
      | nil => cases hlen
      | cons ks' next =>
          have h4 := hfull ks List.mem_cons_self
          have h2 := hnext ks' List.mem_cons_self
          have hcarry := ih (Nat.succ.inj hlen) (fun x hx => hfull x (List.mem_cons_of_mem _ hx))
            fun x hx => hnext x (List.mem_cons_of_mem _ hx)
          simp only [List.cons_append, weight]
          omega

theorem weight_le {kss : List (List Key)} (h : ∀ ks ∈ kss, ks.length ≤ 4) :
    weight kss + 2 ≤ 2 * 3 ^ kss.length := by
  induction kss with
  | nil => norm_num [weight]
  | cons ks kss ih =>
      have h4 := h ks List.mem_cons_self
      have hrest := ih fun x hx => h x (List.mem_cons_of_mem _ hx)
      rw [weight, List.length_cons, pow_succ]
      omega

/-! ## Crumbs of full pages -/

/-- A page that splits at its cell `p`, and the empty page for the cells behind. -/
structure FullPage (t : Btree) (c : Crumb) (leaf : Bool) (cell p : ℕ) (ks : List Key) : Prop where
  full : c.isFull = true
  target : c.fNode = c.newNode
  cut : c.partitionIdx = p
  flag : (t.node c.node).leaf = leaf
  packed : Packed (t.node c.node) 984 cell ks
  fresh : Fresh (t.node c.newNode) leaf

/-- The crumbs of full pages down to the leaf, whose second key is `y` and whose
new page is `l`: the separator of the first one, and the keys the new pages of
the branches will have. -/
inductive Planned (t : Btree) (y : Key) (l : ℕ) :
    List Crumb → Key → List (List Key) → Prop
  | leaf {c : Crumb} {x : Key} : FullPage t c true 2000 1 [x, y] → c.newNode = l →
      Planned t y l [c] y []
  | branch {c child : Crumb} {below : List Crumb} {ks : List Key} {k k' : Key}
      {moved : List (List Key)} : FullPage t c false 1000 2 ks → ks.length = 4 →
      ks[2]? = some k' → (∀ x ∈ ks, x < k) → Planned t y l (child :: below) k moved →
      Planned t y l (c :: child :: below) k' ((ks.drop 3 ++ [k]) :: moved)

def crumbPids (cs : List Crumb) : List ℕ := cs.flatMap fun c => [c.node, c.newNode]

theorem crumbPids_cons : crumbPids (c :: cs) = c.node :: c.newNode :: crumbPids cs := rfl

/-- The same page but for its parent and the root flag. -/
def Relinked (n m : Node) : Prop := m = { n with parentPid := m.parentPid, root := m.root }

theorem Relinked.of_eq (h : m = n) : Relinked n m := by
  rw [h]
  rfl

theorem FullPage.congr (h : FullPage t c leaf cell p ks)
    (hnode : Relinked (t.node c.node) (t'.node c.node))
    (hnew : Relinked (t.node c.newNode) (t'.node c.newNode)) : FullPage t' c leaf cell p ks := by
  refine ⟨h.full, h.target, h.cut, ?_, ?_, ?_⟩
  · rw [hnode]
    exact h.flag
  · rw [hnode]
    exact h.packed.header _ _ _
  · rw [hnew]
    exact ⟨h.fresh.size, h.fresh.leaf, h.fresh.cellOffset, h.fresh.tombstoneOffset⟩

theorem Planned.congr (h : Planned t y l cs k moved)
    (hnode : ∀ p ∈ crumbPids cs, Relinked (t.node p) (t'.node p)) : Planned t' y l cs k moved := by
  induction h with
  | leaf hc hl =>
      exact .leaf (hc.congr (hnode _ (by simp [crumbPids])) (hnode _ (by simp [crumbPids]))) hl
  | branch hc hlen hk hlt _ ih =>
      refine .branch (hc.congr (hnode _ ?_) (hnode _ ?_)) hlen hk hlt (ih fun p hp => hnode p ?_)
      · simp [crumbPids]
      · simp [crumbPids]
      · exact List.mem_cons_of_mem _ (List.mem_cons_of_mem _ hp)

theorem Planned.full (h : Planned t y l (c :: below) k moved) : c.isFull = true := by
  cases h with
  | leaf hc _ => exact hc.full
  | branch hc _ _ _ _ => exact hc.full

/-- The separator a planned page hands up. -/
theorem Planned.separator (h : Planned t y l (c :: below) k moved) :
    partitionKey t c = k.bytes ∧ k.bytes.length = 984 := by
  cases h with
  | leaf hc _ =>
      rw [partitionKey, hc.cut]
      exact hc.packed.keyAt rfl
  | branch hc _ hk _ _ =>
      rw [partitionKey, hc.cut]
      exact hc.packed.keyAt hk

/-! ## Writing a plan -/

theorem splitNode_branch (h : FullPage t c false 1000 2 ks) (hlen : ks.length = 4)
    (hne : c.newNode ≠ c.node) : ∃ t₁, splitNode t c = .ok t₁ ∧
      Packed (t₁.node c.newNode) 984 1000 (ks.drop 3) ∧ (t₁.node c.newNode).leaf = false ∧
      (t₁.node c.node).leaf = false ∧ t₁.root = t.root ∧ t₁.brk = t.brk ∧
      ∀ p, p ≠ c.node → p ≠ c.newNode → t₁.node p = t.node p := by
  obtain ⟨old, new, hsplit, hnew, hnewLeaf, holdSize, holdLeaf⟩ :=
    h.packed.split_branch h.flag (p := 2) (by decide) (by omega) h.fresh
  have hsize := h.packed.size
  have hnewSize := hnew.size
  rw [List.length_drop] at hnewSize
  have hcount : sub32 (t.node c.node).size 1 = u32 (old.size + new.size) := by
    rw [sub32_of_le (by omega) (by omega), u32_of_lt (by omega)]
    omega
  have hle : 2 ≤ (t.node c.node).size := by omega
  refine ⟨{ (t.set c.node old).set c.newNode new with
    internalSplits := t.internalSplits + 1
    emptyHalf := t.emptyHalf || 2 == 0 || decide ((t.node c.node).size ≤ 2 + 1) },
    ?_, ?_, ?_, ?_, rfl, rfl, ?_⟩
  · simp only [splitNode, h.full, h.flag, h.cut, splitInternal, bind_eq_ok, assert_eq_ok, if_true,
      Bool.false_eq_true, if_false]
    exact ⟨(), hle, (), h.fresh.leaf, (old, new), hsplit, (), hcount, rfl⟩
  · show Packed (((t.set c.node old).set c.newNode new).node c.newNode) 984 1000 _
    rw [Btree.set_node_self]
    exact hnew
  · show (((t.set c.node old).set c.newNode new).node c.newNode).leaf = false
    rw [Btree.set_node_self]
    exact hnewLeaf
  · show (((t.set c.node old).set c.newNode new).node c.node).leaf = false
    rw [Btree.set_node_of_ne hne.symm, Btree.set_node_self]
    exact holdLeaf
  · intro p hp hp'
    show ((t.set c.node old).set c.newNode new).node p = _
    rw [Btree.set_node_of_ne hp', Btree.set_node_of_ne hp]

theorem splitNode_leaf (h : FullPage t c true 2000 1 [x, y]) (hne : c.newNode ≠ c.node) :
    ∃ t₁, splitNode t c = .ok t₁ ∧
      Packed (t₁.node c.newNode) 984 2000 [y] ∧ (t₁.node c.newNode).leaf = true ∧
      (t₁.node c.node).leaf = true ∧ t₁.root = t.root ∧ t₁.brk = t.brk ∧
      ∀ p, p ≠ c.node → p ≠ c.newNode → t₁.node p = t.node p := by
  obtain ⟨old, new, hsplit, hnew, hnewLeaf, holdSize, holdLeaf⟩ :=
    h.packed.split_leaf h.flag (Nat.lt_succ_self 1) h.fresh
  have hsize : (t.node c.node).size = 2 := h.packed.size
  have hnewSize : new.size = 1 := hnew.size
  have hcount : (t.node c.node).size = u32 (old.size + new.size) := by
    rw [hsize, hnewSize, holdSize]
    rfl
  have hle : 1 ≤ (t.node c.node).size := by omega
  refine ⟨{ (t.set c.node old).set c.newNode new with
    emptyHalf := t.emptyHalf || 1 == 0 || decide ((t.node c.node).size ≤ 1) }, ?_, ?_, ?_, ?_, rfl,
    rfl, ?_⟩
  · simp only [splitNode, h.full, h.flag, h.cut, splitLeaf, bind_eq_ok, assert_eq_ok, if_true]
    exact ⟨(), hle, (), h.fresh.leaf, (old, new), hsplit, (), hcount, rfl⟩
  · show Packed (((t.set c.node old).set c.newNode new).node c.newNode) 984 2000 _
    rw [Btree.set_node_self]
    exact hnew
  · show (((t.set c.node old).set c.newNode new).node c.newNode).leaf = true
    rw [Btree.set_node_self]
    exact hnewLeaf
  · show (((t.set c.node old).set c.newNode new).node c.node).leaf = true
    rw [Btree.set_node_of_ne hne.symm, Btree.set_node_self]
    exact holdLeaf
  · intro p hp hp'
    show ((t.set c.node old).set c.newNode new).node p = _
    rw [Btree.set_node_of_ne hp', Btree.set_node_of_ne hp]

/-- A branch with room takes the separator of a full child at its end. -/
theorem linkChild_packed (h : Packed (t.node c.fNode) 984 1000 ks)
    (hleaf : (t.node c.fNode).leaf = false) (hlen : ks.length ≤ 3)
    (hkey : partitionKey t child = k.bytes) (hk : k.bytes.length = 984) (hlt : ∀ x ∈ ks, x < k)
    (hchild : child.node < 2 ^ 64) : ∃ m, linkChild t c child = .ok (t.set c.fNode m) ∧
      Packed m 984 1000 (ks ++ [k]) ∧ m.leaf = false ∧ m.rightmostPid = child.newNode := by
  have hs : nodeBinSearch (t.node c.fNode) k.bytes = .ok (false, ks.length) :=
    h.search (by omega) (by norm_num) hlt
  have hf : Packed { t.node c.fNode with rightmostPid := child.newNode } 984 1000 ks :=
    h.header (t.node c.fNode).parentPid child.newNode (t.node c.fNode).root
  have hneed : newCellSize k.bytes.length 0 = 1000 := by
    rw [hk]
    rfl
  obtain ⟨off, m, hget, hoff, hins, hm, hmleaf, hlast⟩ :=
    hf.append_separator hleaf hk rfl hneed hchild (by
      simp only [slotOffset, sizeofNode, nodeSize]
      omega)
  refine ⟨m, ?_, hm, hmleaf, hlast⟩
  have hidx : ¬ ks.length < (t.node c.fNode).size := by
    rw [h.size]
    exact lt_irrefl _
  simp only [linkChild, hkey, bind_eq_ok]
  refine ⟨_, hs, ?_⟩
  dsimp only
  rw [if_neg hidx]
  simp only [bind_eq_ok, assert_eq_ok]
  exact ⟨_, rfl, _, hget, (), hoff, m, hins, rfl⟩

/-- What writing down a plan of full pages makes of the tree: the new pages are
the last ones on their levels, and no other page changes. -/
structure Written (t t' : Btree) (cs : List Crumb) (y : Key) (l : ℕ) (moved : List (List Key))
    (seg : List (ℕ × List Key)) : Prop where
  root : t'.root = t.root
  brk : t'.brk = t.brk
  others : ∀ p, p ∉ crumbPids cs → t'.node p = t.node p
  climb : ∀ c ∈ cs.head?, Climb t' l seg c.newNode
  keys : seg.map Prod.snd = moved.reverse
  pids : l :: seg.map Prod.fst = (cs.map Crumb.newNode).reverse
  leaf : (t'.node l).leaf = true
  packed : Packed (t'.node l) 984 2000 [y]

theorem Planned.write (h : Planned t y l cs k moved) (hnodup : (crumbPids cs).Nodup)
    (hbound : ∀ p ∈ crumbPids cs, 0 < p ∧ p < t.brk) (hbrk : t.brk ≤ 2 ^ 64) :
    ∃ t' seg, writeDown t cs = .ok t' ∧ Written t t' cs y l moved seg := by
  induction cs generalizing t k moved with
  | nil => cases h
  | cons c below ih =>
      rw [crumbPids_cons, List.nodup_cons, List.nodup_cons, List.mem_cons, not_or] at hnodup
      obtain ⟨⟨hne, hnode⟩, hnew, hrest⟩ := hnodup
      cases h with
      | leaf hc hl =>
          obtain ⟨t₁, hsplit, hpacked, hleaf, holdLeaf, hroot, hbrk₁, hothers⟩ :=
            splitNode_leaf hc (Ne.symm hne)
          refine ⟨t₁, [], ?_, hroot, hbrk₁, fun p hp => ?_, fun x hx => ?_, rfl, ?_, hl ▸ hleaf,
            hl ▸ hpacked⟩
          · simp only [writeDown, hsplit, holdLeaf, bind, Except.bind, if_true]
          · simp only [crumbPids_cons, List.mem_cons, not_or] at hp
            exact hothers p hp.1 hp.2.1
          · obtain rfl := Option.some.inj hx
            exact hl.symm
          · rw [← hl]
            rfl
      | @branch _ child below ks k' _ moved hc hlen hk hlt hbelow =>
          obtain ⟨t₁, hsplit, hpacked, hleaf, holdLeaf, hroot, hbrk₁, hothers⟩ :=
            splitNode_branch hc hlen (Ne.symm hne)
          have hbelowPids : ∀ p ∈ crumbPids (child :: below), p ≠ c.node ∧ p ≠ c.newNode := by
            intro p hp
            constructor
            · rintro rfl
              exact hnode hp
            · rintro rfl
              exact hnew hp
          have hchildMem : child.node ∈ crumbPids (child :: below) := List.mem_cons_self
          have hbelow₁ : Planned t₁ y l (child :: below) k' moved :=
            hbelow.congr fun p hp => .of_eq (hothers p (hbelowPids p hp).1 (hbelowPids p hp).2)
          obtain ⟨hkey, hk984⟩ := hbelow₁.separator
          rw [← hc.target] at hpacked hleaf
          obtain ⟨m, hlink, hm, hmleaf, hmlast⟩ := linkChild_packed hpacked hleaf
            (by rw [List.length_drop]; omega) hkey hk984
            (fun x hx => hlt x (List.mem_of_mem_drop hx))
            ((hbound _ (List.mem_cons_of_mem _ (List.mem_cons_of_mem _ hchildMem))).2.trans_le hbrk)
          rw [hc.target] at hlink
          have hkept : ∀ p, p ≠ c.node → p ≠ c.newNode →
              (t₁.set c.newNode m).node p = t.node p := fun p hp hp' => by
            rw [Btree.set_node_of_ne hp', hothers p hp hp']
          have hbelow₂ : Planned (t₁.set c.newNode m) y l (child :: below) k' moved :=
            hbelow.congr fun p hp => .of_eq (hkept p (hbelowPids p hp).1 (hbelowPids p hp).2)
          obtain ⟨t', seg, hdown, hw⟩ := ih hbelow₂ hrest (fun p hp => by
              have hb := hbound p (List.mem_cons_of_mem _ (List.mem_cons_of_mem _ hp))
              exact ⟨hb.1, hb.2.trans_eq hbrk₁.symm⟩) (hbrk₁.trans_le hbrk)
          have hnewPage : t'.node c.newNode = m := by
            rw [hw.others _ hnew, Btree.set_node_self]
          have hbrk' : t'.brk = t.brk := hw.brk.trans hbrk₁
          have hnewBound := hbound c.newNode (List.mem_cons_of_mem _ List.mem_cons_self)
          have hchildNew := hbound child.newNode (by simp [crumbPids])
          have hbranch : BranchPage t' child.newNode c.newNode (ks.drop 3 ++ [k']) := by
            refine ⟨by rw [hbrk']; exact hnewBound, by rw [hnewPage]; exact hmleaf,
              by rw [hnewPage]; exact hm, ?_, by rw [hnewPage]; exact ⟨hmlast, hchildNew.1.ne'⟩⟩
            rw [List.length_append, List.length_drop, List.length_singleton]
            omega
          refine ⟨t', seg ++ [(c.newNode, ks.drop 3 ++ [k'])], ?_, hw.root.trans hroot, hbrk',
            fun p hp => ?_, fun x hx => ?_, ?_, ?_, hw.leaf, hw.packed⟩
          · rw [writeDown]
            simp only [hsplit, holdLeaf, bind, Except.bind, Bool.false_eq_true, if_false, hlink]
            exact hdown
          · simp only [crumbPids_cons, List.mem_cons, not_or] at hp
            rw [hw.others p (by simp only [crumbPids_cons, List.mem_cons, not_or]; exact hp.2.2),
              hkept p hp.1 hp.2.1]
          · obtain rfl := Option.some.inj hx
            exact climb_append.mpr ⟨child.newNode, hw.climb child rfl, hbranch, rfl⟩
          · rw [List.map_append, hw.keys, List.reverse_cons]
            rfl
          · rw [List.map_append, ← List.cons_append, hw.pids]
            exact List.reverse_cons.symm

/-! ## Making a plan -/

theorem planNode_full (hpid : pid < t.brk) (hbrk : t.brk < 2 ^ 64)
    (hfull : nodeIsFull (t.node pid) (partitionKey t c).length 0 = .ok true) :
    planNode t c pid =
      .ok ((notePartition t pid (nodePartitionIdx (t.node pid))).withNew false false,
        splitCrumb t pid (partitionKey t c)) := by
  simp only [planNode, bind_eq_ok]
  exact ⟨true, hfull, planSplit_isOk (t := notePartition t pid _) hbrk hpid⟩

/-- A page that a plan splits, once its new page is handed out. -/
theorem fullPage_withNew {ks : List Key} (hpid : pid < t.brk)
    (hpacked : Packed (t.node pid) 984 cell ks) (hleaf : (t.node pid).leaf = leaf)
    (hp : nodePartitionIdx (t.node pid) = p) (hx : ks[p]? = some x) (hlt : x < ⟨key⟩)
    (hkey : key.length < 2 ^ 31) {q : ℕ} :
    FullPage ((notePartition t pid q).withNew leaf false) (splitCrumb t pid key) leaf cell p
      ks := by
  have hnode : ((notePartition t pid q).withNew leaf false).node pid = t.node pid :=
    Btree.withNew_node (t := notePartition t pid q) hpid
  have hcut : (splitCrumb t pid key).partitionIdx = p := hp
  have hat : keyAt (t.node pid) p = x.bytes ∧ x.bytes.length = 984 := hpacked.keyAt hx
  refine ⟨rfl, ?_, hcut, by rw [show (splitCrumb t pid key).node = pid from rfl, hnode, hleaf],
    by rw [show (splitCrumb t pid key).node = pid from rfl, hnode]; exact hpacked, ?_⟩
  · rw [splitCrumb, hp, hat.1]
    exact if_pos ((keyCompare_spec (by omega) hkey).1.mpr hlt)
  · show Fresh (((notePartition t pid q).withNew leaf false).node t.brk) leaf
    rw [show t.brk = (notePartition t pid q).brk from rfl, Btree.withNew_node_brk]
    exact nodeInit_fresh

/-- A plan that has come up to the branches `rest`: `done` are the keys of the
pages below them, the upper ones first. -/
structure Plan (t : Btree) (y : Key) (l : ℕ) (c : Crumb) (below : List Crumb) (k : Key)
    (moved : List (List Key)) (rest : List (ℕ × List Key)) (done : List Key) : Prop where
  planned : Planned t y l (c :: below) k moved
  climb : Climb t c.node rest t.root
  sorted : ((rest.reverse.map Prod.snd).flatten ++ done).Pairwise (· < ·)
  sub : (k :: moved.flatten).Sublist done
  twos : ∀ ks ∈ moved, ks.length = 2
  nodup : (crumbPids (c :: below) ++ rest.map Prod.fst).Nodup
  bound : ∀ p ∈ crumbPids (c :: below), 0 < p ∧ p < t.brk

theorem sorted_cons (h : ((((pid, ks) :: rest).reverse.map Prod.snd).flatten ++ done).Pairwise
    (· < ·)) : ((rest.reverse.map Prod.snd).flatten ++ (ks ++ done)).Pairwise (· < ·) := by
  rw [List.reverse_cons, List.map_append, List.flatten_append, List.append_assoc,
    List.map_singleton, List.flatten_singleton] at h
  exact h

/-- The keys of the next branch up are below the separator. -/
theorem Plan.separator_above (h : Plan t y l c below k moved ((pid, ks) :: rest) done) :
    ∀ x ∈ ks, x < k := by
  intro x hx
  have hkdone : k ∈ done := h.sub.subset List.mem_cons_self
  have htail := (List.pairwise_append.mp (sorted_cons h.sorted)).2.1
  exact (List.pairwise_append.mp htail).2.2 x hx k hkdone

theorem Climb.pids_lt (h : Climb t bottom up top) : ∀ p ∈ up.map Prod.fst, 0 < p ∧ p < t.brk := by
  induction up generalizing bottom with
  | nil => exact fun p hp => absurd hp List.not_mem_nil
  | cons b up ih =>
      obtain ⟨pid, ks⟩ := b
      exact List.forall_mem_cons.mpr ⟨h.1.bound, ih h.2⟩

theorem Climb.cells (h : Climb t bottom up top) : ∀ b ∈ up, b.2.length ≤ 4 := by
  induction up generalizing bottom with
  | nil => exact fun b hb => absurd hb List.not_mem_nil
  | cons b up ih =>
      obtain ⟨pid, ks⟩ := b
      exact List.forall_mem_cons.mpr ⟨h.1.cells, ih h.2⟩

/-- The next branch up is full too. -/
theorem Plan.step (h : Plan t y l c below k moved ((pid, ks) :: rest) done)
    (hfull : ks.length = 4) (hbrk : t.brk < 2 ^ 64) : ∃ t₁ c₁ k₁, planNode t c pid = .ok (t₁, c₁) ∧
      t₁.root = t.root ∧ t₁.brk = t.brk + 1 ∧
      Plan t₁ y l c₁ (c :: below) k₁ ((ks.drop 3 ++ [k]) :: moved) rest (ks ++ done) := by
  obtain ⟨hb, hup⟩ := h.climb
  obtain ⟨hkey, hk984⟩ := h.planned.separator
  have hlt := h.separator_above
  obtain ⟨k₁, hk₁⟩ : ∃ k₁, ks[2]? = some k₁ := ⟨ks[2], List.getElem?_eq_getElem (by omega)⟩
  have hp : nodePartitionIdx (t.node pid) = 2 :=
    hb.packed.partition (by decide) (by omega) (by decide) (by decide)
  have hneed : newCellSize k.bytes.length 0 = 1000 := by
    rw [hk984]
    rfl
  have hisFull : nodeIsFull (t.node pid) (partitionKey t c).length 0 = .ok true := by
    rw [hkey, hb.packed.isFull (by rw [hfull]; decide) hneed, hfull]
    rfl
  have hkept : ∀ q < t.brk,
      ((notePartition t pid (nodePartitionIdx (t.node pid))).withNew false false).node q =
        t.node q := fun q hq => Btree.withNew_node (t := notePartition t pid _) hq
  have hnodup := h.nodup
  have hrestLt := hup.pids_lt
  refine ⟨_, _, k₁, planNode_full hb.bound.2 hbrk hisFull, rfl, rfl, ?_⟩
  refine ⟨.branch ?_ hfull hk₁ hlt (h.planned.congr fun q hq => .of_eq (hkept q (h.bound q hq).2)),
    hup.congr (Nat.le_succ _) fun q hq => hkept q (hrestLt q hq).2, sorted_cons h.sorted,
    ?_, ?_, ?_, ?_⟩
  · apply fullPage_withNew hb.bound.2 hb.packed hb.leaf hp hk₁
    · rw [hkey]
      exact hlt k₁ (List.mem_of_getElem? hk₁)
    · rw [hkey]
      omega
  · have htake : (k₁ :: ks.drop 3).Sublist ks := by
      have hdrop : ks.drop 2 = k₁ :: ks.drop 3 := by
        obtain ⟨hlt2, heq⟩ := List.getElem?_eq_some_iff.mp hk₁
        rw [List.drop_eq_getElem_cons hlt2, heq]
      rw [← hdrop]
      exact List.drop_sublist 2 ks
    have hall := htake.append h.sub
    simpa using hall
  · refine List.forall_mem_cons.mpr ⟨?_, h.twos⟩
    rw [List.length_append, List.length_drop, List.length_singleton]
    omega
  · have hold : (pid :: (crumbPids (c :: below) ++ rest.map Prod.fst)).Nodup :=
      List.perm_middle.nodup_iff.mp h.nodup
    have hfresh : t.brk ∉ pid :: (crumbPids (c :: below) ++ rest.map Prod.fst) := by
      intro hmem
      have hlt : t.brk < t.brk := by
        rcases List.mem_cons.mp hmem with heq | hmem
        · exact heq.trans_lt hb.bound.2
        · rcases List.mem_append.mp hmem with hmem | hmem
          · exact (h.bound _ hmem).2
          · exact (hrestLt _ hmem).2
      exact lt_irrefl _ hlt
    exact (List.Perm.swap _ _ _).nodup_iff.mp (List.nodup_cons.mpr ⟨hfresh, hold⟩)
  · refine List.forall_mem_cons.mpr ⟨⟨hb.bound.1, hb.bound.2.trans (Nat.lt_succ_self _)⟩,
      List.forall_mem_cons.mpr ⟨⟨hb.bound.1.trans hb.bound.2, Nat.lt_succ_self _⟩, fun q hq => ?_⟩⟩
    exact ⟨(h.bound q hq).1, (h.bound q hq).2.trans (Nat.lt_succ_self _)⟩

/-- The plan comes up to the first branch with room, or to the root. -/
theorem Plan.climb_full (h : Plan t y l c below k moved (u ++ rest) done)
    (hfull : ∀ b ∈ u, b.2.length = 4) (hbrk : t.brk + u.length ≤ 2 ^ 64) :
    ∃ t₁ c₁ below₁ k₁ moved₁ done₁,
      planCrumbs t c below ((u ++ rest).map Prod.fst) =
        planCrumbs t₁ c₁ below₁ (rest.map Prod.fst) ∧
      t₁.root = t.root ∧ t₁.brk = t.brk + u.length ∧ moved₁.length = moved.length + u.length ∧
      Plan t₁ y l c₁ below₁ k₁ moved₁ rest done₁ ∧
      (rest.reverse.map Prod.snd).flatten ++ done₁ =
        ((u ++ rest).reverse.map Prod.snd).flatten ++ done := by
  induction u generalizing t c below k moved done with
  | nil => exact ⟨t, c, below, k, moved, done, rfl, rfl, rfl, rfl, h, rfl⟩
  | cons b u ih =>
      obtain ⟨pid, ks⟩ := b
      rw [List.length_cons] at hbrk
      obtain ⟨t₁, c₁, k₁, hplan, hroot, hbrk₁, h₁⟩ :=
        h.step (hfull _ List.mem_cons_self) (by omega)
      obtain ⟨t₂, c₂, below₂, k₂, moved₂, done₂, hcrumbs, hroot₂, hbrk₂, hlen, h₂, hkeys⟩ :=
        ih h₁ (fun b hb => hfull b (List.mem_cons_of_mem _ hb)) (by omega)
      refine ⟨t₂, c₂, below₂, k₂, moved₂, done₂, ?_, hroot₂.trans hroot, ?_, ?_, h₂, ?_⟩
      · rw [← hcrumbs, List.cons_append, List.map_cons, planCrumbs, if_pos h.planned.full, hplan]
        rfl
      · rw [hbrk₂, hbrk₁, List.length_cons]
        omega
      · rw [hlen, List.length_cons, List.length_cons]
        omega
      · rw [hkeys, List.cons_append, List.reverse_cons, List.map_append, List.flatten_append,
          List.map_singleton, List.flatten_singleton, List.append_assoc]

/-! ## The way down to the last leaf -/

/-- The last leaf holds `es`, and `up` are the branches above it. -/
structure LastLeaf (t : Btree) (es : List Key) (l : ℕ) (up : List (ℕ × List Key)) : Prop where
  bound : 0 < l ∧ l < t.brk
  leaf : (t.node l).leaf = true
  packed : Packed (t.node l) 984 2000 es
  climb : Climb t l up t.root
  nodup : (l :: up.map Prod.fst).Nodup

/-- What a plan that came up to `rest` makes of the tree: the separator goes to
the first branch of `rest` or to a new root. -/
structure Finished (t t' : Btree) (y : Key) (l : ℕ) (moved : List (List Key))
    (rest up : List (ℕ × List Key)) (done : List Key) : Prop where
  last : LastLeaf t' [y] l up
  brk : t'.brk ≤ t.brk + 1
  sub : ((up.reverse.map Prod.snd).flatten).Sublist ((rest.reverse.map Prod.snd).flatten ++ done)
  counted : ∃ b, up.map Prod.snd = moved.reverse ++ b ∧
    weight b = weight (rest.map Prod.snd) + 1

theorem newNodes_sublist : (cs.map Crumb.newNode).Sublist (crumbPids cs) := by
  induction cs with
  | nil => exact List.Sublist.refl _
  | cons c cs ih => exact (ih.cons_cons _).cons _

theorem Written.lastLeaf {above : List (ℕ × List Key)} (h : Written t t' (c :: below) y l moved seg)
    (hclimb : Climb t' c.newNode above t'.root)
    (hnodup : (crumbPids (c :: below) ++ above.map Prod.fst).Nodup)
    (hbound : ∀ p ∈ crumbPids (c :: below), 0 < p ∧ p < t'.brk) :
    LastLeaf t' [y] l (seg ++ above) := by
  have hmem : l ∈ (c :: below).map Crumb.newNode := by
    rw [← List.mem_reverse, ← h.pids]
    exact List.mem_cons_self
  refine ⟨hbound l (newNodes_sublist.subset hmem), h.leaf, h.packed,
    climb_append.mpr ⟨c.newNode, h.climb c rfl, hclimb⟩, ?_⟩
  rw [List.map_append, ← List.cons_append, h.pids]
  have hsub : ((c :: below).map Crumb.newNode).Sublist (crumbPids (c :: below)) := newNodes_sublist
  exact ((List.reverse_perm _).append_right _).nodup_iff.mpr (hnodup.sublist (hsub.append_right _))

/-- The keys above the leaf, once the separator `k` has gone to the keys `b`. -/
theorem Written.keys_sublist {above : List (ℕ × List Key)} {b : List Key}
    (h : Written t t' cs y l moved seg) (hsub : (k :: moved.flatten).Sublist done)
    (habove : (above.reverse.map Prod.snd).flatten = b ++ [k]) :
    (((seg ++ above).reverse.map Prod.snd).flatten).Sublist (b ++ done) := by
  have hseg : (seg.reverse.map Prod.snd).flatten = moved.flatten := by
    rw [List.map_reverse, h.keys, List.reverse_reverse]
  rw [List.reverse_append, List.map_append, List.flatten_append, hseg, habove, List.append_assoc]
  exact hsub.append_left b

theorem Plan.finish_open (h : Plan t y l c below k moved ((pid, ks) :: rest) done)
    (hopen : ks.length ≤ 3) (hbrk : t.brk ≤ 2 ^ 64) : ∃ t₁ top cs t' up,
      planCrumbs t c below (((pid, ks) :: rest).map Prod.fst) = .ok (t₁, top, cs) ∧
      top.isFull = false ∧ writeDown t₁ (top :: cs) = .ok t' ∧
      Finished t t' y l moved ((pid, ks) :: rest) up done := by
  obtain ⟨hb, hup⟩ := h.climb
  obtain ⟨hkey, hk984⟩ := h.planned.separator
  have hlt := h.separator_above
  have hneed : newCellSize k.bytes.length 0 = 1000 := by
    rw [hk984]
    rfl
  have hroom : slotOffset ks.length + 1000 * (ks.length + 1) ≤ nodeSize := by
    simp only [slotOffset, sizeofNode, nodeSize]
    omega
  have hisFull : nodeIsFull (t.node pid) (partitionKey t c).length 0 = .ok false := by
    rw [hkey, hb.packed.isFull (by omega) hneed, decide_eq_false (not_lt.mpr hroom)]
  obtain ⟨t₁, top, hplan, htopFull, htopNode, htopTarget, hnode₁, hbrk₁, hroot₁⟩ :=
    planNode_open hisFull
  have hcrumbs : planCrumbs t c below (((pid, ks) :: rest).map Prod.fst) =
      .ok (t₁, top, c :: below) := by
    rw [List.map_cons, planCrumbs, if_pos h.planned.full, hplan]
    exact planCrumbs_open htopFull
  -- the branch with room takes the separator
  have hnodup := List.perm_middle.nodup_iff.mp h.nodup
  obtain ⟨hpid, hrestNodup⟩ := List.nodup_cons.mp hnodup
  rw [List.mem_append, not_or] at hpid
  have hbound₁ : ∀ p ∈ crumbPids (c :: below), 0 < p ∧ p < t₁.brk := by
    rw [hbrk₁]
    exact h.bound
  have hcNode : c.node ∈ crumbPids (c :: below) := List.mem_cons_self
  have hcNew : c.newNode ∈ crumbPids (c :: below) := List.mem_cons_of_mem _ List.mem_cons_self
  have hplanned₁ : Planned t₁ y l (c :: below) k moved :=
    h.planned.congr fun p _ => .of_eq (by rw [hnode₁])
  obtain ⟨m, hlink, hm, hmleaf, hmlast⟩ := linkChild_packed (t := t₁) (c := top)
    (by rw [htopTarget, hnode₁]; exact hb.packed) (by rw [htopTarget, hnode₁]; exact hb.leaf) hopen
    hplanned₁.separator.1 hk984 hlt ((h.bound _ hcNode).2.trans_le hbrk)
  rw [htopTarget] at hlink
  have hkept : ∀ p, p ≠ pid → (t₁.set pid m).node p = t.node p := fun p hp => by
    rw [Btree.set_node_of_ne hp, hnode₁]
  have hplanned₂ : Planned (t₁.set pid m) y l (c :: below) k moved :=
    h.planned.congr fun p hp => .of_eq (hkept p fun heq => hpid.1 (heq ▸ hp))
  obtain ⟨t', seg, hdown, hw⟩ := hplanned₂.write (List.nodup_append.mp h.nodup).1 hbound₁
    (hbrk₁.trans_le hbrk)
  have hbrk' : t'.brk = t.brk := hw.brk.trans hbrk₁
  have hpage : t'.node pid = m := by rw [hw.others pid hpid.1, Btree.set_node_self]
  have hbranch : BranchPage t' c.newNode pid (ks ++ [k]) := by
    refine ⟨by rw [hbrk']; exact hb.bound, by rw [hpage]; exact hmleaf, by rw [hpage]; exact hm, ?_,
      by rw [hpage]; exact ⟨hmlast, (h.bound _ hcNew).1.ne'⟩⟩
    rw [List.length_append, List.length_singleton]
    omega
  have hrest' : Climb t' pid rest t'.root := by
    rw [hw.root, show (t₁.set pid m).root = t.root from hroot₁]
    refine hup.congr hbrk'.ge fun q hq => ?_
    rw [hw.others q fun hmem => (List.nodup_append.mp hrestNodup).2.2 q hmem q hq rfl,
      hkept q fun heq => hpid.2 (heq ▸ hq)]
  refine ⟨t₁, top, c :: below, t', seg ++ (pid, ks ++ [k]) :: rest, hcrumbs, htopFull, ?_, ?_⟩
  · have hsplit : splitNode t₁ top = .ok t₁ := by
      rw [splitNode, if_neg (by rw [htopFull]; exact Bool.false_ne_true)]
    have hflag : (t₁.node top.node).leaf = false := by
      rw [htopNode, hnode₁]
      exact hb.leaf
    rw [writeDown]
    simp only [hsplit, hflag, bind, Except.bind, Bool.false_eq_true, if_false, hlink]
    exact hdown
  · refine ⟨hw.lastLeaf ⟨hbranch, hrest'⟩ h.nodup (by rw [hbrk']; exact h.bound), by omega, ?_,
      (ks ++ [k]) :: rest.map Prod.snd, ?_, ?_⟩
    · have habove : (((pid, ks ++ [k]) :: rest).reverse.map Prod.snd).flatten =
          (rest.reverse.map Prod.snd).flatten ++ ks ++ [k] := by simp
      simpa using hw.keys_sublist h.sub habove
    · rw [List.map_append, hw.keys, List.map_cons]
    · simp only [weight, List.map_cons, List.length_append, List.length_singleton]
      omega

/-- The root splits under a new one that holds its separator. -/
theorem splitRoot_packed (hbrk : t.brk < 2 ^ 64) (hnode : c.node < t.brk)
    (hnew : 0 < c.newNode ∧ c.newNode < t.brk) (hne : c.newNode ≠ c.node)
    (hkey : partitionKey t c = k.bytes) (hk : k.bytes.length = 984) :
    ∃ t', splitRoot t c = .ok t' ∧ t'.root = t.brk ∧ t'.brk = t.brk + 1 ∧
      BranchPage t' c.newNode t.brk [k] ∧ ∀ p < t.brk, Relinked (t.node p) (t'.node p) := by
  have hempty : Packed (nodeInit (t.node t.brk) false true) 984 1000 [] := nodeInit_fresh.packed
  have hneed : newCellSize k.bytes.length 0 = 1000 := by
    rw [hk]
    rfl
  obtain ⟨off, m, hget, hoff, hins, hm, hmleaf, -⟩ :=
    hempty.append_separator rfl hk rfl hneed (hnode.trans hbrk) (by decide)
  have hkey' : partitionKey (t.withNew false true) c = k.bytes := by
    rw [← hkey, partitionKey, partitionKey, Btree.withNew_node hnode]
  have hget' : nodeGetFreeOffset ((t.withNew false true).node t.brk)
      (partitionKey (t.withNew false true) c).length 0 =
        .ok (nodeInit (t.node t.brk) false true, off) := by
    rw [hkey', Btree.withNew_node_brk]
    exact hget
  have hins' : nodeInsertInternalCell (nodeInit (t.node t.brk) false true) off 0
      (partitionKey (t.withNew false true) c) c.node = .ok m := by
    rw [hkey']
    exact hins
  obtain ⟨t', ht'⟩ : ∃ t', splitRoot t c = .ok t' :=
    ⟨_, bind_eq_ok.mpr ⟨_, newNode_isOk hbrk, bind_eq_ok.mpr ⟨_, hget', bind_eq_ok.mpr
      ⟨(), assert_eq_ok.mpr hoff, bind_eq_ok.mpr ⟨m, hins', rfl⟩⟩⟩⟩⟩
  obtain ⟨r, hr⟩ := splitRoot_spec ht' hnode hnew.2 hne
  obtain ⟨k₂, off₂, hget₂, -, hins₂⟩ := hr.place
  rw [hkey] at hget₂ hins₂
  obtain ⟨rfl, rfl⟩ := Prod.mk.inj (Except.ok.inj (hget.symm.trans hget₂))
  obtain rfl := Except.ok.inj (hins.symm.trans hins₂)
  refine ⟨t', ht', hr.root, hr.brk, ?_, fun p hp => ?_⟩
  · have hpos : 0 < t.brk := hnew.1.trans hnew.2
    refine ⟨⟨hpos, hr.brk ▸ Nat.lt_succ_self _⟩, ?_, ?_, show 1 ≤ 4 by decide, ?_⟩
    · rw [hr.rootPage]
      exact hmleaf
    · rw [hr.rootPage]
      exact hm.header _ _ _
    · rw [hr.rootPage]
      exact ⟨rfl, hnew.1.ne'⟩
  · rcases eq_or_ne p c.node with rfl | hpn
    · rw [hr.oldPage]
      rfl
    · rcases eq_or_ne p c.newNode with rfl | hpn'
      · rw [hr.newPage]
        rfl
      · exact .of_eq (hr.others p hp hpn hpn')

theorem Plan.finish_root (h : Plan t y l c below k moved [] done) (hbrk : t.brk < 2 ^ 64) :
    ∃ t₂ t' up, splitRoot t c = .ok t₂ ∧ writeDown t₂ (c :: below) = .ok t' ∧
      Finished t t' y l moved [] up done := by
  obtain ⟨hkey, hk984⟩ := h.planned.separator
  have hcNode := h.bound c.node List.mem_cons_self
  have hcNew := h.bound c.newNode (List.mem_cons_of_mem _ List.mem_cons_self)
  have hnodup : (crumbPids (c :: below)).Nodup := (List.nodup_append.mp h.nodup).1
  have hne : c.newNode ≠ c.node := by
    rw [crumbPids_cons, List.nodup_cons, List.mem_cons, not_or] at hnodup
    exact Ne.symm hnodup.1.1
  obtain ⟨t₂, hroot, hroot₂, hbrk₂, hbranch, hlinked⟩ :=
    splitRoot_packed hbrk hcNode.2 hcNew hne hkey hk984
  have hbound₂ : ∀ p ∈ crumbPids (c :: below), 0 < p ∧ p < t₂.brk := fun p hp => by
    obtain ⟨hpos, hlt⟩ := h.bound p hp
    exact ⟨hpos, by omega⟩
  obtain ⟨t', seg, hdown, hw⟩ :=
    (h.planned.congr fun p hp => hlinked p (h.bound p hp).2).write hnodup hbound₂ (by omega)
  have hfresh : t.brk ∉ crumbPids (c :: below) := fun hmem => lt_irrefl _ (h.bound _ hmem).2
  have hclimb : Climb t₂ c.newNode [(t.brk, [k])] t'.root :=
    ⟨hbranch, show t.brk = t'.root from (hw.root.trans hroot₂).symm⟩
  have hclimb' : Climb t' c.newNode [(t.brk, [k])] t'.root := by
    refine hclimb.congr hw.brk.ge fun q hq => ?_
    obtain rfl := List.mem_singleton.mp hq
    exact hw.others _ hfresh
  refine ⟨t₂, t', seg ++ [(t.brk, [k])], hroot, hdown, hw.lastLeaf hclimb' ?_ (by
    rw [hw.brk]; exact hbound₂), by rw [hw.brk, hbrk₂], ?_, [[k]], ?_, rfl⟩
  · rw [List.map_singleton]
    exact List.perm_append_comm.nodup_iff.mp (List.nodup_cons.mpr ⟨hfresh, hnodup⟩)
  · have habove : ([(t.brk, [k])].reverse.map Prod.snd).flatten = [] ++ [k] := rfl
    exact hw.keys_sublist h.sub habove
  · rw [List.map_append, hw.keys]
    rfl

/-- A plan is written down with one more separator above the planned pages. -/
theorem Plan.finish (h : Plan t y l c [] k [] up [y]) (hbrk : t.brk + up.length < 2 ^ 64) :
    ∃ t' up', splitPath t c (up.map Prod.fst) = .ok t' ∧ LastLeaf t' [y] l up' ∧
      t'.brk ≤ t.brk + up.length + 1 ∧
      ((up'.reverse.map Prod.snd).flatten).Sublist ((up.reverse.map Prod.snd).flatten ++ [y]) ∧
      weight (up'.map Prod.snd) = weight (up.map Prod.snd) + 1 := by
  -- the full branches at the lower end
  have hsplit : up.takeWhile (fun b => b.2.length = 4) ++ up.dropWhile (fun b => b.2.length = 4) =
    up := List.takeWhile_append_dropWhile
  obtain ⟨u, hu⟩ : ∃ u, u = up.takeWhile (fun b => b.2.length = 4) := ⟨_, rfl⟩
  obtain ⟨rest, hrest⟩ : ∃ rest, rest = up.dropWhile (fun b => b.2.length = 4) := ⟨_, rfl⟩
  have hfull : ∀ b ∈ u, b.2.length = 4 := fun b hb => by
    rw [hu] at hb
    simpa using List.mem_takeWhile_imp hb
  rw [← hu, ← hrest] at hsplit
  have hlen : u.length + rest.length = up.length := by rw [← hsplit, List.length_append]
  rw [← hsplit] at h
  obtain ⟨t₁, c₁, below₁, k₁, moved₁, done₁, hcrumbs, hroot₁, hbrk₁, hmoved, h₁, hkeys⟩ :=
    h.climb_full hfull (by omega)
  rw [hsplit] at hcrumbs hkeys
  have hweight : ∀ b, weight b = weight (rest.map Prod.snd) + 1 →
      weight (moved₁.reverse ++ b) = weight (up.map Prod.snd) + 1 := fun b hb => by
    rw [← hsplit, List.map_append]
    refine weight_carry ?_ ?_ ?_ hb
    · rw [List.length_reverse, hmoved, List.length_map, List.length_nil, Nat.zero_add]
    · rintro ks hks
      obtain ⟨b, hb, rfl⟩ := List.mem_map.mp hks
      exact hfull b hb
    · exact fun ks hks => h₁.twos ks (List.mem_reverse.mp hks)
  cases rest with
  | nil =>
      obtain ⟨t₂, t', up', hroot, hdown, hf⟩ := h₁.finish_root (by omega)
      obtain ⟨b, hb, hbweight⟩ := hf.counted
      refine ⟨t', up', ?_, hf.last, ?_, ?_, ?_⟩
      · rw [splitPath, hcrumbs]
        refine bind_eq_ok.mpr ⟨(t₁, c₁, below₁), rfl, ?_⟩
        dsimp only
        rw [if_pos h₁.planned.full]
        exact bind_eq_ok.mpr ⟨t₂, hroot, hdown⟩
      · have hgrown := hf.brk
        omega
      · rw [← hkeys]
        exact hf.sub
      · rw [hb]
        exact hweight b hbweight
  | cons b rest =>
      obtain ⟨pid, ks⟩ := b
      have hopen : ks.length ≤ 3 := by
        have hle := h₁.climb.1.cells
        have hne : ks.length ≠ 4 := by
          intro h4
          have hhead := List.head?_dropWhile_not (fun b : ℕ × List Key => b.2.length = 4) up
          rw [← hrest] at hhead
          simp [h4] at hhead
        omega
      obtain ⟨t₂, top, cs, t', up', hplan, htop, hdown, hf⟩ := h₁.finish_open hopen (by omega)
      obtain ⟨b, hb, hbweight⟩ := hf.counted
      refine ⟨t', up', ?_, hf.last, ?_, ?_, ?_⟩
      · rw [splitPath, hcrumbs, hplan]
        refine bind_eq_ok.mpr ⟨(t₂, top, cs), rfl, ?_⟩
        dsimp only
        rw [if_neg (by rw [htop]; exact Bool.false_ne_true)]
        exact bind_eq_ok.mpr ⟨t₂, rfl, hdown⟩
      · have hgrown := hf.brk
        omega
      · rw [← hkeys]
        exact hf.sub
      · rw [hb]
        exact hweight b hbweight

/-! ## Inserting -/

/-- The tree of ascending inserts, `x` and `y` being the last two keys. -/
structure Tall (t : Btree) (x y : Key) (l : ℕ) (up : List (ℕ × List Key)) : Prop where
  last : LastLeaf t [x, y] l up
  sorted : ((up.reverse.map Prod.snd).flatten ++ [y]).Pairwise (· < ·)
  less : x < y

theorem Tall.keys_lt (h : Tall t x y l up) : ∀ z ∈ (up.reverse.map Prod.snd).flatten, z < y :=
  fun z hz => (List.pairwise_append.mp h.sorted).2.2 z hz y (List.mem_singleton_self y)

theorem LastLeaf.enter {es : List Key} (h : LastLeaf t es l up) (hlen : es.length ≤ 1)
    (hkey : key.length = 984) (hvalue : value.length = 1000) (hlt : ∀ x ∈ es, x < ⟨key⟩) :
    ∃ t', insertLeaf t l key value = .ok t' ∧ LastLeaf t' (es ++ [⟨key⟩]) l up ∧
      t'.brk = t.brk := by
  have hneed : newCellSize key.length value.length = 2000 := by
    rw [hkey, hvalue]
    rfl
  have hcell : sizeofCell + (984 + value.length) = 2000 := by rw [hvalue]; rfl
  obtain ⟨off, m, hget, hoff, hins, hm, hmleaf⟩ :=
    h.packed.append_entry h.leaf hkey hcell hneed (by
      simp only [slotOffset, sizeofNode, nodeSize]
      omega)
  have hs : nodeBinSearch (t.node l) key = .ok (false, es.length) :=
    h.packed.search (by omega) (by norm_num) hlt
  refine ⟨{ t.set l m with count := u32 (t.count + 1) }, ?_, ⟨h.bound, ?_, ?_, ?_, h.nodup⟩, rfl⟩
  · simp only [insertLeaf, bind_eq_ok, assert_eq_ok]
    exact ⟨_, hget, (), hoff, _, hs, m, hins, rfl⟩
  · show ((t.set l m).node l).leaf = true
    rw [Btree.set_node_self]
    exact hmleaf
  · show Packed ((t.set l m).node l) 984 2000 _
    rw [Btree.set_node_self]
    exact hm
  · refine h.climb.congr le_rfl fun p hp => ?_
    exact Btree.set_node_of_ne fun heq => (List.nodup_cons.mp h.nodup).1 (heq ▸ hp)

/-- The descent ends at the last leaf. -/
theorem LastLeaf.descend {es : List Key} (h : LastLeaf t es l up) (hkey : key.length < 2 ^ 31)
    (hlt : ∀ b ∈ up, ∀ x ∈ b.2, x < ⟨key⟩) (hroom : up.length ≤ 15) :
    IoScheduler.descend t key 15 [] t.root = .ok (some (l :: up.map Prod.fst)) := by
  rw [h.climb.descend hkey hlt hroom, IoScheduler.descend, Btree.deref, if_pos h.bound]
  refine bind_eq_ok.mpr ⟨t.node l, rfl, ?_⟩
  rw [if_pos h.leaf]

/-- A leaf root with room takes an entry. -/
theorem LastLeaf.insert_root {es : List Key} (h : LastLeaf t es l []) (hlen : es.length ≤ 1)
    (hkey : key.length = 984) (hvalue : value.length = 1000) (hlt : ∀ x ∈ es, x < ⟨key⟩) :
    ∃ t', insertStep t (key, value) = some t' ∧ LastLeaf t' (es ++ [⟨key⟩]) l [] ∧
      t'.brk = t.brk := by
  have hneed : newCellSize key.length value.length = 2000 := by
    rw [hkey, hvalue]
    rfl
  have hisFull : nodeIsFull (t.node l) key.length value.length = .ok false := by
    rw [h.packed.isFull _ hneed, decide_eq_false]
    · simp only [slotOffset, sizeofNode, nodeSize]
      omega
    · simp only [slotOffset, sizeofNode, nodeSize]
      omega
  have hplan : planLeaf t key value l =
      .ok (t, { node := l, newNode := 0, fNode := l, partitionIdx := 0, isFull := false }) :=
    bind_eq_ok.mpr ⟨false, hisFull, rfl⟩
  obtain ⟨t', hins, hlast, hbrk⟩ := h.enter hlen hkey hvalue hlt
  have hpath := h.descend (show key.length < 2 ^ 31 by omega)
    (fun b hb => absurd hb List.not_mem_nil) (Nat.zero_le _)
  exact ⟨t', insertStep_of_ok (bind_eq_ok.mpr ⟨_, hpath, bind_eq_ok.mpr ⟨_, hplan,
    bind_eq_ok.mpr ⟨t, rfl, bind_eq_ok.mpr ⟨t', hins, rfl⟩⟩⟩⟩), hlast, hbrk⟩

/-- An insert above all keys splits the last leaf and moves the counter on. -/
theorem Tall.insert (h : Tall t x y l up) (hkey : key.length = 984) (hvalue : value.length = 1000)
    (hlt : y < ⟨key⟩) (hup : up.length ≤ 15) (hbrk : t.brk + 16 < 2 ^ 64) : ∃ t' l' up',
      insertStep t (key, value) = some t' ∧ Tall t' y ⟨key⟩ l' up' ∧ t'.brk ≤ t.brk + 17 ∧
        weight (up'.map Prod.snd) = weight (up.map Prod.snd) + 1 := by
  have hlast := h.last
  have hbelow : ∀ z ∈ (up.reverse.map Prod.snd).flatten, z < (⟨key⟩ : Key) := fun z hz =>
    (h.keys_lt z hz).trans hlt
  have hpath := hlast.descend (show key.length < 2 ^ 31 by omega) (fun b hb z hz => hbelow z
    (List.mem_flatten.mpr ⟨b.2, List.mem_map_of_mem (List.mem_reverse.mpr hb), hz⟩)) hup
  have hneed : newCellSize key.length value.length = 2000 := by
    rw [hkey, hvalue]
    rfl
  have hisFull : nodeIsFull (t.node l) key.length value.length = .ok true := by
    rw [hlast.packed.isFull (show slotOffset 2 + 2000 * 2 ≤ nodeSize by decide) hneed]
    exact congrArg Except.ok (decide_eq_true (show nodeSize < slotOffset 2 + 2000 * 3 by decide))
  have hp : nodePartitionIdx (t.node l) = 1 :=
    hlast.packed.partition Nat.one_pos (Nat.lt_succ_self 1) (by decide) (by decide)
  -- the plan that starts at the leaf
  obtain ⟨t₁, ht₁⟩ : ∃ t₁,
      t₁ = (notePartition t l (nodePartitionIdx (t.node l))).withNew true false := ⟨_, rfl⟩
  have hplan : planLeaf t key value l = .ok (t₁, splitCrumb t l key) := by
    rw [ht₁]
    exact bind_eq_ok.mpr ⟨true, hisFull, planSplit_isOk (t := notePartition t l _) (by
      show t.brk < 2 ^ 64
      omega) hlast.bound.2⟩
  have hfull : FullPage t₁ (splitCrumb t l key) true 2000 1 [x, y] := by
    rw [ht₁]
    exact fullPage_withNew hlast.bound.2 hlast.packed hlast.leaf hp rfl hlt (by omega)
  have hbrk₁ : t₁.brk = t.brk + 1 := by rw [ht₁]; rfl
  have hroot₁ : t₁.root = t.root := by rw [ht₁]; rfl
  have hkept : ∀ q < t.brk, t₁.node q = t.node q := fun q hq => by
    rw [ht₁]
    exact Btree.withNew_node (t := notePartition t l _) hq
  have hupLt := hlast.climb.pids_lt
  have hfresh : t.brk ∉ l :: up.map Prod.fst := by
    intro hmem
    rcases List.mem_cons.mp hmem with heq | hmem
    · exact hlast.bound.2.ne heq.symm
    · exact lt_irrefl _ (hupLt _ hmem).2
  have hstart : Plan t₁ y t.brk (splitCrumb t l key) [] y [] up [y] := by
    refine ⟨.leaf hfull rfl, ?_, h.sorted, List.Sublist.refl _,
      fun ks hks => absurd hks List.not_mem_nil, ?_, ?_⟩
    · rw [hroot₁]
      exact hlast.climb.congr (by omega) fun q hq => hkept q (hupLt q hq).2
    · exact (List.Perm.swap _ _ _).nodup_iff.mp (List.nodup_cons.mpr ⟨hfresh, hlast.nodup⟩)
    · rw [hbrk₁]
      have hbound := hlast.bound
      exact List.forall_mem_cons.mpr ⟨⟨hbound.1, hbound.2.trans (Nat.lt_succ_self _)⟩,
        List.forall_mem_singleton.mpr ⟨hbound.1.trans hbound.2, Nat.lt_succ_self _⟩⟩
  obtain ⟨t₂, up', hsplit, hlast₂, hbrk₂, hsub, hweight⟩ := hstart.finish (by omega)
  obtain ⟨t', hins, hlast', hbrk'⟩ := hlast₂.enter le_rfl hkey hvalue fun z hz => by
    obtain rfl := List.mem_singleton.mp hz
    exact hlt
  have htarget : (splitCrumb t l key).fNode = t.brk := hfull.target
  refine ⟨t', t.brk, up', ?_, ⟨hlast', ?_, hlt⟩, by omega, hweight⟩
  · refine insertStep_of_ok (bind_eq_ok.mpr ⟨_, hpath, bind_eq_ok.mpr ⟨_, hplan,
      bind_eq_ok.mpr ⟨t₂, ?_, bind_eq_ok.mpr ⟨t', ?_, rfl⟩⟩⟩⟩)
    · exact hsplit
    · rw [htarget]
      exact hins
  · refine List.pairwise_append.mpr ⟨h.sorted.sublist hsub, List.pairwise_singleton _ _,
      fun z hz w hw => ?_⟩
    obtain rfl := List.mem_singleton.mp hw
    rcases List.mem_append.mp (hsub.subset hz) with hz | hz
    · exact hbelow z hz
    · obtain rfl := List.mem_singleton.mp hz
      exact hlt

end IoScheduler
