import IoScheduler.BtreeSteps
import IoScheduler.NodeRoom

/-!
# What an insertion does to a valid search tree

The descent follows a key to the leaf that its place is in. A leaf with room
takes the entry; a full one is cut in two first, and its parent or a new root
takes the separator, as long as the parent has room for it. A page that takes a
cell stays valid exactly when the cell is placed below every other block.
-/
namespace IoScheduler
open Machine Bytes SearchTree

variable {t t' : Btree} {n k m f old new : Node} {c : Crumb} {d e pid p q r idx off : ℕ}
  {ts path above : List ℕ} {key value sep : List UInt8} {found : Bool}

/-- The pages of a tree as the pages of a search tree. -/
def Btree.view (t : Btree) : ℕ → Page Key (List UInt8) ℕ := fun pid => page (t.node pid)

def Btree.entries (t : Btree) (d : ℕ) : List (Key × List UInt8) :=
  SearchTree.entries t.view d t.root

/-- The pages of a search tree of depth `d` from the root down. -/
def Btree.pids (t : Btree) (d : ℕ) : List ℕ := SearchTree.pids t.view d t.root

/-- A valid search tree of depth `d`. -/
structure ValidAt (t : Btree) (d : ℕ) : Prop where
  bound : t.brk ≤ 2 ^ 64
  ordered : Ordered t.view d t.root Set.univ
  nodup : (t.pids d).Nodup
  pages : ∀ p ∈ t.pids d, 0 < p ∧ p < t.brk ∧ ValidPage (t.node p)

variable {J : Set Key} {A B : List ℕ} {C D : List (Key × List UInt8)}

/-! ## Pages on the way down -/

theorem ValidPage.place (h : ValidPage n) (hsort : (keys n).Pairwise (· < ·))
    (hkey : key.length < 2 ^ 31) (hs : nodeBinSearch n key = .ok (found, idx)) :
    (found = true ∧ ⟨key⟩ ∈ keys n) ∨ found = false ∧ idx ≤ n.size ∧
      (∀ x ∈ (keys n).take idx, x < ⟨key⟩) ∧ ∀ x ∈ (keys n).drop idx, ⟨key⟩ < x := by
  obtain ⟨-, ts, hlayout, -⟩ := h
  refine (hlayout.search hsort hkey hs).imp_left fun ⟨hf, hlt, heq⟩ => ⟨hf, ?_⟩
  exact mem_keys.mpr ⟨idx, hlt, heq⟩

theorem forall_keys {α : Type*} {cells : List (Key × α)} {P : Key → Prop} :
    (∀ x ∈ cells.map Prod.fst, P x) ↔ ∀ x ∈ cells, P x.1 :=
  List.forall_mem_map

theorem childAt_eq_ok (h : childAt n idx = .ok q) (hidx : idx ≤ n.size) :
    q = first n.rightmostPid ((branchCells n).drop idx) := by
  rw [childAt] at h
  split_ifs at h with hlt
  · rw [branchCells, ← List.map_drop, drop_offsets_cons hlt]
    exact (Except.ok.inj h).symm
  · simp only [bind_eq_ok, assert_eq_ok] at h
    obtain ⟨_, -, h⟩ := h
    rw [List.drop_eq_nil_of_le (by rw [length_branchCells]; omega)]
    exact (Except.ok.inj h).symm

/-- Where a branch of a valid tree sends a key that is none of its separators. -/
structure Turn (t : Btree) (key : List UInt8) (p idx q : ℕ) : Prop where
  branch : (t.node p).leaf = false
  le : idx ≤ (t.node p).size
  left : ∀ x ∈ (branchCells (t.node p)).take idx, x.1 < ⟨key⟩
  right : ∀ x ∈ (branchCells (t.node p)).drop idx, ⟨key⟩ < x.1
  child : q = first (t.node p).rightmostPid ((branchCells (t.node p)).drop idx)

theorem Turn.view (h : Turn t key p idx q) : t.view p =
    .branch ((branchCells (t.node p)).take idx ++ (branchCells (t.node p)).drop idx)
      (t.node p).rightmostPid := by
  rw [List.take_append_drop]
  exact page_branch h.branch

theorem Turn.focus (h : Turn t key p idx q) : Focus t.view ⟨key⟩ (e + 1) p e q := by
  apply Focus.child h.view (fun x hx => (h.left x hx).le) h.right
  rw [h.child]
  exact .here

/-- A branch has pages below it, and its separators increase. -/
theorem SearchTree.Context.branch_sorted
    (hc : Context t.view d t.root Set.univ e p J A B C D) (hbranch : (t.node p).leaf = false) :
    ∃ e', e = e' + 1 ∧ (keys (t.node p)).Pairwise (· < ·) := by
  have hview : t.view p = .branch (branchCells (t.node p)) (t.node p).rightmostPid :=
    page_branch hbranch
  cases e with
  | zero =>
      obtain ⟨es, hes, -⟩ := hc.ordered
      rw [hview] at hes
      cases hes
  | succ e =>
      rw [← branchCells_keys]
      exact ⟨e, rfl, (hc.ordered.branch hview).1⟩

/-- A leaf has no pages below it, and its keys increase. -/
theorem SearchTree.Context.leaf_sorted
    (hc : Context t.view d t.root Set.univ e p J A B C D) (hleaf : (t.node p).leaf = true) :
    e = 0 ∧ (keys (t.node p)).Pairwise (· < ·) := by
  have hview : t.view p = .leaf (leafEntries (t.node p)) := page_leaf hleaf
  cases e with
  | zero =>
      obtain ⟨es, hes, hsort, -⟩ := hc.ordered
      obtain rfl := Page.leaf.inj (hview.symm.trans hes)
      rw [← leafEntries_keys]
      exact ⟨rfl, hsort⟩
  | succ e =>
      obtain ⟨cells, last, hcells, -⟩ := hc.ordered
      rw [hview] at hcells
      cases hcells

theorem ValidAt.turn (hv : ValidAt t d)
    (hc : Context t.view d t.root Set.univ e p J A B C D) (hkey : key.length < 2 ^ 31)
    (hbranch : (t.node p).leaf = false) (hs : nodeBinSearch (t.node p) key = .ok (false, idx))
    (hchild : childAt (t.node p) idx = .ok q) : Turn t key p idx q := by
  obtain ⟨-, -, hsort⟩ := hc.branch_sorted hbranch
  obtain ⟨-, -, hvalid⟩ := hv.pages p hc.mem_pids
  rcases hvalid.place hsort hkey hs with ⟨hf, -⟩ | ⟨-, hle, hleft, hright⟩
  · cases hf
  rw [← branchCells_keys] at hleft hright
  rw [← List.map_take, forall_keys] at hleft
  rw [← List.map_drop, forall_keys] at hright
  exact ⟨hbranch, hle, hleft, hright, childAt_eq_ok hchild hle⟩

/-- A descent follows its key. -/
theorem ValidAt.visits (hv : ValidAt t d) (hkey : key.length < 2 ^ 31) (h : t.Visits key path) :
    ∃ p above e, path = p :: above ∧ Focus t.view ⟨key⟩ d t.root e p := by
  induction h with
  | root => exact ⟨t.root, [], d, rfl, .here⟩
  | child _ hbranch hs hchild ih =>
      obtain ⟨p, above, e, heq, hfocus⟩ := ih
      obtain ⟨rfl, rfl⟩ := List.cons.inj heq
      obtain ⟨J, A, B, C, D, -, hc⟩ := hfocus.context hv.ordered (Set.mem_univ _)
      obtain ⟨e, rfl, -⟩ := hc.branch_sorted hbranch
      exact ⟨_, _, e, rfl, hfocus.trans (hv.turn hc hkey hbranch hs hchild).focus⟩

theorem ValidAt.focus (hv : ValidAt t d) (hkey : key.length < 2 ^ 31)
    (h : t.Visits key (p :: above)) : ∃ e, Focus t.view ⟨key⟩ d t.root e p := by
  obtain ⟨_, _, e, heq, hfocus⟩ := hv.visits hkey h
  obtain ⟨rfl, rfl⟩ := List.cons.inj heq
  exact ⟨e, hfocus⟩

/-- A call that returns 1 has found its key among the separators. -/
theorem ValidAt.descend_none (hv : ValidAt t d) (hkey : key.length < 2 ^ 31)
    (h : descend t key 15 [] t.root = .ok none) : ⟨key⟩ ∈ separators t.view d t.root := by
  obtain ⟨p, rest, idx, hvisits, -, -, hbranch, hs⟩ := IoScheduler.descend_none h .root
  obtain ⟨e, hfocus⟩ := hv.focus hkey hvisits
  obtain ⟨J, A, B, C, D, -, hc⟩ := hfocus.context hv.ordered (Set.mem_univ _)
  obtain ⟨e, rfl, hsort⟩ := hc.branch_sorted hbranch
  apply hfocus.separators_subset
  rw [separators, Btree.view, page_branch hbranch, Page.seps, branchCells_keys]
  refine List.mem_append_left _ ?_
  rcases (hv.pages p hc.mem_pids).2.2.place hsort hkey hs with ⟨-, hmem⟩ | ⟨hf, -⟩
  · exact hmem
  · cases hf

/-! ## A leaf takes the entry -/

/-- What holds of a key of the leaf holds of a key of the tree. -/
theorem SearchTree.Context.leaf_keys_subset
    (hc : Context t.view d t.root Set.univ 0 pid J A B C D) (hleaf : (t.node pid).leaf = true) :
    keys (t.node pid) ⊆ (t.entries d).map Prod.fst := by
  have hentries : t.entries d = C ++ (leafEntries (t.node pid) ++ D) := by
    rw [Btree.entries, hc.entries_eq, SearchTree.entries, Btree.view, page_leaf hleaf]
    rfl
  rw [hentries, List.map_append, List.map_append, leafEntries_keys]
  exact fun x hx => List.mem_append_right _ (List.mem_append_left _ hx)

/-- The page a leaf becomes when it takes an entry it does not have. -/
theorem ValidPage.insert_entry (h : ValidPage n) (hleaf : n.leaf = true)
    (hsort : (keys n).Pairwise (· < ·)) (habsent : ⟨key⟩ ∉ keys n)
    (hsize : key.length + value.length < 2 ^ 31)
    (hget : nodeGetFreeOffset n key.length value.length = .ok (k, off)) (hoff : 0 < off)
    (hs : nodeBinSearch k key = .ok (found, idx))
    (hins : nodeInsertLeafCell k off idx key value = .ok m) (hslot : m.slotClash = false) :
    (PlacedLow n key.length value.length → ValidPage m ∧ m.leaf = true ∧
      leafEntries m = (leafEntries n).take idx ++ (⟨key⟩, value) :: (leafEntries n).drop idx ∧
      (∀ x ∈ (leafEntries n).take idx, x.1 < ⟨key⟩) ∧
      ∀ x ∈ (leafEntries n).drop idx, ⟨key⟩ < x.1) ∧
    (¬ PlacedLow n key.length value.length → ¬ ValidPage m) := by
  obtain ⟨-, ts, hlayout, -⟩ := id h
  obtain ⟨us, hk, hoffsets, hksize, hkept⟩ := hlayout.getFree hget hoff
  have hkeys : keys k = keys n := keys_congr hoffsets hkept hlayout.whole
  rw [← hkeys] at hsort
  rcases hk.search hsort (by omega) hs with ⟨-, hlt, heq⟩ | ⟨-, hle, hleft, hright⟩
  · rw [← hkeys] at habsent
    exact absurd (mem_keys.mpr ⟨idx, hlt, heq⟩) habsent
  rw [hksize] at hle
  rw [hkeys, ← leafEntries_keys] at hleft hright
  rw [← List.map_take, forall_keys] at hleft
  rw [← List.map_drop, forall_keys] at hright
  obtain ⟨-, hapart⟩ := nodeInsertCell_slotClash hins hslot
  rw [hksize] at hapart
  obtain ⟨hlow, hhigh⟩ := h.enter hleaf hle hget hoff hins hapart hsize
  refine ⟨fun hp => ?_, hhigh⟩
  obtain ⟨hvalid, hmleaf, hentries⟩ := hlow hp
  exact ⟨hvalid, hmleaf, hentries, hleft, hright⟩

theorem insertLeaf_node_of_ne (h : insertLeaf t pid key value = .ok t') (hp : p ≠ pid) :
    t'.node p = t.node p := by
  obtain ⟨_, _, _, _, m, -, -, -, -, rfl⟩ := insertLeaf_eq_ok h
  exact Btree.set_node_of_ne hp

theorem insertLeaf_fields (h : insertLeaf t pid key value = .ok t') :
    t'.root = t.root ∧ t'.brk = t.brk ∧ t'.count = u32 (t.count + 1) ∧
      t'.internalSplits = t.internalSplits ∧ t'.wildPartition = t.wildPartition := by
  obtain ⟨_, _, _, _, m, -, -, -, -, rfl⟩ := insertLeaf_eq_ok h
  exact ⟨rfl, rfl, rfl, rfl, rfl⟩

/-- The tree is valid afterwards, with one entry more: it has grown by a level
at most, any new separator is the key of an entry, and the new pages are in it. -/
structure EnteredAt (t t' : Btree) (d d' : ℕ) (key value : List UInt8) : Prop where
  valid : ValidAt t' d'
  entries : ∃ E₁ E₂, t.entries d = E₁ ++ E₂ ∧ t'.entries d' = E₁ ++ (⟨key⟩, value) :: E₂
  separators : separators t'.view d' t'.root ⊆
    SearchTree.separators t.view d t.root ++ (t.entries d).map Prod.fst
  depth : d' = d ∧ t.brk ≤ t'.brk ∨ d = 0 ∧ d' = 1 ∧ t.brk + 2 ≤ t'.brk
  allocated : (t'.pids d').length + t.brk = (t.pids d).length + t'.brk

/-- A leaf of a valid tree takes the entry at its place, or `cell_offset` ends up
above another block of it. -/
theorem ValidAt.insert_leaf (hv : ValidAt t d)
    (hc : Context t.view d t.root Set.univ 0 pid J A B C D) (hJ : ⟨key⟩ ∈ J)
    (hleaf : (t.node pid).leaf = true) (habsent : ⟨key⟩ ∉ (t.entries d).map Prod.fst)
    (hsize : key.length + value.length < 2 ^ 31) (hins : insertLeaf t pid key value = .ok t')
    (hslot : (t'.node pid).slotClash = false) :
    (PlacedLow (t.node pid) key.length value.length → EnteredAt t t' d d key value) ∧
    (¬ PlacedLow (t.node pid) key.length value.length → ∀ d', ¬ ValidAt t' d') := by
  obtain ⟨k, off, found, idx, m, hget, hoff, hs, hcell, ht'⟩ := insertLeaf_eq_ok hins
  obtain ⟨hroot, hbrk, -⟩ := insertLeaf_fields hins
  have hpage : t'.node pid = m := by rw [ht']; exact Btree.set_node_self
  have hother : ∀ x, x ≠ pid → t'.node x = t.node x := fun x hx => insertLeaf_node_of_ne hins hx
  have hothers : ∀ x, x ≠ pid → t'.view x = t.view x := fun x hx => congrArg page (hother x hx)
  rw [hpage] at hslot
  obtain ⟨-, -, hvalid⟩ := hv.pages pid hc.mem_pids
  obtain ⟨-, hsort⟩ := hc.leaf_sorted hleaf
  obtain ⟨hlow, hhigh⟩ := hvalid.insert_entry hleaf hsort
    (fun hmem => habsent (hc.leaf_keys_subset hleaf hmem)) hsize hget hoff hs hcell hslot
  refine ⟨fun hp => ?_, fun hp d' hv' => ?_⟩
  · obtain ⟨hm, hmleaf, hentries, hleft, hright⟩ := hlow hp
    have hold : t.view pid =
        .leaf ((leafEntries (t.node pid)).take idx ++ (leafEntries (t.node pid)).drop idx) := by
      rw [List.take_append_drop]
      exact page_leaf hleaf
    have hnew : t'.view pid = .leaf ((leafEntries (t.node pid)).take idx ++
        (⟨key⟩, value) :: (leafEntries (t.node pid)).drop idx) := by
      rw [← hentries, ← hpage]
      exact page_leaf (by rw [hpage]; exact hmleaf)
    obtain ⟨hordered, hpids, hE, hE'⟩ := hc.insert_leaf hv.nodup hold
      (fun x _ hx => hothers x hx) hnew hJ hleft hright
    have hsame : t'.pids d = t.pids d := by rw [Btree.pids, hroot]; exact hpids
    refine ⟨⟨hbrk ▸ hv.bound, hroot ▸ hordered, hsame ▸ hv.nodup, fun x hx => ?_⟩,
      ⟨_, _, hE, ?_⟩, ?_, .inl ⟨rfl, hbrk.ge⟩, by rw [hsame, hbrk]⟩
    · rw [hsame] at hx
      obtain ⟨hpos, hlt, hx'⟩ := hv.pages x hx
      refine ⟨hpos, hbrk ▸ hlt, ?_⟩
      rcases eq_or_ne x pid with rfl | hne
      · rwa [hpage]
      · rwa [hother x hne]
    · rw [Btree.entries, hroot]
      exact hE'
    · rw [hroot]
      refine fun s hs => List.mem_append_left _ ?_
      obtain ⟨x, hx, hxs⟩ := hordered.mem_separators.mp hs
      rcases eq_or_ne x pid with rfl | hne
      · rw [hnew] at hxs
        cases hxs
      · rw [hothers x hne] at hxs
        exact hv.ordered.mem_separators.mpr ⟨x, hpids ▸ hx, hxs⟩
  · obtain ⟨e', J', -, hsub⟩ := hc.reach t'.view
      (fun x hx => hothers x (hc.outside hv.nodup hx mem_pids_self)) d' Set.univ
      (hroot ▸ hv'.ordered)
    have hmem : pid ∈ t'.pids d' := by
      rw [Btree.pids, hroot]
      exact hsub mem_pids_self
    have hpid := (hv'.pages pid hmem).2.2
    rw [hpage] at hpid
    exact hhigh hp hpid

/-! ## A leaf is cut in two -/

/-- A tree that has grown by pages of its own is the tree it was. -/
theorem ValidAt.grow (hv : ValidAt t d) (hroot : t'.root = t.root) (hbrk : t.brk ≤ t'.brk)
    (hbound : t'.brk ≤ 2 ^ 64) (h : ∀ p < t.brk, t'.node p = t.node p) :
    ValidAt t' d ∧ t'.entries d = t.entries d ∧ t'.pids d = t.pids d ∧
      separators t'.view d t'.root = separators t.view d t.root := by
  have hview : ∀ p ∈ SearchTree.pids t.view d t.root, t'.view p = t.view p := fun p hp =>
    congrArg page (h p (hv.pages p hp).2.1)
  have hpids : t'.pids d = t.pids d := by
    rw [Btree.pids, hroot]
    exact pids_congr hview
  refine ⟨⟨hbound, hroot ▸ hv.ordered.congr hview, hpids ▸ hv.nodup, fun p hp => ?_⟩, ?_, hpids,
    by rw [hroot]; exact separators_congr hview⟩
  · rw [hpids] at hp
    obtain ⟨hpos, hlt, hvalid⟩ := hv.pages p hp
    refine ⟨hpos, hlt.trans_le hbrk, ?_⟩
    rwa [h p hlt]
  · rw [Btree.entries, hroot]
    exact entries_congr hview

/-! ## The parent takes the separator -/

/-- The half of a split leaf that a key belongs to. -/
def halfFor (c : Crumb) (key sep : List UInt8) : ℕ :=
  if (⟨sep⟩ : Key) < ⟨key⟩ then c.newNode else c.node

/-- A split leaf and its parent as the pages of a search tree. -/
structure LeafUnder (t : Btree) (d q i : ℕ) (J : Set Key) (key : List UInt8)
    (c : Crumb) : Prop where
  turn : Turn t key q i c.node
  leaf : (t.node c.node).leaf = true
  partitionIdx : c.partitionIdx = nodePartitionIdx (t.node c.node)
  fresh : Fresh (t.node c.newNode) true
  pos : 0 < c.newNode
  lt : c.newNode < t.brk
  outside : c.newNode ∉ t.pids d

/-- The separator that goes up lies between the separators next to the leaf. -/
theorem LeafUnder.separator_between {i : ℕ} (h : LeafUnder t d q i J key c)
    (hc : Context t.view d t.root Set.univ 1 q J A B C D) (hJ : ⟨key⟩ ∈ J)
    (hcut : CutLeaf (t.node c.node) old new) :
    (∀ x ∈ (keys (t.node q)).take i, x < ⟨partitionKey t c⟩) ∧
      ∀ x ∈ (keys (t.node q)).drop i, ⟨partitionKey t c⟩ < x := by
  obtain ⟨-, hcells⟩ := hc.ordered.branch h.turn.view
  obtain ⟨J', -, hole⟩ := hcells.hole hJ (fun x hx => (h.turn.left x hx).le) h.turn.right
  have hchild := hole.child
  rw [← h.turn.child] at hchild
  have hview : t.view c.node = .leaf (leafEntries (t.node c.node)) := page_leaf h.leaf
  have hkey : partitionKey t c = keyAt (t.node c.node) (nodePartitionIdx (t.node c.node)) := by
    rw [partitionKey, h.partitionIdx]
  rw [← List.take_append_drop (nodePartitionIdx (t.node c.node)) (leafEntries (t.node c.node))]
    at hview
  rw [hkey]
  obtain ⟨hsep, y, hy, hlt⟩ := hchild.separator hview hcut.cutAt
  rw [← branchCells_keys, ← List.map_take, ← List.map_drop, forall_keys, forall_keys]
  exact ⟨fun x hx => (hole.left x hx hy).trans_lt hlt, fun x hx => hole.right x hx hsep⟩

/-- The parent finds the place of the separator where it found that of the key,
and the pointer there goes to the right half. -/
theorem LeafUnder.link {i : ℕ} (h : LeafUnder t d q i J key c) (hv : ValidAt t d)
    (hc : Context t.view d t.root Set.univ 1 q J A B C D) (hJ : ⟨key⟩ ∈ J)
    (hcut : CutLeaf (t.node c.node) old new) (hs : LinkedSplit t t' c q idx f m old new)
    (hslot : m.slotClash = false) :
    (PlacedLow (t.node q) (partitionKey t c).length 0 → ValidPage m ∧ m.leaf = false ∧
      page m = .branch ((branchCells (t.node q)).take i ++ (⟨partitionKey t c⟩, c.node) ::
        (redirect c.newNode (t.node q).rightmostPid ((branchCells (t.node q)).drop i)).1)
        (redirect c.newNode (t.node q).rightmostPid ((branchCells (t.node q)).drop i)).2) ∧
      (¬ PlacedLow (t.node q) (partitionKey t c).length 0 → ¬ ValidPage m) := by
  obtain ⟨hleft, hright⟩ := h.separator_between hc hJ hcut
  obtain ⟨-, -, hq⟩ := hv.pages q hc.mem_pids
  obtain ⟨-, -, hsort⟩ := hc.branch_sorted h.turn.branch
  obtain ⟨-, -, hchild⟩ := hv.pages c.node (hc.pids_subset h.turn.focus.mem_pids)
  have hlen : (partitionKey t c).length < 2 ^ 31 := by
    rw [partitionKey, h.partitionIdx]
    exact hchild.key_length hcut.right
  obtain ⟨found, hsearch⟩ := hs.search
  have hidx : idx = i := by
    rcases hq.place hsort hlen hsearch with ⟨-, hmem⟩ | ⟨-, hle, hleft', hright'⟩
    · rw [← List.take_append_drop i (keys (t.node q))] at hmem
      rcases List.mem_append.mp hmem with hmem | hmem
      · exact absurd (hleft _ hmem) (lt_irrefl _)
      · exact absurd (hright _ hmem) (lt_irrefl _)
    · exact place_unique (by rwa [length_keys]) (by rw [length_keys]; exact h.turn.le) hleft'
        hright' hleft hright
  subst hidx
  have hnode : c.node < 2 ^ 64 :=
    (hv.pages c.node (hc.pids_subset h.turn.focus.mem_pids)).2.1.trans_le hv.bound
  have hredirected : Redirected (t.node q) f idx c.newNode := by
    rcases hs.pointer with ⟨hlt, hset⟩ | ⟨hge, rfl⟩
    · obtain ⟨-, ts, hlayout, -⟩ := hq
      exact redirected_cell hset hlt h.turn.branch (h.lt.trans_le hv.bound) hlayout
    · exact redirected_last (not_lt.mp hge)
  obtain ⟨k, off, hget, hoff, hins⟩ := hs.place
  exact hq.link h.turn.branch h.turn.le hredirected hget hoff hins hslot hlen hnode

/-- A tree whose full leaf has been split: the half for the key, in its place. -/
structure Halved (t t' : Btree) (d d' : ℕ) (c : Crumb) (key : List UInt8) : Prop where
  valid : ValidAt t' d'
  entries : t'.entries d' = t.entries d
  separators : separators t'.view d' t'.root ⊆
    SearchTree.separators t.view d t.root ++ (t.entries d).map Prod.fst
  depth : d' = d ∧ t.brk ≤ t'.brk ∨ d = 0 ∧ d' = 1 ∧ t.brk + 1 ≤ t'.brk
  allocated : (t'.pids d').length + t.brk = (t.pids d).length + 1 + t'.brk
  place : ∃ J A B C D, ⟨key⟩ ∈ J ∧ Context t'.view d' t'.root Set.univ 0
    (halfFor c key (partitionKey t c)) J A B C D

theorem LeafUnder.halved {i : ℕ} (h : LeafUnder t d q i J key c) (hv : ValidAt t d)
    (hc : Context t.view d t.root Set.univ 1 q J A B C D) (hJ : ⟨key⟩ ∈ J)
    (hne : (⟨key⟩ : Key) ≠ ⟨partitionKey t c⟩) (hcut : CutLeaf (t.node c.node) old new)
    (hs : LinkedSplit t t' c q idx f m old new) (hslot : m.slotClash = false)
    (hlow : PlacedLow (t.node q) (partitionKey t c).length 0) : Halved t t' d d c key := by
  obtain ⟨hm, hmleaf, hmpage⟩ := (h.link hv hc hJ hcut hs hslot).1 hlow
  have hkey : partitionKey t c = keyAt (t.node c.node) (nodePartitionIdx (t.node c.node)) := by
    rw [partitionKey, h.partitionIdx]
  have hview : t.view c.node = .leaf (leafEntries (t.node c.node)) := page_leaf h.leaf
  rw [← List.take_append_drop (nodePartitionIdx (t.node c.node)) (leafEntries (t.node c.node))]
    at hview
  have hchild := h.turn.child.symm
  have hparent : t'.view q = page m := congrArg page hs.parentPage
  have hold : t'.view c.node =
      .leaf ((leafEntries (t.node c.node)).take (nodePartitionIdx (t.node c.node))) := by
    rw [← hcut.oldEntries, ← page_leaf hcut.oldLeaf]
    exact congrArg page hs.oldPage
  have hnew : t'.view c.newNode =
      .leaf ((leafEntries (t.node c.node)).drop (nodePartitionIdx (t.node c.node))) := by
    rw [← hcut.newEntries, ← page_leaf hcut.newLeaf]
    exact congrArg page hs.newPage
  have hothers : ∀ x ∈ t.pids d, x ≠ q → x ≠ c.node → t'.view x = t.view x := by
    intro x hx hxq hxc
    refine congrArg page (hs.others x hxq hxc ?_)
    rintro rfl
    exact h.outside hx
  rw [hmpage, hkey] at hparent
  obtain ⟨hctx, hordered, hentries, hperm⟩ := hc.split_leaf hv.nodup h.turn.view hJ
    (fun x hx => (h.turn.left x hx).le) h.turn.right (by rw [hchild]; exact hview) hcut.cutAt
    (by rw [hchild]; exact hothers) (by rw [hchild]; exact hparent) (by rw [hchild]; exact hold)
    hnew
  have hpids : (t'.pids d).Perm (c.newNode :: t.pids d) := by
    rw [Btree.pids, hs.root]
    exact hperm
  have hsepMem : (⟨keyAt (t.node c.node) (nodePartitionIdx (t.node c.node))⟩ : Key) ∈
      (t.entries d).map Prod.fst := by
    obtain ⟨J', A', B', C', D', -, hinner⟩ := h.turn.focus.context hc.ordered hJ
    exact (hc.trans hinner).leaf_keys_subset h.leaf (mem_keys.mpr ⟨_, hcut.right, rfl⟩)
  have hlen := hpids.length_eq
  rw [List.length_cons] at hlen
  refine ⟨⟨hs.brk ▸ hv.bound, hs.root ▸ hordered, ?_, fun x hx => ?_⟩, ?_, fun s hsep => ?_,
    .inl ⟨rfl, hs.brk.ge⟩, by rw [hlen, hs.brk], ?_⟩
  · exact hpids.nodup_iff.mpr (List.nodup_cons.mpr ⟨h.outside, hv.nodup⟩)
  · rw [hs.brk]
    rcases List.mem_cons.mp (hpids.mem_iff.mp hx) with rfl | hx
    · rw [hs.newPage]
      exact ⟨h.pos, h.lt, hcut.newValid⟩
    · obtain ⟨hpos, hlt, hvalid⟩ := hv.pages x hx
      refine ⟨hpos, hlt, ?_⟩
      by_cases hxq : x = q
      · rw [hxq, hs.parentPage]
        exact hm
      by_cases hxc : x = c.node
      · rw [hxc, hs.oldPage]
        exact hcut.oldValid
      rw [hs.others x hxq hxc (fun hxn => h.outside (hxn ▸ hx))]
      exact hvalid
  · rw [Btree.entries, hs.root]
    exact hentries
  · rw [hs.root] at hsep
    obtain ⟨x, hx, hxs⟩ := hordered.mem_separators.mp hsep
    rcases List.mem_cons.mp (hperm.mem_iff.mp hx) with rfl | hx
    · rw [hnew] at hxs
      cases hxs
    by_cases hxc : x = c.node
    · rw [hxc, hold] at hxs
      cases hxs
    by_cases hxq : x = q
    · rw [hxq, hparent, Page.seps, List.map_append, List.map_cons, map_fst_redirect] at hxs
      have hold : ∀ y ∈ (branchCells (t.node q)).take i ++ (branchCells (t.node q)).drop i,
          y.1 ∈ SearchTree.separators t.view d t.root := fun y hy =>
        hv.ordered.mem_separators.mpr ⟨q, hc.mem_pids, by
          rw [h.turn.view]
          exact List.mem_map_of_mem hy⟩
      rcases List.mem_append.mp hxs with hxs | hxs
      · obtain ⟨y, hy, rfl⟩ := List.mem_map.mp hxs
        exact List.mem_append_left _ (hold y (List.mem_append_left _ hy))
      · rcases List.mem_cons.mp hxs with rfl | hxs
        · exact List.mem_append_right _ hsepMem
        · obtain ⟨y, hy, rfl⟩ := List.mem_map.mp hxs
          exact List.mem_append_left _ (hold y (List.mem_append_right _ hy))
    · rw [hothers x hx hxq hxc] at hxs
      exact List.mem_append_left _ (hv.ordered.mem_separators.mpr ⟨x, hx, hxs⟩)
  · rw [hkey] at hne ⊢
    have hright : ∀ x ∈ (redirect c.newNode (t.node q).rightmostPid
        ((branchCells (t.node q)).drop i)).1, ⟨key⟩ < x.1 := by
      have hsame := h.turn.right
      rw [← forall_keys] at hsame ⊢
      rwa [map_fst_redirect]
    obtain ⟨J', A', B', C', D', hJ', hinner⟩ := hctx.ordered.half hJ hne hparent
      (fun x hx => (h.turn.left x hx).le) hright
    rw [first_redirect] at hinner
    rw [hs.root]
    exact ⟨J', _, _, _, _, hJ', hctx.trans hinner⟩

/-! ## A new root takes the separator -/

theorem RootSplit.halved {r : Node} (h : RootSplit t t' c r old new) (hv : ValidAt t 0)
    (hroot : c.node = t.root) (hleaf : (t.node c.node).leaf = true)
    (hidx : c.partitionIdx = nodePartitionIdx (t.node c.node)) (hpos : 0 < c.newNode)
    (hlt : c.newNode < t.brk) (hne : (⟨key⟩ : Key) ≠ ⟨partitionKey t c⟩) (hnew : c.newNode ≠ c.node)
    (hcut : CutLeaf (t.node c.node) old new) (hslot : r.slotClash = false) :
    Halved t t' 0 1 c key := by
  have hkey : partitionKey t c = keyAt (t.node c.node) (nodePartitionIdx (t.node c.node)) := by
    rw [partitionKey, hidx]
  obtain ⟨hnodePos, hnodeLt, hchild⟩ := hv.pages c.node (hroot ▸ mem_pids_self)
  have hlen : (partitionKey t c).length < 2 ^ 31 := by
    rw [hkey]
    exact hchild.key_length hcut.right
  -- the separator lies in the new root, which is otherwise empty
  obtain ⟨k, off, hget, hoff, hins⟩ := h.place
  have hneed := newCellSize_eq (show (partitionKey t c).length + 0 < 2 ^ 31 by omega)
  obtain ⟨-, hapart⟩ := nodeInsertCell_slotClash hins hslot
  rw [nodeGetFreeOffset_size hget] at hapart
  have hcell : IsCell false (internalCell (partitionKey t c) c.node) :=
    internalCell_isCell (by omega) (hnodeLt.trans h.bound)
  have hinit : ValidPage (nodeInit (t.node t.brk) false true) := nodeInit_valid
  obtain ⟨hr, hadded⟩ := hinit.insert hget hoff hins hapart hcell
    (by rw [hneed, length_internalCell]; omega)
    (by rw [hneed]; simp only [sizeofCell, nodeSize]; omega) (Nat.zero_le 0)
    (placedLow_of_no_tombstone rfl hget hoff)
  have hcells : branchCells r = [(⟨partitionKey t c⟩, c.node)] := by
    obtain ⟨-, ts, hlayout, -⟩ := hinit
    rw [hadded.cells_eq hlayout (by omega) (hnodeLt.trans h.bound)]
    rfl
  have hrleaf : r.leaf = false := hadded.leaf
  have hview : t'.view t'.root = .branch [(⟨partitionKey t c⟩, c.node)] c.newNode := by
    rw [Btree.view, h.root, h.rootPage, ← hcells]
    exact page_branch hrleaf
  have hrootView : t.view c.node = .leaf (leafEntries (t.node c.node)) := page_leaf hleaf
  rw [← List.take_append_drop (nodePartitionIdx (t.node c.node)) (leafEntries (t.node c.node))]
    at hrootView
  have hold : t'.view c.node =
      .leaf ((leafEntries (t.node c.node)).take (nodePartitionIdx (t.node c.node))) := by
    rw [← hcut.oldEntries, ← page_leaf hcut.oldLeaf]
    exact congrArg page h.oldPage
  have hnewView : t'.view c.newNode =
      .leaf ((leafEntries (t.node c.node)).drop (nodePartitionIdx (t.node c.node))) := by
    rw [← hcut.newEntries, ← page_leaf hcut.newLeaf]
    exact congrArg page h.newPage
  have hordered := hv.ordered
  rw [← hroot] at hordered
  rw [hkey] at hview
  obtain ⟨htree, hentries, hpids⟩ :=
    hordered.split_root hrootView hcut.cutAt hold hnewView hview
  have hbrk := h.brk
  have hrootEq := h.root
  have hsepMem : (⟨keyAt (t.node c.node) (nodePartitionIdx (t.node c.node))⟩ : Key) ∈
      (t.entries 0).map Prod.fst := by
    rw [Btree.entries, SearchTree.entries, ← hroot, hrootView, List.take_append_drop, Page.entries,
      leafEntries_keys]
    exact mem_keys.mpr ⟨_, hcut.right, rfl⟩
  have hlen : (t'.pids 1).length = 3 := by
    rw [Btree.pids, hpids]
    rfl
  have hone : (t.pids 0).length = 1 := rfl
  refine ⟨⟨?_, htree, ?_, fun x hx => ?_⟩, ?_, fun s hs => ?_, .inr ⟨rfl, rfl, hbrk.ge⟩,
    by omega, ?_⟩
  · have hbound := h.bound
    omega
  · rw [Btree.pids, hpids, hrootEq]
    simp only [List.nodup_cons, List.mem_cons, List.not_mem_nil, or_false, not_or]
    exact ⟨⟨by omega, by omega⟩, hnew.symm, not_false, List.nodup_nil⟩
  · rw [Btree.pids, hpids, hrootEq] at hx
    simp only [List.mem_cons, List.not_mem_nil, or_false] at hx
    rcases hx with rfl | rfl | rfl
    · rw [h.rootPage]
      exact ⟨by omega, by omega, hr.relink _ _ _⟩
    · rw [h.oldPage]
      exact ⟨hnodePos, by omega, hcut.oldValid⟩
    · rw [h.newPage]
      exact ⟨hpos, by omega, hcut.newValid⟩
  · rw [Btree.entries, Btree.entries, ← hroot]
    exact hentries
  · obtain ⟨x, hx, hxs⟩ := htree.mem_separators.mp hs
    rw [hpids] at hx
    simp only [List.mem_cons, List.not_mem_nil, or_false] at hx
    rcases hx with rfl | rfl | rfl
    · rw [hview] at hxs
      rw [List.mem_singleton.mp hxs]
      exact List.mem_append_right _ hsepMem
    · rw [hold] at hxs
      cases hxs
    · rw [hnewView] at hxs
      cases hxs
  · rw [hkey] at hne ⊢
    obtain ⟨J', A', B', C', D', hJ', hinner⟩ := htree.half (L := []) (R := [])
      (Set.mem_univ ⟨key⟩) hne hview (fun x hx => absurd hx List.not_mem_nil)
      (fun x hx => absurd hx List.not_mem_nil)
    exact ⟨J', _, _, _, _, hJ', hinner⟩

/-! ## A whole call -/

/-- The tree is valid afterwards, with one entry more at its sorted place. -/
def Entered (t t' : Btree) (d : ℕ) (key value : List UInt8) : Prop :=
  ∃ d' E₁ E₂, ValidAt t' d' ∧ t.entries d = E₁ ++ E₂ ∧
    t'.entries d' = E₁ ++ (⟨key⟩, value) :: E₂ ∧ (∀ x ∈ E₁, x.1 < ⟨key⟩) ∧ ∀ x ∈ E₂, ⟨key⟩ < x.1

theorem EnteredAt.entered {d' : ℕ} (h : EnteredAt t t' d d' key value) :
    Entered t t' d key value := by
  obtain ⟨E₁, E₂, hE, hE'⟩ := h.entries
  have hsort : ((t'.entries d').map Prod.fst).Pairwise (· < ·) := h.valid.ordered.sorted.1
  rw [hE', List.map_append, List.map_cons, List.pairwise_append, List.pairwise_cons] at hsort
  refine ⟨d', E₁, E₂, h.valid, hE, hE', fun x hx => ?_, fun x hx => ?_⟩
  · exact hsort.2.2 _ (List.mem_map_of_mem hx) _ List.mem_cons_self
  · exact hsort.2.1.1 _ (List.mem_map_of_mem hx)

/-- The cells a call for an entry writes lie below the other blocks of their
pages: the entry in the leaf the descent leads to or in a half of it, and the
separator of the halves in the parent. -/
def PlacesLow (t : Btree) (key value : List UInt8) : Prop :=
  ∀ pid above, descend t key 15 [] t.root = .ok (some (pid :: above)) →
    (nodeIsFull (t.node pid) key.length value.length = .ok false →
      PlacedLow (t.node pid) key.length value.length) ∧
    (nodeIsFull (t.node pid) key.length value.length = .ok true →
      HalfPlacedLow (t.node pid) key value ∧ ∀ q ∈ above.head?, PlacedLow (t.node q)
        (keyAt (t.node pid) (nodePartitionIdx (t.node pid))).length 0)

/-- The tree in which a full leaf `pid` is about to be split. -/
structure SplitPlanned (t t₁ : Btree) (d pid : ℕ) (c : Crumb) : Prop where
  valid : ValidAt t₁ d
  entries : t₁.entries d = t.entries d
  pids : t₁.pids d = t.pids d
  separators : separators t₁.view d t₁.root = SearchTree.separators t.view d t.root
  node : c.node = pid
  newNode : c.newNode = t.brk
  partitionIdx : c.partitionIdx = nodePartitionIdx (t.node pid)
  isFull : c.isFull = true
  same : ∀ p < t.brk, t₁.node p = t.node p
  fresh : t₁.node t.brk = nodeInit (t.node t.brk) true false
  root : t₁.root = t.root
  brk : t₁.brk = t.brk + 1
  count : t₁.count = t.count
  internalSplits : t₁.internalSplits = t.internalSplits
  wildPartition : t₁.wildPartition =
    (t.wildPartition || decide ((t.node pid).size ≤ nodePartitionIdx (t.node pid)))

variable {t₁ t₂ : Btree}

theorem ValidAt.splitPlanned (hv : ValidAt t d) (hbrk : t.brk < 2 ^ 64)
    (ht₁ : t₁ = (notePartition t pid (nodePartitionIdx (t.node pid))).withNew true false)
    (hc : c = splitCrumb t pid key) : SplitPlanned t t₁ d pid c := by
  have hsame : ∀ p < t.brk, t₁.node p = t.node p := fun p hp => by
    rw [ht₁]
    exact Btree.withNew_node (t := notePartition _ _ _) hp
  have hroot : t₁.root = t.root := by rw [ht₁]; rfl
  have hbrk₁ : t₁.brk = t.brk + 1 := by rw [ht₁]; rfl
  obtain ⟨hvalid, hentries, hpids, hseps⟩ := hv.grow hroot (by omega) (by omega) hsame
  refine ⟨hvalid, hentries, hpids, hseps, by rw [hc]; rfl, by rw [hc]; rfl, by rw [hc]; rfl,
    by rw [hc]; rfl, hsame, ?_, hroot, hbrk₁, by rw [ht₁]; rfl, by rw [ht₁]; rfl,
    by rw [ht₁]; rfl⟩
  rw [ht₁]
  exact Btree.withNew_node_brk (t := notePartition _ _ _)

theorem SplitPlanned.oldPage (h : SplitPlanned t t₁ d pid c) (hpid : pid < t.brk) :
    t₁.node c.node = t.node pid := by
  rw [h.node, h.same pid hpid]

theorem SplitPlanned.newPage (h : SplitPlanned t t₁ d pid c) :
    t₁.node c.newNode = nodeInit (t.node t.brk) true false := by
  rw [h.newNode, h.fresh]

theorem SplitPlanned.partitionKey_eq (h : SplitPlanned t t₁ d pid c) (hpid : pid < t.brk) :
    partitionKey t₁ c = keyAt (t.node pid) (nodePartitionIdx (t.node pid)) := by
  rw [partitionKey, h.oldPage hpid, h.partitionIdx]

/-- The call goes on in the half for its key. -/
theorem fNode_splitCrumb (hvalid : ValidPage (t.node pid)) (hcut : CutLeaf (t.node pid) old new)
    (hkey : key.length < 2 ^ 31) (hc : c = splitCrumb t pid key) :
    c.fNode = halfFor c key (keyAt (t.node pid) (nodePartitionIdx (t.node pid))) := by
  have hsep := hvalid.key_length hcut.right
  rw [hc, halfFor]
  simp only [splitCrumb, (keyCompare_spec hsep hkey).1]

/-- The half takes the entry. -/
theorem Halved.insert_leaf {d' : ℕ} (h : Halved t t' d d' c key) {s : Btree}
    (hplan : SplitPlanned s t d pid c)
    (hcut : CutLeaf (t.node c.node) old new)
    (hidx : c.partitionIdx = nodePartitionIdx (t.node c.node))
    (hkeySize : (partitionKey t c).length < 2 ^ 31) (hold : t'.node c.node = old)
    (hnew : t'.node c.newNode = new) (habsent : ⟨key⟩ ∉ (t.entries d).map Prod.fst)
    (hsize : key.length + value.length < 2 ^ 31) {u : Btree}
    (hins : insertLeaf t' (halfFor c key (partitionKey t c)) key value = .ok u)
    (hslot : (u.node (halfFor c key (partitionKey t c))).slotClash = false) :
    (HalfPlacedLow (t.node c.node) key value → EnteredAt s u d d' key value) ∧
      (¬ HalfPlacedLow (t.node c.node) key value → ∀ d', ¬ ValidAt u d') := by
  obtain ⟨J, A, B, C, D, hJ, hc⟩ := h.place
  have hleaf : (t'.node (halfFor c key (partitionKey t c))).leaf = true := by
    rw [halfFor]
    split_ifs
    · rw [hnew, hcut.newLeaf]
    · rw [hold, hcut.oldLeaf]
  have hcompare : keyCompare (keyAt (t.node c.node) (nodePartitionIdx (t.node c.node))) key < 0 ↔
      (⟨partitionKey t c⟩ : Key) < ⟨key⟩ := by
    rw [← (keyCompare_spec hkeySize (by omega)).1, partitionKey, hidx]
  have hlow : PlacedLow (t'.node (halfFor c key (partitionKey t c))) key.length value.length ↔
      HalfPlacedLow (t.node c.node) key value := by
    rw [HalfPlacedLow, hcompare]
    obtain ⟨k, off, -, -, -, hget, hoff, -⟩ := insertLeaf_eq_ok hins
    rw [halfFor] at hget ⊢
    split_ifs at hget ⊢ with hright
    · rw [hnew] at hget ⊢
      exact iff_of_true (placedLow_of_no_tombstone hcut.newTombstone hget hoff) (.inl hright)
    · rw [hold, hcut.placedLow]
      exact ⟨.inr, fun h => h.resolve_left hright⟩
  rw [← h.entries] at habsent
  obtain ⟨hvalid, hinvalid⟩ := h.valid.insert_leaf hc hJ hleaf habsent hsize hins hslot
  rw [hlow] at hvalid hinvalid
  refine ⟨fun hp => ?_, hinvalid⟩
  obtain ⟨hu, ⟨E₁, E₂, hE, hE'⟩, hseps, -, hpages⟩ := hvalid hp
  have hold := h.separators
  have hall := h.allocated
  have hdepth := h.depth
  have hbrk := hplan.brk
  have hbrk' := (insertLeaf_fields hins).2.1
  rw [hplan.separators, hplan.entries] at hold
  rw [hplan.pids] at hall
  refine ⟨hu, ⟨E₁, E₂, (h.entries.trans hplan.entries).symm.trans hE, hE'⟩, fun x hx => ?_,
    by omega, by omega⟩
  rcases List.mem_append.mp (hseps hx) with hx | hx
  · exact hold hx
  · rw [h.entries, hplan.entries] at hx
    exact List.mem_append_right _ hx

/-- A full leaf that is the root: the halves come under a new root. -/
theorem ValidAt.insert_root (hv : ValidAt t d) (hleaf : (t.node t.root).leaf = true)
    (h : SplitPlanned t t₁ d t.root c) (hc : c = splitCrumb t t.root key)
    (hsplit : splitPath t₁ c [] = .ok t₂) (hins : insertLeaf t₂ c.fNode key value = .ok t')
    (habsent : ⟨key⟩ ∉ (t.entries d).map Prod.fst) (hsize : key.length + value.length < 2 ^ 31)
    (hslots : ∀ p, 0 < p → p < t'.brk → (t'.node p).slotClash = false) :
    t₂.count = t.count ∧ t'.brk ≤ t.brk + 2 ∧
      (HalfPlacedLow (t.node t.root) key value → ∃ d', EnteredAt t t' d d' key value) ∧
      (¬ HalfPlacedLow (t.node t.root) key value → ∀ d', ¬ ValidAt t' d') := by
  have hroot : Context t.view d t.root Set.univ d t.root Set.univ [] [] [] [] := .here hv.ordered
  obtain ⟨rfl, -⟩ := hroot.leaf_sorted hleaf
  obtain ⟨hpos, hlt, hvalid⟩ := hv.pages t.root hroot.mem_pids
  have hpage := h.oldPage hlt
  have hbrk := h.brk
  have hcrumb := h.node
  have hfresh := h.newNode
  have hnode : c.node < t₁.brk := by omega
  have hnew : c.newNode < t₁.brk := by omega
  have hne : c.newNode ≠ c.node := by omega
  have hleaf₁ : (t₁.node c.node).leaf = true := by rw [hpage, hleaf]
  have hidx : c.partitionIdx = nodePartitionIdx (t₁.node c.node) := by rw [hpage, h.partitionIdx]
  obtain ⟨r, old, new, hr⟩ := splitPath_nil_eq_ok hsplit h.isFull hnode hnew hne hleaf₁
  have hcut : CutLeaf (t.node t.root) old new := by
    have hhalves := hr.halves
    rw [hpage, h.newPage, h.partitionIdx] at hhalves
    exact hvalid.cutLeaf_relinked hleaf ⟨rfl, rfl, rfl, rfl⟩ hhalves
  have hkey := h.partitionKey_eq hlt
  have hkeys : ⟨key⟩ ∉ keys (t.node t.root) := fun hmem =>
    habsent (hroot.leaf_keys_subset hleaf hmem)
  have hfollows := insertLeaf_follows hins
  have hbrk₂ := hr.brk
  have hle := hfollows.brk
  have hslot : r.slotClash = false := by
    have hpage₂ := hfollows.slotClash t₁.brk (by omega) (hslots _ (by omega) (by omega))
    rwa [hr.rootPage] at hpage₂
  have hhalved : Halved t₁ t₂ 0 1 c key := by
    refine hr.halved h.valid (h.node.trans h.root.symm) hleaf₁ hidx ?_ hnew ?_ hne ?_ hslot
    · rw [h.newNode]
      omega
    · rw [hkey]
      exact hcut.ne_separator hkeys
    · rwa [hpage]
  rw [fNode_splitCrumb hvalid hcut (by omega) hc, ← hkey] at hins
  have hlast := hhalved.insert_leaf h (by rwa [hpage]) hidx
    (by rw [hkey]; exact hvalid.key_length hcut.right) hr.oldPage hr.newPage (by rwa [h.entries])
    hsize hins (hslots _ (by rw [halfFor]; split_ifs <;> omega)
      (by rw [halfFor]; split_ifs <;> omega))
  rw [hpage] at hlast
  have hbrk' := (insertLeaf_fields hins).2.1
  exact ⟨hr.count.trans h.count, by omega, fun hp => ⟨1, hlast.1 hp⟩, hlast.2⟩

/-- The leaf a descent ends at, and its parent. -/
theorem ValidAt.leafUnder (hv : ValidAt t d) (hkey : key.length < 2 ^ 31)
    (hvisits : t.Visits key (pid :: q :: above)) (hleaf : (t.node pid).leaf = true) :
    ∃ i J A B C D, ⟨key⟩ ∈ J ∧ Context t.view d t.root Set.univ 1 q J A B C D ∧
      Turn t key q i pid := by
  cases hvisits with
  | child hq hbranch hs hchild =>
      obtain ⟨e, hfocus⟩ := hv.focus hkey hq
      obtain ⟨J, A, B, C, D, hJ, hc⟩ := hfocus.context hv.ordered (Set.mem_univ _)
      obtain ⟨e, rfl, -⟩ := hc.branch_sorted hbranch
      have hturn := hv.turn hc hkey hbranch hs hchild
      obtain ⟨J', A', B', C', D', -, hinner⟩ := hturn.focus.context hc.ordered hJ
      obtain ⟨rfl, -⟩ := (hc.trans hinner).leaf_sorted hleaf
      exact ⟨_, J, A, B, C, D, hJ, hc, hturn⟩

/-- The plan leaves the place of the parent what it was. -/
theorem SplitPlanned.leafUnder {i : ℕ} (h : SplitPlanned t t₁ d pid c) (hv : ValidAt t d)
    (hc : Context t.view d t.root Set.univ 1 q J A B C D) (hturn : Turn t key q i pid)
    (hleaf : (t.node pid).leaf = true) :
    Context t₁.view d t₁.root Set.univ 1 q J A B C D ∧ LeafUnder t₁ d q i J key c := by
  have hsame : ∀ x ∈ t.pids d, t₁.node x = t.node x := fun x hx => h.same x (hv.pages x hx).2.1
  have hq : t₁.node q = t.node q := hsame q hc.mem_pids
  have hpid : pid ∈ t.pids d := hc.pids_subset hturn.focus.mem_pids
  have hbrk := h.brk
  refine ⟨?_, ⟨?_, ?_, ?_, ?_, ?_, ?_, ?_⟩⟩
  · have hview : ∀ x ∈ t.pids d, t₁.view x = t.view x := fun x hx => congrArg page (hsame x hx)
    rw [h.root]
    refine hc.refill (fun x hx => hview x ?_) (hc.ordered.congr fun x hx =>
      hview x (hc.pids_subset hx))
    rw [Btree.pids, hc.pids_eq]
    simp only [List.mem_append] at hx ⊢
    tauto
  · rw [h.node]
    exact ⟨by rw [hq]; exact hturn.branch, by rw [hq]; exact hturn.le,
      by rw [hq]; exact hturn.left, by rw [hq]; exact hturn.right, by rw [hq]; exact hturn.child⟩
  · rw [h.node, hsame pid hpid, hleaf]
  · rw [h.node, hsame pid hpid, h.partitionIdx]
  · rw [h.newPage]
    exact nodeInit_fresh
  · rw [h.newNode]
    exact (Nat.zero_le _).trans_lt (hv.pages pid hpid).2.1
  · rw [h.newNode]
    omega
  · rw [h.newNode, h.pids]
    exact fun hmem => lt_irrefl _ (hv.pages _ hmem).2.1

/-- A full leaf under a parent that has room for the separator. -/
theorem ValidAt.insert_under (hv : ValidAt t d) (hvisits : t.Visits key (pid :: q :: above))
    (hleaf : (t.node pid).leaf = true) (h : SplitPlanned t t₁ d pid c)
    (hc : c = splitCrumb t pid key) (habove : ∀ p ∈ above, p < t.brk)
    (hsplit : splitPath t₁ c (q :: above) = .ok t₂)
    (hsplits : t₂.internalSplits = t.internalSplits)
    (hins : insertLeaf t₂ c.fNode key value = .ok t')
    (habsent : ⟨key⟩ ∉ (t.entries d).map Prod.fst) (hsize : key.length + value.length < 2 ^ 31)
    (hslots : ∀ p, 0 < p → p < t'.brk → (t'.node p).slotClash = false) :
    t₂.count = t.count ∧ t'.brk ≤ t.brk + 2 ∧
      (HalfPlacedLow (t.node pid) key value → PlacedLow (t.node q)
        (keyAt (t.node pid) (nodePartitionIdx (t.node pid))).length 0 →
          ∃ d', EnteredAt t t' d d' key value) ∧
      (¬ (HalfPlacedLow (t.node pid) key value ∧ PlacedLow (t.node q)
        (keyAt (t.node pid) (nodePartitionIdx (t.node pid))).length 0) →
          ∀ d', ¬ ValidAt t' d') := by
  obtain ⟨i, J, A, B, C, D, hJ, hq, hturn⟩ := hv.leafUnder (by omega) hvisits hleaf
  have hpidMem : pid ∈ t.pids d := hq.pids_subset hturn.focus.mem_pids
  obtain ⟨hqpos, hqlt, hqvalid⟩ := hv.pages q hq.mem_pids
  obtain ⟨hpos, hlt, hvalid⟩ := hv.pages pid hpidMem
  obtain ⟨hq₁, hunder⟩ := h.leafUnder hv hq hturn hleaf
  have hpage := h.oldPage hlt
  have hbrk := h.brk
  have hnode := h.node
  have hnewNode := h.newNode
  have hqpage : t₁.node q = t.node q := h.same q hqlt
  have hne : c.newNode ≠ c.node := by omega
  have hqpid : q ≠ pid := by
    rintro rfl
    exact absurd (hturn.branch.symm.trans hleaf) (by decide)
  obtain ⟨idx, f, m, old, new, hs⟩ := splitPath_cons_eq_ok hsplit h.isFull
    (by rw [hsplits, h.internalSplits]) (by omega) (fun p hp => (habove p hp).trans_le (by omega))
    hne (by omega) (by omega) (by rw [hqpage]; exact hturn.branch) (by rw [hpage, hleaf])
  have hcut : CutLeaf (t.node pid) old new := by
    have hhalves := hs.halves
    rw [hpage, h.newPage, h.partitionIdx] at hhalves
    exact hvalid.cutLeaf hleaf nodeInit_fresh hhalves
  have hcut₁ : CutLeaf (t₁.node c.node) old new := by rwa [hpage]
  have hkey := h.partitionKey_eq hlt
  have hkeys : ⟨key⟩ ∉ keys (t.node pid) := by
    obtain ⟨J', A', B', C', D', -, hinner⟩ := hturn.focus.context hq.ordered hJ
    exact fun hmem => habsent ((hq.trans hinner).leaf_keys_subset hleaf hmem)
  have hfollows := insertLeaf_follows hins
  have hbrk₂ := hs.brk
  have hle := hfollows.brk
  have hslot : m.slotClash = false := by
    rw [← hs.parentPage]
    exact hfollows.slotClash q (by omega) (hslots q hqpos (by omega))
  rw [fNode_splitCrumb hvalid hcut (by omega) hc, ← hkey] at hins
  rw [← hkey]
  have hhalf : PlacedLow (t.node q) (partitionKey t₁ c).length 0 →
      (HalfPlacedLow (t.node pid) key value → ∃ d', EnteredAt t t' d d' key value) ∧
        (¬ HalfPlacedLow (t.node pid) key value → ∀ d', ¬ ValidAt t' d') := by
    intro hlow
    have hhalved : Halved t₁ t₂ d d c key :=
      hunder.halved h.valid hq₁ hJ (by rw [hkey]; exact hcut.ne_separator hkeys) hcut₁ hs hslot
        (by rwa [hqpage])
    have hhalf := hhalved.insert_leaf h hcut₁ hunder.partitionIdx
      (by rw [hkey]; exact hvalid.key_length hcut.right) hs.oldPage hs.newPage (by rwa [h.entries])
      hsize hins (hslots _ (by rw [halfFor]; split_ifs <;> omega)
      (by rw [halfFor]; split_ifs <;> omega))
    rw [hpage] at hhalf
    exact ⟨fun hp => ⟨d, hhalf.1 hp⟩, hhalf.2⟩
  -- a parent with a block below `cell_offset` is still found from the root
  have hhigh : ¬ PlacedLow (t.node q) (partitionKey t₁ c).length 0 → ∀ d', ¬ ValidAt t' d' := by
    intro hlow d' hv'
    have hroot : t'.root = t.root := by
      rw [(insertLeaf_fields hins).1, hs.root, h.root]
    have hfar : ∀ x ∈ A ++ B, t'.view x = t.view x := by
      intro x hx
      have hmem : x ∈ t.pids d := by
        rw [Btree.pids, hq.pids_eq]
        simp only [List.mem_append] at hx ⊢
        tauto
      have hxlt := (hv.pages x hmem).2.1
      have hxq : x ≠ q := hq.outside hv.nodup hx mem_pids_self
      have hxpid : x ≠ pid := hq.outside hv.nodup hx hturn.focus.mem_pids
      have hxhalf : x ≠ halfFor c key (partitionKey t₁ c) := by
        rw [halfFor]
        split_ifs <;> omega
      have hpage : t'.node x = t.node x := by
        rw [insertLeaf_node_of_ne hins hxhalf, hs.others x hxq (by omega) (by omega),
          h.same x hxlt]
      exact congrArg page hpage
    obtain ⟨e', J', -, hsub⟩ := hq.reach t'.view hfar d' Set.univ (hroot ▸ hv'.ordered)
    have hmem : q ∈ t'.pids d' := by
      rw [Btree.pids, hroot]
      exact hsub mem_pids_self
    have hm := (hv'.pages q hmem).2.2
    rw [insertLeaf_node_of_ne hins (by rw [halfFor]; split_ifs <;> omega), hs.parentPage] at hm
    rw [← hqpage] at hlow
    exact (hunder.link h.valid hq₁ hJ hcut₁ hs hslot).2 hlow hm
  have hbrk' := (insertLeaf_fields hins).2.1
  refine ⟨hs.count.trans h.count, by omega, fun hp hlow => (hhalf hlow).1 hp, fun hnot => ?_⟩
  by_cases hlow : PlacedLow (t.node q) (partitionKey t₁ c).length 0
  · exact (hhalf hlow).2 fun hp => hnot ⟨hp, hlow⟩
  · exact hhigh hlow

theorem placesLow_of_room (h : descend t key 15 [] t.root = .ok (some (pid :: above)))
    (hfull : nodeIsFull (t.node pid) key.length value.length = .ok false) :
    PlacesLow t key value ↔ PlacedLow (t.node pid) key.length value.length := by
  refine ⟨fun hall => (hall pid above h).1 hfull, fun hlow pid' above' h' => ?_⟩
  obtain ⟨rfl, rfl⟩ := List.cons.inj (Option.some.inj (Except.ok.inj (h.symm.trans h')))
  rw [hfull]
  exact ⟨fun _ => hlow, fun htrue => by cases htrue⟩

theorem placesLow_of_full (h : descend t key 15 [] t.root = .ok (some (pid :: above)))
    (hfull : nodeIsFull (t.node pid) key.length value.length = .ok true) :
    PlacesLow t key value ↔ HalfPlacedLow (t.node pid) key value ∧
      ∀ q ∈ above.head?, PlacedLow (t.node q)
        (keyAt (t.node pid) (nodePartitionIdx (t.node pid))).length 0 := by
  refine ⟨fun hall => (hall pid above h).2 hfull, fun hlow pid' above' h' => ?_⟩
  obtain ⟨rfl, rfl⟩ := List.cons.inj (Option.some.inj (Except.ok.inj (h.symm.trans h')))
  rw [hfull]
  exact ⟨fun hfalse => (by cases hfalse), fun _ => hlow⟩

/-- A call for a new key keeps a tree valid and enters the key at its place, or
leaves a page with a block below its `cell_offset`. -/
theorem ValidAt.insert {ret : ℕ} (hv : ValidAt t d) (habsent : ⟨key⟩ ∉ (t.entries d).map Prod.fst)
    (hsep : ⟨key⟩ ∉ separators t.view d t.root) (hsize : key.length + value.length < 2 ^ 31)
    (hins : btreeInsert t key value = .ok (ret, t'))
    (hsplits : t'.internalSplits = t.internalSplits)
    (hslots : ∀ p, 0 < p → p < t'.brk → (t'.node p).slotClash = false) :
    ret = 0 ∧ t'.count = u32 (t.count + 1) ∧ t'.brk ≤ t.brk + 2 ∧
      (PlacesLow t key value → ∃ d', EnteredAt t t' d d' key value) ∧
      (¬ PlacesLow t key value → ∀ d', ¬ ValidAt t' d') := by
  have hkey : key.length < 2 ^ 31 := by omega
  rcases btreeInsert_eq_ok hins with ⟨hnone, -⟩ | ⟨pid, above, t₁, c, t₂, hdescend, hplan, hsplit,
    hleafIns, rfl⟩
  · exact absurd (hv.descend_none hkey hnone) hsep
  have hvisits := descend_visits hdescend .root
  obtain ⟨_, _, hpath, hleaf⟩ := descend_leaf hdescend
  obtain ⟨rfl, rfl⟩ := List.cons.inj hpath
  have hpathlt := descend_lt hdescend fun q hq => absurd hq List.not_mem_nil
  have hpid := hpathlt pid List.mem_cons_self
  obtain ⟨-, -, hcount, hsame, -⟩ := insertLeaf_fields hleafIns
  rcases planLeaf_eq_ok hpid hplan with ⟨hfull, rfl, -, hf, hnot⟩ | ⟨hfull, hbrk, ht₁, hc⟩
  · -- the leaf has room
    rcases hsplit with ⟨hyes, -⟩ | ⟨-, rfl⟩
    · exact absurd (hnot.symm.trans hyes) (by decide)
    obtain ⟨e, hfocus⟩ := hv.focus hkey hvisits
    obtain ⟨J, A, B, C, D, hJ, hctx⟩ := hfocus.context hv.ordered (Set.mem_univ _)
    obtain ⟨rfl, -⟩ := hctx.leaf_sorted hleaf
    rw [hf] at hleafIns
    obtain ⟨-, hbrk₁, -⟩ := insertLeaf_fields hleafIns
    obtain ⟨hpos, -, -⟩ := hv.pages pid hctx.mem_pids
    obtain ⟨hlow, hhigh⟩ := hv.insert_leaf hctx hJ hleaf habsent hsize hleafIns
      (hslots pid hpos (by omega))
    rw [placesLow_of_room hdescend hfull]
    exact ⟨rfl, hcount, by omega, fun hp => ⟨d, hlow hp⟩, hhigh⟩
  · -- the leaf splits, under the root or under its parent
    have hplanned := hv.splitPlanned hbrk ht₁ hc
    rcases hsplit with ⟨-, hsplit⟩ | ⟨hnot, -⟩
    swap
    · exact absurd (hnot.symm.trans hplanned.isFull) (by decide)
    rw [placesLow_of_full hdescend hfull]
    cases above with
    | nil =>
        obtain rfl : pid = t.root := by
          cases hvisits
          rfl
        obtain ⟨hcount₂, hbrk₂, hlow, hhigh⟩ := hv.insert_root hleaf hplanned hc hsplit hleafIns
          habsent hsize hslots
        refine ⟨rfl, by rw [hcount, hcount₂], hbrk₂, ?_⟩
        simp only [List.head?_nil, Option.mem_def, reduceCtorEq, false_imp_iff, implies_true,
          and_true]
        exact ⟨hlow, hhigh⟩
    | cons q above =>
        obtain ⟨hcount₂, hbrk₂, hlow, hhigh⟩ := hv.insert_under hvisits hleaf hplanned hc
          (fun p hp => hpathlt p (List.mem_cons_of_mem _ (List.mem_cons_of_mem _ hp))) hsplit
          (by rw [← hsame, hsplits]) hleafIns habsent hsize hslots
        refine ⟨rfl, by rw [hcount, hcount₂], hbrk₂, ?_⟩
        simp only [List.head?_cons, Option.mem_def, Option.some.injEq, forall_eq']
        exact ⟨fun hp => hlow hp.1 hp.2, hhigh⟩

end IoScheduler
