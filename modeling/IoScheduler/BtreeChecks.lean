import IoScheduler.BtreeRuns

/-!
# The checks of the tree test

`validate_order` compares neighbouring keys of a page, and the keys with two
limits that it passes on to the children; the limits of a child are looser than
its separators. `tree_info` counts pages and tuples. Trees whose calls found room
pass the one, and the other counts the entries and every page handed out.
-/
namespace IoScheduler
open Machine Bytes SearchTree Transition

variable {t : Btree} {n : Node} {d e p fuel i : ℕ} {J : Set Key} {lower upper : Option (List UInt8)}
  {memory : ℕ → Node} {as : List (List UInt8 × List UInt8)}

/-! ## The functions -/

/-- A limit is a cell of which only the key is read. -/
def withinLimits (n : Node) (lower upper : Option (List UInt8)) (i : ℕ) : Except Failure Unit := do
  match lower with
  | some key => assert (0 ≤ keyCompare (keyAt n i) key)
  | none => .ok ()
  match upper with
  | some key => assert (keyCompare (keyAt n i) key < 0)
  | none => .ok ()

def internalCellChild (n : Node) (i : ℕ) : ℕ := cellPid n (cellPtr n i)

def when (p : Prop) [Decidable p] (act : Except Failure Unit) : Except Failure Unit :=
  if p then act else .ok ()

/-- The inner cells are those from 1 up to `size - 1`, an unsigned difference. -/
def validateOrder (t : Btree) :
    ℕ → ℕ → Option (List UInt8) → Option (List UInt8) → Except Failure Unit
  | 0, _, _, _ => .error .diverges
  | fuel + 1, pid, lower, upper => do
      let n ← t.deref pid
      (List.range' 1 (n.size - 1)).forM fun i =>
        assert (keyCompare (keyAt n (i - 1)) (keyAt n i) ≤ 0)
      (List.range n.size).forM (withinLimits n lower upper)
      when (n.leaf = false) do
        when (n.size ≠ 0) (validateOrder t fuel (internalCellChild n 0) lower
          (if 1 < n.size then some (keyAt n 1) else upper))
        (List.range' 1 (sub32 n.size 1 - 1)).forM fun i =>
          validateOrder t fuel (internalCellChild n i) (some (keyAt n (i - 1)))
            (some (keyAt n (i + 1)))
        when (1 < n.size) (validateOrder t fuel (internalCellChild n (n.size - 1))
          (some (keyAt n (n.size - 2))) upper)
        when (n.rightmostPid ≠ 0) (validateOrder t fuel n.rightmostPid
          (if n.size ≠ 0 then some (keyAt n (n.size - 1)) else lower) upper)

/-- The leaves, the branches and the tuples counted so far, in this order. -/
def treeInfo (t : Btree) : ℕ → ℕ → ℕ × ℕ × ℕ → Except Failure (ℕ × ℕ × ℕ)
  | 0, _, _ => .error .diverges
  | fuel + 1, pid, (leaf, internal, tuple) => do
      let n ← t.deref pid
      if n.leaf then .ok (u32 (leaf + 1), internal, u32 (tuple + n.size))
      else do
        let counts ← (List.range n.size).foldlM
          (fun counts i => treeInfo t fuel (internalCellChild n i) counts)
          (leaf, u32 (internal + 1), tuple)
        if n.rightmostPid ≠ 0 then treeInfo t fuel n.rightmostPid counts else .ok counts

/-! ## Order -/

theorem forM_eq_ok {α : Type} {f : α → Except Failure Unit} {xs : List α} :
    xs.forM f = .ok () ↔ ∀ x ∈ xs, f x = .ok () := by
  induction xs with
  | nil => exact iff_of_true rfl fun x hx => absurd hx List.not_mem_nil
  | cons x xs ih =>
      rw [List.forM, bind_eq_ok, List.forall_mem_cons, ← ih]
      exact ⟨fun ⟨_, hx, hxs⟩ => ⟨hx, hxs⟩, fun ⟨hx, hxs⟩ => ⟨(), hx, hxs⟩⟩

theorem when_eq_ok {p : Prop} [Decidable p] {act : Except Failure Unit} :
    when p act = .ok () ↔ (p → act = .ok ()) := by
  rw [when]
  split_ifs with hp
  · exact ⟨fun h _ => h, fun h => h hp⟩
  · exact iff_of_true rfl fun h => absurd h hp

/-- The limits enclose a set of keys. -/
structure Encloses (lower upper : Option (List UInt8)) (J : Set Key) : Prop where
  lower : ∀ key ∈ lower, key.length < 2 ^ 31 ∧ ∀ x ∈ J, ⟨key⟩ ≤ x
  upper : ∀ key ∈ upper, key.length < 2 ^ 31 ∧ ∀ x ∈ J, x < ⟨key⟩

theorem encloses_none : Encloses none none J :=
  ⟨fun key hkey => absurd hkey (Option.not_mem_none key),
    fun key hkey => absurd hkey (Option.not_mem_none key)⟩

theorem Encloses.mono {I : Set Key} (h : Encloses lower upper J) (hI : I ⊆ J) :
    Encloses lower upper I :=
  ⟨fun key hkey => ⟨(h.lower key hkey).1, fun x hx => (h.lower key hkey).2 x (hI hx)⟩,
    fun key hkey => ⟨(h.upper key hkey).1, fun x hx => (h.upper key hkey).2 x (hI hx)⟩⟩

theorem Encloses.within (h : Encloses lower upper J) (hlen : (keyAt n i).length < 2 ^ 31)
    (hmem : ⟨keyAt n i⟩ ∈ J) : withinLimits n lower upper i = .ok () := by
  have hlow : ∀ key ∈ lower, 0 ≤ keyCompare (keyAt n i) key := fun key hkey => by
    obtain ⟨hshort, hle⟩ := h.lower key hkey
    exact not_lt.mp fun hless =>
      absurd ((keyCompare_spec hlen hshort).1.mp hless) (not_lt.mpr (hle _ hmem))
  have hhigh : ∀ key ∈ upper, keyCompare (keyAt n i) key < 0 := fun key hkey => by
    obtain ⟨hshort, hlt⟩ := h.upper key hkey
    exact (keyCompare_spec hlen hshort).1.mpr (hlt _ hmem)
  unfold withinLimits
  cases lower with
  | none =>
      cases upper with
      | none => rfl
      | some key => exact assert_eq_ok.mpr (hhigh key rfl)
  | some low =>
      refine bind_eq_ok.mpr ⟨(), assert_eq_ok.mpr (hlow low rfl), ?_⟩
      cases upper with
      | none => rfl
      | some key => exact assert_eq_ok.mpr (hhigh key rfl)

/-- The keys of a page increase, and are all in the set that the limits enclose. -/
theorem ValidPage.keys_checked (h : ValidPage n) (hsort : (keys n).Pairwise (· < ·))
    (hmem : ∀ k ∈ keys n, k ∈ J) (hlimits : Encloses lower upper J) :
    ((List.range' 1 (n.size - 1)).forM fun i =>
      assert (keyCompare (keyAt n (i - 1)) (keyAt n i) ≤ 0)) = .ok () ∧
      (List.range n.size).forM (withinLimits n lower upper) = .ok () := by
  constructor
  · refine forM_eq_ok.mpr fun i hi => assert_eq_ok.mpr ?_
    obtain ⟨hlow, hhigh⟩ := List.mem_range'_1.mp hi
    have hi : i < n.size := by omega
    have hprev : i - 1 < n.size := by omega
    have hless := keyAt_lt hsort (by omega : i - 1 < i) hi
    exact ((keyCompare_spec (h.key_length hprev) (h.key_length hi)).1.mpr hless).le
  · refine forM_eq_ok.mpr fun i hi => ?_
    have hlt := List.mem_range.mp hi
    exact hlimits.within (h.key_length hlt) (hmem _ (mem_keys.mpr ⟨i, hlt, rfl⟩))

/-- The limits a child is checked with: those of its page, or separators on either
side of the child. -/
structure Handed (n : Node) (lower upper : Option (List UInt8)) (i : ℕ)
    (low high : Option (List UInt8)) : Prop where
  low : low = lower ∨ ∃ j < i, low = some (keyAt n j)
  high : high = upper ∨ ∃ j < n.size, i ≤ j ∧ high = some (keyAt n j)

/-- A page with its keys in order is passed when its children are, each with any of
the limits it may be handed. -/
theorem validateOrder_page (hp : 0 < p ∧ p < t.brk) (hvalid : ValidPage (t.node p))
    (hsort : (keys (t.node p)).Pairwise (· < ·)) (hmem : ∀ k ∈ keys (t.node p), k ∈ J)
    (hlimits : Encloses lower upper J)
    (hsize : (t.node p).leaf = false → 0 < (t.node p).size)
    (hbelow : (t.node p).leaf = false → ∀ i c low high, (pointers (t.node p))[i]? = some c →
      Handed (t.node p) lower upper i low high → validateOrder t fuel c low high = .ok ()) :
    validateOrder t (fuel + 1) p lower upper = .ok () := by
  obtain ⟨hneighbours, hwithin⟩ := hvalid.keys_checked hsort hmem hlimits
  have hlt : (t.node p).size < 2 ^ 31 := by
    obtain ⟨-, ts, hlayout, -⟩ := hvalid
    exact hlayout.size_lt
  rw [validateOrder]
  refine bind_eq_ok.mpr ⟨t.node p, if_pos hp, bind_eq_ok.mpr ⟨(), hneighbours,
    bind_eq_ok.mpr ⟨(), hwithin, when_eq_ok.mpr fun hleaf => ?_⟩⟩⟩
  have hpos := hsize hleaf
  have hchild := hbelow hleaf
  have hcell : ∀ i < (t.node p).size,
      (pointers (t.node p))[i]? = some (internalCellChild (t.node p) i) := fun i hi => by
    rw [pointers, List.getElem?_append_left (by simpa using hi)]
    simp [hi, internalCellChild]
  have hlast : (pointers (t.node p))[(t.node p).size]? = some (t.node p).rightmostPid := by
    simp [pointers]
  refine bind_eq_ok.mpr ⟨(), when_eq_ok.mpr fun _ => ?_, bind_eq_ok.mpr ⟨(),
    forM_eq_ok.mpr fun i hi => ?_, bind_eq_ok.mpr ⟨(), when_eq_ok.mpr fun hmore => ?_,
      when_eq_ok.mpr fun _ => ?_⟩⟩⟩
  · refine hchild 0 _ _ _ (hcell 0 hpos) ⟨.inl rfl, ?_⟩
    split_ifs with hmore
    · exact .inr ⟨1, hmore, Nat.zero_le 1, rfl⟩
    · exact .inl rfl
  · rw [sub32_of_le (by omega) hpos] at hi
    obtain ⟨hlow, hhigh⟩ := List.mem_range'_1.mp hi
    exact hchild i _ _ _ (hcell i (by omega)) ⟨.inr ⟨i - 1, by omega, rfl⟩,
      .inr ⟨i + 1, by omega, Nat.le_succ i, rfl⟩⟩
  · exact hchild _ _ _ _ (hcell ((t.node p).size - 1) (by omega))
      ⟨.inr ⟨(t.node p).size - 2, by omega, rfl⟩, .inl rfl⟩
  · rw [if_pos hpos.ne']
    exact hchild _ _ _ _ hlast ⟨.inr ⟨(t.node p).size - 1, by omega, rfl⟩, .inl rfl⟩

/-- The limits handed to a child enclose the keys that belong to it. -/
theorem Handed.encloses {I : Set Key} {low high : Option (List UInt8)}
    (h : Handed n lower upper i low high) (hvalid : ValidPage n) (hi : i ≤ n.size)
    (hlimits : Encloses lower upper J) (hI : I ⊆ J)
    (hleft : ∀ k ∈ (keys n).take i, ∀ x ∈ I, k ≤ x)
    (hright : ∀ k ∈ (keys n).drop i, ∀ x ∈ I, x < k) : Encloses low high I := by
  have hown := hlimits.mono hI
  constructor
  · obtain rfl | ⟨j, hj, rfl⟩ := h.low
    · exact hown.lower
    · rintro key ⟨⟩
      have hlt : j < n.size := hj.trans_le hi
      refine ⟨hvalid.key_length hlt, hleft _ (List.mem_iff_getElem?.mpr ⟨j, ?_⟩)⟩
      rw [List.getElem?_take_of_lt hj, getElem?_keys, if_pos hlt]
  · obtain rfl | ⟨j, hlt, hj, rfl⟩ := h.high
    · exact hown.upper
    · rintro key ⟨⟩
      refine ⟨hvalid.key_length hlt, hright _ (List.mem_iff_getElem?.mpr ⟨j - i, ?_⟩)⟩
      rw [List.getElem?_drop, Nat.add_sub_cancel' hj, getElem?_keys, if_pos hlt]

/-- An ordered subtree is passed, with any limits that enclose its keys. -/
theorem validateOrder_ordered (h : Ordered t.view e p J)
    (hpages : ∀ x ∈ pids t.view e p, 0 < x ∧ x < t.brk ∧ ValidPage (t.node x))
    (hsize : ∀ x ∈ pids t.view e p, (t.node x).leaf = false → 0 < (t.node x).size)
    (hlimits : Encloses lower upper J) (hfuel : e < fuel) :
    validateOrder t fuel p lower upper = .ok () := by
  obtain ⟨room, rfl⟩ : ∃ room, fuel = room + 1 := ⟨fuel - 1, by omega⟩
  induction e generalizing p J lower upper room with
  | zero =>
      obtain ⟨es, hp, hsort, hmem⟩ := h
      obtain ⟨hpos, hlt, hvalid⟩ := hpages p mem_pids_self
      obtain ⟨hleaf, rfl⟩ := leaf_of_page hp
      rw [leafEntries_keys] at hsort
      refine validateOrder_page ⟨hpos, hlt⟩ hvalid hsort ?_ hlimits
        (hsize p mem_pids_self) fun hbranch => absurd hleaf (by simp [hbranch])
      rw [← leafEntries_keys]
      exact List.forall_mem_map.mpr hmem
  | succ e ih =>
      obtain ⟨cells, last, hp, hsort, hcells⟩ := h
      obtain ⟨hpos, hlt, hvalid⟩ := hpages p mem_pids_self
      obtain ⟨hbranch, rfl, rfl⟩ := branch_of_page hp
      have hchildren : (t.view p).children = pointers (t.node p) := by
        rw [hp, pointers_eq, Page.children]
      refine validateOrder_page ⟨hpos, hlt⟩ hvalid ?_ ?_ hlimits
        (hsize p mem_pids_self) fun _ i c low high hi hhanded => ?_
      · rw [← branchCells_keys]
        exact hsort
      · rw [← branchCells_keys]
        exact List.forall_mem_map.mpr fun x hx => hcells.sep_mem hx
      · have hc : c ∈ (t.view p).children := hchildren ▸ List.mem_of_getElem? hi
        have hle : i ≤ (t.node p).size := by
          have hlt := (List.getElem?_eq_some_iff.mp hi).1
          rw [pointers_eq, kids, List.length_append, List.length_map, length_branchCells] at hlt
          exact Nat.lt_succ_iff.mp hlt
        rw [pointers_eq] at hi
        obtain ⟨I, hI, hsub, hleft, hright⟩ := hcells.between hsort hi
        rw [branchCells_keys] at hleft hright
        obtain ⟨room', rfl⟩ : ∃ room', room = room' + 1 := ⟨room - 1, by omega⟩
        exact ih hsub (fun x hx => hpages x (pids_child_subset hc hx))
          (fun x hx => hsize x (pids_child_subset hc hx))
          (hhanded.encloses hvalid hle hlimits hI hleft hright) room' (by omega)

/-! ## Counts -/

/-- The leaves of a subtree. -/
def leaves (t : Btree) (e p : ℕ) : ℕ := (pids t.view e p).countP fun x => (t.node x).leaf

def branches (t : Btree) (e p : ℕ) : ℕ := (pids t.view e p).countP fun x => ¬ (t.node x).leaf

/-- Counters wrap, so a page adds to them what its children add. -/
theorem foldlM_treeInfo {cs : List ℕ} {a b m : ℕ → ℕ} {l k c : ℕ}
    (h : ∀ x ∈ cs, ∀ l k c, treeInfo t fuel x (u32 l, u32 k, u32 c) =
      .ok (u32 (l + a x), u32 (k + b x), u32 (c + m x))) :
    cs.foldlM (fun counts x => treeInfo t fuel x counts) (u32 l, u32 k, u32 c) =
      .ok (u32 (l + (cs.map a).sum), u32 (k + (cs.map b).sum), u32 (c + (cs.map m).sum)) := by
  induction cs generalizing l k c with
  | nil => rfl
  | cons x cs ih =>
      rw [List.foldlM_cons, h x List.mem_cons_self]
      simp only [List.map_cons, List.sum_cons, ← Nat.add_assoc]
      exact ih fun y hy => h y (List.mem_cons_of_mem x hy)

theorem treeInfo_ordered {l k c : ℕ} (h : Ordered t.view e p J)
    (hpages : ∀ x ∈ pids t.view e p, 0 < x ∧ x < t.brk) (hfuel : e < fuel) :
    treeInfo t fuel p (u32 l, u32 k, u32 c) = .ok (u32 (l + leaves t e p),
      u32 (k + branches t e p), u32 (c + (entries t.view e p).length)) := by
  obtain ⟨room, rfl⟩ : ∃ room, fuel = room + 1 := ⟨fuel - 1, by omega⟩
  induction e generalizing p J l k c room with
  | zero =>
      obtain ⟨es, hp, -⟩ := h
      obtain ⟨hleaf, rfl⟩ := leaf_of_page hp
      rw [treeInfo, Btree.deref, if_pos (hpages p mem_pids_self)]
      refine bind_eq_ok.mpr ⟨t.node p, rfl, ?_⟩
      rw [if_pos hleaf, leaves, branches, pids, List.countP_singleton, List.countP_singleton,
        if_pos hleaf, if_neg (by simp [hleaf]), entries, hp, Page.entries, length_leafEntries]
      rw [u32_add, u32_add]
      rfl
  | succ e ih =>
      obtain ⟨cells, last, hp, -, hcells⟩ := h
      obtain ⟨hbranch, rfl, rfl⟩ := branch_of_page hp
      have hchildren : (t.view p).children = pointers (t.node p) := by
        rw [hp, pointers_eq, Page.children]
      have hbelow : ∀ x ∈ pointers (t.node p), ∀ l k c, treeInfo t room x (u32 l, u32 k, u32 c) =
          .ok (u32 (l + leaves t e x), u32 (k + branches t e x),
            u32 (c + (entries t.view e x).length)) := by
        intro x hx l k c
        rw [pointers_eq] at hx
        obtain ⟨I, -, hsub⟩ := hcells.mem hx
        rw [← pointers_eq, ← hchildren] at hx
        obtain ⟨room', rfl⟩ : ∃ room', room = room' + 1 := ⟨room - 1, by omega⟩
        exact ih hsub (fun y hy => hpages y (pids_child_subset hx hy)) room' (by omega)
      have hlast : (t.node p).rightmostPid ≠ 0 := by
        have hmem : (t.node p).rightmostPid ∈ (t.view p).children := by
          rw [hchildren, pointers]
          exact List.mem_append_right _ (List.mem_singleton_self _)
        exact (hpages _ (pids_child_subset hmem mem_pids_self)).1.ne'
      rw [treeInfo, Btree.deref, if_pos (hpages p mem_pids_self)]
      refine bind_eq_ok.mpr ⟨t.node p, rfl, ?_⟩
      rw [if_neg (by simp [hbranch])]
      have hleaves : leaves t (e + 1) p = ((pointers (t.node p)).map (leaves t e)).sum := by
        rw [leaves, pids, List.countP_cons_of_neg (by simp [hbranch]), List.countP_flatMap,
          hchildren]
        rfl
      have hbranches : branches t (e + 1) p =
          1 + ((pointers (t.node p)).map (branches t e)).sum := by
        rw [branches, pids, List.countP_cons_of_pos (by simp [hbranch]), List.countP_flatMap,
          hchildren, Nat.add_comm]
        rfl
      rw [hleaves, hbranches, entries, List.length_flatMap, hchildren, ← Nat.add_assoc, u32_add]
      have hcount := foldlM_treeInfo hbelow (l := l) (k := k + 1) (c := c)
      nth_rewrite 1 [pointers] at hcount
      rw [List.foldlM_append, List.foldlM_map] at hcount
      obtain ⟨counts, hinner, hright⟩ := bind_eq_ok.mp hcount
      refine bind_eq_ok.mpr ⟨counts, hinner, ?_⟩
      rw [if_pos hlast]
      rw [List.foldlM_cons] at hright
      obtain ⟨counts', hright, hnil⟩ := bind_eq_ok.mp hright
      exact hright.trans hnil

/-! ## Trees that calls leave -/

/-- The one branch of a tree that calls leave has a separator. -/
theorem SoundTree.branch_size (h : SoundTree t d) (hp : p ∈ t.pids d)
    (hbranch : (t.node p).leaf = false) : 0 < (t.node p).size := by
  have hordered := h.valid.ordered
  have hcount := h.allocated
  obtain rfl | rfl : d = 0 ∨ d = 1 := by
    have hdepth := h.depth
    omega
  · obtain rfl := List.mem_singleton.mp hp
    obtain ⟨es, hroot, -⟩ := hordered
    rw [(leaf_of_page hroot).1] at hbranch
    cases hbranch
  · obtain ⟨cells, last, hroot, -, hcells⟩ := hordered
    obtain ⟨-, rfl, rfl⟩ := branch_of_page hroot
    have hgrown := h.grown rfl
    have hlen : (t.pids 1).length = (t.node t.root).size + 2 := by
      rw [Btree.pids, pids, hroot, Page.children, kids, List.length_cons]
      simp [pids, length_branchCells]
    obtain rfl | hp := List.mem_cons.mp hp
    · omega
    · obtain ⟨c, hc, hpc⟩ := List.mem_flatMap.mp hp
      obtain rfl := List.mem_singleton.mp hpc
      rw [hroot] at hc
      obtain ⟨I, -, es, hleaf, -⟩ := hcells.mem hc
      rw [(leaf_of_page hleaf).1] at hbranch
      cases hbranch

/-- What a run of calls for distinct keys that find room leaves passes the checks of
the tree test from the root down, two levels being enough, and the counts are those
of the entries and of the pages handed out. -/
theorem tree_checked (h : Run insertStep FindsRoom (btreeInit memory) as t)
    (hdistinct : (as.map Prod.fst).Nodup) (hfuel : 2 ≤ fuel) :
    validateOrder t fuel t.root none none = .ok () ∧
      ∃ leaf internal, treeInfo t fuel t.root (0, 0, 0) = .ok (leaf, internal, t.count) ∧
        t.count = as.length ∧ leaf + internal + 1 = t.brk := by
  obtain ⟨d, hsound, hperm⟩ := SoundTree.of_run h hdistinct
  have hdepth := hsound.depth
  have hlen := hperm.length_eq
  rw [List.length_map] at hlen
  constructor
  · exact validateOrder_ordered hsound.valid.ordered hsound.valid.pages
      (fun x hx => hsound.branch_size hx) encloses_none (by omega)
  · have hinfo := treeInfo_ordered (l := 0) (k := 0) (c := 0) hsound.valid.ordered
      (fun x hx => ⟨(hsound.valid.pages x hx).1, (hsound.valid.pages x hx).2.1⟩)
      (by omega : d < fuel)
    have hpages : leaves t d t.root + branches t d t.root + 1 = t.brk := by
      rw [hsound.allocated, Btree.pids, leaves, branches]
      exact congrArg (· + 1) (List.length_eq_countP_add_countP _).symm
    have hbrk := hsound.brk
    have hsmall := hsound.length_le
    have hentries : (entries t.view d t.root).length = t.count := hsound.count.symm
    have hcount := hsound.count
    rw [Nat.zero_add, Nat.zero_add, Nat.zero_add, hentries, u32_zero, u32_of_lt (by omega),
      u32_of_lt (by omega), u32_of_lt (by omega)] at hinfo
    exact ⟨leaves t d t.root, branches t d t.root, hinfo, hcount.trans hlen, hpages⟩

/-- Five inserts, the last of which splits the root. -/
theorem tree_checked_root_split : ∃ t, Run insertStep FindsRoom (btreeInit fun _ => zeroPage)
    ([1, 2, 3, 4, 5].map fun k => ([k], List.replicate 983 k)) t ∧ t.root = 3 ∧
      validateOrder t 2 t.root none none = .ok () ∧
      ∃ leaf internal, treeInfo t 2 t.root (0, 0, 0) = .ok (leaf, internal, t.count) ∧
        t.count = 5 ∧ leaf + internal + 1 = t.brk := by
  obtain ⟨t, ht, hroot⟩ := exists_run_of_execute
    ([1, 2, 3, 4, 5].map fun k => ([k], List.replicate 983 k))
    (fun t : Btree => decide (t.root = 3))
    (by decide +kernel : ((execute insertStep (fun t a => SizesFit a ∧ RoomBelow t a.1 a.2)
      (btreeInit fun _ => zeroPage) _).any _) = true)
  have hrun := ht.mono fun t a h => (⟨h.1, h.2.hasRoom⟩ : FindsRoom t a)
  exact ⟨t, hrun, of_decide_eq_true hroot, tree_checked hrun (by decide) le_rfl⟩

end IoScheduler
