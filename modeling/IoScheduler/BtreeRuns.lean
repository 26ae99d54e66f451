import IoScheduler.BtreeCalls

/-!
# Runs of insertions

A run in which every call finds room keeps a tree of one level or two, whose
pages are sound and whose separators are keys of entries. The walk from the root
down to the leaves meets the entries of a search tree in order.
-/
namespace IoScheduler
open Machine Bytes SearchTree Transition

variable {t t' : Btree} {n : Node} {d e p q pid fuel ret : ℕ} {J : Set Key} {memory : ℕ → Node}
  {key value : List UInt8} {above : List ℕ} {a : List UInt8 × List UInt8}
  {as : List (List UInt8 × List UInt8)}

/-! ## The walk -/

/-- The pids of the cells of a branch and then `rightmost_pid`, nulls included. -/
def pointers (n : Node) : List ℕ :=
  (List.range n.size).map (fun i => cellPid n (cellPtr n i)) ++ [n.rightmostPid]

/-- The keys and values met below a page on the way through every cell's pid and
then `rightmost_pid`; `none` when a pointer leads nowhere or after `fuel` levels. -/
def walk (t : Btree) : ℕ → ℕ → Option (List (List UInt8 × List UInt8))
  | 0, _ => none
  | fuel + 1, pid => do
      let n ← (t.deref pid).toOption
      if n.leaf then some ((List.range n.size).map (nodeCellPointers n))
      else do
        let below ← (pointers n).mapM (walk t fuel)
        some below.flatten

/-- An entry of a search tree as the bytes it consists of. -/
def plain (e : Key × List UInt8) : List UInt8 × List UInt8 := (e.1.bytes, e.2)

theorem pointers_eq : pointers n = kids n.rightmostPid (branchCells n) := by
  rw [pointers, kids, branchCells, offsets, slotList, List.map_map, List.map_map]
  rfl

theorem nodeCellPointers_leaf (h : n.leaf = true) :
    (List.range n.size).map (nodeCellPointers n) = (leafEntries n).map plain := by
  rw [leafEntries, offsets, slotList, List.map_map, List.map_map]
  refine List.map_congr_left fun i _ => ?_
  rw [nodeCellPointers, if_pos h]
  rfl

theorem mapM_of_forall_some {α β : Type*} {f : α → Option β} {g : α → β} {l : List α}
    (h : ∀ x ∈ l, f x = some (g x)) : l.mapM f = some (l.map g) := by
  induction l with
  | nil => rfl
  | cons x l ih =>
      rw [List.mapM_cons, h x List.mem_cons_self, ih fun y hy => h y (List.mem_cons_of_mem _ hy)]
      rfl

/-- The walk through an ordered subtree meets its entries. -/
theorem walk_eq (h : Ordered t.view e p J) (hpages : ∀ x ∈ pids t.view e p, 0 < x ∧ x < t.brk)
    (hfuel : e < fuel) : walk t fuel p = some ((entries t.view e p).map plain) := by
  obtain ⟨room, rfl⟩ : ∃ room, fuel = room + 1 := ⟨fuel - 1, by omega⟩
  induction e generalizing p J room with
  | zero =>
      obtain ⟨es, hp, -⟩ := h
      obtain ⟨hleaf, -⟩ := leaf_of_page hp
      rw [walk, Btree.deref, if_pos (hpages p mem_pids_self)]
      simp only [Except.toOption, Option.bind_eq_bind, Option.bind_some, hleaf, if_true]
      rw [nodeCellPointers_leaf hleaf, entries, Btree.view, page_leaf hleaf]
      rfl
  | succ e ih =>
      obtain ⟨cells, last, hp, -, hcells⟩ := h
      obtain ⟨hbranch, -⟩ := branch_of_page hp
      have hchildren : (t.view p).children = pointers (t.node p) := by
        rw [pointers_eq, Btree.view, page_branch hbranch, Page.children]
      have hbelow : ∀ c ∈ pointers (t.node p),
          walk t room c = some ((entries t.view e c).map plain) := by
        intro c hc
        rw [← hchildren] at hc
        have hkid : c ∈ kids last cells := by rwa [hp] at hc
        obtain ⟨J', -, hsub⟩ := hcells.mem hkid
        obtain ⟨room', rfl⟩ : ∃ room', room = room' + 1 := ⟨room - 1, by omega⟩
        exact ih hsub (fun x hx => hpages x (pids_child_subset hc hx)) room' (by omega)
      rw [walk, Btree.deref, if_pos (hpages p mem_pids_self)]
      simp only [Except.toOption, Option.bind_eq_bind, Option.bind_some, hbranch,
        Bool.false_eq_true, if_false]
      rw [mapM_of_forall_some hbelow, entries, hchildren, List.map_flatMap, Option.bind_some,
        List.flatMap]

/-! ## Sound trees -/

/-- A tree as calls that find room leave it. -/
structure SoundTree (t : Btree) (d : ℕ) : Prop where
  valid : ValidAt t d
  pages : SoundPages t
  depth : d ≤ 1
  separators : separators t.view d t.root ⊆ (t.entries d).map Prod.fst
  count : t.count = (t.entries d).length
  brk : t.brk ≤ 2 + 2 * (t.entries d).length
  allocated : t.brk = (t.pids d).length + 1
  grown : d = 1 → 4 ≤ t.brk

theorem btreeInit_sound : SoundTree (btreeInit memory) 0 := by
  have hnode : (btreeInit memory).node 1 = nodeInit (memory 1) true true :=
    Function.update_self 1 _ memory
  have hview : (btreeInit memory).view 1 = .leaf [] := by
    rw [Btree.view, hnode]
    rfl
  have hsound : SoundPage ((btreeInit memory).node 1) := by
    rw [hnode]
    exact nodeInit_sound
  refine ⟨⟨show 2 ≤ 2 ^ 64 by norm_num, ⟨[], hview, List.Pairwise.nil, ?_⟩,
    List.nodup_singleton 1, ?_⟩, ?_, Nat.zero_le 1, List.nil_subset _, ?_, Nat.le_add_right 2 _,
    rfl, fun h => absurd h (by decide)⟩
  · exact fun x hx => absurd hx List.not_mem_nil
  · intro p hp
    obtain rfl := List.mem_singleton.mp hp
    exact ⟨Nat.one_pos, Nat.lt_succ_self 1, hsound.valid⟩
  · intro p hpos hlt
    have hlt : p < 2 := hlt
    obtain rfl : p = 1 := by omega
    exact hsound
  · have hentries : (btreeInit memory).entries 0 = [] := by
      show ((btreeInit memory).view 1).entries = []
      rw [hview]
      rfl
    rw [hentries]
    rfl

theorem ValidPage.entries_length (h : ValidPage n) : (page n).entries.length ≤ 2 ^ 11 ∧
    (page n).children.length ≤ 2 ^ 11 := by
  obtain ⟨-, ts, hlayout, -⟩ := h
  have hle := hlayout.slots_le
  simp only [slotOffset, sizeofNode, nodeSize] at hle
  cases hleaf : n.leaf with
  | true =>
      rw [page_leaf hleaf]
      refine ⟨?_, Nat.zero_le _⟩
      rw [Page.entries, length_leafEntries]
      omega
  | false =>
      rw [page_branch hleaf]
      refine ⟨Nat.zero_le _, ?_⟩
      rw [Page.children, kids, List.length_append, List.length_map, length_branchCells,
        List.length_singleton]
      omega

theorem SoundTree.length_le (h : SoundTree t d) : (t.entries d).length ≤ 2 ^ 22 := by
  have hpages := fun x hx => (h.valid.pages x hx).2.2.entries_length
  have hle := length_entries_le (f := t.view) (fun x hx => (hpages x hx).1)
    fun x hx => (hpages x hx).2
  have hdepth := h.depth
  calc (t.entries d).length ≤ (2 ^ 11) ^ (d + 1) := hle
    _ ≤ (2 ^ 11) ^ 2 := Nat.pow_le_pow_right (by norm_num) (by omega)
    _ = 2 ^ 22 := by norm_num

/-- A call that enters an entry was given sizes that fit a page. -/
theorem btreeInsert_sizes (h : btreeInsert t key value = .ok (0, t')) :
    key.length + value.length < 2 ^ 31 := by
  rcases btreeInsert_eq_ok h with ⟨-, hret, -⟩ | ⟨pid, above, t₁, c, t₂, -, -, -, hins, -⟩
  · exact absurd hret (by decide)
  obtain ⟨k, off, found, idx, m, -, -, -, hcell, -⟩ := insertLeaf_eq_ok hins
  have hin := (nodeInsertCell_inside hcell).2
  rw [length_leafCell] at hin
  simp only [nodeSize] at hin
  omega

/-- The key a call that returns 1 found is a separator. -/
theorem SoundTree.found (h : SoundTree t d) (hkey : key.length < 2 ^ 32)
    (hnone : descend t key 15 [] t.root = .ok none) :
    ⟨key⟩ ∈ SearchTree.separators t.view d t.root := by
  refine h.valid.descend_none ?_ hnone
  obtain ⟨p, rest, idx, -, hpos, hlt, -, hs⟩ := IoScheduler.descend_none hnone .root
  have hvalid := (h.pages p hpos hlt).valid
  obtain ⟨-, ts, hlayout, -⟩ := id hvalid
  rcases nodeBinSearch_spec hs hlayout.size_lt with ⟨-, hidx, hcompare⟩ | ⟨hf, -⟩
  · have hlen := hvalid.key_length hidx
    rwa [keyCompare_eq_zero (hlen.trans (by norm_num)) hkey hcompare] at hlen
  · cases hf

/-- A call for a new key that finds room enters it and keeps the tree sound. -/
theorem SoundTree.insert (h : SoundTree t d) (hkey : key.length < 2 ^ 32)
    (hroom : HasRoom t key value) (habsent : ⟨key⟩ ∉ (t.entries d).map Prod.fst)
    (hins : btreeInsert t key value = .ok (ret, t')) :
    ret = 0 ∧ ∃ d', SoundTree t' d' ∧ EnteredAt t t' d d' key value := by
  have hsep : ⟨key⟩ ∉ SearchTree.separators t.view d t.root := fun hmem =>
    habsent (h.separators hmem)
  have hret : ret = 0 := by
    rcases btreeInsert_eq_ok hins with ⟨hnone, -⟩ | ⟨-, -, -, -, -, -, -, -, -, hret⟩
    · exact absurd (h.found hkey hnone) hsep
    · exact hret
  subst hret
  have hsize := btreeInsert_sizes hins
  obtain ⟨hpages, hsplits⟩ := h.valid.insert_sound h.pages hroom hsize hins
  obtain ⟨-, hcount, hbrk, hlow, -⟩ := h.valid.insert habsent hsep hsize hins hsplits
    fun p hpos hlt => (hpages p hpos hlt).slotClash
  obtain ⟨d', hentered⟩ := hlow hroom.placesLow
  obtain ⟨E₁, E₂, hE, hE'⟩ := hentered.entries
  have hlen : (t'.entries d').length = (t.entries d).length + 1 := by
    rw [hE, hE', List.length_append, List.length_append, List.length_cons]
    omega
  have hsmall := h.length_le
  have hdepth := h.depth
  have hdepth' := hentered.depth
  refine ⟨rfl, d', ⟨hentered.valid, hpages, ?_, fun s hs => ?_, ?_, ?_, ?_, ?_⟩, hentered⟩
  · omega
  · have hold : (t.entries d).map Prod.fst ⊆ (t'.entries d').map Prod.fst := by
      rw [hE, hE']
      simp only [List.map_append, List.map_cons]
      exact fun x hx => by
        rcases List.mem_append.mp hx with hx | hx
        · exact List.mem_append_left _ hx
        · exact List.mem_append_right _ (List.mem_cons_of_mem _ hx)
    rcases List.mem_append.mp (hentered.separators hs) with hs | hs
    · exact hold (h.separators hs)
    · exact hold hs
  · rw [hcount, hlen, h.count, u32_of_lt]
    omega
  · have hbound := h.brk
    omega
  · have hall := h.allocated
    have hall' := hentered.allocated
    omega
  · have hgrown := h.grown
    have hall := h.allocated
    have hone : d = 0 → (t.pids d).length = 1 := fun hzero => by
      rw [hzero]
      rfl
    omega

theorem SoundTree.insert_isOk (h : SoundTree t d) (hsize : key.length + value.length < 2 ^ 31)
    (hroom : HasRoom t key value) (hcut : CutsLeafInside t key value)
    (habsent : ⟨key⟩ ∉ (t.entries d).map Prod.fst) : ∃ t', btreeInsert t key value = .ok (0, t') ∧
      (CutsInside t key value → t'.wildPartition = t.wildPartition) := by
  have hbrk := h.brk
  have hlen := h.length_le
  have hdepth := h.depth
  exact h.valid.insert_isOk h.pages (by omega) (by omega)
    (fun hmem => habsent (h.separators hmem)) hsize hroom hcut

/-! ## Runs -/

/-- A call is given sizes of their types and finds room. -/
def FindsRoom (t : Btree) (a : List UInt8 × List UInt8) : Prop := SizesFit a ∧ HasRoom t a.1 a.2

theorem absent_of_perm {es : List (Key × List UInt8)} (h : (es.map plain).Perm as)
    (hkey : key ∉ as.map Prod.fst) : ⟨key⟩ ∉ es.map Prod.fst := by
  intro hmem
  obtain ⟨x, hx, hxkey⟩ := List.mem_map.mp hmem
  have hin : plain x ∈ as := h.mem_iff.mp (List.mem_map_of_mem hx)
  refine hkey (List.mem_map.mpr ⟨plain x, hin, ?_⟩)
  rw [plain, hxkey]

theorem EnteredAt.perm {d' : ℕ} (h : EnteredAt t t' d d' a.1 a.2)
    (hperm : ((t.entries d).map plain).Perm as) :
    ((t'.entries d').map plain).Perm (as ++ [a]) := by
  obtain ⟨E₁, E₂, hE, hE'⟩ := h.entries
  rw [hE, List.map_append] at hperm
  rw [hE', List.map_append, List.map_cons]
  have hmiddle : (E₁.map plain ++ plain (⟨a.1⟩, a.2) :: E₂.map plain).Perm
      (a :: (E₁.map plain ++ E₂.map plain)) := List.perm_middle
  exact hmiddle.trans ((hperm.cons a).trans (List.perm_append_singleton a as).symm)

/-- A run of calls for distinct keys that find room keeps the tree sound, with
what was inserted as its entries. -/
theorem SoundTree.of_run (h : Run insertStep FindsRoom (btreeInit memory) as t)
    (hdistinct : (as.map Prod.fst).Nodup) :
    ∃ d, SoundTree t d ∧ ((t.entries d).map plain).Perm as := by
  induction h with
  | nil =>
      refine ⟨0, btreeInit_sound, ?_⟩
      have hcount : (btreeInit memory).count = (Btree.entries (btreeInit memory) 0).length :=
        btreeInit_sound.count
      rw [List.length_eq_zero_iff.mp hcount.symm]
      exact List.Perm.nil
  | @snoc as t u a hrun hroom hstep ih =>
      rw [List.map_append, List.nodup_append] at hdistinct
      obtain ⟨hold, -, hnew⟩ := hdistinct
      obtain ⟨d, hsound, hperm⟩ := ih hold
      obtain ⟨ret, hins⟩ := insertStep_eq_some hstep
      have habsent : (⟨a.1⟩ : Key) ∉ (t.entries d).map Prod.fst :=
        absent_of_perm hperm fun hmem => hnew a.1 hmem a.1 List.mem_cons_self rfl
      obtain ⟨-, d', hsound', hentered⟩ := hsound.insert hroom.1.1 hroom.2 habsent hins
      exact ⟨d', hsound', hentered.perm hperm⟩

theorem SoundTree.walk_entries (h : SoundTree t d) (hfuel : d < fuel) :
    walk t fuel t.root = some ((t.entries d).map plain) :=
  walk_eq h.valid.ordered
    (fun x hx => ⟨(h.valid.pages x hx).1, (h.valid.pages x hx).2.1⟩) hfuel

/-- What holds of the leaf a descent ends at, and of the pages above it, is checked there. -/
instance decidableAtLeaf {P : ℕ → List ℕ → Prop} [∀ pid above, Decidable (P pid above)]
    {r : Except Failure (Option (List ℕ))} :
    Decidable (∀ pid above, r = .ok (some (pid :: above)) → P pid above) :=
  match r with
  | .ok (some (pid :: above)) =>
      decidable_of_iff (P pid above)
        ⟨fun hp _ _ h => by cases h; exact hp, fun h => h pid above rfl⟩
  | .ok (some []) => isTrue fun _ _ h => by cases h
  | .ok none => isTrue fun _ _ h => by cases h
  | .error _ => isTrue fun _ _ h => by cases h

/-- A leaf has room below its cells, or it is the root and its right half has. -/
def RoomBelow (t : Btree) (key value : List UInt8) : Prop :=
  ∀ pid above, descend t key 15 [] t.root = .ok (some (pid :: above)) →
    (nodeIsFull (t.node pid) key.length value.length = .ok false →
      newCellSize key.length value.length + 4 ≤ freeSpace (t.node pid)) ∧
    (nodeIsFull (t.node pid) key.length value.length = .ok true → above = [] ∧
      keyCompare (keyAt (t.node pid) (nodePartitionIdx (t.node pid))) key < 0 ∧
        FitsRight (t.node pid) key.length value.length)

instance : Decidable (FitsRight n p q) := inferInstanceAs (Decidable (_ ≤ _))

instance : Decidable (RoomBelow t key value) := decidableAtLeaf

theorem RoomBelow.hasRoom (h : RoomBelow t key value) : HasRoom t key value := by
  intro pid above hdescend
  obtain ⟨hopen, hfull⟩ := h pid above hdescend
  refine ⟨fun hno => .inl (hopen hno), fun hyes => ?_⟩
  obtain ⟨rfl, hright, hfits⟩ := hfull hyes
  rw [HalfFits, if_pos hright]
  exact ⟨hfits, fun q hq => by cases hq⟩

/-- The walk from the root meets what a run of calls for distinct keys that find
room has inserted, each entry once, and `count` is their number. -/
theorem walk_inserted (h : Run insertStep FindsRoom (btreeInit memory) as t)
    (hdistinct : (as.map Prod.fst).Nodup) :
    ∃ levels es, (∀ fuel ≥ levels, walk t fuel t.root = some es) ∧ es.Perm as ∧
      t.count = as.length := by
  obtain ⟨d, hsound, hperm⟩ := SoundTree.of_run h hdistinct
  refine ⟨d + 1, (t.entries d).map plain, fun fuel hfuel => hsound.walk_entries hfuel, hperm, ?_⟩
  rw [hsound.count, ← hperm.length_eq, List.length_map]

/-- Five inserts, the last of which splits the root. -/
theorem walk_inserted_root_split : ∃ t, Run insertStep FindsRoom (btreeInit fun _ => zeroPage)
    ([1, 2, 3, 4, 5].map fun k => ([k], List.replicate 983 k)) t ∧ t.root = 3 ∧
      ∃ levels es, (∀ fuel ≥ levels, walk t fuel t.root = some es) ∧
        es.Perm ([1, 2, 3, 4, 5].map fun k => ([k], List.replicate 983 k)) ∧ t.count = 5 := by
  obtain ⟨t, ht, hroot⟩ := exists_run_of_execute
    ([1, 2, 3, 4, 5].map fun k => ([k], List.replicate 983 k))
    (fun t : Btree => decide (t.root = 3))
    (by decide +kernel : ((execute insertStep (fun t a => SizesFit a ∧ RoomBelow t a.1 a.2)
      (btreeInit fun _ => zeroPage) _).any _) = true)
  have hrun := ht.mono fun t a h => (⟨h.1, h.2.hasRoom⟩ : FindsRoom t a)
  exact ⟨t, hrun, of_decide_eq_true hroot, walk_inserted hrun (by decide)⟩

/-- Keys that descend: a cell goes to the tombstone at 2096, the next one is placed
below it, over the cell of key 30. -/
theorem walk_inserted_overwritten : ∃ t es, Run insertStep (fun _ a => SizesFit a)
    (btreeInit fun _ => zeroPage)
    ([50, 40, 30, 20, 60, 10, 5, 6].map fun k => ([k], List.replicate 983 k)) t ∧
    walk t 2 t.root = some es ∧
    es.map Prod.fst = [[5], [6], [10], [20], [6], [40], [50], [60]] := by
  obtain ⟨t, ht, hwalk⟩ := exists_run_of_execute
    ([50, 40, 30, 20, 60, 10, 5, 6].map fun k => ([k], List.replicate 983 k))
    (fun t : Btree => decide ((walk t 2 t.root).map (List.map Prod.fst) =
      some [[5], [6], [10], [20], [6], [40], [50], [60]]))
    (by decide +kernel : ((execute insertStep (fun _ a => SizesFit a)
      (btreeInit fun _ => zeroPage) _).any _) = true)
  obtain ⟨es, hes, hkeys⟩ := Option.map_eq_some_iff.mp (of_decide_eq_true hwalk)
  exact ⟨t, es, ht, hes, hkeys⟩

/-! ## Search trees -/

/-- A search tree under `__key_compare`: the subtrees lie between the separators
next to them and above them, every page has one place, its cells increase, and a
branch has one child more than cells. -/
structure SearchTreeAt (t : Btree) (d : ℕ) : Prop where
  ordered : Ordered t.view d t.root Set.univ
  nodup : (t.pids d).Nodup
  increasing : ∀ p ∈ t.pids d, ∀ i j, i < j → j < (t.node p).size →
    keyCompare (keyAt (t.node p) i) (keyAt (t.node p) j) < 0
  children : ∀ p ∈ t.pids d, (t.node p).leaf = false →
    (pointers (t.node p)).length = (t.node p).size + 1 ∧
      ∀ q ∈ pointers (t.node p), q ≠ 0 ∧ q ∈ t.pids d
  compared : ∀ p ∈ t.pids d, ∀ q ∈ t.pids d, ∀ x ∈ keys (t.node p), ∀ y ∈ keys (t.node q),
    (x < y ↔ keyCompare x.bytes y.bytes < 0)

theorem ValidAt.keys_sorted (h : ValidAt t d) (hp : p ∈ t.pids d) :
    (keys (t.node p)).Pairwise (· < ·) := by
  obtain ⟨hentries, hseps⟩ := h.ordered.page_sorted hp
  cases hleaf : (t.node p).leaf with
  | true =>
      rw [Btree.view, page_leaf hleaf, Page.entries, leafEntries_keys] at hentries
      exact hentries
  | false =>
      rw [Btree.view, page_branch hleaf, Page.seps, branchCells_keys] at hseps
      exact hseps

theorem ValidAt.keys_length (h : ValidAt t d) (hp : p ∈ t.pids d) {x : Key}
    (hx : x ∈ keys (t.node p)) : x.bytes.length < 2 ^ 31 := by
  obtain ⟨i, hi, hkey⟩ := mem_keys.mp hx
  rw [← hkey]
  exact (h.pages p hp).2.2.key_length hi

theorem keyAt_lt {i j : ℕ} (h : (keys n).Pairwise (· < ·)) (hij : i < j) (hj : j < n.size) :
    (⟨keyAt n i⟩ : Key) < ⟨keyAt n j⟩ := by
  have hlow : (keys n)[i]? = some ⟨keyAt n i⟩ := by rw [getElem?_keys, if_pos (hij.trans hj)]
  have hhigh : (keys n)[j]? = some ⟨keyAt n j⟩ := by rw [getElem?_keys, if_pos hj]
  obtain ⟨hi', hxi⟩ := List.getElem?_eq_some_iff.mp hlow
  obtain ⟨hj', hxj⟩ := List.getElem?_eq_some_iff.mp hhigh
  have hless := List.pairwise_iff_getElem.mp h i j hi' hj' hij
  rwa [hxi, hxj] at hless

theorem ValidAt.searchTreeAt (h : ValidAt t d) : SearchTreeAt t d := by
  refine ⟨h.ordered, h.nodup, fun p hp i j hij hj => ?_, fun p hp hbranch => ⟨?_, ?_⟩,
    fun p hp q hq x hx y hy => ?_⟩
  · have hlt := keyAt_lt (h.keys_sorted hp) hij hj
    obtain ⟨-, -, hvalid⟩ := h.pages p hp
    exact (keyCompare_spec (hvalid.key_length (hij.trans hj)) (hvalid.key_length hj)).1.mpr hlt
  · rw [pointers, List.length_append, List.length_map, List.length_range, List.length_singleton]
  · intro q hq
    have hchild : q ∈ (t.view p).children := by
      rw [Btree.view, page_branch hbranch, Page.children, ← pointers_eq]
      exact hq
    have hmem : q ∈ t.pids d := h.ordered.mem_pids_child hp hchild
    exact ⟨(h.pages q hmem).1.ne', hmem⟩
  · exact (keyCompare_spec (h.keys_length hp hx) (h.keys_length hq hy)).1.symm

/-- A run of calls for distinct keys that find room keeps a search tree. -/
theorem searchTreeAt_inserted (h : Run insertStep FindsRoom (btreeInit memory) as t)
    (hdistinct : (as.map Prod.fst).Nodup) : ∃ d, SearchTreeAt t d := by
  obtain ⟨d, hsound, -⟩ := SoundTree.of_run h hdistinct
  exact ⟨d, hsound.valid.searchTreeAt⟩

/-- Two leaves under a root, the right one having taken an entry after the split. -/
theorem searchTreeAt_inserted_two_leaves : ∃ t, Run insertStep FindsRoom
    (btreeInit fun _ => zeroPage)
    ([2, 1, 3, 4, 5].map fun k => ([k], List.replicate 983 k)) t ∧
    (t.node t.root).leaf = false ∧ ∃ d, SearchTreeAt t d := by
  obtain ⟨t, ht, hroot⟩ := exists_run_of_execute
    ([2, 1, 3, 4, 5].map fun k => ([k], List.replicate 983 k))
    (fun t : Btree => decide ((t.node t.root).leaf = false))
    (by decide +kernel : ((execute insertStep (fun t a => SizesFit a ∧ RoomBelow t a.1 a.2)
      (btreeInit fun _ => zeroPage) _).any _) = true)
  have hrun := ht.mono fun t a h => (⟨h.1, h.2.hasRoom⟩ : FindsRoom t a)
  exact ⟨t, hrun, of_decide_eq_true hroot, searchTreeAt_inserted hrun (by decide)⟩

/-- The leaf whose cell was overwritten holds 6 behind 20. -/
theorem overwritten_not_searchTreeAt : ∃ t, Run insertStep (fun _ a => SizesFit a)
    (btreeInit fun _ => zeroPage)
    ([50, 40, 30, 20, 60, 10, 5, 6].map fun k => ([k], List.replicate 983 k)) t ∧
    ∀ d, ¬ SearchTreeAt t d := by
  obtain ⟨t, ht, hp⟩ := exists_run_of_execute
    ([50, 40, 30, 20, 60, 10, 5, 6].map fun k => ([k], List.replicate 983 k))
    (fun t : Btree => decide ((t.node t.root).leaf = false ∧ 1 ∈ pointers (t.node t.root) ∧
      4 < (t.node 1).size ∧ ¬ keyCompare (keyAt (t.node 1) 3) (keyAt (t.node 1) 4) < 0))
    (by decide +kernel : ((execute insertStep (fun _ a => SizesFit a)
      (btreeInit fun _ => zeroPage) _).any _) = true)
  obtain ⟨hbranch, hchild, hsize, hkeys⟩ := of_decide_eq_true hp
  refine ⟨t, ht, fun d h => hkeys ?_⟩
  obtain ⟨-, hleaf⟩ := (h.children t.root mem_pids_self hbranch).2 1 hchild
  exact h.increasing 1 hleaf 3 4 (by decide) hsize

end IoScheduler
