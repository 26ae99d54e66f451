import IoScheduler.BtreeParents
import IoScheduler.BtreeRuns

/-!
# What a call makes of a tree

One call on any valid tree keeps it valid exactly when its cells are placed below
the other blocks of their pages. On the trees that runs of calls with room reach,
a call returns 1 exactly for the separators, and it goes through when it finds
room and every page that splits is cut inside.
-/
namespace IoScheduler
open Machine Bytes SearchTree Transition

variable {t t' : Btree} {n : Node} {d p q pid ret : ℕ} {memory : ℕ → Node}
  {key value : List UInt8} {a : List UInt8 × List UInt8} {as : List (List UInt8 × List UInt8)}

/-! ## Valid trees -/

/-- A call that fails no assertion, splits no branch and writes no cell over the
slots enters a new key at its place in a valid tree exactly when its cells lie
below the other blocks of their pages, short of a count that wraps. -/
theorem btreeInsert_valid_iff {ret : ℕ} (hv : ValidAt t d)
    (habsent : ⟨key⟩ ∉ (t.entries d).map Prod.fst) (hsep : ⟨key⟩ ∉ separators t.view d t.root)
    (hsize : key.length + value.length < 2 ^ 31)
    (hins : btreeInsert t key value = .ok (ret, t'))
    (hsplits : t'.internalSplits = t.internalSplits)
    (hslots : ∀ p, 0 < p → p < t'.brk → (t'.node p).slotClash = false) :
    ret = 0 ∧ t'.count = t.count + 1 ∧ Entered t t' d key value ↔
      PlacesLow t key value ∧ t.count + 1 < 2 ^ 32 := by
  obtain ⟨hret, hcount, -, hlow, hhigh⟩ := hv.insert habsent hsep hsize hins hsplits hslots
  have hwrap : t'.count = t.count + 1 ↔ t.count + 1 < 2 ^ 32 := by
    rw [hcount]
    exact ⟨fun h => h ▸ u32_lt _, u32_of_lt⟩
  rw [hwrap]
  refine ⟨fun ⟨_, hc, d', _, _, hv', _⟩ => ⟨?_, hc⟩, fun ⟨hp, hc⟩ => ⟨hret, hc, ?_⟩⟩
  · by_contra hp
    exact hhigh hp d' hv'
  · obtain ⟨d', hentered⟩ := hlow hp
    exact hentered.entered

/-- The fifth of ascending keys splits a full leaf, and its right half takes it. -/
theorem btreeInsert_valid_iff_root_split : ∃ t t' d, ValidAt t d ∧
    t.count = 4 ∧ btreeInsert t [5] (List.replicate 983 5) = .ok (0, t') ∧
      (0 = 0 ∧ t'.count = t.count + 1 ∧ Entered t t' d [5] (List.replicate 983 5) ↔
        PlacesLow t [5] (List.replicate 983 5) ∧ t.count + 1 < 2 ^ 32) := by
  obtain ⟨t, ht, hp⟩ := exists_run_of_execute
    ([1, 2, 3, 4].map fun k => ([k], List.replicate 983 k))
    (fun t : Btree => decide (t.count = 4 ∧ RoomBelow t [5] (List.replicate 983 5) ∧
      (btreeInsert t [5] (List.replicate 983 5)).toOption.any fun r => r.1 = 0))
    (by decide +kernel : ((execute insertStep (fun t a => SizesFit a ∧ RoomBelow t a.1 a.2)
      (btreeInit fun _ => zeroPage) _).any _) = true)
  obtain ⟨hcount, hroom, hok⟩ := of_decide_eq_true hp
  obtain ⟨⟨ret, t'⟩, hins, hret⟩ := exists_ok_of_any hok
  obtain rfl : ret = 0 := of_decide_eq_true hret
  obtain ⟨d, hsound, hperm⟩ := SoundTree.of_run
    (ht.mono fun t a h => (⟨h.1, h.2.hasRoom⟩ : FindsRoom t a)) (by decide)
  have habsent : ⟨[5]⟩ ∉ (t.entries d).map Prod.fst := absent_of_perm hperm (by decide)
  have hsize : [(5 : UInt8)].length + (List.replicate 983 (5 : UInt8)).length < 2 ^ 31 := by
    rw [List.length_replicate]
    decide
  obtain ⟨hpages, hsplits⟩ := hsound.valid.insert_sound hsound.pages hroom.hasRoom hsize hins
  exact ⟨t, t', d, hsound.valid, hcount, hins, btreeInsert_valid_iff hsound.valid habsent
    (fun hmem => habsent (hsound.separators hmem)) hsize hins hsplits
    fun p hpos hlt => (hpages p hpos hlt).slotClash⟩

/-- After 5, 4, 3, 2 and 6 the left leaf has tombstones above its cells, and key 1
goes to the first of them. -/
theorem tombstone_above_cells : ∃ t t' d, ValidAt t d ∧
    ⟨[1]⟩ ∉ (t.entries d).map Prod.fst ∧ ⟨[1]⟩ ∉ separators t.view d t.root ∧
    btreeInsert t [1] (List.replicate 983 1) = .ok (0, t') ∧
    t'.internalSplits = t.internalSplits ∧
    (∀ p, 0 < p → p < t'.brk → (t'.node p).slotClash = false) ∧
    ¬ Entered t t' d [1] (List.replicate 983 1) := by
  obtain ⟨t, ht, hp⟩ := exists_run_of_execute
    ([5, 4, 3, 2, 6].map fun k => ([k], List.replicate 983 k))
    (fun t : Btree => decide (descend t [1] 15 [] t.root = .ok (some [1, 3]) ∧
      nodeIsFull (t.node 1) 1 983 = .ok false ∧ freeSpace (t.node 1) < newCellSize 1 983 ∧
      Chain (t.node 1).body (t.node 1).tombstoneOffset [3096, 2096] ∧
      96 ∈ offsets (t.node 1) ∧
      (btreeInsert t [1] (List.replicate 983 1)).toOption.any fun r => r.1 = 0 ∧
        r.2.internalSplits = t.internalSplits ∧ r.2.brk = 4 ∧
        ∀ p < 4, (r.2.node p).slotClash = false))
    (by decide +kernel : ((execute insertStep (fun t a => SizesFit a ∧ RoomBelow t a.1 a.2)
      (btreeInit fun _ => zeroPage) _).any _) = true)
  obtain ⟨hdescend, hopen, hfree, hchain, hcell, hok⟩ := of_decide_eq_true hp
  obtain ⟨⟨ret, t'⟩, hins, hret⟩ := exists_ok_of_any hok
  obtain ⟨hzero, hsplits, hbrk, hslots⟩ := of_decide_eq_true hret
  obtain rfl : ret = 0 := hzero
  obtain ⟨d, hsound, hperm⟩ := SoundTree.of_run
    (ht.mono fun t a h => (⟨h.1, h.2.hasRoom⟩ : FindsRoom t a)) (by decide)
  have habsent : ⟨[1]⟩ ∉ (t.entries d).map Prod.fst := absent_of_perm hperm (by decide)
  have hsep : ⟨[1]⟩ ∉ separators t.view d t.root := fun hmem => habsent (hsound.separators hmem)
  have hclear : ∀ p, 0 < p → p < t'.brk → (t'.node p).slotClash = false := fun p _ hlt =>
    hslots p (hbrk ▸ hlt)
  have hlen : (List.replicate 983 (1 : UInt8)).length = 983 := List.length_replicate
  have hnot : ¬ PlacesLow t [1] (List.replicate 983 1) := by
    rw [placesLow_of_room hdescend (by rw [hlen]; exact hopen), hlen]
    rintro (hroom | hlow)
    · exact absurd hroom (not_le.mpr hfree)
    · have hbelow := hlow _ hchain 96 (List.mem_append_left _ hcell)
      rw [hchain.1] at hbelow
      exact absurd hbelow (by decide)
  refine ⟨t, t', d, hsound.valid, habsent, hsep, hins, hsplits, hclear, ?_⟩
  rintro ⟨d', -, -, hv', -⟩
  have hentered := hsound.valid.insert habsent hsep (by rw [hlen]; decide) hins hsplits hclear
  exact hentered.2.2.2.2 hnot d' hv'

/-! ## What a call returns -/

/-- Some page that the pointers from the root lead to holds the key, a leaf or a branch. -/
def HoldsKey (t : Btree) (leaf : Bool) (key : List UInt8) : Prop :=
  ∃ p, t.Reaches p ∧ (t.node p).leaf = leaf ∧ ⟨key⟩ ∈ keys (t.node p)

def StoresKey (t : Btree) (key : List UInt8) : Prop := HoldsKey t true key

def Separates (t : Btree) (key : List UInt8) : Prop := HoldsKey t false key

theorem ValidAt.reaches_iff (h : ValidAt t d) : t.Reaches p ↔ p ∈ t.pids d := by
  constructor
  · intro hp
    induction hp with
    | root => exact mem_pids_self
    | child _ hq ih => exact h.ordered.mem_pids_child ih (List.mem_filter.mp hq).1
  · have hdown : ∀ e q, t.Reaches q → pids t.view e q ⊆ t.pids d →
        ∀ x ∈ pids t.view e q, t.Reaches x := by
      intro e
      induction e with
      | zero =>
          intro q hq _ x hx
          rwa [List.mem_singleton.mp hx]
      | succ e ih =>
          intro q hq hsub x hx
          rcases List.mem_cons.mp hx with rfl | hx
          · exact hq
          obtain ⟨c, hc, hx⟩ := List.mem_flatMap.mp hx
          have hcsub : pids t.view e c ⊆ t.pids d := fun y hy => hsub (pids_child_subset hc hy)
          have hpos := (h.pages c (hcsub mem_pids_self)).1
          have hchild : c ∈ childPids (t.node q) :=
            List.mem_filter.mpr ⟨hc, decide_eq_true hpos.ne'⟩
          exact ih c (.child hq hchild) hcsub x hx
    exact fun hp => hdown d t.root .root (List.Subset.refl _) p hp

theorem ValidAt.stored_iff (h : ValidAt t d) :
    StoresKey t key ↔ ⟨key⟩ ∈ (t.entries d).map Prod.fst := by
  constructor
  · rintro ⟨p, hp, hleaf, hkey⟩
    rw [← leafEntries_keys] at hkey
    obtain ⟨x, hx, hxkey⟩ := List.mem_map.mp hkey
    refine List.mem_map.mpr ⟨x, h.ordered.mem_entries.mpr ⟨p, h.reaches_iff.mp hp, ?_⟩, hxkey⟩
    rw [Btree.view, page_leaf hleaf]
    exact hx
  · intro hmem
    obtain ⟨x, hx, hxkey⟩ := List.mem_map.mp hmem
    obtain ⟨p, hp, hxp⟩ := h.ordered.mem_entries.mp hx
    cases hleaf : (t.node p).leaf with
    | true =>
        rw [Btree.view, page_leaf hleaf] at hxp
        refine ⟨p, h.reaches_iff.mpr hp, hleaf, ?_⟩
        rw [← leafEntries_keys, ← hxkey]
        exact List.mem_map_of_mem hxp
    | false =>
        rw [Btree.view, page_branch hleaf] at hxp
        exact absurd hxp List.not_mem_nil

theorem ValidAt.separates_iff (h : ValidAt t d) :
    Separates t key ↔ ⟨key⟩ ∈ SearchTree.separators t.view d t.root := by
  rw [h.ordered.mem_separators]
  constructor
  · rintro ⟨p, hp, hbranch, hkey⟩
    refine ⟨p, h.reaches_iff.mp hp, ?_⟩
    rw [Btree.view, page_branch hbranch, Page.seps, branchCells_keys]
    exact hkey
  · rintro ⟨p, hp, hkey⟩
    cases hleaf : (t.node p).leaf with
    | true =>
        rw [Btree.view, page_leaf hleaf] at hkey
        exact absurd hkey List.not_mem_nil
    | false =>
        rw [Btree.view, page_branch hleaf, Page.seps, branchCells_keys] at hkey
        exact ⟨p, h.reaches_iff.mpr hp, hleaf, hkey⟩

/-- A call on a sound tree returns 1 exactly for a separator, and then the tree stays. -/
theorem SoundTree.returns_one (h : SoundTree t d) (hkey : key.length < 2 ^ 32)
    (hins : btreeInsert t key value = .ok (ret, t')) :
    (ret = 1 ↔ Separates t key) ∧ (ret = 1 → t' = t) := by
  rw [h.valid.separates_iff]
  rcases btreeInsert_eq_ok hins with ⟨hnone, rfl, rfl⟩ | ⟨pid, above, t₁, c, t₂, hdescend, -, -, -,
    rfl⟩
  · exact ⟨iff_of_true rfl (h.found hkey hnone), fun _ => rfl⟩
  refine ⟨iff_of_false (by decide) fun hsep => ?_, fun hret => absurd hret (by decide)⟩
  -- a separator of a tree of two levels is a key of the root
  have hdepth := h.depth
  obtain rfl | rfl : d = 0 ∨ d = 1 := by omega
  · cases hsep
  have hbelow : ∀ l : List ℕ, l.flatMap (SearchTree.separators t.view 0) = [] := fun l =>
    List.flatMap_eq_nil_iff.mpr fun _ _ => rfl
  rw [SearchTree.separators, hbelow, List.append_nil] at hsep
  obtain ⟨-, -, ⟨hleaf, -⟩ | ⟨hbranch, idx, q, r, -, hs, -⟩⟩ := descend_eq_ok hdescend
  · rw [Btree.view, page_leaf hleaf] at hsep
    cases hsep
  rw [Btree.view, page_branch hbranch, Page.seps, branchCells_keys] at hsep
  have hroot : t.root ∈ t.pids 1 := mem_pids_self
  obtain ⟨-, -, hvalid⟩ := h.valid.pages t.root hroot
  have hlen := h.valid.keys_length hroot hsep
  rcases hvalid.place (h.valid.keys_sorted hroot) hlen hs with ⟨hf, -⟩ | ⟨-, -, hleft, hright⟩
  · cases hf
  rw [← List.take_append_drop idx (keys (t.node t.root))] at hsep
  rcases List.mem_append.mp hsep with hmem | hmem
  · exact lt_irrefl _ (hleft _ hmem)
  · exact lt_irrefl _ (hright _ hmem)

/-- A call finds room, and a key it meets again is a separator. -/
def RepeatsSeparators (t : Btree) (a : List UInt8 × List UInt8) : Prop :=
  FindsRoom t a ∧ (StoresKey t a.1 → Separates t a.1)

theorem SoundTree.step (h : SoundTree t d) (ha : RepeatsSeparators t a)
    (hstep : insertStep t a = some t') : ∃ d', SoundTree t' d' := by
  obtain ⟨ret, hins⟩ := insertStep_eq_some hstep
  by_cases hstored : StoresKey t a.1
  · obtain ⟨hone, hsame⟩ := h.returns_one ha.1.1.1 hins
    rw [hsame (hone.mpr (ha.2 hstored))]
    exact ⟨d, h⟩
  · rw [h.valid.stored_iff] at hstored
    obtain ⟨-, d', hsound, -⟩ := h.insert ha.1.1.1 ha.1.2 hstored hins
    exact ⟨d', hsound⟩

theorem SoundTree.of_reachable
    (h : Reachable insertStep RepeatsSeparators (btreeInit memory) t) : ∃ d, SoundTree t d :=
  Reachable.invariant (I := fun t => ∃ d, SoundTree t d) h ⟨0, btreeInit_sound⟩
    fun _ _ _ ⟨_, hsound⟩ ha hstep => hsound.step ha hstep

/-- On the trees that calls with room reach, no key is stored twice, and a call
returns 1 exactly for the stored keys as long as its key, if stored, is a
separator too; a call that returns 1 changes nothing. -/
theorem returns_one_iff (h : Reachable insertStep RepeatsSeparators (btreeInit memory) t) :
    (∃ levels es, (∀ fuel ≥ levels, walk t fuel t.root = some es) ∧ (es.map Prod.fst).Nodup) ∧
    ∀ key value ret t', SizesFit (key, value) → btreeInsert t key value = .ok (ret, t') →
      ((ret = 1 ↔ StoresKey t key) ↔ (StoresKey t key → Separates t key)) ∧ (ret = 1 → t' = t) := by
  obtain ⟨d, hsound⟩ := SoundTree.of_reachable h
  constructor
  · refine ⟨d + 1, _, fun fuel hfuel => hsound.walk_entries hfuel, ?_⟩
    have hsorted := hsound.valid.ordered.sorted.1
    have hkeys : ((t.entries d).map plain).map Prod.fst =
        ((t.entries d).map Prod.fst).map Key.bytes := by
      rw [List.map_map, List.map_map]
      rfl
    rw [hkeys]
    exact (hsorted.imp ne_of_lt).map _ fun x y hne heq => hne (Key.ext heq)
  · intro key value ret t' hsizes hins
    obtain ⟨hone, hsame⟩ := hsound.returns_one hsizes.1 hins
    have hsub : Separates t key → StoresKey t key := by
      rw [hsound.valid.separates_iff, hsound.valid.stored_iff]
      exact fun hmem => hsound.separators hmem
    refine ⟨?_, hsame⟩
    rw [hone]
    exact ⟨fun h => h.mpr, fun h => ⟨hsub, h⟩⟩

/-- In a run for distinct keys no key is stored when its call comes. -/
theorem reachable_of_distinct (h : Run insertStep FindsRoom (btreeInit memory) as t)
    (hdistinct : (as.map Prod.fst).Nodup) :
    Reachable insertStep RepeatsSeparators (btreeInit memory) t := by
  induction h with
  | nil => exact .start
  | @snoc as t u a hrun hroom hstep ih =>
      rw [List.map_append, List.nodup_append] at hdistinct
      obtain ⟨hold, -, hnew⟩ := hdistinct
      obtain ⟨d, hsound, hperm⟩ := SoundTree.of_run hrun hold
      refine (ih hold).next ⟨hroom, fun hstored => ?_⟩ hstep
      have habsent : (⟨a.1⟩ : Key) ∉ (t.entries d).map Prod.fst :=
        absent_of_perm hperm fun hmem => hnew a.1 hmem a.1 List.mem_cons_self rfl
      exact absurd (hsound.valid.stored_iff.mp hstored) habsent

/-- The separator of two leaves is met again. -/
theorem returns_one_iff_separator : ∃ t,
    Reachable insertStep RepeatsSeparators (btreeInit fun _ => zeroPage) t ∧
    btreeInsert t [3] [0] = .ok (1, t) ∧
      ((1 = 1 ↔ StoresKey t [3]) ↔ (StoresKey t [3] → Separates t [3])) := by
  obtain ⟨t, ht, hp⟩ := exists_run_of_execute
    ([1, 2, 3, 4, 5].map fun k => ([k], List.replicate 983 k))
    (fun t : Btree => (btreeInsert t [3] [0]).toOption.any fun r => r.1 = 1)
    (by decide +kernel : ((execute insertStep (fun t a => SizesFit a ∧ RoomBelow t a.1 a.2)
      (btreeInit fun _ => zeroPage) _).any _) = true)
  obtain ⟨⟨ret, t'⟩, hins, hret⟩ := exists_ok_of_any hp
  obtain rfl : ret = 1 := of_decide_eq_true hret
  have hreach := reachable_of_distinct
    (ht.mono fun t a h => (⟨h.1, h.2.hasRoom⟩ : FindsRoom t a)) (by decide)
  obtain ⟨hone, hsame⟩ := (returns_one_iff hreach).2 [3] [0] 1 t' ⟨by decide, by decide⟩ hins
  obtain rfl := hsame rfl
  exact ⟨t', hreach, hins, hone⟩

/-- A leaf that is the root is not searched before the entry goes in: a key put
twice is stored twice. -/
theorem stored_twice : ∃ t t', Run insertStep (fun _ a => SizesFit a)
    (btreeInit fun _ => zeroPage) [([1], [7])] t ∧ StoresKey t [1] ∧
    btreeInsert t [1] [8] = .ok (0, t') ∧
    walk t' 1 t'.root = some [([1], [8]), ([1], [7])] := by
  obtain ⟨t, ht, hp⟩ := exists_run_of_execute [([1], [7])]
    (fun t : Btree => decide ((t.node t.root).leaf = true ∧ ⟨[1]⟩ ∈ keys (t.node t.root) ∧
      (btreeInsert t [1] [8]).toOption.any fun r => r.1 = 0 ∧
        walk r.2 1 r.2.root = some [([1], [8]), ([1], [7])]))
    (by decide +kernel : ((execute insertStep (fun _ a => SizesFit a)
      (btreeInit fun _ => zeroPage) _).any _) = true)
  obtain ⟨hleaf, hkey, hok⟩ := of_decide_eq_true hp
  obtain ⟨⟨ret, t'⟩, hins, hret⟩ := exists_ok_of_any hok
  obtain ⟨hzero, hwalk⟩ := of_decide_eq_true hret
  obtain rfl : ret = 0 := hzero
  exact ⟨t, t', ht, ⟨t.root, .root, hleaf, hkey⟩, hins, hwalk⟩

/-! ## Calls that go through -/

theorem AtMostQuarter.lt {bytes : ℕ} (h : AtMostQuarter bytes) : bytes < 2 ^ 31 := by
  simp only [AtMostQuarter, quarterPage, nodeSize, sizeofNode, sizeofCell] at h
  omega

instance : Decidable (CutsInside t key value) := decidableAtLeaf

/-- The call ends in a failed assertion. -/
def failsAssertion : Except Failure α → Bool
  | .error .assertion => true
  | _ => false

theorem failsAssertion_iff {x : Except Failure α} :
    failsAssertion x = true ↔ x = .error .assertion := by
  rw [failsAssertion.eq_def]
  split <;> simp_all

/-- The left half of three cells of a quarter page and a smaller one has no room. -/
theorem insert_fails_left_half : ∃ t, Run insertStep
    (fun _ a => AtMostQuarter (a.1.length + a.2.length)) (btreeInit fun _ => zeroPage)
    [([1], List.replicate 983 1), ([3], List.replicate 983 3), ([4], List.replicate 983 4),
      ([5], List.replicate 880 5)] t ∧ AtMostQuarter (1 + 983) ∧
    btreeInsert t [2] (List.replicate 983 2) = .error .assertion := by
  have hany : ((execute insertStep (fun _ a => AtMostQuarter (a.1.length + a.2.length))
      (btreeInit fun _ => zeroPage)
      [([1], List.replicate 983 1), ([3], List.replicate 983 3), ([4], List.replicate 983 4),
        ([5], List.replicate 880 5)]).any fun t =>
      failsAssertion (btreeInsert t [2] (List.replicate 983 2))) = true := by
    decide +kernel
  obtain ⟨t, ht, hp⟩ := exists_run_of_execute _ _ hany
  exact ⟨t, ht, by decide, failsAssertion_iff.mp hp⟩

end IoScheduler
