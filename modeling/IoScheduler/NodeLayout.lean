import IoScheduler.NodeSearch
import IoScheduler.SearchTree

/-!
# The layout of a page

A page is laid out when its slot array, its live cells and the tombstones on
its chain lie inside it and are pairwise apart, and every live cell is as the
writers leave it. The live cells are given by their offsets: while a page is
being filled or split they are not the ones its size says. A laid out page
reads as a page of a search tree, and what a write away from a cell leaves of
the cell is all of it.
-/
namespace IoScheduler
open Machine Bytes SearchTree

/-- The offsets in the first slots of the slot array, and in all of it. -/
def slotList (n : Node) (slots : ℕ) : List ℕ := (List.range slots).map (cellPtr n)

def offsets (n : Node) : List ℕ := slotList n n.size

def entryAt (n : Node) (off : ℕ) : Key × List UInt8 := (⟨cellGetKey n off⟩, leafCellGetValue n off)

def separatorAt (n : Node) (off : ℕ) : Key × ℕ := (⟨cellGetKey n off⟩, cellPid n off)

def page (n : Node) : Page Key (List UInt8) ℕ :=
  if n.leaf then .leaf ((offsets n).map (entryAt n))
  else .branch ((offsets n).map (separatorAt n)) n.rightmostPid

/-- A total size that counts the key, and in a leaf the value. -/
def Whole (n : Node) (off : ℕ) : Prop :=
  cellTotalSize n off = cellKeySize n off + if n.leaf then cellValueSize n off else 0

/-- The tombstones from an offset on, up to the null that ends them. -/
def Chain (b : ℕ → UInt8) : ℕ → List ℕ → Prop
  | off, [] => off = 0
  | off, t :: ts => off = t ∧ t ≠ 0 ∧ Chain b (load32 b (t + 4)) ts

def tombstoneExtent (n : Node) (off : ℕ) : ℕ × ℕ := (off, max 8 (cellTombstoneSize n off))

/-- The extents of the cells and the tombstones. -/
def blocks (n : Node) (os ts : List ℕ) : List (ℕ × ℕ) :=
  os.map (cellExtent n) ++ ts.map (tombstoneExtent n)

def slotArray (slots : ℕ) : ℕ × ℕ := (sizeofNode, 4 * slots)

def Inside (x : ℕ × ℕ) : Prop := sizeofNode ≤ x.1 ∧ x.1 + x.2 ≤ nodeSize

structure Layout (n : Node) (slots : ℕ) (os ts : List ℕ) : Prop where
  chain : Chain n.body n.tombstoneOffset ts
  inside : ∀ x ∈ slotArray slots :: blocks n os ts, Inside x
  apart : (slotArray slots :: blocks n os ts).Pairwise Apart
  whole : ∀ o ∈ os, Whole n o

instance {n : Node} {off : ℕ} : Decidable (Whole n off) := inferInstanceAs (Decidable (_ = _))

instance {b : ℕ → UInt8} {ts : List ℕ} {off : ℕ} : Decidable (Chain b off ts) :=
  match ts with
  | [] => inferInstanceAs (Decidable (off = 0))
  | t :: ts =>
      have : Decidable (Chain b (load32 b (t + 4)) ts) := instDecidableChain
      inferInstanceAs (Decidable (off = t ∧ t ≠ 0 ∧ Chain b (load32 b (t + 4)) ts))

instance {x : ℕ × ℕ} : Decidable (Inside x) := inferInstanceAs (Decidable (_ ∧ _))

instance {n : Node} {slots : ℕ} {os ts : List ℕ} : Decidable (Layout n slots os ts) :=
  decidable_of_iff (Chain n.body n.tombstoneOffset ts ∧
      (∀ x ∈ slotArray slots :: blocks n os ts, Inside x) ∧
      (slotArray slots :: blocks n os ts).Pairwise Apart ∧ ∀ o ∈ os, Whole n o)
    ⟨fun ⟨h, i, a, w⟩ => ⟨h, i, a, w⟩, fun ⟨h, i, a, w⟩ => ⟨h, i, a, w⟩⟩

variable {n m : Node} {b c : ℕ → UInt8} {o off t slots idx len : ℕ} {os os' ts us : List ℕ}
  {key value bytes : List UInt8}

theorem length_offsets : (offsets n).length = n.size := by
  rw [offsets, slotList, List.length_map, List.length_range]

theorem getElem?_offsets :
    (offsets n)[idx]? = if idx < n.size then some (cellPtr n idx) else none := by
  rw [offsets, slotList, List.getElem?_map]
  by_cases h : idx < n.size
  · rw [List.getElem?_range h, if_pos h]
    rfl
  · rw [List.getElem?_eq_none (by rw [List.length_range]; omega), if_neg h]
    rfl

theorem drop_offsets_cons (h : idx < n.size) :
    (offsets n).drop idx = cellPtr n idx :: (offsets n).drop (idx + 1) := by
  have hlt : idx < (offsets n).length := by rwa [length_offsets]
  have hget : (offsets n)[idx] = cellPtr n idx := by
    have hsome : (offsets n)[idx]? = some (cellPtr n idx) := by rw [getElem?_offsets, if_pos h]
    rw [List.getElem?_eq_getElem hlt] at hsome
    exact Option.some.inj hsome
  rw [← hget, ← List.drop_eq_getElem_cons hlt]

theorem offsets_split (h : idx < n.size) :
    offsets n = (offsets n).take idx ++ cellPtr n idx :: (offsets n).drop (idx + 1) := by
  rw [← drop_offsets_cons h, List.take_append_drop]

theorem mem_offsets (h : idx < n.size) : cellPtr n idx ∈ offsets n :=
  List.mem_map_of_mem (List.mem_range.mpr h)

theorem slotList_succ : slotList n (slots + 1) = slotList n slots ++ [cellPtr n slots] := by
  rw [slotList, List.range_succ, List.map_append]
  rfl

theorem slotList_congr (h : ∀ i < slots, cellPtr m i = cellPtr n i) :
    slotList m slots = slotList n slots :=
  List.map_congr_left fun i hi => h i (List.mem_range.mp hi)

theorem cellPtr_lt : cellPtr n idx < 2 ^ 32 := load32_lt

theorem length_cellGetKey : (cellGetKey n o).length = cellKeySize n o := length_load

theorem length_leafCellGetValue : (leafCellGetValue n o).length = cellValueSize n o := length_load

/-! ## What a write leaves alone -/

/-- The bytes of a live cell are still there. -/
def Kept (n m : Node) (o : ℕ) : Prop := Agree n.body m.body o (sizeofCell + cellTotalSize n o)

theorem Kept.header (h : Kept n m o) : Agree n.body m.body o 16 :=
  h.mono le_rfl (by simp only [sizeofCell]; omega)

theorem keptHeader_totalSize (h : Agree n.body m.body o 16) :
    cellTotalSize m o = cellTotalSize n o := h.load32_eq (by omega) le_rfl

theorem keptHeader_keySize (h : Agree n.body m.body o 16) : cellKeySize m o = cellKeySize n o :=
  h.load32_eq (by omega) (by omega)

theorem keptHeader_valueSize (h : Agree n.body m.body o 16) :
    cellValueSize m o = cellValueSize n o := h.load32_eq (by omega) (by omega)

theorem keptHeader_pid (h : Agree n.body m.body o 16) : cellPid m o = cellPid n o :=
  h.load64_eq le_rfl (by omega)

theorem Kept.extent (h : Kept n m o) : cellExtent m o = cellExtent n o := by
  rw [cellExtent, cellExtent, keptHeader_totalSize h.header]

theorem Kept.whole (h : Kept n m o) (hleaf : m.leaf = n.leaf) (hw : Whole n o) : Whole m o := by
  rw [Whole, keptHeader_totalSize h.header, keptHeader_keySize h.header,
    keptHeader_valueSize h.header, hleaf]
  exact hw

theorem Kept.getKey (h : Kept n m o) (hw : cellKeySize n o ≤ cellTotalSize n o) :
    cellGetKey m o = cellGetKey n o := by
  rw [cellGetKey, cellGetKey, keptHeader_keySize h.header]
  exact (h.mono (by omega) (by omega)).load_eq

theorem Kept.getValue (h : Kept n m o)
    (hw : cellKeySize n o + cellValueSize n o ≤ cellTotalSize n o) :
    leafCellGetValue m o = leafCellGetValue n o := by
  rw [leafCellGetValue, leafCellGetValue, keptHeader_keySize h.header,
    keptHeader_valueSize h.header]
  exact (h.mono (by omega) (by omega)).load_eq

theorem Whole.keySize_le (h : Whole n o) : cellKeySize n o ≤ cellTotalSize n o := by
  rw [h]
  exact Nat.le_add_right _ _

theorem Whole.sizes_le (h : Whole n o) (hleaf : n.leaf = true) :
    cellKeySize n o + cellValueSize n o ≤ cellTotalSize n o := by
  rw [h, if_pos hleaf]

theorem Kept.entry (h : Kept n m o) (hw : Whole n o) (hleaf : n.leaf = true) :
    entryAt m o = entryAt n o := by
  rw [entryAt, entryAt, h.getKey hw.keySize_le, h.getValue (hw.sizes_le hleaf)]

theorem Kept.separator (h : Kept n m o) (hw : Whole n o) : separatorAt m o = separatorAt n o := by
  rw [separatorAt, separatorAt, h.getKey hw.keySize_le,
    keptHeader_pid h.header]

theorem Kept.trans {k : Node} (h : Kept n m o) (h' : Kept m k o) : Kept n k o := by
  rw [Kept, keptHeader_totalSize h.header] at h'
  exact Agree.trans h h'

/-- A tombstone is its first eight bytes. -/
theorem tombstoneExtent_congr (h : Agree n.body m.body t 8) :
    tombstoneExtent m t = tombstoneExtent n t := by
  have hsize : cellTombstoneSize m t = cellTombstoneSize n t := h.load32_eq le_rfl (by omega)
  rw [tombstoneExtent, tombstoneExtent, hsize]

theorem Chain.congr (h : Chain b off ts) (hts : ∀ t ∈ ts, Agree b c t 8) : Chain c off ts := by
  induction ts generalizing off with
  | nil => exact h
  | cons t ts ih =>
      obtain ⟨hoff, hne, htail⟩ := h
      refine ⟨hoff, hne, ?_⟩
      rw [(hts t List.mem_cons_self).load32_eq (by omega) le_rfl]
      exact ih htail fun x hx => hts x (List.mem_cons_of_mem _ hx)

theorem Chain.unique (h : Chain b off ts) (k : Chain b off us) : ts = us := by
  induction ts generalizing off us with
  | nil =>
      cases us with
      | nil => rfl
      | cons u us => exact absurd (k.1.symm.trans h) k.2.1
  | cons t ts ih =>
      cases us with
      | nil => exact absurd (h.1.symm.trans k) h.2.1
      | cons u us =>
          obtain ⟨rfl, -, hu⟩ := k
          obtain ⟨rfl, -, ht⟩ := h
          rw [ih ht hu]

/-- A chain that reads the same above a bound leads below it if the other does. -/
theorem Chain.reaches {low : ℕ} (h : Chain b off ts) (k : Chain c off us)
    (hagree : ∀ t ∈ ts, low ≤ t → Agree b c t 8) (ho : o ∈ ts) (hlow : o < low) :
    ∃ x ∈ us, x < low := by
  induction ts generalizing off us with
  | nil => cases ho
  | cons t ts ih =>
      obtain ⟨rfl, hne, htail⟩ := h
      cases us with
      | nil => exact absurd k hne
      | cons u us =>
          obtain ⟨rfl, -, ku⟩ := k
          rcases Nat.lt_or_ge off low with hlt | hge
          · exact ⟨off, List.mem_cons_self, hlt⟩
          · have hnext := (hagree off List.mem_cons_self hge).load32_eq
              (show off ≤ off + 4 by omega) le_rfl
            rw [hnext] at ku
            have hmem : o ∈ ts := (List.mem_cons.mp ho).resolve_left (by omega)
            obtain ⟨x, hx, hlt⟩ := ih htail ku
              (fun t ht => hagree t (List.mem_cons_of_mem _ ht)) hmem
            exact ⟨x, List.mem_cons_of_mem _ hx, hlt⟩

theorem slot_within (h : idx < slots) : Within (slotOffset idx, 4) (slotArray slots) :=
  ⟨Nat.le_add_right _ _, by simp only [slotArray, slotOffset]; omega⟩

/-- The slots of a page whose slot array is left alone. -/
theorem offsets_congr (hsize : m.size = n.size)
    (h : Agree n.body m.body (slotArray n.size).1 (slotArray n.size).2) :
    offsets m = offsets n := by
  rw [offsets, offsets, hsize, slotList, slotList]
  refine List.map_congr_left fun i hi => ?_
  have hwithin := slot_within (List.mem_range.mp hi)
  exact h.load32_eq hwithin.1 hwithin.2

/-! ## Laid out pages -/

theorem Layout.cell_inside (h : Layout n slots os ts) (ho : o ∈ os) : Inside (cellExtent n o) :=
  h.inside _ (List.mem_cons_of_mem _ (List.mem_append_left _ (List.mem_map_of_mem ho)))

theorem Layout.tombstone_inside (h : Layout n slots os ts) (ht : t ∈ ts) :
    Inside (tombstoneExtent n t) :=
  h.inside _ (List.mem_cons_of_mem _ (List.mem_append_right _ (List.mem_map_of_mem ht)))

theorem Layout.slots_le (h : Layout n slots os ts) : slotOffset slots ≤ nodeSize :=
  (h.inside _ List.mem_cons_self).2

theorem Layout.size_lt (h : Layout n slots os ts) : slots < 2 ^ 31 := by
  have hle := h.slots_le
  simp only [slotOffset, sizeofNode, nodeSize] at hle
  omega

theorem Layout.blocks_apart (h : Layout n slots os ts) : (blocks n os ts).Pairwise Apart :=
  (List.pairwise_cons.mp h.apart).2

theorem Layout.slots_apart (h : Layout n slots os ts) {x : ℕ × ℕ} (hx : x ∈ blocks n os ts) :
    Apart (slotArray slots) x := (List.pairwise_cons.mp h.apart).1 x hx

theorem Layout.cell_tombstone_apart (h : Layout n slots os ts) (ho : o ∈ os) (ht : t ∈ ts) :
    Apart (cellExtent n o) (tombstoneExtent n t) :=
  (List.pairwise_append.mp h.blocks_apart).2.2 _ (List.mem_map_of_mem ho) _ (List.mem_map_of_mem ht)

theorem Layout.keySize_lt (h : Layout n slots os ts) (ho : o ∈ os) :
    cellKeySize n o < nodeSize := by
  have hin := (h.cell_inside ho).2
  have hle := (h.whole o ho).keySize_le
  simp only [cellExtent, sizeofCell] at hin
  omega

theorem blocks_congr (hos : ∀ o ∈ os, Kept n m o) (hts : ∀ t ∈ ts, Agree n.body m.body t 8) :
    blocks m os ts = blocks n os ts := by
  rw [blocks, blocks, List.map_congr_left fun o ho => (hos o ho).extent,
    List.map_congr_left fun t ht => tombstoneExtent_congr (hts t ht)]

/-- A new cell at `off` of length `len`, with one slot more, where the
tombstones left are `us`. -/
theorem Layout.insert (h : Layout n slots os ts) (hkept : ∀ o ∈ os, Kept n m o)
    (hleaf : m.leaf = n.leaf) (hwhole : Whole m off) (hext : cellExtent m off = (off, len))
    (hos : os'.Perm (off :: os)) (hchain : Chain m.body m.tombstoneOffset us)
    (hslots : Inside (slotArray (slots + 1))) (hnew : Inside (off, len))
    (hus : ∀ t ∈ us, Inside (tombstoneExtent m t))
    (hslot : Apart (slotArray (slots + 1)) (off, len))
    (hrest : ∀ x ∈ os.map (cellExtent n) ++ us.map (tombstoneExtent m),
      Apart (slotArray (slots + 1)) x ∧ Apart (off, len) x)
    (hold : (os.map (cellExtent n) ++ us.map (tombstoneExtent m)).Pairwise Apart) :
    Layout m (slots + 1) os' us := by
  have hblocks : (blocks m os' us).Perm
      ((off, len) :: (os.map (cellExtent n) ++ us.map (tombstoneExtent m))) := by
    have hmap : os.map (cellExtent m) = os.map (cellExtent n) :=
      List.map_congr_left fun o ho => (hkept o ho).extent
    have hcells := hos.map (cellExtent m)
    rw [List.map_cons, hext, hmap] at hcells
    exact hcells.append_right _
  refine ⟨hchain, fun x hx => ?_, ?_, fun o ho => ?_⟩
  · rcases List.mem_cons.mp hx with rfl | hx
    · exact hslots
    · rcases List.mem_cons.mp (hblocks.mem_iff.mp hx) with rfl | hx
      · exact hnew
      · rcases List.mem_append.mp hx with hx | hx
        · obtain ⟨o, ho, rfl⟩ := List.mem_map.mp hx
          exact h.cell_inside ho
        · obtain ⟨t, ht, rfl⟩ := List.mem_map.mp hx
          exact hus t ht
  · refine (pairwise_apart_perm (hblocks.cons _)).mpr ?_
    refine List.pairwise_cons.mpr ⟨fun x hx => ?_, List.pairwise_cons.mpr
      ⟨fun x hx => (hrest x hx).2, hold⟩⟩
    rcases List.mem_cons.mp hx with rfl | hx
    · exact hslot
    · exact (hrest x hx).1
  · rcases List.mem_cons.mp (hos.mem_iff.mp ho) with rfl | ho
    · exact hwhole
    · exact (hkept o ho).whole hleaf (h.whole o ho)

end IoScheduler
