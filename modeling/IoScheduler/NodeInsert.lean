import IoScheduler.NodeLayout

/-!
# Writing a cell into a page

What the writers of one page do: a cell entered at an index moves the slots
behind it, a child pointer is replaced in its cell, and a place for a cell comes
from below `cell_offset` or from the first tombstone. Each has one lemma that
says everything it does; the layout of the page after them follows.
-/
namespace IoScheduler
open Machine Bytes SearchTree

variable {n m : Node} {a off idx need i : ℕ} {os ts live : List ℕ} {bytes key value : List UInt8}
  {x : ℕ × ℕ}

theorem Node.write_eq_ok : n.write a bytes = .ok m ↔
    Inside (a, bytes.length) ∧ m = { n with body := store n.body a bytes } := by
  rw [Node.write]
  split_ifs with h
  · exact ⟨fun hok => ⟨h, (Except.ok.inj hok).symm⟩, fun hok => by rw [hok.2]⟩
  · exact iff_of_false (nomatch ·) fun hok => h hok.1

theorem Node.write_ok (h : Inside (a, bytes.length)) :
    n.write a bytes = .ok { n with body := store n.body a bytes } := if_pos h

/-! ## Entering a cell -/

structure CellInserted (n m : Node) (off idx : ℕ) (bytes : List UInt8) : Prop where
  rightmostPid : m.rightmostPid = n.rightmostPid
  parentPid : m.parentPid = n.parentPid
  tombstoneOffset : m.tombstoneOffset = n.tombstoneOffset
  tombstoneBytes : m.tombstoneBytes = n.tombstoneBytes
  leaf : m.leaf = n.leaf
  root : m.root = n.root
  cellOffset : m.cellOffset = off
  size : m.size = n.size + 1
  inside : Inside (off, bytes.length)
  slots : Inside (slotArray (n.size + 1))
  offsets_eq : offsets m = (offsets n).take idx ++ off :: (offsets n).drop idx
  loaded : load m.body off bytes.length = bytes
  agree : ∀ x : ℕ × ℕ, Apart x (slotOffset idx, 4 * (n.size + 1 - idx)) →
    Apart x (off, bytes.length) → Agree n.body m.body x.1 x.2

/-- The offsets of a page that gained a slot. -/
theorem offsets_insert (hsize : m.size = n.size + 1) (hidx : idx ≤ n.size)
    (hlow : ∀ i < idx, cellPtr m i = cellPtr n i) (hat : cellPtr m idx = off)
    (hhigh : ∀ i, idx ≤ i → i < n.size → cellPtr m (i + 1) = cellPtr n i) :
    offsets m = (offsets n).take idx ++ off :: (offsets n).drop idx := by
  have hlen : ((offsets n).take idx).length = idx := by
    rw [List.length_take, length_offsets, min_eq_left hidx]
  refine List.ext_getElem? fun i => ?_
  rw [getElem?_offsets, hsize]
  rcases lt_trichotomy i idx with hi | rfl | hi
  · rw [List.getElem?_append_left (by omega), List.getElem?_take, if_pos hi, getElem?_offsets,
      hlow i hi, if_pos (by omega), if_pos (by omega)]
  · rw [List.getElem?_append_right hlen.le, hlen, Nat.sub_self, List.getElem?_cons_zero, hat,
      if_pos (by omega)]
  · obtain ⟨j, rfl⟩ : ∃ j, i = j + 1 := ⟨i - 1, by omega⟩
    rw [List.getElem?_append_right (by omega), hlen, show j + 1 - idx = j - idx + 1 by omega,
      List.getElem?_cons_succ, List.getElem?_drop, getElem?_offsets,
      show idx + (j - idx) = j by omega]
    by_cases hj : j < n.size
    · rw [if_pos (by omega), if_pos hj, hhigh j (by omega) hj]
    · rw [if_neg (by omega), if_neg hj]

/-- The slot array after a slot was moved in: what the three stores do to it. -/
theorem slots_stored {b : ℕ → UInt8} {size : ℕ} (hidx : idx ≤ size) (hoff : off < 2 ^ 32)
    (hslots : Apart (off, bytes.length) (slotArray (size + 1))) :
    let c := store (store (store b (slotOffset (idx + 1))
      (load b (slotOffset idx) (4 * (size - idx)))) (slotOffset idx) (bytes32 off)) off bytes
    (∀ i < idx, load32 c (slotOffset i) = load32 b (slotOffset i)) ∧
      load32 c (slotOffset idx) = off ∧
      (∀ i, idx ≤ i → i < size → load32 c (slotOffset (i + 1)) = load32 b (slotOffset i)) ∧
      ∀ x : ℕ × ℕ, Apart x (slotOffset idx, 4 * (size + 1 - idx)) → Apart x (off, bytes.length) →
        Agree b c x.1 x.2 := by
  intro c
  have hslot : ∀ i ≤ size, load32 c (slotOffset i) = load32 (store (store b (slotOffset (idx + 1))
      (load b (slotOffset idx) (4 * (size - idx)))) (slotOffset idx) (bytes32 off))
        (slotOffset i) := fun i hi => by
    have hapart : Apart (slotOffset i, 4) (off, bytes.length) :=
      hslots.symm.mono_left ⟨by simp only [slotArray, slotOffset]; omega,
        by simp only [slotArray, slotOffset]; omega⟩
    exact (agree_store hapart).load32_eq le_rfl le_rfl
  refine ⟨fun i hi => ?_, ?_, fun i hi hlt => ?_, fun x hx hy => ?_⟩
  · rw [hslot i (by omega)]
    have hentered : Apart (slotOffset i, 4) (slotOffset idx, (bytes32 off).length) :=
      .inl (by simp only [slotOffset]; omega)
    have hmoved : Apart (slotOffset i, 4)
        (slotOffset (idx + 1), (load b (slotOffset idx) (4 * (size - idx))).length) :=
      .inl (by simp only [slotOffset]; omega)
    rw [(agree_store hentered).load32_eq le_rfl le_rfl,
      (agree_store hmoved).load32_eq le_rfl le_rfl]
  · rw [hslot idx hidx]
    have hself : load (store (store b (slotOffset (idx + 1))
        (load b (slotOffset idx) (4 * (size - idx)))) (slotOffset idx) (bytes32 off))
        (slotOffset idx) (bytes32 off).length = bytes32 off := load_store_self
    rw [length_bytes32] at hself
    rw [load32, hself, bytes32, word_bytesOf (by omega)]
  · rw [hslot (i + 1) hlt]
    have hentered : Apart (slotOffset (i + 1), 4) (slotOffset idx, (bytes32 off).length) :=
      .inr (by simp only [slotOffset, length_bytes32]; omega)
    have hmoved : load (store b (slotOffset (idx + 1)) (load b (slotOffset idx) (4 * (size - idx))))
        (slotOffset (idx + 1) + 4 * (i - idx)) 4 = load b (slotOffset idx + 4 * (i - idx)) 4 :=
      load_store_load (by omega)
    rw [(agree_store hentered).load32_eq le_rfl le_rfl, load32, load32,
      show slotOffset (i + 1) = slotOffset (idx + 1) + 4 * (i - idx) by
        simp only [slotOffset]; omega, hmoved,
      show slotOffset idx + 4 * (i - idx) = slotOffset i by simp only [slotOffset]; omega]
  · have hmoved : Apart x
        (slotOffset (idx + 1), (load b (slotOffset idx) (4 * (size - idx))).length) :=
      hx.mono ⟨by simp only [slotOffset]; omega, by simp only [slotOffset, length_load]; omega⟩
    have hentered : Apart x (slotOffset idx, (bytes32 off).length) :=
      hx.mono ⟨le_rfl, by simp only [length_bytes32]; omega⟩
    exact ((agree_store hmoved).trans (agree_store hentered)).trans (agree_store hy)

/-! What the ghost flags remember. -/

theorem watch_clash : (n.watch live i x).clash = false ↔
    n.clash = false ∧ Apart x (slotArray i) ∧ ∀ j ∈ live, Apart x (cellExtent n (cellPtr n j)) := by
  simp [Node.watch, slotArray, and_assoc]

theorem nodeInsertCell_slotClash (h : nodeInsertCell n off idx bytes = .ok m)
    (hm : m.slotClash = false) :
    n.slotClash = false ∧ Apart (off, bytes.length) (slotArray (n.size + 1)) := by
  simp only [nodeInsertCell, bind_eq_ok, Node.write_eq_ok, Node.watchCell, Node.watch] at h
  obtain ⟨_, ⟨-, rfl⟩, _, ⟨-, rfl⟩, _, ⟨-, rfl⟩, h⟩ := h
  obtain rfl := Except.ok.inj h
  simpa [slotArray] using hm

/-- A cell and its slot that lie in the page and apart are entered. -/
theorem nodeInsertCell_isOk (hidx : idx ≤ n.size) (hslots : Inside (slotArray (n.size + 1)))
    (hin : Inside (off, bytes.length))
    (hapart : Apart (off, bytes.length) (slotArray (n.size + 1))) :
    ∃ m, nodeInsertCell n off idx bytes = .ok m ∧ m.slotClash = n.slotClash := by
  have hend := hslots.2
  simp only [slotArray, sizeofNode, nodeSize] at hend
  have hsub : sub32 n.size idx = n.size - idx := sub32_of_le (by omega) hidx
  have hnext : u32 (idx + 1) = idx + 1 := u32_of_lt (by omega)
  have hmoved : Inside (slotOffset (idx + 1),
      (load n.body (slotOffset idx) (4 * (n.size - idx))).length) := by
    refine ⟨Nat.le_add_right _ _, ?_⟩
    simp only [slotOffset, length_load, sizeofNode, nodeSize]
    omega
  have hentered : Inside (slotOffset idx, (bytes32 off).length) := by
    refine ⟨Nat.le_add_right _ _, ?_⟩
    simp only [slotOffset, length_bytes32, sizeofNode, nodeSize]
    omega
  simp only [nodeInsertCell, hsub, hnext, Node.watchCell, Node.watch, Node.write_ok hmoved,
    Node.write_ok hentered, Node.write_ok hin]
  refine ⟨_, rfl, ?_⟩
  rw [slotArray] at hapart
  simp [hapart]

theorem nodeInsertCell_inside (h : nodeInsertCell n off idx bytes = .ok m) :
    Inside (off, bytes.length) := by
  simp only [nodeInsertCell, bind_eq_ok, Node.write_eq_ok] at h
  obtain ⟨_, -, _, -, _, ⟨hin, -⟩, -⟩ := h
  exact hin

/-- The slots of a page that gains a cell still lie in it, wherever the cell goes. -/
theorem nodeInsertCell_header (h : nodeInsertCell n off idx bytes = .ok m) (hidx : idx ≤ n.size)
    (hsize : slotOffset n.size ≤ nodeSize) : slotOffset (n.size + 1) ≤ nodeSize ∧
      m.size = n.size + 1 ∧ m.cellOffset = off ∧ m.tombstoneOffset = n.tombstoneOffset := by
  simp only [slotOffset, sizeofNode, nodeSize] at hsize
  have hsub : sub32 n.size idx = n.size - idx := sub32_of_le (by omega) hidx
  have hnext : u32 (idx + 1) = idx + 1 := u32_of_lt (by omega)
  simp only [nodeInsertCell, bind_eq_ok, Node.write_eq_ok, Node.watchCell, Node.watch, hsub,
    hnext] at h
  obtain ⟨_, ⟨⟨-, hend⟩, rfl⟩, _, ⟨-, rfl⟩, _, ⟨-, rfl⟩, h⟩ := h
  obtain rfl := Except.ok.inj h
  refine ⟨?_, u32_of_lt (by omega), rfl, rfl⟩
  simp only [slotOffset, length_load] at hend ⊢
  omega

theorem nodeInsertCell_clash (h : nodeInsertCell n off idx bytes = .ok m)
    (hm : m.clash = false) :
    n.clash = false ∧ Apart (off, bytes.length) (slotArray (n.size + 1)) ∧ ∀ i < n.size,
      Apart (slotOffset idx, 4 + 4 * sub32 n.size idx) (cellExtent n (cellPtr n i)) ∧
        Apart (off, bytes.length) (cellExtent n (cellPtr n i)) := by
  simp only [nodeInsertCell, bind_eq_ok, Node.write_eq_ok, Node.watchCell] at h
  obtain ⟨_, ⟨-, rfl⟩, _, ⟨-, rfl⟩, _, ⟨-, rfl⟩, h⟩ := h
  obtain rfl := Except.ok.inj h
  obtain ⟨hfirst, hslots, hcells⟩ := watch_clash.mp hm
  obtain ⟨hn, -, hmoved⟩ := watch_clash.mp hfirst
  exact ⟨hn, hslots, fun i hi =>
    ⟨hmoved i (List.mem_range.mpr hi), hcells i (List.mem_range.mpr hi)⟩⟩

theorem nodeInsertCell_spec (h : nodeInsertCell n off idx bytes = .ok m) (hidx : idx ≤ n.size)
    (hsize : slotOffset n.size ≤ nodeSize) (hoff : off < 2 ^ 32)
    (hslots : Apart (off, bytes.length) (slotArray (n.size + 1))) :
    CellInserted n m off idx bytes := by
  have hlt : n.size < 2 ^ 10 := by
    simp only [slotOffset, sizeofNode, nodeSize] at hsize
    omega
  have hsub : sub32 n.size idx = n.size - idx := sub32_of_le (by omega) hidx
  have hnext : u32 (idx + 1) = idx + 1 := u32_of_lt (by omega)
  have hsucc : u32 (n.size + 1) = n.size + 1 := u32_of_lt (by omega)
  simp only [nodeInsertCell, bind_eq_ok, Node.write_eq_ok, Node.watchCell, Node.watch, hsub, hnext,
    hsucc] at h
  obtain ⟨_, ⟨hmoved, rfl⟩, _, ⟨hentered, rfl⟩, _, ⟨hwritten, rfl⟩, h⟩ := h
  obtain rfl := Except.ok.inj h
  obtain ⟨hlow, hat, hhigh, hagree⟩ := slots_stored (b := n.body) hidx hoff hslots
  refine ⟨rfl, rfl, rfl, rfl, rfl, rfl, rfl, rfl, hwritten, ⟨le_rfl, ?_⟩, ?_, load_store_self,
    hagree⟩
  · have hend := hmoved.2
    simp only [slotOffset, length_load, slotArray] at hend ⊢
    omega
  · exact offsets_insert rfl hidx hlow hat hhigh

/-! ## What was written -/

theorem length_leafCell :
    (leafCell key value).length = sizeofCell + (key.length + value.length) := by
  simp only [leafCell, List.length_append, length_bytes32, sizeofCell]
  omega

theorem length_internalCell {pid : ℕ} :
    (internalCell key pid).length = sizeofCell + key.length := by
  simp only [internalCell, List.length_append, length_bytes32, length_bytes64, sizeofCell]
  omega

/-- A 32-bit field of stored bytes. -/
theorem load32_part {b : ℕ → UInt8} {v e : ℕ} (xs ys : List UInt8)
    (h : load b a bytes.length = bytes) (hbytes : bytes = xs ++ (bytes32 v ++ ys))
    (he : e = a + xs.length) (hv : v < 2 ^ 32) : load32 b e = v := by
  have hload := load_part _ _ _ h hbytes
  rw [length_bytes32] at hload
  rw [he, load32, hload, bytes32, word_bytesOf (by omega)]

theorem leafCell_read (h : load n.body off (leafCell key value).length = leafCell key value)
    (hlen : key.length + value.length < 2 ^ 32) :
    cellKeySize n off = key.length ∧ cellValueSize n off = value.length ∧
      cellTotalSize n off = key.length + value.length ∧ entryAt n off = (⟨key⟩, value) := by
  have hvalue : cellValueSize n off = value.length :=
    load32_part (bytes32 0) _ h rfl (by simp) (by omega)
  have hkey : cellKeySize n off = key.length :=
    load32_part (bytes32 0 ++ bytes32 value.length) _ h (List.append_assoc _ _ _).symm
      (by simp) (by omega)
  have htotal : cellTotalSize n off = key.length + value.length := by
    refine load32_part (bytes32 0 ++ (bytes32 value.length ++ bytes32 key.length)) (key ++ value)
      h ?_ (by simp) hlen
    rw [leafCell, u32_of_lt hlen]
    simp only [List.append_assoc]
  have hkeyBytes := load_part (bytes32 0 ++ (bytes32 value.length ++ (bytes32 key.length ++
    bytes32 (u32 (key.length + value.length))))) key value h
    (by simp only [leafCell, List.append_assoc])
  have hvalueBytes := load_part (bytes32 0 ++ (bytes32 value.length ++ (bytes32 key.length ++
    (bytes32 (u32 (key.length + value.length)) ++ key)))) value [] h
    (by simp only [leafCell, List.append_assoc, List.append_nil])
  refine ⟨hkey, hvalue, htotal, ?_⟩
  simp only [List.length_append, length_bytes32] at hkeyBytes hvalueBytes
  rw [entryAt, cellGetKey, leafCellGetValue, hkey, hvalue, sizeofCell, hkeyBytes,
    show off + 16 + key.length = off + (4 + (4 + (4 + (4 + key.length)))) by omega, hvalueBytes]

theorem internalCell_read {pid : ℕ}
    (h : load n.body off (internalCell key pid).length = internalCell key pid)
    (hlen : key.length < 2 ^ 32) (hpid : pid < 2 ^ 64) :
    cellKeySize n off = key.length ∧ cellTotalSize n off = key.length ∧
      separatorAt n off = (⟨key⟩, pid) := by
  have hkey : cellKeySize n off = key.length :=
    load32_part (bytes64 pid) _ h rfl (by simp) hlen
  have htotal : cellTotalSize n off = key.length :=
    load32_part (bytes64 pid ++ bytes32 key.length) _ h (List.append_assoc _ _ _).symm
      (by simp) hlen
  have hkeyBytes := load_part (bytes64 pid ++ (bytes32 key.length ++ bytes32 key.length)) key [] h
    (by simp only [internalCell, List.append_assoc, List.append_nil])
  have hpidBytes := load_part [] (bytes64 pid) (bytes32 key.length ++ (bytes32 key.length ++ key))
    h rfl
  refine ⟨hkey, htotal, ?_⟩
  simp only [List.length_append, length_bytes32, length_bytes64] at hkeyBytes
  simp only [List.length_nil, Nat.add_zero, length_bytes64] at hpidBytes
  rw [separatorAt, cellGetKey, hkey, sizeofCell, cellPid, load64, hpidBytes, bytes64,
    word_bytesOf (by omega)]
  exact congrArg (fun k => ((⟨k⟩ : Key), pid)) hkeyBytes

/-- Bytes that are a cell of a page with or without the leaf flag. -/
def IsCell (leaf : Bool) (bytes : List UInt8) : Prop :=
  ∀ (n : Node) (off : ℕ), n.leaf = leaf → load n.body off bytes.length = bytes →
    cellExtent n off = (off, bytes.length) ∧ Whole n off

theorem leafCell_isCell (hlen : key.length + value.length < 2 ^ 32) :
    IsCell true (leafCell key value) := by
  intro n off hleaf h
  obtain ⟨hkey, hvalue, htotal, -⟩ := leafCell_read h hlen
  exact ⟨by rw [cellExtent, htotal, length_leafCell],
    by rw [Whole, hkey, hvalue, htotal, if_pos hleaf]⟩

theorem internalCell_isCell {pid : ℕ} (hlen : key.length < 2 ^ 32) (hpid : pid < 2 ^ 64) :
    IsCell false (internalCell key pid) := by
  intro n off hleaf h
  obtain ⟨hkey, htotal, -⟩ := internalCell_read h hlen hpid
  exact ⟨by rw [cellExtent, htotal, length_internalCell],
    by rw [Whole, hkey, htotal, if_neg (by simp [hleaf]), Nat.add_zero]⟩

end IoScheduler
