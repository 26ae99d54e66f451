import IoScheduler.Dictionary
import IoScheduler.NodeFill
import IoScheduler.NodeRoom
import IoScheduler.NodeTombstones

/-!
# A leaf page as a dictionary

Inserts that find a place below the other blocks and deletions take a leaf page
through the same steps as a dictionary of its entries, and the search reads the
dictionary. The helper functions of the page tests check no more than that.
-/
namespace IoScheduler
open Machine Bytes SearchTree Transition Dictionary

variable {n m : Node} {f : Key → Option (List UInt8)} {idx : ℕ} {ts : List ℕ} {root : Bool}
  {key value : List UInt8} {k : Key} {op : Op Key (List UInt8)} {ops : List (Op Key (List UInt8))}

/-! ## Operations -/

/-- An insert for a missing key that is given a place, a deletion that returns 0. -/
def pageStep (n : Node) : Op Key (List UInt8) → Option Node
  | .insert key value => enterLeaf n key.bytes value
  | .delete key =>
      match nodeDeleteKey n key.bytes with
      | .ok (0, m) => some m
      | _ => none

/-- The sizes are those of their types, and a new cell fits. -/
def Serves (n : Node) : Op Key (List UInt8) → Prop
  | .insert key value => key.bytes.length + value.length < 2 ^ 31 ∧
      CellFits n key.bytes.length value.length
  | .delete key => key.bytes.length < 2 ^ 32

/-- A sound leaf whose entries are those of a dictionary, in order. -/
structure Holds (n : Node) (f : Key → Option (List UInt8)) : Prop where
  sound : SoundPage n
  leaf : n.leaf = true
  sorted : (keys n).Pairwise (· < ·)
  lists : Lists (leafEntries n) f

theorem Holds.wellFormed (h : Holds n f) : WellFormed n := ⟨h.sound.valid, h.sorted⟩

theorem Holds.mem_keys (h : Holds n f) : k ∈ keys n ↔ f k ≠ none := by
  rw [← leafEntries_keys]
  exact h.lists.mem_keys

theorem Holds.absent (h : Holds n f) (hkey : f k = none) : k ∉ keys n := fun hmem =>
  h.mem_keys.mp hmem hkey

/-- A missing key is searched for its place. -/
theorem Holds.missing (h : Holds n f) (hkey : key.length < 2 ^ 32) (hnone : f ⟨key⟩ = none) :
    ∃ idx, nodeBinSearch n key = .ok (false, idx) ∧ idx ≤ n.size := by
  obtain ⟨-, ts, hlayout, -⟩ := h.sound.valid
  exact hlayout.search_absent hkey (h.absent hnone)

/-- A key that is there is found in its slot. -/
theorem Holds.found (h : Holds n f) (hsome : f ⟨key⟩ = some value) : ∃ idx < n.size,
    nodeBinSearch n key = .ok (true, idx) ∧ nodeGetCell n key = .ok (some idx) ∧
      nodeCellPointers n idx = (key, value) := by
  obtain ⟨idx, hget, hread⟩ := h.wellFormed.getCell h.leaf ((h.lists _ _).mpr hsome)
  obtain ⟨⟨found, i⟩, hs, hcell⟩ := bind_eq_ok.mp hget
  dsimp only at hcell
  split_ifs at hcell with hfound
  · obtain ⟨_, hlt, hcell⟩ := bind_eq_ok.mp hcell
    obtain rfl := Option.some.inj (Except.ok.inj hcell)
    rw [hfound] at hs
    exact ⟨i, assert_eq_ok.mp hlt, hs, hget, hread⟩
  · cases hcell

/-- A missing key finds a place, and is entered there. -/
theorem Holds.insert (h : Holds n f) (hsize : key.length + value.length < 2 ^ 31)
    (hfits : CellFits n key.length value.length) (hnone : f ⟨key⟩ = none) :
    ∃ m, enterLeaf n key value = some m ∧
      Holds m (Function.update f ⟨key⟩ (some value)) := by
  obtain ⟨hcell, hlen⟩ := leafCell_fits h.leaf hsize
  obtain ⟨k, off, hget, hoff, htakes⟩ := h.sound.takes hfits hcell hlen
  obtain ⟨idx, hs, hidx⟩ := h.missing (by omega) hnone
  obtain ⟨m, hins, hm⟩ := htakes idx hidx
  obtain ⟨-, ts, hlayout, -⟩ := h.sound.valid
  have hapart : Apart (off, (leafCell key value).length) (slotArray (n.size + 1)) := by
    obtain ⟨k', off', hget', hlow, -⟩ := h.sound.place hfits
    obtain ⟨rfl, rfl⟩ := Prod.mk.inj (Except.ok.inj (hget.symm.trans hget'))
    exact .inr hlow
  obtain ⟨-, hmleaf, hentries⟩ :=
    (h.sound.valid.enter h.leaf hidx hget hoff hins hapart hsize).1 hfits.placedLow
  refine ⟨m, ?_, hm, hmleaf, hlayout.enter_sorted h.sorted (by omega) hs hentries, ?_⟩
  · have hplaced : nodeInsertNonfull n idx key value = .ok m := bind_eq_ok.mpr ⟨_, hget, hins⟩
    simp only [enterLeaf, hs, hget, if_neg hoff.ne', hplaced]
    rfl
  · rw [hentries]
    refine Lists.insert ?_ hnone
    rw [List.take_append_drop]
    exact h.lists

theorem Holds.refuses (h : Holds n f) (hsome : f ⟨key⟩ ≠ none) : enterLeaf n key value = none := by
  obtain ⟨v, hv⟩ := Option.ne_none_iff_exists'.mp hsome
  obtain ⟨idx, -, hs, -⟩ := h.found hv
  rw [enterLeaf, hs]

/-- A sound page stays sound without one of its cells. -/
theorem SoundPage.deleted (h : SoundPage n) (hlow : ∀ o ∈ offsets n ++ ts, n.cellOffset ≤ o)
    (hidx : idx < n.size) (hm : CellDeleted n m idx ts) : SoundPage m := by
  have hsize := hm.size
  have hco := hm.cellOffset
  refine ⟨⟨hco ▸ h.valid.1, cellPtr n idx :: ts, hm.layout, fun o ho => ?_⟩, ?_, hco ▸ h.top,
    hm.slotClash.trans h.slotClash⟩
  · rw [hco]
    rw [hm.offsets_eq] at ho
    simp only [List.mem_append, List.mem_cons] at ho
    rcases ho with (ho | ho) | rfl | ho
    · exact hlow o (List.mem_append_left _ (List.mem_of_mem_take ho))
    · exact hlow o (List.mem_append_left _ (List.mem_of_mem_drop ho))
    · exact hlow _ (List.mem_append_left _ (mem_offsets hidx))
    · exact hlow o (List.mem_append_right _ ho)
  · have hold := h.low
    rw [hco]
    simp only [slotOffset] at hold ⊢
    omega

theorem Holds.delete (h : Holds n f) (hsome : f ⟨key⟩ ≠ none) :
    ∃ m, nodeDeleteKey n key = .ok (0, m) ∧ Holds m (Function.update f ⟨key⟩ none) := by
  obtain ⟨v, hv⟩ := Option.ne_none_iff_exists'.mp hsome
  obtain ⟨idx, hidx, hs, -, hread⟩ := h.found hv
  obtain ⟨-, ts, hlayout, hlow⟩ := id h.sound.valid
  obtain ⟨m, hdel, hm⟩ := hlayout.delete hs hidx
  have hentries := hm.entries_eq hlayout h.sorted h.leaf hidx
  rw [show keyAt n idx = key from congrArg Prod.fst hread] at hentries
  refine ⟨m, hdel, h.sound.deleted hlow hidx hm, hm.leaf.trans h.leaf, ?_, ?_⟩
  · rw [← leafEntries_keys, hentries]
    have hsorted := h.sorted
    rw [← leafEntries_keys] at hsorted
    exact hsorted.sublist (List.filter_sublist.map Prod.fst)
  · rw [hentries]
    exact h.lists.delete

theorem Holds.keeps (h : Holds n f) (hkey : key.length < 2 ^ 32) (hnone : f ⟨key⟩ = none) :
    nodeDeleteKey n key = .ok (1, n) := by
  obtain ⟨idx, hs, -⟩ := h.missing hkey hnone
  exact bind_eq_ok.mpr ⟨_, hs, rfl⟩

theorem Holds.delete_step (h : Holds n f) (hsome : f k ≠ none) :
    ∃ m, pageStep n (.delete k) = some m ∧ Holds m (Function.update f k none) := by
  obtain ⟨m, hdel, hm⟩ : ∃ m, nodeDeleteKey n k.bytes = .ok (0, m) ∧ _ := h.delete hsome
  exact ⟨m, by simp only [pageStep, hdel], hm⟩

/-- A step of the page is one of the dictionary. -/
theorem Holds.step (h : Holds n f) (hserves : Serves n op) :
    ((pageStep n op).isSome ↔ (Dictionary.step f op).isSome) ∧
      ∀ m, pageStep n op = some m → ∃ g, Dictionary.step f op = some g ∧ Holds m g := by
  cases op with
  | insert k value =>
      rw [step_insert_isSome]
      by_cases hnone : f k = none
      · obtain ⟨m, hins, hm⟩ := h.insert hserves.1 hserves.2 hnone
        refine ⟨iff_of_true (Option.isSome_iff_exists.mpr ⟨m, hins⟩) hnone, fun m' hm' => ?_⟩
        obtain rfl := Option.some.inj (hins.symm.trans hm')
        exact ⟨_, step_insert hnone, hm⟩
      · have hins : pageStep n (.insert k value) = none := h.refuses hnone
        rw [hins]
        exact ⟨iff_of_false (by decide) hnone, fun m hm => by cases hm⟩
  | delete k =>
      rw [step_delete_isSome]
      by_cases hnone : f k = none
      · have hdel : pageStep n (.delete k) = none := by
          simp only [pageStep, h.keeps hserves hnone]
        rw [hdel]
        exact ⟨iff_of_false (by decide) (not_not.mpr hnone), fun m hm => by cases hm⟩
      · obtain ⟨m, hdel, hm⟩ := h.delete_step hnone
        refine ⟨iff_of_true (Option.isSome_iff_exists.mpr ⟨m, hdel⟩) hnone, fun m' hm' => ?_⟩
        obtain rfl := Option.some.inj (hdel.symm.trans hm')
        exact ⟨_, step_delete hnone, hm⟩

/-! ## Runs -/

theorem Holds.run (hn : Holds n f) (h : Run pageStep Serves n ops m) :
    ∃ g, Run Dictionary.step (fun _ _ => True) f ops g ∧ Holds m g :=
  h.simulates hn fun _ _ _ _ hr hserves hstep => (hr.step hserves).2 _ hstep

end IoScheduler
