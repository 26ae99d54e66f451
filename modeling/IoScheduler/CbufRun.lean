import IoScheduler.Cbuf
import IoScheduler.Memory
import IoScheduler.Transition

/-!
# The ring buffer in use

A producer writes items contiguously from the pointer of `cbuf_put`, a consumer
reads them contiguously from the pointer of `cbuf_get`. The model keeps what was
produced and consumed, and where each item not yet consumed was written. Since
`cbuf_idx` counts in bytes and wraps at `len - 1`, an item is read back only if
nothing was written over it and the reader comes to the place it was written at.
-/
namespace IoScheduler
open Machine Transition Memory

/-- Both halves of the mapping are the same `sz` bytes. -/
def mirror (sz a : ℕ) : ℕ := a % sz

structure Ring where
  cbuf : Cbuf
  mem : ℕ → UInt8
  produced : List (List UInt8)
  consumed : List (List UInt8)
  places : List ℕ
  faulted : Bool

inductive RingAct where
  | produce (items : List (List UInt8))
  | consume (n : ℕ)

namespace Ring

def itemSize (r : Ring) : ℕ := r.cbuf.itemSize

def sz (r : Ring) : ℕ := cbufSz r.cbuf.itemSize r.cbuf.len

/-- An access past the second mapping. -/
def outside (r : Ring) (start n : ℕ) : Bool := decide (0 < n ∧ 2 * r.sz < start + n)

/-- The offsets of `n` consecutive items. -/
def offsets (r : Ring) (start n : ℕ) : List ℕ :=
  (List.range n).map fun j => start + j * r.itemSize

end Ring

/-- The state after `cbuf_init`; a fresh memory file is filled with zeros. -/
def ringInit (itemSize len : ℕ) : Ring :=
  { cbuf := cbufInit itemSize len, mem := fun _ => 0, produced := [], consumed := [],
    places := [], faulted := false }

/-- `cbuf_put`, the producer's stores, `cbuf_advance_tail`. -/
def produce (items : List (List UInt8)) (r : Ring) : Option Ring := do
  let (start, free) ← cbufPut r.cbuf
  if items.length ≤ free ∧ ∀ x ∈ items, x.length = r.itemSize then
    some
      { cbuf := cbufAdvanceTail r.cbuf items.length
        mem := write (mirror r.sz) r.mem start items.flatten
        produced := r.produced ++ items
        consumed := r.consumed
        places := r.places ++ r.offsets start items.length
        faulted := r.faulted || r.outside start (items.length * r.itemSize) }
  else none

/-- `cbuf_get`, the consumer's loads, `cbuf_advance_head`. -/
def consume (n : ℕ) (r : Ring) : Option Ring := do
  let (start, used) ← cbufGet r.cbuf
  if n ≤ used then
    some
      { cbuf := cbufAdvanceHead r.cbuf n
        mem := r.mem
        produced := r.produced
        consumed := r.consumed ++
          (r.offsets start n).map fun a => read (mirror r.sz) r.mem a r.itemSize
        places := r.places.drop n
        faulted := r.faulted || r.outside start (n * r.itemSize) }
  else none

def ringStep (r : Ring) : RingAct → Option Ring
  | .produce items => produce items r
  | .consume n => consume n r

/-- The producer writes over no item that is still to be consumed, into a mapping
that is not empty; the consumer reads each item from the place it was written at. -/
def InPlace (r : Ring) : RingAct → Prop
  | .produce items => items = [] ∨ 0 < r.sz ∧ ∀ p ∈ r.places, ∀ i < r.itemSize,
      ∀ j < items.length * r.itemSize,
        (r.cbuf.tail % (r.cbuf.len - 1) + j) % r.sz ≠ (p + i) % r.sz
  | .consume n => ∀ j < n, (r.places[j]?).map (· % r.sz) =
      some ((r.cbuf.head % (r.cbuf.len - 1) + j * r.itemSize) % r.sz)

instance : ∀ r a, Decidable (InPlace r a)
  | _, .produce _ => inferInstanceAs (Decidable (_ ∨ _))
  | _, .consume _ => inferInstanceAs (Decidable (∀ _, _))

/-! ## Sizes -/

/-- The mapping holds all items, or rounding up to pages wrapped to nothing. -/
theorem cbufSz_eq_zero_or_le {itemSize len : ℕ} (h : len * itemSize < 2 ^ 32) :
    cbufSz itemSize len = 0 ∨ len * itemSize ≤ cbufSz itemSize len := by
  simp only [cbufSz, pageAlign, pageSz, u32, Nat.mod_eq_of_lt h]
  omega

theorem length_flatten {items : List (List UInt8)} {n : ℕ} (h : ∀ x ∈ items, x.length = n) :
    items.flatten.length = items.length * n := by
  induction items with
  | nil => simp
  | cons x xs ih =>
      rw [List.flatten_cons, List.length_append, h x List.mem_cons_self,
        ih fun y hy => h y (List.mem_cons_of_mem x hy), List.length_cons, Nat.succ_mul,
        Nat.add_comm]

/-- A flat run of items read back is read back item by item. -/
theorem stored_of_read {tr : ℕ → ℕ} {mem : ℕ → UInt8} {items : List (List UInt8)} {a n : ℕ}
    (hlen : ∀ x ∈ items, x.length = n)
    (h : read tr mem a items.flatten.length = items.flatten) :
    List.Forall₂ (fun p x => x.length = n ∧ read tr mem p n = x)
      ((List.range items.length).map fun j => a + j * n) items := by
  induction items generalizing a with
  | nil => exact .nil
  | cons x xs ih =>
      have hx : x.length = n := hlen x List.mem_cons_self
      rw [List.flatten_cons, List.length_append, read_add] at h
      obtain ⟨hhead, htail⟩ := List.append_inj h length_read
      rw [List.length_cons, List.range_succ_eq_map, List.map_cons, List.map_map]
      refine .cons ⟨hx, by simpa [hx] using hhead⟩ ?_
      have hrec := ih (fun y hy => hlen y (List.mem_cons_of_mem x hy)) htail
      simpa [Function.comp_def, hx, Nat.succ_mul, Nat.add_assoc, Nat.add_comm n] using hrec

/-! ## The invariant -/

/-- What is pending is where the places say, and the counters agree. -/
structure Stored (itemSize len : ℕ) (r : Ring) (pending : List (List UInt8)) : Prop where
  itemSize_eq : r.cbuf.itemSize = itemSize
  len_eq : r.cbuf.len = len
  head_lt : r.cbuf.head < 2 ^ 32
  tail_lt : r.cbuf.tail < 2 ^ 32
  used : cbufUsedCount r.cbuf = r.places.length
  room : r.places.length ≤ len
  mapped : r.places = [] ∨ 0 < r.sz
  content : r.produced = r.consumed ++ pending
  stored : List.Forall₂ (fun p x => x.length = itemSize ∧
    read (mirror r.sz) r.mem p itemSize = x) r.places pending
  sound : r.faulted = false

theorem stored_ringInit (itemSize len : ℕ) : Stored itemSize len (ringInit itemSize len) [] :=
  ⟨rfl, rfl, Nat.two_pow_pos 32, Nat.two_pow_pos 32, (by decide : sub32 0 0 = 0),
    Nat.zero_le _, .inl rfl, rfl, .nil, rfl⟩

section
variable {itemSize len : ℕ} {r t : Ring} {pending : List (List UInt8)}

theorem Stored.idx (h : Stored itemSize len r pending) (hlen : 2 ≤ len) (hlen' : len < 2 ^ 32)
    (index : ℕ) : cbufIdx r.cbuf index = some (index % (len - 1)) := by
  have hsub : sub32 r.cbuf.len 1 = len - 1 := by
    rw [h.len_eq]
    exact sub32_of_le hlen' (by omega)
  rw [cbufIdx, hsub, if_neg (by omega)]

/-- Accesses to at most `len` items stay inside the two mappings. -/
theorem Stored.inside (h : Stored itemSize len r pending) (hitem : 1 ≤ itemSize) (hlen : 2 ≤ len)
    (hprod : len * itemSize < 2 ^ 32) (hsz : 0 < r.sz) {index n : ℕ} (hn : n ≤ len) :
    r.outside (index % (len - 1)) (n * r.itemSize) = false := by
  have hstart : index % (len - 1) < len - 1 := Nat.mod_lt _ (by omega)
  have hle : len * itemSize ≤ r.sz := by
    rw [Ring.sz, h.itemSize_eq, h.len_eq] at hsz ⊢
    exact (cbufSz_eq_zero_or_le hprod).resolve_left hsz.ne'
  have hn' : n * itemSize ≤ len * itemSize := Nat.mul_le_mul_right _ hn
  have hlen' : len * 1 ≤ len * itemSize := Nat.mul_le_mul_left _ hitem
  rw [Ring.outside, Ring.itemSize, h.itemSize_eq]
  exact decide_eq_false (by omega)

/-- Through the mirror, places that agree modulo the size read the same. -/
theorem read_mirror_congr {sz a b n : ℕ} {mem : ℕ → UInt8} (h : a % sz = b % sz) :
    read (mirror sz) mem a n = read (mirror sz) mem b n :=
  read_congr fun i _ => by rw [mirror, mirror, Nat.add_mod, h, ← Nat.add_mod]

theorem mirror_injective {sz a n : ℕ} (hn : n ≤ sz) :
    ∀ i < n, ∀ j < n, mirror sz (a + i) = mirror sz (a + j) → i = j := by
  intro i hi j hj h
  have hmod : i % sz = j % sz := Nat.ModEq.add_left_cancel' a h
  rwa [Nat.mod_eq_of_lt (by omega), Nat.mod_eq_of_lt (by omega)] at hmod

theorem Stored.produce {items : List (List UInt8)} (h : Stored itemSize len r pending)
    (hitem : 1 ≤ itemSize) (hlen : 2 ≤ len) (hprod : len * itemSize < 2 ^ 32)
    (hplace : InPlace r (.produce items)) (ht : produce items r = some t) :
    Stored itemSize len t (pending ++ items) := by
  have hlen' : len < 2 ^ 32 := (Nat.le_mul_of_pos_right len hitem).trans_lt hprod
  unfold IoScheduler.produce at ht
  obtain ⟨⟨start, free⟩, hput, ht⟩ := Option.bind_eq_some_iff.mp ht
  obtain ⟨hstart, rfl : free = _⟩ := cbufPut_eq_some.mp hput
  rw [h.idx hlen hlen', Option.some.injEq] at hstart
  obtain rfl : start = r.cbuf.tail % (len - 1) := hstart.symm
  dsimp only at ht
  split_ifs at ht with hfit
  obtain ⟨hfree, hsize⟩ := hfit
  obtain rfl := Option.some.inj ht
  rw [Ring.itemSize, h.itemSize_eq] at hsize
  have hroom : r.places.length + items.length ≤ len := by
    have hsub : cbufFreeCount r.cbuf = len - r.places.length := by
      have hused : sub32 r.cbuf.tail r.cbuf.head = r.places.length := h.used
      rw [cbufFreeCount, hused, h.len_eq]
      exact sub32_of_le hlen' h.room
    have := h.room
    omega
  have hflat := length_flatten hsize
  have hempty : items ≠ [] → 0 < r.sz := fun hne => (hplace.resolve_left hne).1
  have hfits : items.flatten.length ≤ r.sz := by
    by_cases hne : items = []
    · simp [hne]
    · have hsz := hempty hne
      rw [Ring.sz, h.itemSize_eq, h.len_eq] at hsz ⊢
      have hle := (cbufSz_eq_zero_or_le hprod).resolve_left hsz.ne'
      exact hflat.le.trans ((Nat.mul_le_mul_right _ (by omega)).trans hle)
  have hold : ∀ p ∈ r.places,
      read (mirror r.sz) (write (mirror r.sz) r.mem (r.cbuf.tail % (len - 1)) items.flatten) p
        itemSize = read (mirror r.sz) r.mem p itemSize := by
    intro p hp
    rcases hplace with rfl | ⟨-, hclear⟩
    · rfl
    · refine read_write_of_disjoint fun i hi j hj => ?_
      rw [hflat] at hj
      rw [Ring.itemSize, h.itemSize_eq, h.len_eq] at hclear
      exact hclear p hp i hi j hj
  constructor
  case itemSize_eq => exact h.itemSize_eq
  case len_eq => exact h.len_eq
  case head_lt => exact h.head_lt
  case tail_lt => exact u32_lt _
  case used =>
    have hused : sub32 r.cbuf.tail r.cbuf.head = r.places.length := h.used
    have hhead := h.head_lt
    simp only [cbufUsedCount, cbufAdvanceTail, Ring.offsets, List.length_append, List.length_map,
      List.length_range]
    simp only [sub32, u32] at hused ⊢
    omega
  case room => simpa [Ring.offsets] using hroom
  case mapped =>
    by_cases hne : items = []
    · refine h.mapped.imp_left fun hnil => ?_
      simp [hne, hnil, Ring.offsets]
    · exact .inr (hempty hne)
  case content =>
    change r.produced ++ items = r.consumed ++ (pending ++ items)
    rw [h.content, List.append_assoc]
  case stored =>
    refine List.rel_append ?_ ?_
    · refine (List.forall₂_and_left _ _ |>.mpr ⟨hold, h.stored⟩).imp ?_
      exact fun p x hp => ⟨hp.2.1, hp.1.trans hp.2.2⟩
    · have hoff : r.offsets (r.cbuf.tail % (len - 1)) items.length =
          (List.range items.length).map fun j => r.cbuf.tail % (len - 1) + j * itemSize := by
        rw [Ring.offsets, Ring.itemSize, h.itemSize_eq]
      rw [hoff]
      exact stored_of_read hsize (read_write_self (mirror_injective hfits))
  case sound =>
    change (r.faulted || r.outside _ _) = false
    rw [h.sound, Bool.false_or]
    by_cases hne : items = []
    · simp [hne, Ring.outside]
    · exact h.inside hitem hlen hprod (hempty hne) (by omega)

theorem Stored.consume {n : ℕ} (h : Stored itemSize len r pending)
    (hitem : 1 ≤ itemSize) (hlen : 2 ≤ len) (hprod : len * itemSize < 2 ^ 32)
    (hplace : InPlace r (.consume n)) (ht : consume n r = some t) :
    Stored itemSize len t (pending.drop n) := by
  have hlen' : len < 2 ^ 32 := (Nat.le_mul_of_pos_right len hitem).trans_lt hprod
  unfold IoScheduler.consume at ht
  obtain ⟨⟨start, used⟩, hget, ht⟩ := Option.bind_eq_some_iff.mp ht
  obtain ⟨hstart, rfl : used = _⟩ := cbufGet_eq_some.mp hget
  rw [h.idx hlen hlen', Option.some.injEq] at hstart
  obtain rfl : start = r.cbuf.head % (len - 1) := hstart.symm
  dsimp only at ht
  split_ifs at ht with hn
  obtain rfl := Option.some.inj ht
  rw [h.used] at hn
  have hlength : r.places.length = pending.length := h.stored.length_eq
  have hmapped : n ≠ 0 → 0 < r.sz := fun hne => h.mapped.resolve_left fun hnil => hne (by
    rw [hnil] at hn
    simpa using hn)
  have hread : (r.offsets (r.cbuf.head % (len - 1)) n).map
      (fun a => read (mirror r.sz) r.mem a r.itemSize) = pending.take n := by
    apply List.ext_getElem
    · simp only [Ring.offsets, List.length_map, List.length_range, List.length_take]
      omega
    · intro j hj _
      have hjn : j < n := by simpa [Ring.offsets] using hj
      have hstored := ((List.forall₂_iff_get.mp h.stored).2 j (by omega) (by omega)).2
      have hsame := hplace j hjn
      rw [List.getElem?_eq_getElem (by omega), Option.map_some, Option.some.injEq,
        h.len_eq] at hsame
      simp only [Ring.offsets, List.getElem_map, List.getElem_range, List.getElem_take]
      rw [← read_mirror_congr hsame, Ring.itemSize, h.itemSize_eq]
      exact hstored
  constructor
  case itemSize_eq => exact h.itemSize_eq
  case len_eq => exact h.len_eq
  case head_lt => exact u32_lt _
  case tail_lt => exact h.tail_lt
  case used =>
    have hused : sub32 r.cbuf.tail r.cbuf.head = r.places.length := h.used
    have htail := h.tail_lt
    have hhead := h.head_lt
    simp only [cbufUsedCount, cbufAdvanceHead, List.length_drop]
    simp only [sub32, u32] at hused ⊢
    omega
  case room =>
    have := h.room
    simp only [List.length_drop]
    omega
  case mapped =>
    exact h.mapped.imp_left fun hnil => by rw [hnil, List.drop_nil]
  case content =>
    change r.produced = r.consumed ++ _ ++ pending.drop n
    rw [hread, List.append_assoc, List.take_append_drop, h.content]
  case stored => exact List.forall₂_drop n h.stored
  case sound =>
    change (r.faulted || r.outside _ _) = false
    rw [h.sound, Bool.false_or]
    by_cases hne : n = 0
    · simp [hne, Ring.outside]
    · exact h.inside hitem hlen hprod (hmapped hne) (hn.trans h.room)

theorem Stored.step {a : RingAct} (h : Stored itemSize len r pending) (hitem : 1 ≤ itemSize)
    (hlen : 2 ≤ len) (hprod : len * itemSize < 2 ^ 32) (hplace : InPlace r a)
    (ht : ringStep r a = some t) : ∃ pending', Stored itemSize len t pending' := by
  cases a with
  | produce items => exact ⟨_, h.produce hitem hlen hprod hplace ht⟩
  | consume n => exact ⟨_, h.consume hitem hlen hprod hplace ht⟩

end

/-- In a run whose items stay in place no access leaves the mapping, and what is
consumed is what was produced, in order and unchanged. -/
theorem consumed_prefix_produced {itemSize len : ℕ} {as : List RingAct} {r : Ring}
    (hitem : 1 ≤ itemSize) (hlen : 2 ≤ len) (hprod : len * itemSize < 2 ^ 32)
    (h : Run ringStep InPlace (ringInit itemSize len) as r) :
    r.faulted = false ∧ r.consumed <+: r.produced := by
  have hstored : ∃ pending, Stored itemSize len r pending := by
    refine Run.invariant (I := fun r => ∃ pending, Stored itemSize len r pending) h
      ⟨[], stored_ringInit itemSize len⟩ ?_
    rintro r a t ⟨pending, hi⟩ hplace ht
    exact hi.step hitem hlen hprod hplace ht
  obtain ⟨pending, hstored⟩ := hstored
  exact ⟨hstored.sound, pending, hstored.content.symm⟩

/-- The batches of the test, each read back before the next is written. -/
theorem consumed_prefix_produced_batches :
    ∃ as r, Run ringStep InPlace (ringInit 16 4) as r ∧ r.consumed.length = 6 ∧
      r.faulted = false ∧ r.consumed <+: r.produced := by
  let item := fun b : UInt8 => List.replicate 16 b
  obtain ⟨r, ⟨as, hr⟩, hp⟩ : ∃ r, Reachable ringStep InPlace (ringInit 16 4) r ∧
      decide (r.consumed.length = 6) = true :=
    exists_of_execute
      [.produce [item 1, item 2], .consume 2, .produce [item 1, item 2, item 3, item 4],
        .consume 4] _ (by decide +kernel)
  exact ⟨as, r, hr, of_decide_eq_true hp,
    consumed_prefix_produced (by decide) (by decide) (by decide) hr⟩

/-- Two items of sixteen bytes written one at a time: the second goes one byte
after the start of the first, which is read back with fifteen bytes of it. -/
theorem second_item_overwrites_first :
    ∃ r, Reachable ringStep (fun _ _ => True) (ringInit 16 4) r ∧
      r.produced = [List.replicate 16 1, List.replicate 16 2] ∧
      r.consumed = [1 :: List.replicate 15 2] := by
  obtain ⟨r, hr, hp⟩ : ∃ r, Reachable ringStep (fun _ _ => True) (ringInit 16 4) r ∧
      decide (r.produced = [List.replicate 16 1, List.replicate 16 2] ∧
        r.consumed = [1 :: List.replicate 15 2]) = true :=
    exists_of_execute
      [.produce [List.replicate 16 1], .produce [List.replicate 16 2], .consume 1] _
      (by decide +kernel)
  exact ⟨r, hr, of_decide_eq_true hp⟩

end IoScheduler
