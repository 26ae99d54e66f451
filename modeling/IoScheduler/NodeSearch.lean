import IoScheduler.Node

/-!
# The order of the keys and the search in a page

`__key_compare` orders the keys by their bytes, and a key before the keys that
are proper prefixes of it. Ending every key with a letter above all bytes makes
that the lexicographic order of lists. The binary search finds the place of a
key in this order.
-/
namespace IoScheduler
open Machine Bytes

/-- A key with an end mark above every byte. -/
def rank (key : List UInt8) : List ℕ := key.map UInt8.toNat ++ [256]

theorem rank_injective : Function.Injective rank := by
  intro a b h
  have hmap : a.map UInt8.toNat = b.map UInt8.toNat := List.append_cancel_right h
  exact List.map_injective_iff.mpr (fun x y hxy => UInt8.toNat_inj.mp hxy) hmap

@[ext]
structure Key where
  bytes : List UInt8
  deriving DecidableEq

instance : LinearOrder Key :=
  LinearOrder.lift' (fun k => rank k.bytes) fun _ _ h => Key.ext (rank_injective h)

theorem Key.lt_iff {a b : List UInt8} : (⟨a⟩ : Key) < ⟨b⟩ ↔ rank a < rank b := Iff.rfl

theorem rank_cons_lt {x y : UInt8} {xs ys : List UInt8} :
    rank (x :: xs) < rank (y :: ys) ↔ x < y ∨ x = y ∧ rank xs < rank ys := by
  rw [rank, rank, List.map_cons, List.map_cons, List.cons_append, List.cons_append,
    List.cons_lt_cons_iff, UInt8.lt_iff_toNat_lt, UInt8.toNat_inj]
  rfl

theorem rank_cons_lt_nil {x : UInt8} {xs : List UInt8} : rank (x :: xs) < rank [] := by
  have hx : x.toNat < 256 := x.toNat_lt
  rw [rank, rank, List.map_cons, List.cons_append]
  exact List.cons_lt_cons_iff.mpr (.inl hx)

theorem not_rank_nil_lt {x : UInt8} {xs : List UInt8} : ¬ rank [] < rank (x :: xs) :=
  not_lt_of_gt rank_cons_lt_nil

/-- `memcmp` decides the order unless one key is a prefix of the other. -/
theorem memcmp_spec (a b : List UInt8) :
    (memcmp a b < 0 ∧ rank a < rank b) ∨ (0 < memcmp a b ∧ rank b < rank a) ∨
      memcmp a b = 0 ∧ (rank a < rank b ↔ b.length < a.length) ∧
        (rank b < rank a ↔ a.length < b.length) := by
  induction a generalizing b with
  | nil =>
      refine .inr (.inr ?_)
      cases b with
      | nil => simp [memcmp]
      | cons y ys => simp [memcmp, rank_cons_lt_nil, not_rank_nil_lt]
  | cons x xs ih =>
      cases b with
      | nil => exact .inr (.inr (by simp [memcmp, rank_cons_lt_nil, not_rank_nil_lt]))
      | cons y ys =>
          rcases Nat.lt_trichotomy x.toNat y.toNat with hlt | heq | hgt
          · have hne : x ≠ y := fun h => hlt.ne (congrArg UInt8.toNat h)
            refine .inl ⟨?_, rank_cons_lt.mpr (.inl hlt)⟩
            rw [memcmp, if_neg hne, if_pos (UInt8.lt_iff_toNat_lt.mpr hlt)]
            norm_num
          · obtain rfl := UInt8.toNat_inj.mp heq
            rcases ih ys with ⟨hc, hr⟩ | ⟨hc, hr⟩ | ⟨hc, hl, hr⟩
            · exact .inl ⟨by rwa [memcmp, if_pos rfl], rank_cons_lt.mpr (.inr ⟨rfl, hr⟩)⟩
            · exact .inr (.inl ⟨by rwa [memcmp, if_pos rfl], rank_cons_lt.mpr (.inr ⟨rfl, hr⟩)⟩)
            · refine .inr (.inr ⟨by rwa [memcmp, if_pos rfl], ?_, ?_⟩)
              · simp only [rank_cons_lt, UInt8.lt_irrefl, true_and, false_or, hl, List.length_cons,
                  Nat.add_lt_add_iff_right]
              · simp only [rank_cons_lt, UInt8.lt_irrefl, true_and, false_or, hr, List.length_cons,
                  Nat.add_lt_add_iff_right]
          · have hne : x ≠ y := fun h => hgt.ne' (congrArg UInt8.toNat h)
            have hnot : ¬ x < y := fun h => hgt.not_gt (UInt8.lt_iff_toNat_lt.mp h)
            refine .inr (.inl ⟨?_, rank_cons_lt.mpr (.inl hgt)⟩)
            rw [memcmp, if_neg hne, if_neg hnot]
            norm_num

theorem toInt32_sub32 {x y : ℕ} (hx : x < 2 ^ 31) (hy : y < 2 ^ 31) :
    toInt32 (sub32 x y) = (x : ℤ) - y := by
  simp only [toInt32, sub32, u32]
  split_ifs with h <;> omega

/-- `__key_compare` follows the order of the keys, for sizes an `int` holds. -/
theorem keyCompare_spec {a b : List UInt8} (ha : a.length < 2 ^ 31) (hb : b.length < 2 ^ 31) :
    (keyCompare a b < 0 ↔ (⟨a⟩ : Key) < ⟨b⟩) ∧ (keyCompare a b = 0 ↔ a = b) ∧
      (0 < keyCompare a b ↔ (⟨b⟩ : Key) < ⟨a⟩) := by
  have heq : a = b ↔ ¬ rank a < rank b ∧ ¬ rank b < rank a := by
    rw [not_lt, not_lt]
    exact ⟨fun h => by rw [h]; exact ⟨le_rfl, le_rfl⟩,
      fun h => rank_injective (le_antisymm h.2 h.1)⟩
  rw [Key.lt_iff, Key.lt_iff, heq]
  rcases memcmp_spec a b with ⟨hc, hr⟩ | ⟨hc, hr⟩ | ⟨hc, hl, hr⟩
  · rw [keyCompare, if_neg hc.ne]
    exact ⟨iff_of_true hc hr, iff_of_false hc.ne fun h => h.1 hr,
      iff_of_false hc.not_gt hr.not_gt⟩
  · rw [keyCompare, if_neg hc.ne']
    exact ⟨iff_of_false hc.not_gt hr.not_gt, iff_of_false hc.ne' fun h => h.2 hr,
      iff_of_true hc hr⟩
  · rw [keyCompare, if_pos hc, toInt32_sub32 hb ha, hl, hr]
    exact ⟨by omega, by omega, by omega⟩

/-! ## The binary search -/

variable {n : Node} {key : List UInt8} {low high fuel idx : ℕ} {found : Bool}

/-- What the comparisons of a search have shown at the ends of the part still
to be searched, whatever the other cells hold. -/
def Bracket (n : Node) (key : List UInt8) (low high : ℕ) : Prop :=
  (low = 0 ∨ keyCompare (keyAt n (low - 1)) key < 0) ∧
    (high = n.size ∨ 0 < keyCompare (keyAt n high) key)

theorem binSearchLoop_spec (h : binSearchLoop n key fuel low high = .ok (found, idx))
    (hle : low ≤ high) (hhigh : high ≤ n.size) (hsize : n.size < 2 ^ 31)
    (hbracket : Bracket n key low high) :
    (found = true ∧ idx < n.size ∧ keyCompare (keyAt n idx) key = 0) ∨
      found = false ∧ idx ≤ n.size ∧ Bracket n key idx idx := by
  induction fuel generalizing low high with
  | zero => cases h
  | succ fuel ih =>
      rw [binSearchLoop] at h
      have hmid : u32 (low + high) = low + high := u32_of_lt (by omega)
      have hnext : u32 ((low + high) / 2 + 1) = (low + high) / 2 + 1 := u32_of_lt (by omega)
      simp only [hmid, hnext] at h
      by_cases hlt : low < high
      · rw [if_pos hlt] at h
        split_ifs at h with heq hgt
        · cases h
          exact .inl ⟨rfl, by omega, heq⟩
        · exact ih h (by omega) (by omega) ⟨hbracket.1, .inr hgt⟩
        · have hneg : keyCompare (keyAt n ((low + high) / 2)) key < 0 := by omega
          exact ih h (by omega) hhigh ⟨.inr hneg, hbracket.2⟩
      · have heq : high = low := by omega
        rw [if_neg hlt] at h
        rw [heq] at hbracket
        cases h
        exact .inr ⟨rfl, by omega, hbracket⟩

theorem nodeBinSearch_spec (h : nodeBinSearch n key = .ok (found, idx)) (hsize : n.size < 2 ^ 31) :
    (found = true ∧ idx < n.size ∧ keyCompare (keyAt n idx) key = 0) ∨
      found = false ∧ idx ≤ n.size ∧ Bracket n key idx idx :=
  binSearchLoop_spec h (Nat.zero_le _) le_rfl hsize ⟨.inl rfl, .inl rfl⟩

/-- The search of a page whose slots it can count ends. -/
theorem nodeBinSearch_isOk (hsize : n.size < 2 ^ 31) :
    ∃ found idx, nodeBinSearch n key = .ok (found, idx) := by
  have hloop : ∀ fuel low high, high - low < fuel → low ≤ high → high ≤ n.size →
      ∃ found idx, binSearchLoop n key fuel low high = .ok (found, idx) := by
    intro fuel
    induction fuel with
    | zero => exact fun low high h => absurd h (Nat.not_lt_zero _)
    | succ fuel ih =>
        intro low high hfuel hle hhigh
        rw [binSearchLoop]
        have hmid : u32 (low + high) = low + high := u32_of_lt (by omega)
        have hnext : u32 ((low + high) / 2 + 1) = (low + high) / 2 + 1 := u32_of_lt (by omega)
        simp only [hmid, hnext]
        split_ifs with hlt heq hgt
        · exact ⟨_, _, rfl⟩
        · exact ih low _ (by omega) (by omega) (by omega)
        · exact ih _ high (by omega) (by omega) hhigh
        · exact ⟨_, _, rfl⟩
  exact hloop (2 ^ 64) 0 n.size (by omega) (Nat.zero_le _) le_rfl

/-- In a page with increasing keys the search finds the key or its place. -/
theorem nodeBinSearch_sorted (h : nodeBinSearch n key = .ok (found, idx)) (hsize : n.size < 2 ^ 31)
    (hkey : key.length < 2 ^ 31) (hlen : ∀ i < n.size, (keyAt n i).length < 2 ^ 31)
    (hsort : ∀ i j, i < j → j < n.size → (⟨keyAt n i⟩ : Key) < ⟨keyAt n j⟩) :
    (found = true ∧ idx < n.size ∧ keyAt n idx = key) ∨
      found = false ∧ idx ≤ n.size ∧ (∀ i < idx, (⟨keyAt n i⟩ : Key) < ⟨key⟩) ∧
        ∀ i, idx ≤ i → i < n.size → (⟨key⟩ : Key) < ⟨keyAt n i⟩ := by
  rcases nodeBinSearch_spec h hsize with ⟨hf, hlt, hc⟩ | ⟨hf, hle, hlow, hhigh⟩
  · exact .inl ⟨hf, hlt, (keyCompare_spec (hlen idx hlt) hkey).2.1.mp hc⟩
  · refine .inr ⟨hf, hle, fun i hi => ?_, fun i hi hsize => ?_⟩
    · have hneg : keyCompare (keyAt n (idx - 1)) key < 0 := hlow.resolve_left (by omega)
      have hlast := (keyCompare_spec (hlen (idx - 1) (by omega)) hkey).1.mp hneg
      rcases Nat.lt_or_ge i (idx - 1) with hlt | hge
      · exact (hsort i (idx - 1) hlt (by omega)).trans hlast
      · rwa [show i = idx - 1 by omega]
    · have hpos : 0 < keyCompare (keyAt n idx) key := hhigh.resolve_left (by omega)
      have hfirst := (keyCompare_spec (hlen idx (by omega)) hkey).2.2.mp hpos
      rcases Nat.lt_or_ge idx i with hlt | hge
      · exact hfirst.trans (hsort idx i hlt hsize)
      · rwa [show i = idx by omega]

theorem nodeBinSearch_le (h : nodeBinSearch n key = .ok (found, idx)) (hsize : n.size < 2 ^ 31) :
    idx ≤ n.size := by
  rcases nodeBinSearch_spec h hsize with ⟨-, hlt, -⟩ | ⟨-, hle, -⟩
  · exact hlt.le
  · exact hle

/-! ## The comparison as an order -/

variable {a b c : List UInt8}

/-- The comparison has the sign of the lexicographic order of the bytes. -/
def FollowsBytes (a b : List UInt8) : Prop :=
  (keyCompare a b < 0 ↔ a < b) ∧ (keyCompare a b = 0 ↔ a = b) ∧ (0 < keyCompare a b ↔ b < a)

/-- `memcmp` decides at the first byte in which the keys differ. -/
theorem memcmp_lex (a b : List UInt8) : (memcmp a b < 0 ∧ a < b ∧ ¬ (a <+: b ∨ b <+: a)) ∨
    (0 < memcmp a b ∧ b < a ∧ ¬ (a <+: b ∨ b <+: a)) ∨
      memcmp a b = 0 ∧ (a <+: b ∨ b <+: a) := by
  induction a generalizing b with
  | nil =>
      apply Or.inr
      apply Or.inr
      exact ⟨by cases b <;> rfl, .inl List.nil_prefix⟩
  | cons x xs ih =>
      cases b with
      | nil => exact .inr (.inr ⟨rfl, .inr List.nil_prefix⟩)
      | cons y ys =>
          simp only [List.cons_prefix_cons, List.cons_lt_cons_iff]
          by_cases heq : x = y
          · subst heq
            simpa [memcmp, UInt8.lt_irrefl] using ih ys
          · have heq' : y ≠ x := fun h => heq h.symm
            by_cases hlt : x < y
            · apply Or.inl
              simp [memcmp, heq, heq', hlt]
            · have hgt : y < x := by
                rw [UInt8.lt_iff_toNat_lt] at hlt ⊢
                have hne : x.toNat ≠ y.toNat := fun h => heq (UInt8.toNat_inj.mp h)
                omega
              apply Or.inr
              apply Or.inl
              simp [memcmp, heq, heq', hlt, hgt]

/-- A proper prefix comes first and is shorter. -/
theorem prefix_lt (h : a <+: b) (hne : a ≠ b) : a < b ∧ a.length < b.length := by
  induction a generalizing b with
  | nil =>
      cases b with
      | nil => exact absurd rfl hne
      | cons y ys => exact ⟨List.nil_lt_cons y ys, Nat.succ_pos _⟩
  | cons x xs ih =>
      cases b with
      | nil => exact absurd (List.prefix_nil.mp h) (List.cons_ne_nil x xs)
      | cons y ys =>
          obtain ⟨rfl, htail⟩ := List.cons_prefix_cons.mp h
          obtain ⟨hlt, hlen⟩ := ih htail fun heq => hne (by rw [heq])
          exact ⟨List.cons_lt_cons_iff.mpr (.inr ⟨rfl, hlt⟩), Nat.succ_lt_succ hlen⟩

/-- A proper prefix is on the wrong side of the keys it begins; all other keys
are compared by their bytes. -/
theorem keyCompare_follows_bytes_iff (ha : a.length < 2 ^ 31) (hb : b.length < 2 ^ 31) :
    FollowsBytes a b ↔ (a <+: b ∨ b <+: a → a = b) := by
  unfold FollowsBytes
  rcases memcmp_lex a b with ⟨hc, hlt, hpre⟩ | ⟨hc, hgt, hpre⟩ | ⟨hc, hpre⟩
  · have hne : a ≠ b := fun h => hpre (.inl (h ▸ List.prefix_refl a))
    rw [keyCompare, if_neg hc.ne]
    exact iff_of_true ⟨iff_of_true hc hlt, iff_of_false hc.ne hne,
      iff_of_false hc.not_gt (List.lt_asymm hlt)⟩ fun h => absurd h hpre
  · have hne : a ≠ b := fun h => hpre (.inl (h ▸ List.prefix_refl a))
    rw [keyCompare, if_neg hc.ne']
    exact iff_of_true ⟨iff_of_false hc.not_gt (List.lt_asymm hgt), iff_of_false hc.ne' hne,
      iff_of_true hc hgt⟩ fun h => absurd h hpre
  · rw [keyCompare, if_pos hc, toInt32_sub32 hb ha]
    by_cases heq : a = b
    · subst heq
      simp [List.lt_irrefl]
    · refine iff_of_false (fun hsign => ?_) fun h => heq (h hpre)
      rcases hpre with hpre | hpre
      · obtain ⟨hlt, hlen⟩ := prefix_lt hpre heq
        have hneg := hsign.1.mpr hlt
        omega
      · obtain ⟨hlt, hlen⟩ := prefix_lt hpre fun h => heq h.symm
        have hpos := hsign.2.2.mpr hlt
        omega

theorem keyCompare_follows_bytes_iff_one_byte : FollowsBytes [1, 2] [1, 3] :=
  (keyCompare_follows_bytes_iff (by decide) (by decide)).mpr (by decide)

/-- The empty key is greater than every other one. -/
theorem prefix_compares_greater : keyCompare [] [0] = 1 ∧ ([] : List UInt8) < [0] ∧
    ¬ FollowsBytes [] [0] := by
  have hlt : ([] : List UInt8) < [0] := List.nil_lt_cons 0 []
  have hcompare : keyCompare [] [0] = 1 := by decide
  refine ⟨hcompare, hlt, fun hsign => ?_⟩
  have hneg := hsign.1.mpr hlt
  rw [hcompare] at hneg
  omega

/-- `__key_compare` is a total order on the keys of sizes an `int` holds. -/
theorem keyCompare_total_order (ha : a.length < 2 ^ 31) (hb : b.length < 2 ^ 31)
    (hc : c.length < 2 ^ 31) : (keyCompare a b = 0 ↔ a = b) ∧
      (keyCompare a b < 0 ↔ 0 < keyCompare b a) ∧
        (keyCompare a b < 0 → keyCompare b c < 0 → keyCompare a c < 0) := by
  obtain ⟨hab, heq, -⟩ := keyCompare_spec ha hb
  refine ⟨heq, ?_, fun h₁ h₂ => ?_⟩
  · rw [hab, (keyCompare_spec hb ha).2.2]
  · rw [hab] at h₁
    rw [(keyCompare_spec hb hc).1] at h₂
    rw [(keyCompare_spec ha hc).1]
    exact h₁.trans h₂

/-- The result of a search among increasing keys. -/
inductive Located (n : Node) (key : List UInt8) : Bool → ℕ → Prop
  | found {idx : ℕ} : idx < n.size → keyAt n idx = key →
      (∀ i < n.size, keyAt n i = key → i = idx) → Located n key true idx
  | missing {idx : ℕ} : idx ≤ n.size → (∀ i < n.size, keyAt n i ≠ key) →
      (∀ i < idx, keyCompare (keyAt n i) key < 0) →
      (∀ i, idx ≤ i → i < n.size → 0 < keyCompare (keyAt n i) key) → Located n key false idx

/-- The comparison is a total order, the search of a page whose slots fit it
ends, and among increasing keys it finds the key or its place. -/
theorem nodeBinSearch_located :
    (∀ a b c : List UInt8, a.length < 2 ^ 31 → b.length < 2 ^ 31 → c.length < 2 ^ 31 →
      (keyCompare a b = 0 ↔ a = b) ∧ (keyCompare a b < 0 ↔ 0 < keyCompare b a) ∧
        (keyCompare a b < 0 → keyCompare b c < 0 → keyCompare a c < 0)) ∧
    (∀ (n : Node) (key : List UInt8), slotOffset n.size ≤ nodeSize →
      ∃ found idx, nodeBinSearch n key = .ok (found, idx) ∧ idx ≤ n.size) ∧
    ∀ (n : Node) (key : List UInt8), n.size < 2 ^ 31 → key.length < 2 ^ 31 →
      (∀ i < n.size, (keyAt n i).length < 2 ^ 31) →
      (∀ i j, i < j → j < n.size → keyCompare (keyAt n i) (keyAt n j) < 0) →
      ∃ found idx, nodeBinSearch n key = .ok (found, idx) ∧ Located n key found idx := by
  refine ⟨fun a b c => keyCompare_total_order, fun n key hfit => ?_,
    fun n key hsize hkey hlen hsort => ?_⟩
  · have hsize : n.size < 2 ^ 31 := by
      simp only [slotOffset, sizeofNode, nodeSize] at hfit
      omega
    obtain ⟨found, idx, hs⟩ : ∃ found idx, nodeBinSearch n key = .ok (found, idx) :=
      nodeBinSearch_isOk hsize
    exact ⟨found, idx, hs, nodeBinSearch_le hs hsize⟩
  · have hkeys : ∀ i j, i < j → j < n.size → (⟨keyAt n i⟩ : Key) < ⟨keyAt n j⟩ :=
      fun i j hij hj => (keyCompare_spec (hlen i (by omega)) (hlen j hj)).1.mp (hsort i j hij hj)
    obtain ⟨found, idx, hs⟩ : ∃ found idx, nodeBinSearch n key = .ok (found, idx) :=
      nodeBinSearch_isOk hsize
    refine ⟨found, idx, hs, ?_⟩
    rcases nodeBinSearch_sorted hs hsize hkey hlen hkeys with
      ⟨rfl, hidx, heq⟩ | ⟨rfl, hle, hlow, hhigh⟩
    · apply Located.found hidx heq
      intro i hi hkeyAt
      rcases Nat.lt_trichotomy i idx with hlt | rfl | hgt
      · have hless := hkeys i idx hlt hidx
        rw [hkeyAt, heq] at hless
        exact absurd hless (lt_irrefl _)
      · rfl
      · have hless := hkeys idx i hgt hi
        rw [hkeyAt, heq] at hless
        exact absurd hless (lt_irrefl _)
    · have hbelow : ∀ i < idx, keyCompare (keyAt n i) key < 0 := fun i hi =>
        (keyCompare_spec (hlen i (by omega)) hkey).1.mpr (hlow i hi)
      have habove : ∀ i, idx ≤ i → i < n.size → 0 < keyCompare (keyAt n i) key :=
        fun i hi hlt => (keyCompare_spec (hlen i hlt) hkey).2.2.mpr (hhigh i hi hlt)
      refine .missing hle (fun i hi heq => ?_) hbelow habove
      have hzero := (keyCompare_spec (hlen i hi) hkey).2.1.mpr heq
      rcases Nat.lt_or_ge i idx with hlt | hge
      · exact absurd hzero (hbelow i hlt).ne
      · exact absurd hzero (habove i hge hi).ne'

/-- A key stands behind the longer ones it begins. -/
theorem nodeBinSearch_located_prefix : ∃ n, keyAt n 0 = [1, 2] ∧ keyAt n 1 = [1] ∧
    nodeBinSearch n [1] = .ok (true, 1) := by
  have hpage : ∃ n, (do
      let n ← nodeInsertNonfull (nodeInit zeroPage true true) 0 [1] [5]
      nodeInsertNonfull n 0 [1, 2] [6]) = .ok n ∧
        decide (n.size = 2 ∧ keyAt n 0 = [1, 2] ∧ keyAt n 1 = [1]) = true :=
    exists_ok_of_any (by decide +kernel)
  obtain ⟨n, -, hn⟩ := hpage
  obtain ⟨hsize, hfirst, hsecond⟩ := of_decide_eq_true hn
  have hcells : ∀ i < n.size, i = 0 ∨ i = 1 := fun i hi => by omega
  have hlen : ∀ i < n.size, (keyAt n i).length < 2 ^ 31 := by
    intro i hi
    rcases hcells i hi with rfl | rfl
    · rw [hfirst]
      decide
    · rw [hsecond]
      decide
  have hsort : ∀ i j, i < j → j < n.size → keyCompare (keyAt n i) (keyAt n j) < 0 := by
    intro i j hij hj
    obtain rfl : i = 0 := by omega
    obtain rfl : j = 1 := by omega
    rw [hfirst, hsecond]
    decide
  obtain ⟨found, idx, hs, hlocated⟩ := nodeBinSearch_located.2.2 n [1] (by omega) (by decide)
    hlen hsort
  refine ⟨n, hfirst, hsecond, ?_⟩
  cases hlocated with
  | found _ _ hunique =>
      obtain rfl : 1 = idx := hunique 1 (by omega) hsecond
      exact hs
  | missing _ hnone => exact absurd hsecond (hnone 1 (by omega))

end IoScheduler
