import Mathlib

/-!
# Bytes, words and extents

A block of memory is a function from offsets to bytes. `store` overwrites a
range with a list of bytes, `load` reads a range back, and `word` is the value
of a little-endian list. An extent is a start with a length; two extents are
apart when they share no offset. Nothing in this module knows what the bytes
are used for.
-/
namespace IoScheduler.Bytes

variable {b c d : ℕ → UInt8} {a e n m x : ℕ} {bytes xs : List UInt8}

def store (b : ℕ → UInt8) (a : ℕ) (bytes : List UInt8) : ℕ → UInt8 :=
  fun i => if i < a then b i else (bytes[i - a]?).getD (b i)

def load (b : ℕ → UInt8) (a : ℕ) : ℕ → List UInt8
  | 0 => []
  | n + 1 => b a :: load b (a + 1) n

def word : List UInt8 → ℕ
  | [] => 0
  | x :: xs => x.toNat + 256 * word xs

def bytesOf : ℕ → ℕ → List UInt8
  | 0, _ => []
  | n + 1, x => UInt8.ofNat (x % 256) :: bytesOf n (x / 256)

def load32 (b : ℕ → UInt8) (a : ℕ) : ℕ := word (load b a 4)

def load64 (b : ℕ → UInt8) (a : ℕ) : ℕ := word (load b a 8)

def bytes32 (x : ℕ) : List UInt8 := bytesOf 4 x

def bytes64 (x : ℕ) : List UInt8 := bytesOf 8 x

@[simp] theorem length_load : (load b a n).length = n := by
  induction n generalizing a with
  | zero => rfl
  | succ n ih => rw [load, List.length_cons, ih]

@[simp] theorem length_bytesOf : (bytesOf n x).length = n := by
  induction n generalizing x with
  | zero => rfl
  | succ n ih => rw [bytesOf, List.length_cons, ih]

@[simp] theorem length_bytes32 : (bytes32 x).length = 4 := length_bytesOf

@[simp] theorem length_bytes64 : (bytes64 x).length = 8 := length_bytesOf

theorem word_lt : word xs < 256 ^ xs.length := by
  induction xs with
  | nil => exact Nat.one_pos
  | cons x xs ih =>
      have hx : x.toNat < 256 := x.toNat_lt
      rw [word, List.length_cons, pow_succ]
      omega

/-- Encoding a number that fits loses nothing. -/
theorem word_bytesOf (h : x < 256 ^ n) : word (bytesOf n x) = x := by
  induction n generalizing x with
  | zero =>
      have hx : x = 0 := by omega
      rw [hx]
      rfl
  | succ n ih =>
      have hdiv : x / 256 < 256 ^ n := by
        rw [pow_succ] at h
        exact Nat.div_lt_of_lt_mul (by rwa [Nat.mul_comm])
      have hmod : (UInt8.ofNat (x % 256)).toNat = x % 256 :=
        UInt8.toNat_ofNat_of_lt (Nat.mod_lt _ (by norm_num))
      rw [bytesOf, word, ih hdiv, hmod]
      exact Nat.mod_add_div x 256

theorem load32_lt : load32 b a < 2 ^ 32 := by
  have h : word (load b a 4) < 256 ^ (load b a 4).length := word_lt
  rw [length_load] at h
  exact h

theorem load64_lt : load64 b a < 2 ^ 64 := by
  have h : word (load b a 8) < 256 ^ (load b a 8).length := word_lt
  rw [length_load] at h
  exact h

theorem getElem?_load {i : ℕ} : (load b a n)[i]? = if i < n then some (b (a + i)) else none := by
  induction n generalizing a i with
  | zero => simp [load]
  | succ n ih =>
      cases i with
      | zero => simp [load]
      | succ i =>
          rw [load, List.getElem?_cons_succ, ih]
          simp only [Nat.add_lt_add_iff_right, Nat.add_assoc, Nat.add_comm 1]

/-- The two blocks hold the same bytes on a range. -/
def Agree (b c : ℕ → UInt8) (a n : ℕ) : Prop := ∀ i, a ≤ i → i < a + n → c i = b i

theorem Agree.rfl : Agree b b a n := fun _ _ _ => Eq.refl _

theorem Agree.trans (h : Agree b c a n) (k : Agree c d a n) : Agree b d a n := fun i hl hu =>
  (k i hl hu).trans (h i hl hu)

theorem Agree.symm (h : Agree b c a n) : Agree c b a n := fun i hl hu => (h i hl hu).symm

theorem Agree.mono (h : Agree b c a n) (hl : a ≤ e) (hu : e + m ≤ a + n) : Agree b c e m :=
  fun i hi hj => h i (hl.trans hi) (hj.trans_le hu)

theorem Agree.load_eq (h : Agree b c a n) : load c a n = load b a n := by
  refine List.ext_getElem? fun i => ?_
  rw [getElem?_load, getElem?_load]
  split_ifs with hi
  · rw [h (a + i) (Nat.le_add_right a i) (Nat.add_lt_add_left hi a)]
  · rfl

theorem Agree.load32_eq (h : Agree b c a n) (hl : a ≤ e) (hu : e + 4 ≤ a + n) :
    load32 c e = load32 b e := congrArg word (h.mono hl hu).load_eq

theorem Agree.load64_eq (h : Agree b c a n) (hl : a ≤ e) (hu : e + 8 ≤ a + n) :
    load64 c e = load64 b e := congrArg word (h.mono hl hu).load_eq

/-- Two ranges of offsets, each a start and a length, that do not meet. -/
def Apart (x y : ℕ × ℕ) : Prop := x.1 + x.2 ≤ y.1 ∨ y.1 + y.2 ≤ x.1

instance : DecidableRel Apart := fun x y =>
  inferInstanceAs (Decidable (x.1 + x.2 ≤ y.1 ∨ y.1 + y.2 ≤ x.1))

/-- A store changes nothing outside the range it covers. -/
theorem agree_store (h : Apart (a, n) (e, bytes.length)) : Agree b (store b e bytes) a n := by
  intro i hl hu
  simp only [Apart] at h
  unfold store
  split_ifs with hi
  · exact Eq.refl _
  · rw [List.getElem?_eq_none (by omega), Option.getD_none]

/-- A load within a stored range reads the stored bytes. -/
theorem load_store (hl : a ≤ e) (hu : e + n ≤ a + bytes.length) :
    load (store b a bytes) e n = (bytes.drop (e - a)).take n := by
  refine List.ext_getElem? fun i => ?_
  rw [getElem?_load, List.getElem?_take, List.getElem?_drop]
  split_ifs with hi
  · have hlt : e + i - a < bytes.length := by omega
    have hsum : e - a + i = e + i - a := by omega
    rw [store, if_neg (by omega), hsum, List.getElem?_eq_getElem hlt, Option.getD_some]
  · rfl

theorem load_store_self : load (store b a bytes) a bytes.length = bytes := by
  rw [load_store le_rfl le_rfl, Nat.sub_self, List.drop_zero, List.take_length]

theorem drop_load : (load b a n).drop m = load b (a + m) (n - m) := by
  refine List.ext_getElem? fun i => ?_
  rw [List.getElem?_drop, getElem?_load, getElem?_load, Nat.add_assoc]
  by_cases hi : m + i < n
  · rw [if_pos hi, if_pos (by omega)]
  · rw [if_neg hi, if_neg (by omega)]

theorem take_load : (load b a n).take m = load b a (min m n) := by
  refine List.ext_getElem? fun i => ?_
  rw [List.getElem?_take, getElem?_load, getElem?_load]
  by_cases hm : i < m
  · by_cases hn : i < n
    · rw [if_pos hm, if_pos hn, if_pos (lt_min hm hn)]
    · rw [if_pos hm, if_neg hn, if_neg fun h => hn (h.trans_le (min_le_right _ _))]
  · rw [if_neg hm, if_neg fun h => hm (h.trans_le (min_le_left _ _))]

/-- What a part of a range reads, when the whole range reads `bytes`. -/
theorem load_part (xs ys zs : List UInt8) (h : load b a bytes.length = bytes)
    (hbytes : bytes = xs ++ (ys ++ zs)) :
    load b (a + xs.length) ys.length = ys := by
  have hlen : xs.length + ys.length ≤ bytes.length := by
    rw [hbytes]
    simp only [List.length_append]
    omega
  calc load b (a + xs.length) ys.length
      = ((load b a bytes.length).drop xs.length).take ys.length := by
        rw [drop_load, take_load, min_eq_left (by omega)]
    _ = ys := by rw [h, hbytes, List.drop_left, List.take_left]

/-- Moving a range by a load and a store moves every word in it. -/
theorem load_store_load {k : ℕ} (h : k + m ≤ n) :
    load (store b e (load c a n)) (e + k) m = load c (a + k) m := by
  rw [load_store (Nat.le_add_right e k) (by rw [length_load]; omega), Nat.add_sub_cancel_left,
    drop_load, take_load, min_eq_left (by omega)]

/-! ## Extents -/

variable {p q r : ℕ × ℕ} {ps : List (ℕ × ℕ)}

theorem Apart.symm (h : Apart p q) : Apart q p := Or.symm h

/-- One extent is a part of another. -/
def Within (x y : ℕ × ℕ) : Prop := y.1 ≤ x.1 ∧ x.1 + x.2 ≤ y.1 + y.2

theorem Apart.mono (h : Apart p q) (hr : Within r q) : Apart p r := by
  rcases h with h | h
  · exact .inl (h.trans hr.1)
  · exact .inr (hr.2.trans h)

theorem Apart.mono_left (h : Apart q p) (hr : Within r q) : Apart r p := (h.symm.mono hr).symm

/-- Whether one of several extents is met does not depend on their order. -/
theorem pairwise_apart_perm {qs : List (ℕ × ℕ)} (h : ps.Perm qs) :
    ps.Pairwise Apart ↔ qs.Pairwise Apart := h.pairwise_iff Apart.symm

/-- A part may take the place of the whole. -/
theorem pairwise_apart_within {qs : List (ℕ × ℕ)} (h : (ps ++ q :: qs).Pairwise Apart)
    (hr : Within r q) : (ps ++ r :: qs).Pairwise Apart := by
  rw [List.pairwise_append, List.pairwise_cons] at h ⊢
  refine ⟨h.1, ⟨fun x hx => (h.2.1.1 x hx).mono_left hr, h.2.1.2⟩, fun x hx y hy => ?_⟩
  rcases List.mem_cons.mp hy with rfl | hy
  · exact (h.2.2 x hx q List.mem_cons_self).mono hr
  · exact h.2.2 x hx y (List.mem_cons_of_mem _ hy)

/-- Extents that are pairwise apart between two bounds take no more than what
is between them. -/
theorem sum_le_of_pairwise_apart {lo hi : ℕ} (h : ps.Pairwise Apart)
    (hin : ∀ x ∈ ps, lo ≤ x.1 ∧ x.1 + x.2 ≤ hi) : (ps.map Prod.snd).sum ≤ hi - lo := by
  let covered : List (ℕ × ℕ) → Finset ℕ := fun qs =>
    (Finset.Ico lo hi).filter fun i => ∃ x ∈ qs, x.1 ≤ i ∧ i < x.1 + x.2
  have hcard : (covered ps).card = (ps.map Prod.snd).sum := by
    induction ps with
    | nil => simp [covered]
    | cons p ps ih =>
        have hp := hin p List.mem_cons_self
        rw [List.pairwise_cons] at h
        have hsplit : covered (p :: ps) = Finset.Ico p.1 (p.1 + p.2) ∪ covered ps := by
          ext i
          simp only [covered, Finset.mem_filter, Finset.mem_Ico, Finset.mem_union, List.mem_cons,
            exists_eq_or_imp]
          constructor
          · rintro ⟨hi, hp | hps⟩
            · exact .inl hp
            · exact .inr ⟨hi, hps⟩
          · rintro (hpi | ⟨hi, hps⟩)
            · exact ⟨by omega, .inl hpi⟩
            · exact ⟨hi, .inr hps⟩
        have hdisjoint : Disjoint (Finset.Ico p.1 (p.1 + p.2)) (covered ps) := by
          refine Finset.disjoint_left.mpr fun i hi hc => ?_
          obtain ⟨x, hx, hxi⟩ := (Finset.mem_filter.mp hc).2
          have hapart := h.1 x hx
          simp only [Finset.mem_Ico] at hi
          simp only [Apart] at hapart
          omega
        rw [hsplit, Finset.card_union_of_disjoint hdisjoint, Nat.card_Ico, Nat.add_sub_cancel_left,
          List.map_cons, List.sum_cons, ih h.2 fun x hx => hin x (List.mem_cons_of_mem _ hx)]
  rw [← hcard, ← Nat.card_Ico lo hi]
  exact Finset.card_le_card (Finset.filter_subset _ _)

end IoScheduler.Bytes
