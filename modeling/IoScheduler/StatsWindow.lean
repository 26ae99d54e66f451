import IoScheduler.StatsSums

/-!
# The window a bucket shows

The values of an interval are added to the slot its opening move cleared, and
stay until a later interval takes the same slot. The length of an interval is
known at the move that ends it, which stores it in the slot of the next one. So
the sums of a bucket run over one set of intervals, with the values of these
and the lengths of those just before them.
-/
namespace IoScheduler
open Machine

/-! ## What a ring still holds

Turn `k` writes to the place `slot k`. After turn `m` a place holds the last
turn that wrote to it. -/
section
variable {slot : ℕ → ℕ} {m k i : ℕ}

/-- The turns up to `m` that no later one has overwritten. -/
def window (slot : ℕ → ℕ) (m : ℕ) : Finset ℕ :=
  (Finset.range (m + 1)).filter fun k => ∀ j ∈ Finset.Ioc k m, slot j ≠ slot k

/-- The turn a place holds, if any. -/
def held (slot : ℕ → ℕ) (m i : ℕ) : Finset ℕ := (window slot m).filter (slot · = i)

theorem mem_window : k ∈ window slot m ↔ k ≤ m ∧ ∀ j, k < j → j ≤ m → slot j ≠ slot k := by
  simp only [window, Finset.mem_filter, Finset.mem_range, Nat.lt_succ_iff, Finset.mem_Ioc, and_imp]

theorem mem_held : k ∈ held slot m i ↔ k ∈ window slot m ∧ slot k = i := Finset.mem_filter

theorem last_mem_window : m ∈ window slot m :=
  mem_window.mpr ⟨le_rfl, fun _ hlt hle => absurd hle (not_le.mpr hlt)⟩

/-- The last turn is alone in its place. -/
theorem held_last : held slot m (slot m) = {m} := by
  ext k
  rw [mem_held, Finset.mem_singleton]
  constructor
  · rintro ⟨hk, hslot⟩
    obtain ⟨hle, hlast⟩ := mem_window.mp hk
    by_contra hne
    exact hlast m (lt_of_le_of_ne hle hne) le_rfl hslot.symm
  · rintro rfl
    exact ⟨last_mem_window, rfl⟩

theorem mem_window_succ : k ∈ window slot (m + 1) ↔
    k = m + 1 ∨ k ∈ window slot m ∧ slot k ≠ slot (m + 1) := by
  rw [mem_window, mem_window]
  constructor
  · rintro ⟨hle, hlast⟩
    rcases Nat.lt_or_ge m k with hlt | hge
    · exact .inl (by omega)
    · refine .inr ⟨⟨hge, fun j hj hjm => hlast j hj (by omega)⟩, ?_⟩
      exact (hlast (m + 1) (by omega) le_rfl).symm
  · rintro (rfl | ⟨⟨hle, hlast⟩, hne⟩)
    · exact ⟨le_rfl, fun j hlt hle => absurd hle (not_le.mpr hlt)⟩
    · refine ⟨by omega, fun j hj hjm => ?_⟩
      rcases Nat.lt_or_ge m j with hlt | hge
      · rw [show j = m + 1 by omega]
        exact hne.symm
      · exact hlast j hj hge

/-- A turn changes its own place only. -/
theorem held_succ : held slot (m + 1) i = if i = slot (m + 1) then {m + 1} else held slot m i := by
  split_ifs with hi
  · rw [hi, held_last]
  · ext k
    rw [mem_held, mem_held, mem_window_succ]
    constructor
    · rintro ⟨rfl | ⟨hk, -⟩, hslot⟩
      · exact absurd hslot.symm hi
      · exact ⟨hk, hslot⟩
    · rintro ⟨hk, rfl⟩
      exact ⟨.inr ⟨hk, hi⟩, rfl⟩

/-- A turn puts its own share into a sum, for the share of the turn it overwrites. -/
theorem sum_window_succ (slot : ℕ → ℕ) (m : ℕ) (f : ℕ → ℕ) : ∑ k ∈ window slot (m + 1), f k +
    ∑ k ∈ held slot m (slot (m + 1)), f k = f (m + 1) + ∑ k ∈ window slot m, f k := by
  have hnew : window slot (m + 1) =
      insert (m + 1) ((window slot m).filter fun k => ¬ slot k = slot (m + 1)) := by
    ext k
    rw [mem_window_succ, Finset.mem_insert, Finset.mem_filter]
  have hfresh : m + 1 ∉ (window slot m).filter fun k => ¬ slot k = slot (m + 1) := fun hmem =>
    absurd (mem_window.mp (Finset.mem_filter.mp hmem).1).1 (by omega)
  rw [hnew, Finset.sum_insert hfresh, Nat.add_assoc, held, Nat.add_comm (Finset.sum _ _),
    Finset.sum_filter_add_sum_filter_not]

/-- While the places are taken in turn, the last `len` turns are held. -/
theorem window_eq_Ico {len : ℕ} (hlen : 0 < len) (hslot : ∀ k ≤ m, slot k = k % len) :
    window slot m = Finset.Ico (m + 1 - len) (m + 1) := by
  ext k
  rw [mem_window, Finset.mem_Ico]
  constructor
  · rintro ⟨hle, hlast⟩
    refine ⟨?_, by omega⟩
    by_contra hold
    refine hlast (k + len) (by omega) (by omega) ?_
    rw [hslot (k + len) (by omega), hslot k hle, Nat.add_mod_right]
  · rintro ⟨hlow, hhigh⟩
    refine ⟨by omega, fun j hkj hjm => ?_⟩
    rw [hslot j hjm, hslot k (by omega)]
    intro heq
    have hdvd : len ∣ j - k := (Nat.modEq_iff_dvd' hkj.le).mp heq.symm
    have hge := Nat.le_of_dvd (by omega) hdvd
    omega

end

/-! ## Runs of a bucket -/

inductive BucketCall
  | add (val : ℕ)
  | move (elapsed : ℕ)

def callBucket (b : Bucket) : BucketCall → Bucket
  | .add val => statsBucketAdd b val
  | .move elapsed => statsBucketMove b elapsed

/-- The bucket after `stats_bucket_init` and some calls. -/
def runBucket (len : ℕ) (calls : List BucketCall) : Bucket :=
  calls.foldl callBucket (statsBucketInit len)

/-- What the calls say about the intervals, numbered from zero: how many are
over, the sum of the values added in each, and the length the move that ended it
gave. -/
structure History where
  moves : ℕ
  value : ℕ → ℕ
  length : ℕ → ℕ

def History.record (h : History) : BucketCall → History
  | .add val => { h with value := Function.update h.value h.moves (h.value h.moves + val) }
  | .move elapsed =>
      { h with moves := h.moves + 1, length := Function.update h.length h.moves elapsed }

def history (calls : List BucketCall) : History := calls.foldl History.record ⟨0, 0, 0⟩

/-- The length of the interval before one, none before the first. -/
def History.before (h : History) : ℕ → ℕ
  | 0 => 0
  | k + 1 => h.length k

/-- The slot the values of an interval go to. -/
def slotOf (len k : ℕ) : ℕ := u32 k % len

variable {b : Bucket} {h : History} {len val elapsed : ℕ} {calls : List BucketCall}

/-- A bucket that follows a history: every slot and both sums tell of the
intervals still held. -/
structure Follows (len : ℕ) (b : Bucket) (h : History) : Prop where
  summed : Summed b
  len_eq : b.len = len
  idx : b.idx = u32 h.moves
  quiet : ∀ k, h.moves < k → h.value k = 0
  item : ∀ i < len, b.buf[i]? = some ⟨u64 (∑ k ∈ held (slotOf len) h.moves i, h.value k),
    ∑ k ∈ held (slotOf len) h.moves i, h.before k⟩
  accVal : b.accVal = u64 (∑ k ∈ window (slotOf len) h.moves, h.value k)
  accTime : b.accTime = u64 (∑ k ∈ window (slotOf len) h.moves, h.before k)

theorem Follows.slot_lt (hb : Follows len b h) (k : ℕ) : slotOf len k < len :=
  Nat.mod_lt _ (hb.len_eq ▸ hb.summed.len_pos)

theorem follows_init (hlen : 0 < len) : Follows len (statsBucketInit len) ⟨0, 0, 0⟩ := by
  have hvalue : ∀ t : Finset ℕ, ∑ k ∈ t, (⟨0, 0, 0⟩ : History).value k = 0 := fun t =>
    Finset.sum_eq_zero fun _ _ => rfl
  have hbefore : ∀ t : Finset ℕ, ∑ k ∈ t, (⟨0, 0, 0⟩ : History).before k = 0 := fun t =>
    Finset.sum_eq_zero fun k _ => by cases k <;> rfl
  refine ⟨summed_statsBucketInit hlen, rfl, rfl, fun _ _ => rfl, fun i hi => ?_, ?_, ?_⟩
  · rw [hvalue, hbefore]
    exact List.getElem?_replicate_of_lt hi
  · rw [hvalue]
    rfl
  · rw [hbefore]
    rfl

theorem Follows.add (hb : Follows len b h) :
    Follows len (statsBucketAdd b val) (h.record (.add val)) := by
  have hcur : b.idx % b.len = slotOf len h.moves := by rw [hb.idx, hb.len_eq, slotOf]
  have hvalue : ∀ k, (h.record (.add val)).value k =
      h.value k + if k = h.moves then val else 0 := by
    intro k
    simp only [History.record, Function.update_apply]
    split_ifs with hk
    · rw [hk]
    · rfl
  have hsum : ∀ t : Finset ℕ, ∑ k ∈ t, (h.record (.add val)).value k =
      ∑ k ∈ t, h.value k + if h.moves ∈ t then val else 0 := by
    intro t
    rw [Finset.sum_congr rfl fun k _ => hvalue k, Finset.sum_add_distrib, Finset.sum_ite_eq']
  have hbefore : ∀ k, (h.record (.add val)).before k = h.before k := fun k => by cases k <;> rfl
  refine ⟨hb.summed.add, hb.len_eq, hb.idx, fun k hk => ?_, fun i hi => ?_, ?_, ?_⟩
  · have hne : ¬ k = h.moves := ne_of_gt hk
    rw [hvalue, hb.quiet k hk, if_neg hne]
  · have hitem := hb.item i hi
    simp only [hsum, hbefore]
    change (b.buf.modify (b.idx % b.len) fun item => { item with val := u64 (item.val + val) })[i]?
      = some ⟨u64 (∑ k ∈ held (slotOf len) h.moves i, h.value k +
        if h.moves ∈ held (slotOf len) h.moves i then val else 0), _⟩
    rw [List.getElem?_modify, hcur, hitem]
    by_cases hslot : slotOf len h.moves = i
    · have hmem : h.moves ∈ held (slotOf len) h.moves i := mem_held.mpr ⟨last_mem_window, hslot⟩
      simp only [if_pos hslot, if_pos hmem, u64, Option.map_eq_map, Option.map_some,
        Nat.mod_add_mod]
      rfl
    · have hnot : h.moves ∉ held (slotOf len) h.moves i := fun hmem => hslot (mem_held.mp hmem).2
      simp only [if_neg hslot, if_neg hnot, Option.map_eq_map, Option.map_some]
      rfl
  · rw [hsum]
    change u64 (b.accVal + val) = u64 (_ + if h.moves ∈ window (slotOf len) h.moves then val else 0)
    rw [hb.accVal, if_pos last_mem_window]
    simp only [u64, Nat.mod_add_mod]
    rfl
  · rw [Finset.sum_congr rfl fun k _ => hbefore k]
    exact hb.accTime

/-- A move says nothing about the intervals before the one it ends. -/
theorem before_record {k : ℕ} (hk : k ≤ h.moves) :
    (h.record (.move elapsed)).before k = h.before k := by
  cases k with
  | zero => rfl
  | succ k => exact Function.update_of_ne (by omega) _ _

theorem Follows.move (hb : Follows len b h) :
    Follows len (statsBucketMove b elapsed) (h.record (.move elapsed)) := by
  have hnext : u32 (b.idx + 1) % b.len = slotOf len (h.moves + 1) := by
    rw [hb.idx, hb.len_eq, u32_add, slotOf]
  have hlast : (h.record (.move elapsed)).before (h.moves + 1) = elapsed :=
    Function.update_self _ _ _
  have hbefore : ∀ t ⊆ window (slotOf len) h.moves,
      ∑ k ∈ t, (h.record (.move elapsed)).before k = ∑ k ∈ t, h.before k := fun t ht =>
    Finset.sum_congr rfl fun k hk => before_record (mem_window.mp (ht hk)).1
  have hsub : ∀ i, held (slotOf len) h.moves i ⊆ window (slotOf len) h.moves := fun i =>
    Finset.filter_subset _ _
  have hold : b.buf.getD (u32 (b.idx + 1) % b.len) ⟨0, 0⟩ =
      ⟨u64 (∑ k ∈ held (slotOf len) h.moves (slotOf len (h.moves + 1)), h.value k),
        ∑ k ∈ held (slotOf len) h.moves (slotOf len (h.moves + 1)), h.before k⟩ := by
    rw [hnext, List.getD_eq_getElem?_getD, hb.item _ (hb.slot_lt _)]
    rfl
  have hval := sum_window_succ (slotOf len) h.moves h.value
  have htime := sum_window_succ (slotOf len) h.moves
    (h.record (.move elapsed)).before
  rw [hb.quiet (h.moves + 1) (Nat.lt_succ_self _), Nat.zero_add] at hval
  rw [hbefore _ (hsub _), hbefore _ (Finset.Subset.refl _), hlast] at htime
  refine ⟨hb.summed.move, hb.len_eq, ?_, fun k hk => hb.quiet k (Nat.lt_of_succ_lt hk),
    fun i hi => ?_, ?_, ?_⟩
  · change u32 (b.idx + 1) = u32 (h.moves + 1)
    rw [hb.idx, u32_add]
  · change (b.buf.set (u32 (b.idx + 1) % b.len) ⟨0, elapsed⟩)[i]? =
      some ⟨u64 (∑ k ∈ held (slotOf len) (h.moves + 1) i, h.value k),
        ∑ k ∈ held (slotOf len) (h.moves + 1) i, (h.record (.move elapsed)).before k⟩
    rw [held_succ, hnext, List.getElem?_set]
    by_cases hslot : slotOf len (h.moves + 1) = i
    · have hlt : slotOf len (h.moves + 1) < b.buf.length := by
        rw [hb.summed.length, hb.len_eq]
        exact hb.slot_lt _
      rw [if_pos hslot, if_pos hlt, if_pos hslot.symm, Finset.sum_singleton, Finset.sum_singleton,
        hlast, hb.quiet _ (Nat.lt_succ_self _)]
      rfl
    · rw [if_neg hslot, if_neg (Ne.symm hslot), hbefore _ (hsub i)]
      exact hb.item i hi
  · change sub64 b.accVal (b.buf.getD (u32 (b.idx + 1) % b.len) ⟨0, 0⟩).val =
      u64 (∑ k ∈ window (slotOf len) (h.moves + 1), h.value k)
    rw [hold, hb.accVal, ← hval]
    simp only [sub64, u64]
    omega
  · change u64 (sub64 b.accTime (b.buf.getD (u32 (b.idx + 1) % b.len) ⟨0, 0⟩).elapsed + elapsed) =
      u64 (∑ k ∈ window (slotOf len) (h.moves + 1), (h.record (.move elapsed)).before k)
    rw [hold, hb.accTime]
    simp only [sub64, u64]
    omega

theorem follows_run (hlen : 0 < len) (calls : List BucketCall) :
    Follows len (runBucket len calls) (history calls) := by
  have hrun : ∀ b h, Follows len b h →
      Follows len (calls.foldl callBucket b) (calls.foldl History.record h) := by
    induction calls with
    | nil => exact fun _ _ hb => hb
    | cons call calls ih =>
        intro b h hb
        apply ih
        cases call with
        | add val => exact hb.add
        | move elapsed => exact hb.move
  exact hrun _ _ (follows_init hlen)

/-! ## The sums -/

/-- The sum of the values some calls add. -/
def added : List BucketCall → ℕ
  | [] => 0
  | .add val :: calls => val + added calls
  | .move _ :: calls => added calls

def moveCount : List BucketCall → ℕ
  | [] => 0
  | .add _ :: calls => moveCount calls
  | .move _ :: calls => moveCount calls + 1

/-- What is added from an interval on is added to it or to a later one. -/
theorem record_sum {j : ℕ} (calls : List BucketCall)
    (hquiet : ∀ k, h.moves < k → h.value k = 0) (hj : j ≤ h.moves) :
    (calls.foldl History.record h).moves = h.moves + moveCount calls ∧
      ∑ k ∈ Finset.Ico j ((calls.foldl History.record h).moves + 1),
        (calls.foldl History.record h).value k =
          ∑ k ∈ Finset.Ico j (h.moves + 1), h.value k + added calls := by
  induction calls generalizing h with
  | nil => exact ⟨rfl, rfl⟩
  | cons call calls ih =>
      cases call with
      | add val =>
          obtain ⟨hmoves, hsum⟩ := ih (h := h.record (.add val)) (fun k hk => by
            have hne : ¬ k = h.moves := ne_of_gt hk
            simp only [History.record, Function.update_of_ne hne, hquiet k hk]) hj
          refine ⟨hmoves, hsum.trans ?_⟩
          have hlow : ∑ k ∈ Finset.Ico j h.moves, (h.record (.add val)).value k =
              ∑ k ∈ Finset.Ico j h.moves, h.value k :=
            Finset.sum_congr rfl fun k hk =>
              Function.update_of_ne (Finset.mem_Ico.mp hk).2.ne _ _
          have hlast : (h.record (.add val)).value h.moves = h.value h.moves + val :=
            Function.update_self _ _ _
          change ∑ k ∈ Finset.Ico j (h.moves + 1), (h.record (.add val)).value k + added calls =
            ∑ k ∈ Finset.Ico j (h.moves + 1), h.value k + (val + added calls)
          rw [Finset.sum_Ico_succ_top hj, Finset.sum_Ico_succ_top hj, hlow, hlast]
          omega
      | move elapsed =>
          obtain ⟨hmoves, hsum⟩ := ih (h := h.record (.move elapsed))
            (fun k hk => hquiet k (Nat.lt_of_succ_lt hk)) (Nat.le_succ_of_le hj)
          refine ⟨hmoves.trans (Nat.add_right_comm _ _ _), hsum.trans ?_⟩
          change ∑ k ∈ Finset.Ico j (h.moves + 1 + 1), h.value k + added calls = _
          rw [Finset.sum_Ico_succ_top (Nat.le_succ_of_le hj), hquiet _ (Nat.lt_succ_self _),
            Nat.add_zero]
          rfl

theorem history_moves : (history calls).moves = moveCount calls :=
  ((record_sum (h := ⟨0, 0, 0⟩) calls (fun _ _ => rfl) le_rfl).1).trans (Nat.zero_add _)

/-- In fewer than `2 ^ 32` moves the slots are taken in turn. -/
theorem window_of_few (hlen : 0 < len) (hfew : moveCount calls < 2 ^ 32) :
    window (slotOf len) (history calls).moves =
      Finset.Ico (moveCount calls + 1 - len) (moveCount calls + 1) := by
  rw [history_moves]
  refine window_eq_Ico hlen fun k hk => ?_
  rw [slotOf, u32_of_lt (hk.trans_lt hfew)]

/-- The sums of a bucket are those of its items modulo `2 ^ 64`, an eviction
takes off no more than is there while the true sum fits, and in fewer than
`2 ^ 32` moves `acc_val` is what the last `len` intervals added, modulo `2 ^ 64`. -/
theorem bucket_sums_modulo (hlen : 0 < len) :
    (runBucket len calls).accVal = u64 (runBucket len calls).total ∧
    (runBucket len calls).accTime = u64 (runBucket len calls).totalTime ∧
    ((runBucket len calls).total < 2 ^ 64 →
      ((runBucket len calls).buf.getD (u32 ((runBucket len calls).idx + 1) %
        (runBucket len calls).len) ⟨0, 0⟩).val ≤ (runBucket len calls).accVal) ∧
    ((runBucket len calls).totalTime < 2 ^ 64 →
      ((runBucket len calls).buf.getD (u32 ((runBucket len calls).idx + 1) %
        (runBucket len calls).len) ⟨0, 0⟩).elapsed ≤ (runBucket len calls).accTime) ∧
    (moveCount calls < 2 ^ 32 →
      (moveCount calls < len → (runBucket len calls).accVal = u64 (added calls)) ∧
      ∀ before elapsed after, calls = before ++ .move elapsed :: after →
        moveCount after + 1 = len → (runBucket len calls).accVal = u64 (added after)) := by
  have hb := follows_run hlen calls
  have hval := total_move hb.summed 0
  have htime := totalTime_move hb.summed 0
  refine ⟨hb.summed.accVal, hb.summed.accTime, fun hfit => ?_, fun hfit => ?_, fun hfew =>
    ⟨fun hshort => ?_, fun before elapsed after hcalls hafter => ?_⟩⟩
  · rw [hb.summed.accVal_eq hfit]
    omega
  · rw [hb.summed.accTime, u64_of_lt hfit]
    omega
  · have hsum := (record_sum (h := ⟨0, 0, 0⟩) calls (fun _ _ => rfl)
      (Nat.zero_le _)).2
    have hstart : moveCount calls + 1 - len = 0 := by omega
    rw [hb.accVal, window_of_few hlen hfew, hstart, ← history_moves]
    exact congrArg u64 (hsum.trans (Nat.zero_add _))
  · have hprefix := follows_run hlen before
    have hsplit : history calls =
        after.foldl History.record ((history before).record (.move elapsed)) := by
      rw [hcalls, history, List.foldl_append]
      rfl
    obtain ⟨hmoves, hsum⟩ := record_sum
      (h := (history before).record (.move elapsed)) after
      (fun k hk => hprefix.quiet k (Nat.lt_of_succ_lt hk)) le_rfl
    have hnone : ((history before).record (.move elapsed)).value
        ((history before).record (.move elapsed)).moves = 0 :=
      hprefix.quiet _ (Nat.lt_succ_self _)
    rw [← hsplit] at hmoves hsum
    rw [Finset.sum_Ico_succ_top le_rfl, Finset.Ico_self, Finset.sum_empty, hnone] at hsum
    have hstart : moveCount calls + 1 - len =
        ((history before).record (.move elapsed)).moves := by
      rw [← history_moves]
      omega
    rw [hb.accVal, window_of_few hlen hfew, hstart, ← history_moves, hsum, Nat.zero_add]

theorem bucket_sums_modulo_two_slots : (runBucket 2
    [.add 3, .move 5, .add 4, .move 6, .add 7]).accVal = u64 11 :=
  ((@bucket_sums_modulo 2 [.add 3, .move 5, .add 4, .move 6, .add 7] (by decide)).2.2.2.2
    (by decide)).2 [.add 3] 5 [.add 4, .move 6, .add 7] rfl rfl

/-- The accumulator of the values wraps. -/
theorem acc_val_wraps : (runBucket 1 [.add (2 ^ 64 - 1), .add 1]).accVal = 0 ∧
    added [.add (2 ^ 64 - 1), .add 1] = 2 ^ 64 ∧
    ¬ ∀ len calls, 0 < len → moveCount calls < 2 ^ 32 → moveCount calls < len →
      (runBucket len calls).accVal = added calls := by
  have hacc : (runBucket 1 [.add (2 ^ 64 - 1), .add 1]).accVal = 0 := by decide
  have hadded : added [.add (2 ^ 64 - 1), .add 1] = 2 ^ 64 := by decide
  refine ⟨hacc, hadded, fun hexact => ?_⟩
  have heq := hexact 1 [.add (2 ^ 64 - 1), .add 1] (by decide) (by decide) (by decide)
  rw [hacc, hadded] at heq
  exact absurd heq (by decide)

/-! ## The rate over the window -/

/-- The length of each interval is the one before the next. -/
theorem sum_before_add {a n : ℕ} (h : History) (ha : a ≤ n) :
    ∑ k ∈ Finset.Ico a n, h.before k + h.before n =
      h.before a + ∑ k ∈ Finset.Ico a n, h.length k := by
  induction n, ha using Nat.le_induction with
  | base => simp
  | succ n ha ih =>
      have hnext : h.before (n + 1) = h.length n := rfl
      rw [Finset.sum_Ico_succ_top ha, Finset.sum_Ico_succ_top ha, hnext]
      omega

theorem record_length_lt (hlengths : ∀ elapsed, .move elapsed ∈ calls → elapsed < 2 ^ 64)
    (hh : ∀ k, h.length k < 2 ^ 64) (k : ℕ) : (calls.foldl History.record h).length k < 2 ^ 64 := by
  induction calls generalizing h with
  | nil => exact hh k
  | cons call calls ih =>
      apply ih fun elapsed hmem => hlengths elapsed (List.mem_cons_of_mem _ hmem)
      cases call with
      | add val => exact hh
      | move elapsed =>
          intro k
          simp only [History.record, Function.update_apply]
          split_ifs
          · exact hlengths elapsed List.mem_cons_self
          · exact hh k

/-- At a status call that ends an interval, `acc_time` is the total length of
the intervals `acc_val` tells of exactly when the lengths of those just before
them have the same sum; in fewer than `2 ^ 32` moves that says that the interval
is as long as the one that left the window last, or empty before any left. -/
theorem acc_time_window_iff {calls : List BucketCall} (hlen : 0 < len)
    (helapsed : elapsed < 2 ^ 64) (hlengths : ∀ elapsed, .move elapsed ∈ calls → elapsed < 2 ^ 64) :
    let h := history calls
    let shown := window (slotOf len) h.moves
    let length := (h.record (.move elapsed)).length
    (runBucket len calls).accVal = u64 (∑ k ∈ shown, h.value k) ∧
    ((runBucket len calls).accTime = ∑ k ∈ shown, length k ↔
      u64 (∑ k ∈ shown, h.before k) = ∑ k ∈ shown, length k) ∧
    (moveCount calls < 2 ^ 32 → ((runBucket len calls).accTime = ∑ k ∈ shown, length k ↔
      elapsed = h.before (moveCount calls + 1 - len) ∧ ∑ k ∈ shown, length k < 2 ^ 64)) := by
  intro h shown length
  have hb := follows_run hlen calls
  refine ⟨hb.accVal, by rw [hb.accTime], fun hfew => ?_⟩
  have hmoves : h.moves = moveCount calls := history_moves
  have hshown : shown = Finset.Ico (moveCount calls + 1 - len) (h.moves + 1) := by
    rw [hmoves]
    exact window_of_few hlen hfew
  have hsum := sum_before_add (a := moveCount calls + 1 - len) (n := h.moves + 1)
    (h.record (.move elapsed)) (by omega)
  have hlast : (h.record (.move elapsed)).before (h.moves + 1) = elapsed :=
    Function.update_self _ _ _
  have hsame : ∑ k ∈ Finset.Ico (moveCount calls + 1 - len) (h.moves + 1),
      (h.record (.move elapsed)).before k = ∑ k ∈ shown, h.before k := by
    rw [hshown]
    exact Finset.sum_congr rfl fun k hk =>
      before_record (Nat.lt_succ_iff.mp (Finset.mem_Ico.mp hk).2)
  have hfirst : h.before (moveCount calls + 1 - len) < 2 ^ 64 := by
    cases moveCount calls + 1 - len with
    | zero => exact (by norm_num : 0 < 2 ^ 64)
    | succ k => exact record_length_lt hlengths (fun _ => (by norm_num : 0 < 2 ^ 64)) k
  rw [hlast, before_record (show moveCount calls + 1 - len ≤ h.moves by omega), hsame,
    ← hshown] at hsum
  change _ = _ + ∑ k ∈ shown, length k at hsum
  have htime : (runBucket len calls).accTime = u64 (∑ k ∈ shown, h.before k) := hb.accTime
  rw [htime]
  generalize ∑ k ∈ shown, h.before k = past at hsum ⊢
  generalize ∑ k ∈ shown, length k = total at hsum ⊢
  generalize h.before (moveCount calls + 1 - len) = first at hsum hfirst ⊢
  simp only [u64]
  omega

/-- Three intervals of one length, of which two are shown. -/
theorem acc_time_window_iff_steady :
    (runBucket 2 [.add 1, .move 5, .add 2, .move 5, .add 3]).accTime =
      ∑ k ∈ window (slotOf 2) 2,
        ((history [.add 1, .move 5, .add 2, .move 5, .add 3]).record (.move 5)).length k := by
  have hlengths : ∀ elapsed,
      BucketCall.move elapsed ∈ [.add 1, .move 5, .add 2, .move 5, .add 3] → elapsed < 2 ^ 64 := by
    intro elapsed hmem
    simp only [List.mem_cons, reduceCtorEq, BucketCall.move.injEq, List.not_mem_nil, or_false,
      false_or] at hmem
    omega
  exact ((@acc_time_window_iff 2 5 _ (by decide) (by decide) hlengths).2.2 (by decide)).mpr
    (by decide)

/-- At the first status call the events of the first interval are counted, and
its length is not. -/
theorem first_interval_not_timed : (runBucket 4 [.add 1]).accVal = 1 ∧
    (runBucket 4 [.add 1]).accTime = 0 ∧
    ∑ k ∈ window (slotOf 4) 0, ((history [.add 1]).record (.move 1000000000)).length k =
      1000000000 ∧
    ¬ ∀ len calls elapsed, 0 < len → (runBucket len calls).accTime =
      ∑ k ∈ window (slotOf len) (history calls).moves,
        ((history calls).record (.move elapsed)).length k := by
  have htime : (runBucket 4 [.add 1]).accTime = 0 := by decide
  have htrue : ∑ k ∈ window (slotOf 4) 0,
      ((history [.add 1]).record (.move 1000000000)).length k = 1000000000 := by decide
  refine ⟨by decide, htime, htrue, fun hrate => ?_⟩
  have heq := (hrate 4 [.add 1] 1000000000 (by decide)).trans htrue
  rw [htime] at heq
  omega

end IoScheduler
