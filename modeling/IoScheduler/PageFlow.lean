import IoScheduler.SchedulerBounds
import IoScheduler.SchedulerDumps

/-!
# The page flow

What the jobs are for together, apart from queues, timers and counters that wrap:
pages are written in order, a completed fsync acknowledges all that is written by
then, and what is acknowledged is read back, each page once. The machine steps over
the events of the log, and an item of the trace has to show its state.
-/
namespace IoScheduler
open Machine Transition History

/-- How many pages have passed each stage, and the reads under way. -/
structure PageFlow where
  submitted : ℕ
  written : ℕ
  synced : ℕ
  released : ℕ
  requested : ℕ
  syncing : Bool
  reading : Multiset ℕ

def PageFlow.start : PageFlow := ⟨0, 0, 0, 0, 0, false, 0⟩

/-- What an item says of the flow; the counts in flight are bytes. -/
def PageFlow.Shows (v : PageFlow) (item : TracingItem) : Prop :=
  item.writePageId = v.submitted ∧ item.flushPageId = v.released ∧
    item.readPageId = v.requested ∧ item.writeInflight = u8 (v.submitted - v.written) ∧
    item.readInflight = u8 v.reading.card

instance (v : PageFlow) (item : TracingItem) : Decidable (v.Shows item) := by
  unfold PageFlow.Shows
  infer_instance

/-- Page `p` is written by operation `p`, and no operation carries a user callback. -/
def PageFlow.step (v : PageFlow) : Event → Option PageFlow
  | .writeSubmitted op p =>
      if op = p ∧ p = v.submitted then some { v with submitted := p + 1 } else none
  | .pageWritten op p =>
      if op = p ∧ p = v.written ∧ p < v.submitted then some { v with written := p + 1 } else none
  | .fsyncSubmitted =>
      if v.syncing = false ∧ v.released < v.written then some { v with syncing := true } else none
  | .fileSynced =>
      if v.syncing = true then some { v with syncing := false, synced := v.written } else none
  | .released op p callback =>
      if op = p ∧ p = v.released ∧ p < v.synced ∧ callback = none then
        some { v with released := p + 1 }
      else none
  | .readSubmitted p =>
      if p = v.requested ∧ p < v.released then
        some { v with requested := p + 1, reading := p ::ₘ v.reading }
      else none
  | .pageRead p =>
      if p ∈ v.reading then some { v with reading := v.reading.erase p } else none
  | .itemTraced item => if v.Shows item then some v else none
  | .completionFailed _ _ => none

/-- A run of the flow over the events `log`. -/
abbrev PageFlow.Over (v : PageFlow) (log : List Event) (w : PageFlow) : Prop :=
  Run PageFlow.step (fun _ _ => True) v log w

section
variable {v w : PageFlow} {e : Event} {log : List Event}

theorem PageFlow.Over.snoc {u : PageFlow} (h : v.Over log w) (hs : w.step e = some u) :
    v.Over (log ++ [e]) u := Run.snoc h trivial hs

theorem PageFlow.Over.single (hs : v.step e = some w) : v.Over [e] w := Run.snoc .nil trivial hs

/-! ## What holds in every run -/

/-- No page is ahead of an earlier stage, and no page is read twice at a time. -/
structure PageFlow.Sound (v : PageFlow) : Prop where
  requested_le : v.requested ≤ v.released
  released_le : v.released ≤ v.synced
  synced_le : v.synced ≤ v.written
  written_le : v.written ≤ v.submitted
  reading_lt : ∀ p ∈ v.reading, p < v.requested
  once : v.reading.Nodup

theorem PageFlow.Sound.step (h : v.Sound) (hs : v.step e = some w) : w.Sound := by
  obtain ⟨hrequested, hreleased, hsynced, hwritten, hreading, honce⟩ := h
  cases e with
  | writeSubmitted op p =>
      obtain ⟨⟨-, rfl⟩, rfl⟩ := Option.ite_some_none_eq_some.mp hs
      exact ⟨hrequested, hreleased, hsynced, Nat.le_succ_of_le hwritten, hreading, honce⟩
  | pageWritten op p =>
      obtain ⟨⟨-, rfl, hlt⟩, rfl⟩ := Option.ite_some_none_eq_some.mp hs
      exact ⟨hrequested, hreleased, Nat.le_succ_of_le hsynced, hlt, hreading, honce⟩
  | fsyncSubmitted =>
      obtain ⟨-, rfl⟩ := Option.ite_some_none_eq_some.mp hs
      exact ⟨hrequested, hreleased, hsynced, hwritten, hreading, honce⟩
  | fileSynced =>
      obtain ⟨-, rfl⟩ := Option.ite_some_none_eq_some.mp hs
      exact ⟨hrequested, hreleased.trans hsynced, le_rfl, hwritten, hreading, honce⟩
  | released op p callback =>
      obtain ⟨⟨-, rfl, hlt, -⟩, rfl⟩ := Option.ite_some_none_eq_some.mp hs
      exact ⟨Nat.le_succ_of_le hrequested, hlt, hsynced, hwritten, hreading, honce⟩
  | readSubmitted p =>
      obtain ⟨⟨rfl, hlt⟩, rfl⟩ := Option.ite_some_none_eq_some.mp hs
      refine ⟨hlt, hreleased, hsynced, hwritten, fun q hq => ?_, ?_⟩
      · rcases Multiset.mem_cons.mp hq with rfl | hq
        · exact Nat.lt_succ_self _
        · exact Nat.lt_succ_of_lt (hreading q hq)
      · exact Multiset.nodup_cons.mpr ⟨fun hmem => (hreading _ hmem).ne rfl, honce⟩
  | pageRead p =>
      obtain ⟨-, rfl⟩ := Option.ite_some_none_eq_some.mp hs
      exact ⟨hrequested, hreleased, hsynced, hwritten,
        fun q hq => hreading q (Multiset.mem_of_mem_erase hq), honce.erase p⟩
  | itemTraced item =>
      obtain ⟨-, rfl⟩ := Option.ite_some_none_eq_some.mp hs
      exact ⟨hrequested, hreleased, hsynced, hwritten, hreading, honce⟩
  | completionFailed sqe res => cases hs

theorem PageFlow.Over.sound (h : PageFlow.start.Over log v) : v.Sound :=
  Run.invariant h ⟨le_rfl, le_rfl, le_rfl, le_rfl, by simp [start], by simp [start]⟩
    fun _ _ _ hi _ hs => hi.step hs
/-! ## Batches -/

theorem PageFlow.over_writes (v : PageFlow) (n : ℕ) :
    v.Over ((List.range n).map fun k => .writeSubmitted (v.submitted + k) (v.submitted + k))
      { v with submitted := v.submitted + n } := by
  induction n with
  | zero => exact .nil
  | succ n ih =>
      rw [List.range_succ, List.map_append]
      exact ih.snoc (if_pos ⟨rfl, rfl⟩)

theorem PageFlow.over_reads (v : PageFlow) {n : ℕ} (h : v.requested + n ≤ v.released) :
    v.Over ((List.range n).map fun k => .readSubmitted (v.requested + k))
      { v with
        requested := v.requested + n
        reading := v.reading + ((List.range n).map (v.requested + ·) : List ℕ) } := by
  induction n with
  | zero => simpa using (Run.nil : v.Over [] v)
  | succ n ih =>
      rw [List.range_succ, List.map_append]
      have hread : (v.requested + n) ::ₘ (v.reading +
          ((List.range n).map (v.requested + ·) : List ℕ)) = v.reading +
            ((List.range n ++ [n]).map (v.requested + ·) : List ℕ) := by
        rw [List.map_append, ← Multiset.coe_add, ← add_assoc, ← Multiset.singleton_add, add_comm]
        rfl
      rw [← hread]
      exact (ih (by omega)).snoc (if_pos ⟨rfl, h⟩)

theorem PageFlow.over_releases (v : PageFlow) {n : ℕ} (h : v.released + n ≤ v.synced) :
    v.Over ((List.range' v.released n).map fun p => .released p p none)
      { v with released := v.released + n } := by
  induction n with
  | zero => exact .nil
  | succ n ih =>
      rw [List.range'_concat, List.map_append, Nat.one_mul]
      exact (ih (by omega)).snoc (if_pos ⟨rfl, rfl, h, rfl⟩)

end

/-! ## The trace -/

/-- An item shows how many pages had passed each stage before it was recorded. -/
def Snapshot (past : List Event) (e : Event) : Prop :=
  ∀ item, e = .itemTraced item →
    item.writePageId = (past.filterMap Event.writeSubmitted?).length ∧
    item.flushPageId = (past.filterMap Event.released?).length ∧
    item.readPageId = (past.filterMap Event.readSubmitted?).length ∧
    item.writeInflight = u8 ((past.filterMap Event.writeSubmitted?).length -
      (past.filterMap Event.pageWritten?).length) ∧
    item.readInflight = u8 ((past.filterMap Event.readSubmitted?).length -
      (past.filterMap Event.pageRead?).length)

/-- The counters are the numbers of events. -/
structure PageFlow.Counts (v : PageFlow) (log : List Event) : Prop where
  submitted : v.submitted = (log.filterMap Event.writeSubmitted?).length
  written : v.written = (log.filterMap Event.pageWritten?).length
  released : v.released = (log.filterMap Event.released?).length
  requested : v.requested = (log.filterMap Event.readSubmitted?).length
  reading : v.reading.card + (log.filterMap Event.pageRead?).length = v.requested

section
variable {v w : PageFlow} {e : Event} {log : List Event}

theorem PageFlow.Counts.step (h : v.Counts log) (hs : v.step e = some w) :
    w.Counts (log ++ [e]) := by
  obtain ⟨hsubmitted, hwritten, hreleased, hrequested, hreading⟩ := h
  have hlen : ∀ {β : Type} (f : Event → Option β), (log.filterMap f).length +
      (f e).toList.length = ((log ++ [e]).filterMap f).length := fun f => by
    rw [List.filterMap_append, List.length_append]
    cases hf : f e <;> simp [hf]
  have hs₁ := hlen Event.writeSubmitted?
  have hs₂ := hlen Event.pageWritten?
  have hs₃ := hlen Event.released?
  have hs₄ := hlen Event.readSubmitted?
  have hs₅ := hlen Event.pageRead?
  cases e with
  | writeSubmitted op p =>
      obtain ⟨⟨-, rfl⟩, rfl⟩ := Option.ite_some_none_eq_some.mp hs
      exact ⟨(congrArg (· + 1) hsubmitted).trans hs₁, hwritten.trans hs₂, hreleased.trans hs₃,
        hrequested.trans hs₄, hs₅ ▸ hreading⟩
  | pageWritten op p =>
      obtain ⟨⟨-, rfl, -⟩, rfl⟩ := Option.ite_some_none_eq_some.mp hs
      exact ⟨hsubmitted.trans hs₁, (congrArg (· + 1) hwritten).trans hs₂, hreleased.trans hs₃,
        hrequested.trans hs₄, hs₅ ▸ hreading⟩
  | fsyncSubmitted | fileSynced | itemTraced item =>
      obtain ⟨-, rfl⟩ := Option.ite_some_none_eq_some.mp hs
      exact ⟨hsubmitted.trans hs₁, hwritten.trans hs₂, hreleased.trans hs₃,
        hrequested.trans hs₄, hs₅ ▸ hreading⟩
  | released op p callback =>
      obtain ⟨⟨-, rfl, -⟩, rfl⟩ := Option.ite_some_none_eq_some.mp hs
      exact ⟨hsubmitted.trans hs₁, hwritten.trans hs₂, (congrArg (· + 1) hreleased).trans hs₃,
        hrequested.trans hs₄, hs₅ ▸ hreading⟩
  | readSubmitted p =>
      obtain ⟨⟨rfl, -⟩, rfl⟩ := Option.ite_some_none_eq_some.mp hs
      refine ⟨hsubmitted.trans hs₁, hwritten.trans hs₂, hreleased.trans hs₃,
        (congrArg (· + 1) hrequested).trans hs₄, hs₅ ▸ ?_⟩
      simp [Event.pageRead?, ← hreading, Nat.add_right_comm]
  | pageRead p =>
      obtain ⟨hmem, rfl⟩ := Option.ite_some_none_eq_some.mp hs
      have hcard := Multiset.card_erase_add_one hmem
      refine ⟨hsubmitted.trans hs₁, hwritten.trans hs₂, hreleased.trans hs₃,
        hrequested.trans hs₄, hs₅ ▸ ?_⟩
      simp [Event.pageRead?, ← hreading, ← hcard, Nat.add_right_comm, Nat.add_assoc]
  | completionFailed sqe res => cases hs

theorem PageFlow.Over.counts (h : PageFlow.start.Over log v) : v.Counts log := by
  induction h with
  | nil => exact ⟨rfl, rfl, rfl, rfl, rfl⟩
  | snoc _ _ hs ih => exact ih.step hs

theorem PageFlow.step_le (hs : v.step e = some w) :
    v.submitted ≤ w.submitted ∧ v.released ≤ w.released ∧ v.requested ≤ w.requested := by
  cases e with
  | writeSubmitted op p =>
      obtain ⟨⟨-, rfl⟩, rfl⟩ := Option.ite_some_none_eq_some.mp hs
      exact ⟨Nat.le_succ _, le_rfl, le_rfl⟩
  | released op p callback =>
      obtain ⟨⟨-, rfl, -⟩, rfl⟩ := Option.ite_some_none_eq_some.mp hs
      exact ⟨le_rfl, Nat.le_succ _, le_rfl⟩
  | readSubmitted p =>
      obtain ⟨⟨rfl, -⟩, rfl⟩ := Option.ite_some_none_eq_some.mp hs
      exact ⟨le_rfl, le_rfl, Nat.le_succ _⟩
  | pageWritten | fsyncSubmitted | fileSynced | pageRead | itemTraced =>
      obtain ⟨-, rfl⟩ := Option.ite_some_none_eq_some.mp hs
      exact ⟨le_rfl, le_rfl, le_rfl⟩
  | completionFailed => cases hs

/-- A later item is at least as far. -/
def Behind (x y : TracingItem) : Prop :=
  x.writePageId ≤ y.writePageId ∧ x.flushPageId ≤ y.flushPageId ∧ x.readPageId ≤ y.readPageId

/-- The items recorded so far. -/
structure PageFlow.Told (v : PageFlow) (log : List Event) : Prop where
  snapshots : Justified Snapshot log
  inside : ∀ x ∈ log.filterMap Event.itemTraced?,
    x.readPageId ≤ x.flushPageId ∧ x.flushPageId ≤ x.writePageId
  past : ∀ x ∈ log.filterMap Event.itemTraced?,
    x.writePageId ≤ v.submitted ∧ x.flushPageId ≤ v.released ∧ x.readPageId ≤ v.requested
  ordered : (log.filterMap Event.itemTraced?).Pairwise Behind

theorem PageFlow.Told.step (h : v.Told log) (hover : PageFlow.start.Over log v)
    (hs : v.step e = some w) : w.Told (log ++ [e]) := by
  obtain ⟨hsubmitted, hreleased, hrequested⟩ := PageFlow.step_le hs
  have hpast : ∀ x ∈ log.filterMap Event.itemTraced?, x.writePageId ≤ w.submitted ∧
      x.flushPageId ≤ w.released ∧ x.readPageId ≤ w.requested := fun x hx =>
    have hold := h.past x hx
    ⟨hold.1.trans hsubmitted, hold.2.1.trans hreleased, hold.2.2.trans hrequested⟩
  have hsnap : Snapshot log e → Justified Snapshot (log ++ [e]) := fun he =>
    justified_append.mpr ⟨h.snapshots, fun mid x hm => by
      have hlen := hm.length_le
      obtain rfl : mid = [] := by
        rw [List.length_append, List.length_singleton, List.length_singleton] at hlen
        exact List.eq_nil_of_length_eq_zero (by omega)
      obtain rfl : x = e := by simpa using hm
      rwa [List.append_nil]⟩
  cases hitem : e.itemTraced? with
  | none =>
      have hsame : (log ++ [e]).filterMap Event.itemTraced? = log.filterMap Event.itemTraced? := by
        rw [List.filterMap_append, List.filterMap_cons_none hitem]
        exact List.append_nil _
      refine ⟨hsnap fun item he => ?_, hsame ▸ h.inside, hsame ▸ hpast, hsame ▸ h.ordered⟩
      rw [he] at hitem
      cases hitem
  | some item =>
      obtain rfl : e = .itemTraced item := by
        cases e <;> simp_all [Event.itemTraced?]
      obtain ⟨⟨hwrite, hflush, hread, hwrites, hreads⟩, rfl⟩ := Option.ite_some_none_eq_some.mp hs
      have hcounts := hover.counts
      have hsound := hover.sound
      have hsplit : (log ++ [Event.itemTraced item]).filterMap Event.itemTraced? =
          log.filterMap Event.itemTraced? ++ [item] := List.filterMap_append
      have hlast : item.readPageId ≤ item.flushPageId ∧ item.flushPageId ≤ item.writePageId := by
        rw [hread, hflush, hwrite]
        exact ⟨hsound.requested_le,
          hsound.released_le.trans (hsound.synced_le.trans hsound.written_le)⟩
      refine ⟨hsnap ?_, ?_, ?_, ?_⟩
      · rintro _ ⟨⟩
        have hcard := hcounts.reading
        rw [← hcounts.submitted, ← hcounts.written, ← hcounts.released, ← hcounts.requested,
          ← hcard, Nat.add_sub_cancel, hcard]
        exact ⟨hwrite, hflush, hread, hwrites, hreads⟩
      · rw [hsplit]
        exact List.forall_mem_append.mpr ⟨h.inside, List.forall_mem_singleton.mpr hlast⟩
      · rw [hsplit]
        exact List.forall_mem_append.mpr
          ⟨h.past, List.forall_mem_singleton.mpr ⟨hwrite.le, hflush.le, hread.le⟩⟩
      · rw [hsplit]
        refine List.pairwise_append.mpr ⟨h.ordered, List.pairwise_singleton _ _, ?_⟩
        intro x hx y hy
        obtain rfl := List.mem_singleton.mp hy
        rw [Behind, hwrite, hflush, hread]
        exact h.past x hx

theorem PageFlow.Over.told (h : PageFlow.start.Over log v) : v.Told log := by
  induction h with
  | nil => exact ⟨.nil, by simp, by simp, List.Pairwise.nil⟩
  | snoc hrun _ hs ih => exact ih.step hrun hs

end

end IoScheduler
