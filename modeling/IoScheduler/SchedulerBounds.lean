import IoScheduler.SchedulerOwners
import IoScheduler.SchedulerProgress
import IoScheduler.StatsSums

/-!
# Bounds of the page jobs

The writer and the reader are two instances of one pattern: a tick adapts the
batch, submits that many pages and goes on while the page counter is below the
target. `PageJob` is what the bounds need of either. They hold whatever the
order and the results of the completions are, so also for any values of the
in-flight counters.
-/
namespace IoScheduler
open Machine Transition

def Event.pageRead? : Event → Option ℕ
  | .pageRead pageId => some pageId
  | _ => none

/-- The page writes whose `page_written` has run. -/
def System.pagesWritten (s : System) : ℕ := (s.log.filterMap Event.pageWritten?).length

/-- The page reads whose `page_read` has run. -/
def System.pagesRead (s : System) : ℕ := (s.log.filterMap Event.pageRead?).length

def Event.failed? : Event → Option Sqe
  | .completionFailed e _ => some e
  | _ => none

/-- The operations that completed with an error, which `io_tick` only prints. -/
def System.failures (s : System) : List Sqe := s.log.filterMap Event.failed?

/-- `BYTE_MB`. -/
def byteMb (x : ℕ) : ℕ := u64 (u64 (x * 2 ^ 10) * 2 ^ 10)

/-- The throughput `background_status` prints for a count bucket. -/
def mbsSpeed (count : Bucket) : ℕ :=
  if count.accTime ≠ 0 then
    u64 (u64 (bufSize * count.accVal) * timeS 1) / count.accTime / byteMb 1
  else 0

/-- The pages the jobs work through as configured. -/
def targetPages : ℕ := bytesToWrite / bufSize

/-- `counter` is the job's `inflight`; `inFlight` are the operations outstanding. -/
structure PageJob where
  batchSize : ℕ
  pageId : ℕ
  counter : ℕ
  timers : ℕ
  completed : ℕ
  failed : ℕ
  inFlight : ℕ
  count : Bucket
  submitted : List ℕ
  offsets : Set ℕ

namespace PageJob

/-- The numbers `BUF_SIZE * page_id` and `BUF_SIZE * acc_val * TIME_S(1)` stay
below `2^64` under these bounds. -/
structure Bounded (v : PageJob) : Prop where
  batchSize : v.batchSize ≤ entries - 2
  pageId : v.pageId ≤ targetPages + entries - 3
  timers : v.timers ≤ 1
  going : 0 < v.timers → v.pageId < targetPages
  completed : v.completed + v.failed + v.inFlight ≤ v.pageId
  counter : v.counter = u8 (v.inFlight + v.failed)
  summed : Summed v.count
  total : v.count.total ≤ v.completed
  submitted : ∀ p ∈ v.submitted, p < v.pageId
  offsets : ∀ off ∈ v.offsets, ∃ p ∈ v.submitted, off = bufSize * p

/-- What one step of the loop does to a page job. -/
inductive Step (v w : PageJob) : Prop
  | quiet (batchSize : w.batchSize = v.batchSize) (pageId : w.pageId = v.pageId)
      (counter : w.counter = v.counter) (timers : w.timers ≤ v.timers)
      (completed : w.completed = v.completed)
      (inFlight : w.inFlight + w.failed = v.inFlight + v.failed)
      (count : w.count = v.count ∨ ∃ elapsed, w.count = statsBucketMove v.count elapsed)
      (submitted : w.submitted = v.submitted) (offsets : w.offsets ⊆ v.offsets)
  | tick (b : ℕ) (batch_le : v.batchSize ≤ entries - 2 → b ≤ entries - 2)
      (batchSize : w.batchSize = b) (pageId : w.pageId = u32 (v.pageId + b))
      (counter : w.counter = u8 (v.counter + b)) (pos : 0 < v.timers)
      (timers : w.timers + 1 = v.timers + (goesOn bytesToWrite (u32 (v.pageId + b))).toNat)
      (completed : w.completed = v.completed) (failed : w.failed = v.failed)
      (inFlight : w.inFlight = v.inFlight + b) (count : w.count = v.count)
      (submitted : w.submitted = v.submitted ++ (List.range b).map fun k => u32 (v.pageId + k))
      (offsets : ∀ off ∈ w.offsets, off ∈ v.offsets ∨
        ∃ k < b, off = u64 (bufSize * u32 (v.pageId + k)))
  | complete (batchSize : w.batchSize = v.batchSize) (pageId : w.pageId = v.pageId)
      (counter : w.counter = sub8 v.counter 1) (timers : w.timers = v.timers)
      (completed : w.completed = v.completed + 1) (failed : w.failed = v.failed)
      (inFlight : w.inFlight + 1 = v.inFlight) (count : w.count = statsBucketAddOne v.count)
      (submitted : w.submitted = v.submitted) (offsets : w.offsets ⊆ v.offsets)

theorem goesOn_lt {p : ℕ} (hp : p ≤ targetPages + entries - 3)
    (h : goesOn bytesToWrite p = true) : p < targetPages := by
  have hlt : u64 (p * bufSize) < bytesToWrite := by simpa [goesOn] using h
  simp only [u64, targetPages, bytesToWrite, bufSize, entries] at hp hlt ⊢
  omega

theorem Bounded.step {v w : PageJob} (h : v.Bounded) (hs : Step v w) : w.Bounded := by
  have htarget : targetPages = 32768 := by decide
  have he : entries = 16384 := rfl
  have hpage := h.pageId
  cases hs with
  | quiet batchSize pageId counter timers completed inFlight count submitted offsets =>
      refine ⟨batchSize ▸ h.batchSize, pageId ▸ h.pageId, timers.trans h.timers,
        fun hpos => pageId ▸ h.going (hpos.trans_le timers), ?_, ?_, ?_, ?_, ?_, ?_⟩
      · have := h.completed
        omega
      · rw [counter, inFlight, h.counter]
      · rcases count with hc | ⟨elapsed, hc⟩
        · exact hc ▸ h.summed
        · exact hc ▸ h.summed.move
      · rw [completed]
        rcases count with hc | ⟨elapsed, hc⟩
        · exact hc ▸ h.total
        · exact hc ▸ (total_move_le h.summed).trans h.total
      · rw [submitted, pageId]
        exact h.submitted
      · rw [submitted]
        exact fun off hoff => h.offsets off (offsets hoff)
  | tick b batch_le batchSize pageId counter pos timers completed failed inFlight count
      submitted offsets =>
      have hb := batch_le h.batchSize
      have hgoing := h.going pos
      have hpageId : w.pageId = v.pageId + b := by rw [pageId, u32_of_lt (by omega)]
      have hle : w.pageId ≤ targetPages + entries - 3 := by omega
      have hk : ∀ k < b, u32 (v.pageId + k) = v.pageId + k := fun k hk => u32_of_lt (by omega)
      refine ⟨batchSize ▸ hb, hle, ?_, fun hpos => ?_, ?_, ?_, ?_, ?_, ?_, ?_⟩
      · have := h.timers
        have := Bool.toNat_le (goesOn bytesToWrite (u32 (v.pageId + b)))
        omega
      · refine goesOn_lt hle ?_
        have hone := h.timers
        have hgo : (goesOn bytesToWrite (u32 (v.pageId + b))).toNat = 1 := by
          have := Bool.toNat_le (goesOn bytesToWrite (u32 (v.pageId + b)))
          omega
        rw [pageId]
        exact Bool.toNat_eq_one.mp hgo
      · have := h.completed
        omega
      · rw [counter, h.counter, u8_add, inFlight, failed, Nat.add_right_comm]
      · exact count ▸ h.summed
      · rw [count, completed]
        exact h.total
      · rw [submitted]
        intro p hp
        rcases List.mem_append.mp hp with hp | hp
        · exact (h.submitted p hp).trans_le (by omega)
        · obtain ⟨k, hkb, rfl⟩ := List.mem_map.mp hp
          rw [hk k (List.mem_range.mp hkb)]
          have := List.mem_range.mp hkb
          omega
      · rw [submitted]
        intro off hoff
        rcases offsets off hoff with hold | ⟨k, hkb, rfl⟩
        · obtain ⟨p, hp, rfl⟩ := h.offsets off hold
          exact ⟨p, List.mem_append_left _ hp, rfl⟩
        · refine ⟨u32 (v.pageId + k), List.mem_append_right _
            (List.mem_map.mpr ⟨k, List.mem_range.mpr hkb, rfl⟩), ?_⟩
          rw [hk k hkb, u64_of_lt]
          simp only [bufSize]
          omega
  | complete batchSize pageId counter timers completed failed inFlight count submitted offsets =>
      refine ⟨batchSize ▸ h.batchSize, pageId ▸ h.pageId, timers ▸ h.timers,
        fun hpos => pageId ▸ h.going (timers ▸ hpos), ?_, ?_, ?_, ?_, ?_, ?_⟩
      · have := h.completed
        omega
      · rw [counter, h.counter, sub8_one (by omega), failed, ← inFlight]
        congr 1
        omega
      · exact count ▸ h.summed.add
      · rw [count, completed]
        exact (total_add_le h.summed).trans (Nat.add_le_add_right h.total 1)
      · rw [submitted, pageId]
        exact h.submitted
      · rw [submitted]
        exact fun off hoff => h.offsets off (offsets hoff)

/-- The products of the status line are exact. -/
theorem Bounded.product_lt {v : PageJob} (h : v.Bounded) :
    v.count.accVal ≤ v.completed ∧ bufSize * v.count.accVal * timeS 1 < 2 ^ 64 := by
  have htarget : targetPages = 32768 := by decide
  have htime : timeS 1 = 1000000000 := by decide
  have he : entries = 16384 := rfl
  have htotal := h.total
  have hcompleted := h.completed
  have hpage := h.pageId
  have hacc := h.summed.accVal_eq (by omega)
  refine ⟨hacc.trans_le htotal, ?_⟩
  rw [hacc, htime]
  simp only [bufSize]
  omega

theorem Bounded.mbsSpeed_eq {v : PageJob} (h : v.Bounded) :
    mbsSpeed v.count = bufSize * v.count.accVal * timeS 1 / v.count.accTime / byteMb 1 := by
  obtain ⟨-, hlt⟩ := h.product_lt
  have hbytes : bufSize * v.count.accVal < 2 ^ 64 :=
    (Nat.le_mul_of_pos_right _ (by decide)).trans_lt hlt
  unfold mbsSpeed
  split_ifs with hzero
  · rw [u64_of_lt hbytes, u64_of_lt hlt]
  · rw [not_not.mp hzero, Nat.div_zero, Nat.zero_div]

/-- A page below the counter has an offset below `2^64`. -/
theorem Bounded.offset_lt {v : PageJob} (h : v.Bounded) {p : ℕ} (hp : p ≤ v.pageId) :
    bufSize * p < 2 ^ 64 := by
  have htarget : targetPages = 32768 := by decide
  have he : entries = 16384 := rfl
  have hpage := h.pageId
  simp only [bufSize]
  omega

end PageJob

namespace System

def writerPart (s : System) : PageJob where
  batchSize := s.writerJob.batchSize
  pageId := s.writerJob.pageId
  counter := s.writerJob.inflight
  timers := s.occupied (.job .writer)
  completed := s.pagesWritten
  failed := s.failures.countP Sqe.isPageWrite
  inFlight := s.writesInFlight
  count := s.stats.writeCount
  submitted := (s.log.filterMap Event.writeSubmitted?).map Prod.snd
  offsets := { off | ∃ op, .pageWrite op off ∈ s.outstanding }

def readerPart (s : System) : PageJob where
  batchSize := s.readerJob.batchSize
  pageId := s.readerJob.pageId
  counter := s.readerJob.inflight
  timers := s.occupied (.job .reader)
  completed := s.pagesRead
  failed := s.failures.countP Sqe.isPageRead
  inFlight := s.readsInFlight
  count := s.stats.readCount
  submitted := s.log.filterMap Event.readSubmitted?
  offsets := { off | ∃ op, .pageRead op off ∈ s.outstanding }

end System

/-! ## The steps of the two jobs -/

section
variable {B : ℕ} {now : Timespec} {res : ℤ} {s t : System} {e : Sqe}

theorem pageWritten_stats {op : ℕ} (ht : pageWritten now op s = some t) :
    t.stats.writeCount = statsBucketAddOne s.stats.writeCount ∧
      t.stats.readCount = s.stats.readCount := by
  obtain ⟨o, -, h⟩ := Option.bind_eq_some_iff.mp ht
  dsimp only at h
  split_ifs at h with hpage
  obtain ⟨u, hu, hut⟩ := Option.bind_eq_some_iff.mp h
  obtain ⟨heap, writeList, rfl, -⟩ := appendWritten_eq_some hu
  cases hut
  exact ⟨rfl, rfl⟩

theorem fileSynced_stats (ht : fileSynced now s = some t) :
    t.stats.writeCount = s.stats.writeCount ∧ t.stats.readCount = s.stats.readCount := by
  obtain ⟨u, hu, hut⟩ := Option.bind_eq_some_iff.mp ht
  obtain ⟨heap, log, rfl⟩ := releaseList_eq_some hu
  cases hut
  exact ⟨rfl, rfl⟩

theorem backgroundStatus_stats (ht : backgroundStatus now s = some t) :
    ∃ elapsed, t.stats.writeCount = statsBucketMove s.stats.writeCount elapsed ∧
      t.stats.readCount = statsBucketMove s.stats.readCount elapsed := by
  unfold backgroundStatus resendJob at ht
  obtain ⟨-, rfl⟩ := ioPrepareSqe_eq_some.mp ht
  exact ⟨_, rfl, rfl⟩

/-- A callback of another job leaves the batch and the page counter of the writer
and of the reader alone; the status line moves the buckets. -/
theorem callback_foreign (ht : callback B now res s e = some t) :
    (e.owner ≠ .writer → t.writerJob.batchSize = s.writerJob.batchSize ∧
      t.writerJob.pageId = s.writerJob.pageId ∧ t.writerJob.inflight = s.writerJob.inflight ∧
      (t.stats.writeCount = s.stats.writeCount ∨
        ∃ elapsed, t.stats.writeCount = statsBucketMove s.stats.writeCount elapsed)) ∧
    (e.owner ≠ .reader → t.readerJob.batchSize = s.readerJob.batchSize ∧
      t.readerJob.pageId = s.readerJob.pageId ∧ t.readerJob.inflight = s.readerJob.inflight ∧
      (t.stats.readCount = s.stats.readCount ∨
        ∃ elapsed, t.stats.readCount = statsBucketMove s.stats.readCount elapsed)) := by
  cases e with
  | pageWrite op off =>
      have hstats := (pageWritten_stats ht).2
      obtain ⟨o, heap, writeList, stats, -, -, rfl, -⟩ := pageWritten_eq_some ht
      exact ⟨fun hne => absurd rfl hne, fun _ => ⟨rfl, rfl, rfl, .inl hstats⟩⟩
  | pageRead op off =>
      obtain rfl := Option.some.inj ht
      exact ⟨fun _ => ⟨rfl, rfl, rfl, .inl rfl⟩, fun hne => absurd rfl hne⟩
  | fsync =>
      obtain ⟨hw, hr⟩ := fileSynced_stats ht
      obtain ⟨heap, log, stats, -, rfl⟩ := fileSynced_eq_some ht
      exact ⟨fun _ => ⟨rfl, rfl, rfl, .inl hw⟩, fun _ => ⟨rfl, rfl, rfl, .inl hr⟩⟩
  | dumpWrite len off | dumpFsync =>
      simp only [callback] at ht
      split at ht
      · obtain ⟨-, rfl⟩ := tracingWrited_eq_some ht
        exact ⟨fun _ => ⟨rfl, rfl, rfl, .inl rfl⟩, fun _ => ⟨rfl, rfl, rfl, .inl rfl⟩⟩
      · obtain rfl := tracingSynced_eq_some ht
        exact ⟨fun _ => ⟨rfl, rfl, rfl, .inl rfl⟩, fun _ => ⟨rfl, rfl, rfl, .inl rfl⟩⟩
  | timeout job =>
      cases job with
      | writer =>
          obtain ⟨-, rfl⟩ := backgroundWriter_eq_some ht
          exact ⟨fun hne => absurd rfl hne, fun _ => ⟨rfl, rfl, rfl, .inl rfl⟩⟩
      | reader =>
          obtain ⟨-, rfl⟩ := backgroundReader_eq_some ht
          exact ⟨fun _ => ⟨rfl, rfl, rfl, .inl rfl⟩, fun hne => absurd rfl hne⟩
      | flusher =>
          obtain ⟨u, hu, rfl⟩ := backgroundFlusher_eq_some ht
          rcases submitFsync_eq_some hu with ⟨-, rfl⟩ | ⟨-, rfl⟩ <;>
            exact ⟨fun _ => ⟨rfl, rfl, rfl, .inl rfl⟩, fun _ => ⟨rfl, rfl, rfl, .inl rfl⟩⟩
      | tracing =>
          obtain ⟨cbuf, traceDone, log, htr⟩ := traced_eq now s
          rcases backgroundTracing_eq_some ht with ⟨-, rfl⟩ | ⟨-, -, rfl⟩ | ⟨-, -, -, rfl⟩ |
            ⟨-, -, -, rfl⟩
          · rw [htr]
            exact ⟨fun _ => ⟨rfl, rfl, rfl, .inl rfl⟩, fun _ => ⟨rfl, rfl, rfl, .inl rfl⟩⟩
          · rw [htr]
            exact ⟨fun _ => ⟨rfl, rfl, rfl, .inl rfl⟩, fun _ => ⟨rfl, rfl, rfl, .inl rfl⟩⟩
          · exact ⟨fun _ => ⟨rfl, rfl, rfl, .inl rfl⟩, fun _ => ⟨rfl, rfl, rfl, .inl rfl⟩⟩
          · exact ⟨fun _ => ⟨rfl, rfl, rfl, .inl rfl⟩, fun _ => ⟨rfl, rfl, rfl, .inl rfl⟩⟩
      | status =>
          obtain ⟨elapsed, hw, hr⟩ := backgroundStatus_stats ht
          obtain ⟨stats, rfl⟩ := backgroundStatus_eq_some ht
          exact ⟨fun _ => ⟨rfl, rfl, rfl, .inr ⟨elapsed, hw⟩⟩,
            fun _ => ⟨rfl, rfl, rfl, .inr ⟨elapsed, hr⟩⟩⟩

/-- A callback records no failure. -/
theorem Appends.failures {new : List Sqe} {events : List Event} (h : Appends s t e new events) :
    t.failures = s.failures := by
  refine h.filterMap_log fun x hx => ?_
  cases x <;> simp_all [Event.recordedBy, Event.failed?]

theorem owner_of_isPageWrite {x : Sqe} (h : x.isPageWrite = true) : x.owner = .writer := by
  cases x <;> simp_all [Sqe.isPageWrite, Sqe.owner]

theorem owner_of_isPageRead {x : Sqe} (h : x.isPageRead = true) : x.owner = .reader := by
  cases x <;> simp_all [Sqe.isPageRead, Sqe.owner]

theorem owner_of_inSlot_job {x : Sqe} {job : Job} (h : x.inSlot (.job job) = true) :
    x.owner = job := by
  cases x <;> simp_all [Sqe.inSlot, Sqe.slot?, Sqe.owner]

/-- What another job's completion records is not counted by the writer. -/
theorem recordedBy_foreign_writer {x : Event} (hne : e.owner ≠ .writer)
    (hx : Event.recordedBy e x = true) :
    x.writeSubmitted? = none ∧ x.pageWritten? = none := by
  cases x <;> cases e <;>
    simp_all [Event.recordedBy, Event.writeSubmitted?, Event.pageWritten?, Sqe.owner,
      Sqe.isPageWrite, Sqe.isPageRead]

theorem recordedBy_foreign_reader {x : Event} (hne : e.owner ≠ .reader)
    (hx : Event.recordedBy e x = true) : x.readSubmitted? = none ∧ x.pageRead? = none := by
  cases x <;> cases e <;>
    simp_all [Event.recordedBy, Event.readSubmitted?, Event.pageRead?, Sqe.owner,
      Sqe.isPageWrite, Sqe.isPageRead]

theorem PageJob.Step.refl (v : PageJob) : PageJob.Step v v :=
  .quiet rfl rfl rfl le_rfl rfl rfl (.inl rfl) rfl (Set.Subset.refl _)

theorem countP_taken_le (he : e ∈ s.kernel) (p : Sqe → Bool) :
    (s.taken e).outstanding.countP p ≤ s.outstanding.countP p := by
  rw [System.countP_outstanding he]
  exact Nat.le_add_right _ _

/-- A failed operation leaves the outstanding ones and joins the failed ones. -/
theorem failed_balance (he : e ∈ s.kernel) (p : Sqe → Bool) :
    ((s.taken e).record (.completionFailed e res)).outstanding.countP p +
        ((s.taken e).record (.completionFailed e res)).failures.countP p =
      s.outstanding.countP p + s.failures.countP p := by
  have hout := System.countP_outstanding he p
  have hfail : ((s.taken e).record (.completionFailed e res)).failures = s.failures ++ [e] := by
    simp [System.failures, System.record, System.taken, Event.failed?]
  change (s.taken e).outstanding.countP p + _ = _
  rw [hfail, List.countP_append, List.countP_singleton]
  omega

theorem writerPart_failed (he : e ∈ s.kernel) :
    PageJob.Step s.writerPart ((s.taken e).record (.completionFailed e res)).writerPart := by
  refine .quiet rfl rfl rfl (countP_taken_le he _) ?_ (failed_balance he _) (.inl rfl) ?_ ?_
  · simp [System.writerPart, System.pagesWritten, System.record, System.taken, Event.pageWritten?]
  · simp [System.writerPart, System.record, System.taken, Event.writeSubmitted?]
  · rintro off ⟨op, hop⟩
    exact ⟨op, System.mem_outstanding_of_taken hop⟩

theorem readerPart_failed (he : e ∈ s.kernel) :
    PageJob.Step s.readerPart ((s.taken e).record (.completionFailed e res)).readerPart := by
  refine .quiet rfl rfl rfl (countP_taken_le he _) ?_ (failed_balance he _) (.inl rfl) ?_ ?_
  · simp [System.readerPart, System.pagesRead, System.record, System.taken, Event.pageRead?]
  · simp [System.readerPart, System.record, System.taken, Event.readSubmitted?]
  · rintro off ⟨op, hop⟩
    exact ⟨op, System.mem_outstanding_of_taken hop⟩

theorem writerPart_foreign (hne : e.owner ≠ .writer) (he : e ∈ s.kernel)
    (ht : callback B now res (s.taken e) e = some t) :
    PageJob.Step s.writerPart t.writerPart := by
  obtain ⟨new, events, h⟩ := callback_appends ht
  obtain ⟨hbatch, hpage, hinflight, hcount⟩ := (callback_foreign ht).1 hne
  have hrecorded := fun x hx => recordedBy_foreign_writer (x := x) hne hx
  refine .quiet hbatch hpage hinflight
    (h.countP_foreign he hne fun x => owner_of_inSlot_job).le ?_ ?_ hcount ?_ ?_
  · exact congrArg List.length (h.filterMap_log fun x hx => (hrecorded x hx).2)
  · exact congrArg₂ (· + ·) (h.countP_foreign he hne fun x => owner_of_isPageWrite)
      (congrArg (List.countP _) (h.failures))
  · exact congrArg (List.map Prod.snd) (h.filterMap_log fun x hx => (hrecorded x hx).1)
  · rintro off ⟨op, hop⟩
    rcases h.mem_outstanding hop with hold | hnew
    · exact ⟨op, hold⟩
    · exact absurd (h.owner _ hnew).symm hne

theorem readerPart_foreign (hne : e.owner ≠ .reader) (he : e ∈ s.kernel)
    (ht : callback B now res (s.taken e) e = some t) :
    PageJob.Step s.readerPart t.readerPart := by
  obtain ⟨new, events, h⟩ := callback_appends ht
  obtain ⟨hbatch, hpage, hinflight, hcount⟩ := (callback_foreign ht).2 hne
  have hrecorded := fun x hx => recordedBy_foreign_reader (x := x) hne hx
  refine .quiet hbatch hpage hinflight
    (h.countP_foreign he hne fun x => owner_of_inSlot_job).le ?_ ?_ hcount ?_ ?_
  · exact congrArg List.length (h.filterMap_log fun x hx => (hrecorded x hx).2)
  · exact congrArg₂ (· + ·) (h.countP_foreign he hne fun x => owner_of_isPageRead)
      (congrArg (List.countP _) (h.failures))
  · exact h.filterMap_log fun x hx => (hrecorded x hx).1
  · rintro off ⟨op, hop⟩
    rcases h.mem_outstanding hop with hold | hnew
    · exact ⟨op, hold⟩
    · exact absurd (h.owner _ hnew).symm hne

theorem countP_resent_toNat (p : Sqe → Bool) (pageId : ℕ) (job : Job)
    (hp : p (.timeout job) = true) :
    (resent B pageId job).countP p = (goesOn B pageId).toNat := by
  rw [countP_resent]
  cases goesOn B pageId <;> simp [hp]

/-- The writer's tick as a tick of its part. -/
theorem writerPart_tick (he : .timeout .writer ∈ s.kernel)
    (ht : backgroundWriter bytesToWrite now (s.taken (.timeout .writer)) = some t) :
    PageJob.Step s.writerPart t.writerPart := by
  obtain ⟨b, hb⟩ : ∃ b, b = adaptBatch s.writerJob.inflight s.writerJob.batchSize := ⟨_, rfl⟩
  obtain ⟨-, heq⟩ := backgroundWriter_eq_some ht
  have hk : t.kernel = (s.taken (.timeout .writer)).kernel := by rw [heq]
  have hq : t.sq = s.sq ++ ((List.range b).map (writeSqe s.writerJob.pageId s.brk) ++
      resent bytesToWrite (u32 (s.writerJob.pageId + b)) .writer) := by
    rw [heq, hb, ← List.append_assoc]
    rfl
  have hlog : t.log = s.log ++ (List.range b).map (writeEvent s.writerJob.pageId s.brk) := by
    rw [heq, hb]
    rfl
  have htimers := System.countP_balance he hk hq (Sqe.inSlot (.job .writer))
  have hwrites := System.countP_balance he hk hq Sqe.isPageWrite
  rw [List.countP_append, countP_writeSqe _ _ _ _ false fun _ _ => rfl,
    countP_resent_toNat _ _ _ rfl] at htimers
  rw [List.countP_append, countP_writeSqe _ _ _ _ true fun _ _ => rfl, countP_resent] at hwrites
  refine .tick b (fun hle => hb ▸ adaptBatch_le _ hle) ?_ ?_ ?_ (System.occupied_pos he rfl) ?_
    ?_ ?_ ?_ ?_ ?_ ?_
  · rw [hb, heq]
    rfl
  · rw [hb, heq]
    rfl
  · rw [hb, heq]
    rfl
  · exact htimers.trans (by rw [if_neg Bool.false_ne_true, Nat.zero_add]; rfl)
  · simp [System.writerPart, System.pagesWritten, hlog, writeEvent, Event.pageWritten?]
  · simp [System.writerPart, System.failures, hlog, writeEvent, Event.failed?]
  · exact hwrites.trans (by simp [System.writerPart, System.writesInFlight, Sqe.isPageWrite])
  · rw [heq]
    rfl
  · simp [System.writerPart, hlog, writeEvent, Event.writeSubmitted?, List.filterMap_map,
      Function.comp_def]
  · rintro off ⟨op, hop⟩
    rw [System.outstanding, hk, hq, ← List.append_assoc] at hop
    rcases List.mem_append.mp hop with hold | hnew
    · exact .inl ⟨op, System.mem_outstanding_of_taken hold⟩
    · rcases List.mem_append.mp hnew with hnew | hnew
      · obtain ⟨k, hk, hsqe⟩ := List.mem_map.mp hnew
        cases hsqe
        exact .inr ⟨k, List.mem_range.mp hk, rfl⟩
      · unfold resent at hnew
        split_ifs at hnew <;> simp at hnew

/-- The reader's tick as a tick of its part. -/
theorem readerPart_tick (he : .timeout .reader ∈ s.kernel)
    (ht : backgroundReader bytesToWrite now (s.taken (.timeout .reader)) = some t) :
    PageJob.Step s.readerPart t.readerPart := by
  obtain ⟨b, hb⟩ : ∃ b, b = u32 (min (adaptBatch s.readerJob.inflight s.readerJob.batchSize)
    (sub64 s.flusherJob.pageId s.readerJob.pageId)) := ⟨_, rfl⟩
  obtain ⟨-, heq⟩ := backgroundReader_eq_some ht
  have hk : t.kernel = (s.taken (.timeout .reader)).kernel := by rw [heq]
  have hq : t.sq = s.sq ++ ((List.range b).map (readSqe now s.readerJob.pageId) ++
      resent bytesToWrite (u32 (s.readerJob.pageId + b)) .reader) := by
    rw [heq, hb, ← List.append_assoc]
    rfl
  have hlog : t.log = s.log ++ (List.range b).map (readEvent s.readerJob.pageId) := by
    rw [heq, hb]
    rfl
  have htimers := System.countP_balance he hk hq (Sqe.inSlot (.job .reader))
  have hreads := System.countP_balance he hk hq Sqe.isPageRead
  rw [List.countP_append, countP_readSqe _ _ _ _ false fun _ _ => rfl,
    countP_resent_toNat _ _ _ rfl] at htimers
  rw [List.countP_append, countP_readSqe _ _ _ _ true fun _ _ => rfl, countP_resent] at hreads
  refine .tick b (fun hle => ?_) ?_ ?_ ?_ (System.occupied_pos he rfl) ?_ ?_ ?_ ?_ ?_ ?_ ?_
  · exact hb ▸ (u32_le _).trans ((Nat.min_le_left _ _).trans (adaptBatch_le _ hle))
  · rw [hb, heq]
    rfl
  · rw [hb, heq]
    rfl
  · rw [hb, heq]
    rfl
  · exact htimers.trans (by rw [if_neg Bool.false_ne_true, Nat.zero_add]; rfl)
  · simp [System.readerPart, System.pagesRead, hlog, readEvent, Event.pageRead?]
  · simp [System.readerPart, System.failures, hlog, readEvent, Event.failed?]
  · exact hreads.trans (by simp [System.readerPart, System.readsInFlight, Sqe.isPageRead])
  · rw [heq]
    rfl
  · simp [System.readerPart, hlog, readEvent, Event.readSubmitted?, List.filterMap_map,
      Function.comp_def]
  · rintro off ⟨op, hop⟩
    rw [System.outstanding, hk, hq, ← List.append_assoc] at hop
    rcases List.mem_append.mp hop with hold | hnew
    · exact .inl ⟨op, System.mem_outstanding_of_taken hold⟩
    · rcases List.mem_append.mp hnew with hnew | hnew
      · obtain ⟨k, hk, hsqe⟩ := List.mem_map.mp hnew
        cases hsqe
        exact .inr ⟨k, List.mem_range.mp hk, rfl⟩
      · unfold resent at hnew
        split_ifs at hnew <;> simp at hnew

theorem writerPart_complete {op off : ℕ} (he : .pageWrite op off ∈ s.kernel)
    (ht : pageWritten now op (s.taken (.pageWrite op off)) = some t) :
    PageJob.Step s.writerPart t.writerPart := by
  have hstats := (pageWritten_stats ht).1
  obtain ⟨o, heap, writeList, stats, -, -, rfl, -⟩ := pageWritten_eq_some ht
  refine .complete rfl rfl rfl ?_ ?_ ?_ ?_ hstats ?_ ?_
  · exact (System.countP_outstanding he (Sqe.inSlot (.job .writer))).symm
  · simp [System.writerPart, System.pagesWritten, System.taken, Event.pageWritten?]
  · simp [System.writerPart, System.failures, System.taken, Event.failed?]
  · exact (System.countP_outstanding he Sqe.isPageWrite).symm
  · simp [System.writerPart, System.taken, Event.writeSubmitted?]
  · rintro off ⟨op, hop⟩
    exact ⟨op, System.mem_outstanding_of_taken hop⟩

theorem readerPart_complete {op : OpPageRead} {off : ℕ} (he : .pageRead op off ∈ s.kernel)
    (ht : pageRead now op (s.taken (.pageRead op off)) = some t) :
    PageJob.Step s.readerPart t.readerPart := by
  obtain rfl := Option.some.inj ht
  refine .complete rfl rfl rfl ?_ ?_ ?_ ?_ rfl ?_ ?_
  · exact (System.countP_outstanding he (Sqe.inSlot (.job .reader))).symm
  · simp [System.readerPart, System.pagesRead, System.taken, Event.pageRead?]
  · simp [System.readerPart, System.failures, System.taken, Event.failed?]
  · exact (System.countP_outstanding he Sqe.isPageRead).symm
  · simp [System.readerPart, System.taken, Event.readSubmitted?]
  · rintro off ⟨op, hop⟩
    exact ⟨op, System.mem_outstanding_of_taken hop⟩

theorem parts_callback (he : e ∈ s.kernel)
    (ht : callback bytesToWrite now res (s.taken e) e = some t) :
    PageJob.Step s.writerPart t.writerPart ∧ PageJob.Step s.readerPart t.readerPart := by
  by_cases hw : e.owner = .writer
  · refine ⟨?_, readerPart_foreign (by rw [hw]; decide) he ht⟩
    cases e <;> simp only [Sqe.owner, reduceCtorEq] at hw
    case timeout job =>
      subst hw
      exact writerPart_tick he ht
    case pageWrite op off => exact writerPart_complete he ht
  · refine ⟨writerPart_foreign hw he ht, ?_⟩
    by_cases hr : e.owner = .reader
    · cases e <;> simp only [Sqe.owner, reduceCtorEq] at hr
      case timeout job =>
        subst hr
        exact readerPart_tick he ht
      case pageRead op off => exact readerPart_complete he ht
    · exact readerPart_foreign hr he ht

theorem parts_step {a : Act} (hs : step bytesToWrite s a = some t) :
    PageJob.Step s.writerPart t.writerPart ∧ PageJob.Step s.readerPart t.readerPart := by
  cases a with
  | submit =>
      obtain ⟨-, rfl⟩ := step_submit hs
      have hout : ∀ p : Phase, ({ s with kernel := s.kernel ++ s.sq, sq := [], phase := p } :
          System).outstanding = s.outstanding := fun p => List.append_nil _
      constructor
      · refine .quiet rfl rfl rfl ?_ rfl ?_ (.inl rfl) rfl ?_ <;>
          simp [System.writerPart, System.failures, System.occupied, System.writesInFlight, hout]
      · refine .quiet rfl rfl rfl ?_ rfl ?_ (.inl rfl) rfl ?_ <;>
          simp [System.readerPart, System.failures, System.occupied, System.readsInFlight, hout]
  | tickEnd =>
      obtain ⟨-, rfl⟩ := step_tickEnd hs
      exact ⟨PageJob.Step.refl _, PageJob.Step.refl _⟩
  | cqe e res now =>
      obtain ⟨-, he, ⟨-, ht⟩ | ⟨-, rfl⟩⟩ := step_cqe_cases hs
      · exact parts_callback he ht
      · exact ⟨writerPart_failed he, readerPart_failed he⟩

end

/-! ## Every reachable state -/

theorem parts_mainStart (start last : Timespec) :
    (mainStart start last).writerPart.Bounded ∧ (mainStart start last).readerPart.Bounded := by
  have hsum : Summed (statsBucketInit statsBufLen) := summed_statsBucketInit (by decide)
  have htotal : (statsBucketInit statsBufLen).total = 0 := by decide
  have hpages : 0 < targetPages := by decide
  rw [mainStart_eq]
  constructor
  · refine ⟨Nat.zero_le _, Nat.zero_le _, Nat.le_refl 1, fun _ => hpages, Nat.le_refl 0, rfl, hsum,
      htotal.le, ?_, ?_⟩
    · exact fun p hp => by simp [System.writerPart, initialised] at hp
    · rintro off ⟨op, hop⟩
      simp [System.outstanding, initialised] at hop
  · refine ⟨Nat.zero_le _, Nat.zero_le _, Nat.le_refl 1, fun _ => hpages, Nat.le_refl 0, rfl, hsum,
      htotal.le, ?_, ?_⟩
    · exact fun p hp => by simp [System.readerPart, initialised] at hp
    · rintro off ⟨op, hop⟩
      simp [System.outstanding, initialised] at hop

/-- Whatever completes, in whatever order and with whatever result. -/
def ReachAny (t₀ t₁ : Timespec) : System → Prop :=
  Reachable (step bytesToWrite) (fun _ _ => True) (mainStart t₀ t₁)

theorem ReachAny.parts {t₀ t₁ : Timespec} {s : System} (h : ReachAny t₀ t₁ s) :
    s.writerPart.Bounded ∧ s.readerPart.Bounded := by
  refine Reachable.invariant (I := fun s => s.writerPart.Bounded ∧ s.readerPart.Bounded) h
    (parts_mainStart t₀ t₁) ?_
  rintro s a t ⟨hw, hr⟩ - hs
  obtain ⟨hws, hrs⟩ := parts_step hs
  exact ⟨hw.step hws, hr.step hrs⟩

/-- The bounds of both page jobs in every reachable state: batches, page counters,
the offsets of the operations submitted, and the products of the status line. -/
theorem page_jobs_bounded {t₀ t₁ : Timespec} {s : System} (h : ReachAny t₀ t₁ s) :
    (s.writerJob.batchSize ≤ entries - 2 ∧ s.readerJob.batchSize ≤ entries - 2 ∧
      (0 < s.writerJob.batchSize →
        batchIncrement s.writerJob.batchSize ≤ s.writerJob.batchSize) ∧
      (0 < s.readerJob.batchSize →
        batchIncrement s.readerJob.batchSize ≤ s.readerJob.batchSize)) ∧
    (s.writerJob.pageId ≤ bytesToWrite / bufSize + entries - 3 ∧
      s.readerJob.pageId ≤ bytesToWrite / bufSize + entries - 3) ∧
    ((∀ op p, .writeSubmitted op p ∈ s.log → bufSize * p < 2 ^ 64) ∧
      (∀ p, .readSubmitted p ∈ s.log → bufSize * p < 2 ^ 64) ∧
      (∀ op off, .pageWrite op off ∈ s.outstanding →
        ∃ p, (∃ op, .writeSubmitted op p ∈ s.log) ∧ off = bufSize * p) ∧
      ∀ op off, .pageRead op off ∈ s.outstanding →
        ∃ p, .readSubmitted p ∈ s.log ∧ off = bufSize * p) ∧
    (s.stats.writeCount.accVal ≤ s.pagesWritten ∧ s.stats.readCount.accVal ≤ s.pagesRead ∧
      bufSize * s.stats.writeCount.accVal * timeS 1 < 2 ^ 64 ∧
      bufSize * s.stats.readCount.accVal * timeS 1 < 2 ^ 64 ∧
      mbsSpeed s.stats.writeCount = bufSize * s.stats.writeCount.accVal * timeS 1 /
        s.stats.writeCount.accTime / byteMb 1 ∧
      mbsSpeed s.stats.readCount = bufSize * s.stats.readCount.accVal * timeS 1 /
        s.stats.readCount.accTime / byteMb 1) := by
  obtain ⟨hw, hr⟩ := h.parts
  have hsubmitted : ∀ p, p ∈ s.writerPart.submitted ↔ ∃ op, .writeSubmitted op p ∈ s.log := by
    intro p
    simp only [System.writerPart, List.mem_map, List.mem_filterMap]
    constructor
    · rintro ⟨⟨op, q⟩, ⟨x, hx, hxq⟩, rfl⟩
      cases x <;> simp only [Event.writeSubmitted?, reduceCtorEq, Option.some.injEq] at hxq
      cases hxq
      exact ⟨op, hx⟩
    · rintro ⟨op, hop⟩
      exact ⟨(op, p), ⟨_, hop, rfl⟩, rfl⟩
  have hread : ∀ p, p ∈ s.readerPart.submitted ↔ .readSubmitted p ∈ s.log := by
    intro p
    simp only [System.readerPart, List.mem_filterMap]
    constructor
    · rintro ⟨x, hx, hxp⟩
      cases x <;> simp only [Event.readSubmitted?, reduceCtorEq, Option.some.injEq] at hxp
      exact hxp ▸ hx
    · exact fun hp => ⟨_, hp, rfl⟩
  refine ⟨⟨hw.batchSize, hr.batchSize, batchIncrement_le, batchIncrement_le⟩,
    ⟨hw.pageId, hr.pageId⟩, ⟨?_, ?_, ?_, ?_⟩, hw.product_lt.1, hr.product_lt.1,
    hw.product_lt.2, hr.product_lt.2, hw.mbsSpeed_eq, hr.mbsSpeed_eq⟩
  · exact fun op p hp => hw.offset_lt (hw.submitted p ((hsubmitted p).mpr ⟨op, hp⟩)).le
  · exact fun p hp => hr.offset_lt (hr.submitted p ((hread p).mpr hp)).le
  · intro op off hop
    obtain ⟨p, hp, rfl⟩ := hw.offsets off ⟨op, hop⟩
    exact ⟨p, (hsubmitted p).mp hp, rfl⟩
  · intro op off hop
    obtain ⟨p, hp, rfl⟩ := hr.offsets off ⟨op, hop⟩
    exact ⟨p, (hread p).mp hp, rfl⟩

/-- One page written and counted, the status line passed over it, two more in
flight of which the first has failed. -/
theorem page_jobs_bounded_failed_write :
    ∃ s, ReachAny ⟨0, 0⟩ ⟨0, 0⟩ s ∧ s.writerJob.pageId = 3 ∧ s.stats.writeCount.accVal = 1 ∧
      s.stats.writeCount.accVal ≤ s.pagesWritten ∧
      bufSize * s.stats.writeCount.accVal * timeS 1 < 2 ^ 64 := by
  obtain ⟨s, hs, hp⟩ : ∃ s, ReachAny ⟨0, 0⟩ ⟨0, 0⟩ s ∧
      decide (s.writerJob.pageId = 3 ∧ s.stats.writeCount.accVal = 1) = true :=
    exists_of_execute
      [.submit, .cqe (.timeout .writer) (-62) ⟨0, 0⟩, .tickEnd, .submit,
        .cqe (.pageWrite 0 0) 65536 ⟨0, 0⟩, .cqe (.timeout .writer) (-62) ⟨0, 0⟩,
        .cqe (.timeout .status) (-62) ⟨1, 0⟩, .tickEnd, .submit,
        .cqe (.pageWrite 1 65536) (-5) ⟨1, 0⟩] _
      (by decide +kernel)
  obtain ⟨hpage, hacc⟩ := of_decide_eq_true hp
  obtain ⟨-, -, -, hle, -, hlt, -⟩ := page_jobs_bounded hs
  exact ⟨s, hs, hpage, hacc, hle, hlt⟩

end IoScheduler
