import IoScheduler.SchedulerBounds
import IoScheduler.SchedulerProgress

/-!
# The page jobs, one completion at a time

How far the page jobs are, seen as plain numbers: below the wrap of the page counters
each completion changes a few of them, and these lemmas say which.
-/
namespace IoScheduler
open Machine Transition

/-- How far the page jobs are. -/
structure Pages where
  submitted : ℕ
  written : ℕ
  released : ℕ
  read : ℕ
  fsync : ℕ
  reads : ℕ
  writer : Bool
  flusher : Bool
  reader : Bool

def System.pages (s : System) : Pages where
  submitted := s.writerJob.pageId
  written := s.pageIdCheckOrder
  released := s.flusherJob.pageId
  read := s.readerJob.pageId
  fsync := s.flusherJob.inflight
  reads := s.readsInFlight
  writer := s.writerJob.running
  flusher := s.flusherJob.running
  reader := s.readerJob.running

/-- A state whose page counters have not wrapped. -/
structure Working (B : ℕ) (s : System) : Prop where
  unwrapped : Unwrapped B s.flusherJob.pageId s.pageIdCheckOrder s.readerJob.pageId s
  submitted : s.writerJob.pageId = s.brk
  brk_lt : s.brk < 2 ^ 32
  noFlush : s.writerJob.writtenNoFlush = s.pageIdCheckOrder - s.flusherJob.pageId
  slots : Slots s
  batches : BatchBounded s
  counted : Counted s

theorem ReachInOrder.working {B : ℕ} {t₀ t₁ : Timespec} {s : System} (hpos : 0 < B)
    (hB : B + entries * bufSize ≤ 2 ^ 48) (h : ReachInOrder B t₀ t₁ s) : Working B s := by
  obtain ⟨F, C, R, hu⟩ := h.unwrapped hpos hB
  have hbrk := hu.brk_lt_pow hB
  have hFC := hu.pipeline.released_le
  have hC := hu.pipeline.written_le
  have hRF := hu.read_le
  have hread : s.readerJob.pageId = R := hu.reads.page.trans (u32_of_lt (by omega))
  have hreleased : s.flusherJob.pageId = F := hu.pipeline.flusherPage.trans (u32_of_lt (by omega))
  have hwritten : s.pageIdCheckOrder = C := hu.pipeline.check.trans (u32_of_lt (by omega))
  refine ⟨?_, hu.pipeline.writerPage.trans (u32_of_lt hbrk), hbrk, ?_, h.reach.slots,
    h.reach.batchBounded, h.reach.counted⟩
  · rwa [hread, hreleased, hwritten]
  · rw [hreleased, hwritten]
    exact hu.pipeline.noFlush.trans (u32_of_lt (by omega))

def Sqe.readPage? : Sqe → Option ℕ
  | .pageRead op _ => some op.pageId
  | _ => none

/-- The pages whose read is outstanding. -/
def System.reading (s : System) : Multiset ℕ := (s.outstanding.filterMap Sqe.readPage? : List ℕ)

section
variable {B : ℕ} {now : Timespec} {res : ℤ} {s t : System} {a : Act} {e : Sqe} {new : List Sqe}

theorem System.reading_card (s : System) : s.reading.card = s.readsInFlight := by
  rw [System.reading, Multiset.coe_card, List.length_filterMap_eq_countP, System.readsInFlight]
  congr 1
  funext e
  cases e <;> rfl

/-- The pages read before and after a callback. -/
theorem System.reading_eq (he : e ∈ s.kernel) (hk : t.kernel = (s.taken e).kernel)
    (hq : t.sq = s.sq ++ new) :
    (e.readPage?.toList : Multiset ℕ) + t.reading =
      s.reading + (new.filterMap Sqe.readPage? : List ℕ) := by
  have hmem : e ∈ s.outstanding := List.mem_append_left _ he
  have hout : t.outstanding = s.outstanding.erase e ++ new := by
    rw [← System.taken_outstanding he, System.outstanding, System.outstanding, hk, hq,
      List.append_assoc]
    rfl
  have hperm := (List.perm_cons_erase hmem).filterMap Sqe.readPage?
  rw [System.reading, System.reading, hout, List.filterMap_append, Multiset.coe_add,
    Multiset.coe_add, Multiset.coe_eq_coe, ← List.append_assoc]
  refine List.Perm.append_right _ (.trans (.of_eq ?_) hperm.symm)
  cases h : e.readPage? <;> simp [h]

theorem owner_of_readPage {p : ℕ} (h : e.readPage? = some p) : e.owner = .reader := by
  cases e <;> first | rfl | cases h

/-- Callbacks of the other jobs leave the reads under way alone. -/
theorem System.reading_foreign (res : ℤ) (he : e ∈ s.kernel) (hne : e.owner ≠ .reader)
    (ht : callback B now res (s.taken e) e = some t) : t.reading = s.reading := by
  obtain ⟨new, events, happ⟩ := callback_appends ht
  have hnone : ∀ x : Sqe, x.owner = e.owner → x.readPage? = none := by
    intro x hx
    cases h : x.readPage? with
    | none => rfl
    | some p => exact absurd (hx.symm.trans (owner_of_readPage h)) hne
  have hnew : new.filterMap Sqe.readPage? = [] :=
    List.filterMap_eq_nil_iff.mpr fun x hx => hnone x (happ.owner x hx)
  have hbalance := System.reading_eq he happ.kernel happ.sq
  rw [hnone e rfl, hnew] at hbalance
  simpa using hbalance

theorem pages_quiet (he : e ∈ s.kernel) (hne : e.owner ≠ .reader) (hq : Quiet s t)
    (ht : callback B now res (s.taken e) e = some t) : t.pages = s.pages := by
  obtain ⟨new, events, happ⟩ := callback_appends ht
  have hreads : t.readsInFlight = s.readsInFlight :=
    happ.countP_foreign he hne fun x hx => owner_of_isPageRead hx
  simp only [System.pages, hq.writerJob, hq.flusherJob, hq.readerJob, hq.check, hreads]

/-- A completion of the dump operation runs the callback stored in it. -/
theorem callback_dump (hslot : e.slot? = some .dump) (ht : callback B now res s e = some t) :
    (s.tracingJob.dumpOp.callback = .tracingWrited ∧ tracingWrited res s = some t) ∨
      s.tracingJob.dumpOp.callback = .tracingSynced ∧ tracingSynced s = some t := by
  cases e <;> simp only [Sqe.slot?, reduceCtorEq, Option.some.injEq] at hslot
  all_goals
    simp only [callback] at ht
    split at ht
    · next hcallback => exact .inl ⟨hcallback, ht⟩
    · next hcallback => exact .inr ⟨hcallback, ht⟩

/-- The page reads in flight after a callback. -/
theorem readsInFlight_eq (he : e ∈ s.kernel)
    (hk : t.kernel = (s.taken e).kernel) (hq : t.sq = s.sq ++ new) :
    t.readsInFlight + (if e.isPageRead then 1 else 0) =
      s.readsInFlight + new.countP Sqe.isPageRead :=
  System.countP_balance he hk hq _

theorem Working.pages_written {op off : ℕ} (h : Working B s)
    (he : .pageWrite op off ∈ s.kernel)
    (horder : (s.kernel.filterMap Sqe.writeOp?).head? = some op)
    (ht : pageWritten now op (s.taken (.pageWrite op off)) = some t) :
    s.pages.written < s.pages.submitted ∧
      t.pages = { s.pages with written := s.pages.written + 1 } := by
  obtain ⟨-, hlt, -⟩ := h.unwrapped.pipeline.next_eq he horder
  have hbrk := h.brk_lt
  have hwritten : u32 (s.pageIdCheckOrder + 1) = s.pageIdCheckOrder + 1 := u32_of_lt (by omega)
  rw [← h.submitted] at hlt
  refine ⟨hlt, ?_⟩
  obtain ⟨hw, hr, hf, hc, hk, hq⟩ :
      (t.writerJob.pageId = s.writerJob.pageId ∧ t.writerJob.running = s.writerJob.running) ∧
      t.readerJob = s.readerJob ∧
      (t.flusherJob.pageId = s.flusherJob.pageId ∧
        t.flusherJob.inflight = s.flusherJob.inflight ∧
        t.flusherJob.running = s.flusherJob.running) ∧
      t.pageIdCheckOrder = u32 (s.pageIdCheckOrder + 1) ∧
      t.kernel = (s.taken (.pageWrite op off)).kernel ∧ t.sq = s.sq ++ [] := by
    obtain ⟨o, heap, writeList, stats, -, -, rfl, -⟩ := pageWritten_eq_some ht
    exact ⟨⟨rfl, rfl⟩, rfl, ⟨rfl, rfl, rfl⟩, rfl, rfl, (List.append_nil _).symm⟩
  have hreads : t.readsInFlight = s.readsInFlight := readsInFlight_eq he hk hq
  simp only [System.pages, hw, hr, hf, hc, hreads, hwritten]

theorem pages_read {op : OpPageRead} {off : ℕ} (he : .pageRead op off ∈ s.kernel)
    (ht : pageRead now op (s.taken (.pageRead op off)) = some t) :
    0 < s.pages.reads ∧ t.pages = { s.pages with reads := s.pages.reads - 1 } := by
  obtain ⟨hw, hr, hf, hc, hk, hq⟩ : t.writerJob = s.writerJob ∧
      (t.readerJob.pageId = s.readerJob.pageId ∧ t.readerJob.running = s.readerJob.running) ∧
      t.flusherJob = s.flusherJob ∧ t.pageIdCheckOrder = s.pageIdCheckOrder ∧
      t.kernel = (s.taken (.pageRead op off)).kernel ∧ t.sq = s.sq ++ [] := by
    obtain rfl := Option.some.inj ht
    exact ⟨rfl, ⟨rfl, rfl⟩, rfl, rfl, rfl, (List.append_nil _).symm⟩
  have hreads := readsInFlight_eq he hk hq
  simp only [Sqe.isPageRead, if_true, List.countP_nil, Nat.add_zero] at hreads
  have hpages : s.pages.reads = s.readsInFlight := rfl
  refine ⟨by omega, ?_⟩
  simp only [System.pages, hw, hr, hf, hc]
  congr 1
  omega

theorem Working.pages_synced (h : Working B s) (he : .fsync ∈ s.kernel)
    (ht : fileSynced now (s.taken .fsync) = some t) :
    s.pages.fsync = 1 ∧ t.pages = { s.pages with released := s.pages.written, fsync := 0 } := by
  have hpos : 0 < s.occupied .fsync := System.occupied_pos he rfl
  rw [h.slots.fsync] at hpos
  refine ⟨Nat.le_antisymm h.slots.fsync_le hpos, ?_⟩
  have hle := h.unwrapped.pipeline.released_le
  have hC := h.unwrapped.pipeline.written_le
  have hbrk := h.brk_lt
  have hreleased : u32 (s.flusherJob.pageId + s.writerJob.writtenNoFlush) =
      s.pageIdCheckOrder := by
    rw [h.noFlush, Nat.add_sub_cancel' hle, u32_of_lt (by omega)]
  obtain ⟨hw, hr, hf, hc, hk, hq⟩ :
      (t.writerJob.pageId = s.writerJob.pageId ∧ t.writerJob.running = s.writerJob.running) ∧
      t.readerJob = s.readerJob ∧
      (t.flusherJob.pageId = u32 (s.flusherJob.pageId + s.writerJob.writtenNoFlush) ∧
        t.flusherJob.inflight = 0 ∧ t.flusherJob.running = s.flusherJob.running) ∧
      t.pageIdCheckOrder = s.pageIdCheckOrder ∧ t.kernel = (s.taken .fsync).kernel ∧
      t.sq = s.sq ++ [] := by
    obtain ⟨heap, log, stats, -, rfl⟩ := fileSynced_eq_some ht
    exact ⟨⟨rfl, rfl⟩, rfl, ⟨rfl, rfl, rfl⟩, rfl, rfl, (List.append_nil _).symm⟩
  have hreads : t.readsInFlight = s.readsInFlight := readsInFlight_eq he hk hq
  simp only [System.pages, hw, hr, hf, hc, hreads, hreleased]

theorem Working.pages_writer (h : Working B s) (k : Working B t) (he : .timeout .writer ∈ s.kernel)
    (ht : backgroundWriter B now (s.taken (.timeout .writer)) = some t) :
    ∃ b, b = adaptBatch s.writerJob.inflight s.writerJob.batchSize ∧
      s.pages.submitted + b < 2 ^ 32 ∧ s.pages.writer = true ∧
      t.pages = { s.pages with
        submitted := s.pages.submitted + b
        writer := goesOn B (u32 (s.pages.submitted + b)) } := by
  have hrun := h.slots.running.1 he
  have hlt := k.brk_lt
  obtain ⟨b, hb, hbrk, hw, hr, hf, hc, hk, n, hq⟩ : ∃ b,
      b = adaptBatch s.writerJob.inflight s.writerJob.batchSize ∧ t.brk = s.brk + b ∧
      (t.writerJob.pageId = u32 (s.writerJob.pageId + b) ∧
        t.writerJob.running = (goesOn B (u32 (s.writerJob.pageId + b)) && s.writerJob.running)) ∧
      t.readerJob = s.readerJob ∧ t.flusherJob = s.flusherJob ∧
      t.pageIdCheckOrder = s.pageIdCheckOrder ∧
      t.kernel = (s.taken (.timeout .writer)).kernel ∧
      ∃ n, t.sq = s.sq ++ ((List.range b).map (writeSqe n s.brk) ++
        resent B (u32 (n + b)) .writer) := by
    obtain ⟨-, rfl⟩ := backgroundWriter_eq_some ht
    exact ⟨_, rfl, rfl, ⟨rfl, rfl⟩, rfl, rfl, rfl, rfl, _, List.append_assoc _ _ _⟩
  have hreads : t.readsInFlight = s.readsInFlight := by
    have hbalance := readsInFlight_eq he hk hq
    rw [List.countP_append, countP_writeSqe _ _ _ _ false fun _ _ => rfl, countP_resent] at hbalance
    simpa [Sqe.isPageRead] using hbalance
  rw [hbrk, ← h.submitted] at hlt
  refine ⟨b, hb, hlt, hrun, ?_⟩
  simp only [System.pages, hw, hr, hf, hc, hreads, hrun, Bool.and_true, u32_of_lt hlt]

theorem Working.pages_reader (h : Working B s) (he : .timeout .reader ∈ s.kernel)
    (ht : backgroundReader B now (s.taken (.timeout .reader)) = some t) :
    ∃ b, b = min (adaptBatch s.readerJob.inflight s.readerJob.batchSize)
        (s.pages.released - s.pages.read) ∧
      s.pages.read + b < 2 ^ 32 ∧ s.pages.reader = true ∧
      t.pages = { s.pages with
        read := s.pages.read + b
        reads := s.pages.reads + b
        reader := goesOn B (u32 (s.pages.read + b)) } ∧
      t.log = s.log ++ (List.range b).map (fun k => .readSubmitted (s.pages.read + k)) ∧
      t.reading = s.reading + ((List.range b).map (s.pages.read + ·) : List ℕ) := by
  have hrun := h.slots.running.2.1 he
  have hle := h.unwrapped.read_le
  have hreleased := h.unwrapped.pipeline.released_le
  have hwritten := h.unwrapped.pipeline.written_le
  have hbrk := h.brk_lt
  obtain ⟨b, hb, hw, hr, hf, hc, hk, hq, hlog⟩ : ∃ b,
      b = u32 (min (adaptBatch s.readerJob.inflight s.readerJob.batchSize)
        (sub64 s.flusherJob.pageId s.readerJob.pageId)) ∧ t.writerJob = s.writerJob ∧
      (t.readerJob.pageId = u32 (s.readerJob.pageId + b) ∧
        t.readerJob.running = (goesOn B (u32 (s.readerJob.pageId + b)) && s.readerJob.running)) ∧
      t.flusherJob = s.flusherJob ∧ t.pageIdCheckOrder = s.pageIdCheckOrder ∧
      t.kernel = (s.taken (.timeout .reader)).kernel ∧
      t.sq = s.sq ++ ((List.range b).map (readSqe now s.readerJob.pageId) ++
        resent B (u32 (s.readerJob.pageId + b)) .reader) ∧
      t.log = s.log ++ (List.range b).map (readEvent s.readerJob.pageId) := by
    obtain ⟨-, rfl⟩ := backgroundReader_eq_some ht
    exact ⟨_, rfl, rfl, ⟨rfl, rfl⟩, rfl, rfl, rfl, List.append_assoc _ _ _, rfl⟩
  have hlimit : sub64 s.flusherJob.pageId s.readerJob.pageId =
      s.flusherJob.pageId - s.readerJob.pageId := sub64_of_le (by omega) hle
  rw [hlimit, u32_of_lt (by omega)] at hb
  have hreads : t.readsInFlight = s.readsInFlight + b := by
    have hbalance := readsInFlight_eq he hk hq
    rw [List.countP_append, countP_readSqe _ _ _ _ true fun _ _ => rfl, countP_resent] at hbalance
    simpa [Sqe.isPageRead] using hbalance
  have hlt : s.readerJob.pageId + b < 2 ^ 32 := by omega
  have hpage : ∀ k ∈ List.range b, u32 (s.readerJob.pageId + k) = s.readerJob.pageId + k := by
    intro k hk
    have hk := List.mem_range.mp hk
    exact u32_of_lt (by omega)
  refine ⟨b, hb, hlt, hrun, ?_, ?_, ?_⟩
  · simp only [System.pages, hw, hr, hf, hc, hreads, hrun, Bool.and_true, u32_of_lt hlt]
  · rw [hlog]
    congr 1
    exact List.map_congr_left fun k hk => congrArg Event.readSubmitted (hpage k hk)
  · have hresent : ∀ page, (resent B page .reader).filterMap Sqe.readPage? = [] := by
      intro page
      unfold resent
      split_ifs <;> rfl
    have hnew : ((List.range b).map (readSqe now s.readerJob.pageId)).filterMap Sqe.readPage? =
        (List.range b).map (s.pages.read + ·) := by
      rw [List.filterMap_map, List.filterMap_eq_map_iff_forall_eq_some.mpr]
      exact fun k hk => congrArg some (hpage k hk)
    have hbalance := System.reading_eq he hk hq
    rw [List.filterMap_append, hnew, hresent, List.append_nil] at hbalance
    exact (Multiset.zero_add _).symm.trans hbalance

theorem Working.pages_flusher (h : Working B s) (he : .timeout .flusher ∈ s.kernel)
    (ht : backgroundFlusher B now (s.taken (.timeout .flusher)) = some t) :
    s.pages.flusher = true ∧ t.pages = { s.pages with
      fsync := if s.pages.released < s.pages.written ∧ s.pages.fsync = 0 then 1 else s.pages.fsync
      flusher := goesOn B s.pages.released } ∧
    t.log = s.log ++
      if s.pages.released < s.pages.written ∧ s.pages.fsync = 0 then [.fsyncSubmitted] else [] := by
  have hrun := h.slots.running.2.2 he
  have hwants : wantsFsync (s.taken (.timeout .flusher)) ↔
      s.flusherJob.pageId < s.pageIdCheckOrder ∧ s.flusherJob.inflight = 0 := by
    change s.writerJob.writtenNoFlush ≠ 0 ∧ s.flusherJob.inflight = 0 ↔ _
    rw [h.noFlush]
    omega
  obtain ⟨hw, hr, hf, hc, hlog, hk, new, hq, hnew⟩ : t.writerJob = s.writerJob ∧
      t.readerJob = s.readerJob ∧
      (t.flusherJob.pageId = s.flusherJob.pageId ∧
        t.flusherJob.inflight = (if s.flusherJob.pageId < s.pageIdCheckOrder ∧
          s.flusherJob.inflight = 0 then 1 else s.flusherJob.inflight) ∧
        t.flusherJob.running = (goesOn B s.flusherJob.pageId && s.flusherJob.running)) ∧
      t.pageIdCheckOrder = s.pageIdCheckOrder ∧
      t.log = s.log ++ (if s.flusherJob.pageId < s.pageIdCheckOrder ∧ s.flusherJob.inflight = 0
        then [.fsyncSubmitted] else []) ∧
      t.kernel = (s.taken (.timeout .flusher)).kernel ∧
      ∃ new, t.sq = s.sq ++ new ∧ new.countP Sqe.isPageRead = 0 := by
    obtain ⟨u, hu, rfl⟩ := backgroundFlusher_eq_some ht
    rcases submitFsync_eq_some hu with ⟨hw, rfl⟩ | ⟨hw, rfl⟩
    · rw [if_pos (hwants.mp hw), if_pos (hwants.mp hw)]
      exact ⟨rfl, rfl, ⟨rfl, rfl, rfl⟩, rfl, rfl, rfl, _, List.append_assoc _ _ _, by
        simp [countP_resent, Sqe.isPageRead]⟩
    · rw [if_neg (hwants.not.mp hw), if_neg (hwants.not.mp hw)]
      exact ⟨rfl, rfl, ⟨rfl, rfl, rfl⟩, rfl, (List.append_nil _).symm, rfl, _, rfl, by
        simp [countP_resent, Sqe.isPageRead]⟩
  have hreads : t.readsInFlight = s.readsInFlight := by
    have hbalance := readsInFlight_eq he hk hq
    rwa [hnew] at hbalance
  refine ⟨hrun, ?_, hlog⟩
  simp only [System.pages, hw, hr, hf, hc, hreads, hrun, Bool.and_true]

end

end IoScheduler
