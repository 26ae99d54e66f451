import IoScheduler.SchedulerExit
import IoScheduler.SchedulerTracing

/-!
# The page jobs can always finish

From every state of a run in order the kernel can complete what is outstanding
so that the writer, the flusher and the reader stop, without a step of the
tracer. Each step below takes something off `workLeft`.
-/
namespace IoScheduler
open Machine Transition

/-! ## Batches -/

theorem batchIncrement_le {b : ℕ} (hpos : 0 < b) : batchIncrement b ≤ b := by
  have hdiv : u32 (b * 1) / 100 ≤ b := (Nat.div_le_self _ _).trans ((u32_le _).trans (by omega))
  exact Nat.max_le.mpr ⟨hpos, hdiv⟩

theorem batchIncrement_le_of_le {b : ℕ} (hb : b ≤ entries) : batchIncrement b ≤ 164 := by
  have hdiv : u32 (b * 1) / 100 ≤ 163 := by
    have := u32_le (b * 1)
    simp only [entries] at hb
    omega
  exact Nat.max_le.mpr ⟨by decide, by exact hdiv.trans (by decide)⟩

/-- A batch and the job's own timer always fit into an empty queue. -/
theorem adaptBatch_le (inflight : ℕ) {b : ℕ} (hb : b ≤ entries - 2) :
    adaptBatch inflight b ≤ entries - 2 := by
  have hinc := batchIncrement_le_of_le (b := b) (by omega)
  have he : entries = 16384 := rfl
  unfold adaptBatch
  split_ifs with hlow hdouble hhigh
  · exact (u32_le _).trans (by omega)
  · exact (u32_le _).trans (by omega)
  · have hle := batchIncrement_le hhigh.1
    rw [sub32_of_le (by omega) hle]
    omega
  · exact hb

/-- With nothing in flight a batch is never empty. -/
theorem adaptBatch_pos {b : ℕ} (hb : b ≤ entries - 2) : 0 < adaptBatch 0 b := by
  have hinc := batchIncrement_le_of_le (b := b) (by omega)
  have hpos := batchIncrement_pos b
  have he : entries = 16384 := rfl
  unfold adaptBatch
  split_ifs with hlow hdouble hhigh
  · rw [u32_of_lt (by omega)]
    omega
  · rw [u32_of_lt (by omega)]
    omega
  · exact absurd hhigh.2 (by decide)
  · have := hlow ∘ And.intro (Nat.zero_le _)
    omega

structure BatchBounded (s : System) : Prop where
  writer : s.writerJob.batchSize ≤ entries - 2
  reader : s.readerJob.batchSize ≤ entries - 2

theorem BatchBounded.step {B : ℕ} {s t : System} {a : Act} (h : BatchBounded s)
    (hok : Successful s a) (hs : step B s a = some t) : BatchBounded t := by
  rcases step_cases hok hs with hq | ⟨now, he, ht⟩ | ⟨now, he, ht⟩ | ⟨now, he, ht⟩ |
    ⟨op, off, res, now, rfl, he, ht⟩ | ⟨op, off, now, he, ht⟩ | ⟨res, now, rfl, he, ht⟩
  · exact ⟨hq.writerJob ▸ h.writer, hq.readerJob ▸ h.reader⟩
  · obtain ⟨-, rfl⟩ := backgroundWriter_eq_some ht
    exact ⟨adaptBatch_le _ h.writer, h.reader⟩
  · obtain ⟨-, rfl⟩ := backgroundReader_eq_some ht
    exact ⟨h.writer, (u32_le _).trans ((Nat.min_le_left _ _).trans (adaptBatch_le _ h.reader))⟩
  · obtain ⟨u, hu, rfl⟩ := backgroundFlusher_eq_some ht
    rcases submitFsync_eq_some hu with ⟨-, rfl⟩ | ⟨-, rfl⟩ <;> exact ⟨h.writer, h.reader⟩
  · obtain ⟨o, heap, writeList, stats, -, -, rfl, -⟩ := pageWritten_eq_some ht
    exact ⟨h.writer, h.reader⟩
  · obtain rfl := Option.some.inj ht
    exact ⟨h.writer, h.reader⟩
  · obtain ⟨heap, log, stats, -, rfl⟩ := fileSynced_eq_some ht
    exact ⟨h.writer, h.reader⟩

theorem Reach.batchBounded {B : ℕ} {t₀ t₁ : Timespec} {s : System} (h : Reach B t₀ t₁ s) :
    BatchBounded s := by
  refine Reachable.invariant h ?_ fun _ _ _ hi hok hs => hi.step hok hs
  rw [mainStart_eq]
  exact ⟨Nat.zero_le _, Nat.zero_le _⟩

/-! ## Callbacks that succeed -/

section
variable {B F C R : ℕ} {now : Timespec} {s : System}

theorem ioPrepareSqe_isSome {e : Sqe} (h : s.sq.length < entries) :
    ∃ t, ioPrepareSqe s e = some t :=
  ⟨_, ioPrepareSqe_eq_some.mpr ⟨h, rfl⟩⟩

theorem prepareBatch_isSome {prepare : ℕ → System → Option System}
    (hp : ∀ i s, s.sq.length < entries →
      ∃ t, prepare i s = some t ∧ t.sq.length = s.sq.length + 1)
    {i n : ℕ} {s : System} (h : s.sq.length + n ≤ entries) :
    ∃ t, prepareBatch prepare i n s = some t ∧ t.sq.length = s.sq.length + n := by
  induction n generalizing i s with
  | zero => exact ⟨s, rfl, rfl⟩
  | succ n ih =>
      obtain ⟨u, hu, hlen⟩ := hp i s (by omega)
      obtain ⟨t, ht, hlen'⟩ := ih (i := i + 1) (s := u) (by omega)
      exact ⟨t, by simp only [prepareBatch, hu, Option.bind_eq_bind, Option.bind_some, ht],
        by omega⟩

theorem prepareWrite_isSome (i : ℕ) (s : System) (h : s.sq.length < entries) :
    ∃ t, prepareWrite now i s = some t ∧ t.sq.length = s.sq.length + 1 :=
  ⟨_, ioPrepareSqe_eq_some.mpr ⟨h, rfl⟩, by simp⟩

theorem prepareRead_isSome (i : ℕ) (s : System) (h : s.sq.length < entries) :
    ∃ t, prepareRead now i s = some t ∧ t.sq.length = s.sq.length + 1 :=
  ⟨_, ioPrepareSqe_eq_some.mpr ⟨h, rfl⟩, by simp⟩

theorem resendOrStop_isSome {pageId : ℕ} {job : Job} (h : s.sq.length < entries) :
    ∃ t, resendOrStop B pageId job s = some t := by
  unfold resendOrStop
  split_ifs
  · exact ioPrepareSqe_isSome h
  · exact ⟨_, rfl⟩

theorem backgroundWriter_isSome (B : ℕ) (now : Timespec) (hsq : s.sq = [])
    (hb : s.writerJob.batchSize ≤ entries - 2) : ∃ t, backgroundWriter B now s = some t := by
  have he : entries = 16384 := rfl
  have hbatch := adaptBatch_le s.writerJob.inflight hb
  obtain ⟨u, hu, hlen⟩ : ∃ u, prepareBatch (prepareWrite now) 0
      (adaptBatch s.writerJob.inflight s.writerJob.batchSize) { s with
        writerJob.batchSize := adaptBatch s.writerJob.inflight s.writerJob.batchSize } = some u ∧
      u.sq.length = s.sq.length + adaptBatch s.writerJob.inflight s.writerJob.batchSize :=
    prepareBatch_isSome prepareWrite_isSome (by simp only [hsq, List.length_nil]; omega)
  have hroom : u.sq.length < entries := by
    rw [hlen, hsq, List.length_nil]
    omega
  simp only [backgroundWriter, hu, Option.bind_eq_bind, Option.bind_some]
  exact resendOrStop_isSome hroom

theorem backgroundReader_isSome (B : ℕ) (now : Timespec) (hsq : s.sq = [])
    (hb : s.readerJob.batchSize ≤ entries - 2) : ∃ t, backgroundReader B now s = some t := by
  have he : entries = 16384 := rfl
  have hbatch := adaptBatch_le s.readerJob.inflight hb
  have hmin := (u32_le _).trans (Nat.min_le_left (adaptBatch s.readerJob.inflight
    s.readerJob.batchSize) (sub64 s.flusherJob.pageId s.readerJob.pageId))
  generalize hn : u32 (min (adaptBatch s.readerJob.inflight s.readerJob.batchSize)
    (sub64 s.flusherJob.pageId s.readerJob.pageId)) = n at hmin
  obtain ⟨u, hu, hlen⟩ : ∃ u, prepareBatch (prepareRead now) 0 n
      { s with readerJob.batchSize := n } = some u ∧ u.sq.length = s.sq.length + n :=
    prepareBatch_isSome prepareRead_isSome (by simp only [hsq, List.length_nil]; omega)
  have hroom : u.sq.length < entries := by
    rw [hlen, hsq, List.length_nil]
    omega
  simp only [backgroundReader, hn, hu, Option.bind_eq_bind, Option.bind_some]
  exact resendOrStop_isSome hroom

theorem backgroundFlusher_isSome (B : ℕ) (now : Timespec) (hsq : s.sq = []) :
    ∃ t, backgroundFlusher B now s = some t := by
  obtain ⟨u, hu, hlen⟩ : ∃ u, submitFsync now s = some u ∧ u.sq.length < entries := by
    unfold submitFsync
    split_ifs
    · exact ⟨_, ioPrepareSqe_eq_some.mpr ⟨by simp [hsq, entries], rfl⟩, by simp [hsq, entries]⟩
    · exact ⟨s, rfl, by simp [hsq, entries]⟩
  simp only [backgroundFlusher, hu, Option.bind_eq_bind, Option.bind_some]
  exact resendOrStop_isSome hlen

/-- The first write in flight passes both checks of `page_written`. -/
theorem pageWritten_isSome (now : Timespec) (h : Pipeline F C s) (hlt : C < s.brk) (e : Sqe) :
    ∃ t, pageWritten now C (s.taken e) = some t := by
  obtain ⟨issued, hC⟩ := h.live C h.released_le hlt
  have hheap : (s.taken e).heap C = some ⟨u32 C, none, nextBelow C C, issued⟩ := hC
  have hcheck : (s.taken e).pageIdCheckOrder = u32 C := h.check
  obtain ⟨u, hu⟩ : ∃ u, appendWritten C
      { s.taken e with pageIdCheckOrder := u32 (u32 C + 1) } = some u := by
    have hlist : (s.taken e).flusherJob.writeList = listBetween F C := h.list
    have hle := h.released_le
    unfold appendWritten
    simp only [hlist]
    by_cases hF : F < C
    · obtain ⟨issued', hlast⟩ := h.live (C - 1) (by omega) (by omega)
      have hlast : (s.taken e).heap (C - 1) = some ⟨u32 (C - 1), none, _, issued'⟩ := hlast
      simp only [listBetween, hF, if_true, Option.bind_eq_bind, Option.bind_some, hlast]
      exact ⟨_, rfl⟩
    · simp only [listBetween, hF, if_false]
      exact ⟨_, rfl⟩
  simp only [pageWritten, hheap, hcheck, Option.bind_eq_bind, Option.bind_some,
    ne_eq, not_true_eq_false, if_false, hu]
  exact ⟨_, rfl⟩

theorem fileSynced_isSome (now : Timespec) (h : Pipeline F C s) :
    ∃ t, fileSynced now s = some t := by
  have hle := h.released_le
  have hbrk := h.written_le
  have hlive : ∀ p, F ≤ p → p < C →
      ∃ issued, s.heap p = some ⟨u32 p, none, nextBelow C p, issued⟩ :=
    fun p hp hp' => h.live p hp (by omega)
  simp only [fileSynced, h.list]
  rw [releaseList_chain hle (by omega) (by exact hlive)]
  exact ⟨_, rfl⟩

/-! ## One step of progress -/

/-- The completion of `e` with success. -/
def completion (e : Sqe) : Act := .cqe e (if e.isTimeout then -etime else 0) ⟨0, 0⟩

theorem successful_completion (s : System) (e : Sqe) : Successful s (completion e) := by
  cases h : e.isTimeout <;> simp [completion, Successful, h]

theorem step_completion {e : Sqe} (hphase : s.phase = .reap) (he : e ∈ s.kernel) :
    step B s (completion e) =
      callback B ⟨0, 0⟩ (if e.isTimeout then -etime else 0) (s.taken e) e := by
  cases h : e.isTimeout <;>
    simp [completion, step, ioTickCqe, hphase, he, h, etime, System.taken]

theorem Pipeline.unique {F' C' : ℕ} (h : Pipeline F C s) (h' : Pipeline F' C' s) :
    F = F' ∧ C = C' := by
  constructor
  · simpa [length_pagesBelow] using congrArg List.length (h.released.symm.trans h'.released)
  · simpa [length_pagesBelow] using congrArg List.length (h.written.symm.trans h'.written)

/-- What the page jobs still have to do. Each page weighs more the fewer of its
stages it has passed, and a flush is owed once pages are written. -/
def workLeft (F C R : ℕ) (s : System) : ℕ :=
  8 * (2 ^ 32 - s.brk) + 4 * (s.brk - C) +
    (if F < C ∧ s.flusherJob.inflight = 0 then 2 else 0) + s.flusherJob.inflight +
    s.flusherJob.running.toNat + 2 * (2 ^ 32 - R) + s.readsInFlight

/-- With the queue empty an outstanding timer is in the kernel. -/
theorem System.timer_mem {job : Job} (hsq : s.sq = []) (hpos : 0 < s.occupied (.job job)) :
    .timeout job ∈ s.kernel := by
  obtain ⟨e, he, hslot⟩ := List.countP_pos_iff.mp hpos
  have hslot : e.slot? = some (.job job) := of_decide_eq_true hslot
  cases e <;> simp only [Sqe.slot?, reduceCtorEq, Option.some.injEq, Slot.job.injEq] at hslot
  simpa [System.outstanding, hsq, hslot] using he

/-- With the queue empty the kernel holds the oldest write in flight, and it may
complete next. -/
theorem Pipeline.oldest (h : Pipeline F C s) (hsq : s.sq = []) (hlt : C < s.brk) :
    ∃ off t, .pageWrite C off ∈ s.kernel ∧
      (s.kernel.filterMap Sqe.writeOp?).head? = some C ∧
      IoScheduler.pageWritten ⟨0, 0⟩ C (s.taken (.pageWrite C off)) = some t := by
  obtain ⟨n, hn⟩ : ∃ n, s.brk - C = n + 1 := ⟨s.brk - C - 1, by omega⟩
  have hkernel : s.kernel.filterMap Sqe.writeOp? = C :: List.range' (C + 1) n := by
    have hflight := h.inFlight
    rwa [System.outstanding, hsq, List.append_nil, hn, List.range'_succ] at hflight
  obtain ⟨e, he, hop⟩ := List.mem_filterMap.mp (hkernel ▸ List.mem_cons_self)
  cases e <;> simp only [Sqe.writeOp?, reduceCtorEq, Option.some.injEq] at hop
  case pageWrite op off =>
    subst hop
    obtain ⟨t, ht⟩ := pageWritten_isSome ⟨0, 0⟩ h hlt (.pageWrite op off)
    exact ⟨off, t, he, by rw [hkernel]; rfl, ht⟩

/-- A state in which the kernel holds every submission. -/
structure Reaping (B F C R : ℕ) (s : System) : Prop where
  unwrapped : Unwrapped B F C R s
  slots : Slots s
  batches : BatchBounded s
  counted : Counted s
  phase : s.phase = .reap
  sq : s.sq = []
  bound : B + entries * bufSize ≤ 2 ^ 48

/-- A completion that is not one of the tracer's and takes something off the work. -/
def PageStep (B F C R : ℕ) (s t : System) : Prop :=
  ∃ e ∈ s.kernel, e.slot? ≠ some (.job .tracing) ∧ e.slot? ≠ some .dump ∧
    WritesInOrder s (completion e) ∧
    callback B ⟨0, 0⟩ (if e.isTimeout then -etime else 0) (s.taken e) e = some t ∧
    ∀ F' C' R', Unwrapped B F' C' R' t → workLeft F' C' R' t < workLeft F C R s

theorem Reaping.mem_kernel (h : Reaping B F C R s) {e : Sqe} (he : e ∈ s.outstanding) :
    e ∈ s.kernel := by
  simpa [System.outstanding, h.sq] using he

theorem Reaping.timer_mem (h : Reaping B F C R s) {job : Job}
    (hpos : 0 < s.occupied (.job job)) : .timeout job ∈ s.kernel :=
  System.timer_mem h.sq hpos

theorem goesOn_eq_false {n : ℕ} (hn : n < 2 ^ 32) (h : B ≤ n * bufSize) :
    goesOn B (u32 n) = false := by
  by_contra hgo
  have := lt_of_goesOn hn (Bool.not_eq_false _ ▸ hgo)
  omega

theorem workLeft_lt {F' C' R' : ℕ} {t : System} {e : Sqe} {new : List Sqe} (he : e ∈ s.kernel)
    (hk : t.kernel = (s.taken e).kernel) (hq : t.sq = s.sq ++ new)
    (hlt : 8 * (2 ^ 32 - t.brk) + 4 * (t.brk - C') +
        (if F' < C' ∧ t.flusherJob.inflight = 0 then 2 else 0) + t.flusherJob.inflight +
        t.flusherJob.running.toNat + 2 * (2 ^ 32 - R') + new.countP Sqe.isPageRead <
      8 * (2 ^ 32 - s.brk) + 4 * (s.brk - C) +
        (if F < C ∧ s.flusherJob.inflight = 0 then 2 else 0) + s.flusherJob.inflight +
        s.flusherJob.running.toNat + 2 * (2 ^ 32 - R) + if e.isPageRead then 1 else 0) :
    workLeft F' C' R' t < workLeft F C R s := by
  have hreads : t.readsInFlight + (if e.isPageRead then 1 else 0) =
      s.readsInFlight + new.countP Sqe.isPageRead := System.countP_balance he hk hq _
  simp only [workLeft]
  omega

/-- A write in flight completes. -/
theorem Reaping.write (h : Reaping B F C R s) (hlt : C < s.brk) : ∃ t, PageStep B F C R s t := by
  have hp := h.unwrapped.pipeline
  obtain ⟨off, t, he, horder, ht⟩ := hp.oldest h.sq hlt
  refine ⟨t, _, he, by simp [Sqe.slot?], by simp [Sqe.slot?], horder, ht, fun F' C' R' hu => ?_⟩
  obtain ⟨rfl, rfl⟩ := (hp.pageWritten he horder ht).unique hu.pipeline
  obtain ⟨hbrk, hin, hrun, hpage, ⟨ev, hlog, hev⟩, hk, hq⟩ : t.brk = s.brk ∧
      t.flusherJob.inflight = s.flusherJob.inflight ∧
      t.flusherJob.running = s.flusherJob.running ∧
      t.readerJob.pageId = s.readerJob.pageId ∧
      (∃ ev, t.log = s.log ++ [ev] ∧ ev.readSubmitted? = none) ∧
      t.kernel = (s.taken (.pageWrite C off)).kernel ∧ t.sq = s.sq ++ [] := by
    obtain ⟨o, heap, writeList, stats, -, -, rfl, -⟩ := pageWritten_eq_some ht
    exact ⟨rfl, rfl, rfl, rfl, ⟨_, rfl, rfl⟩, rfl, (List.append_nil _).symm⟩
  obtain rfl := (h.unwrapped.reads.of_append hpage hlog (by simp [hev])).unique hu.reads
  refine workLeft_lt he hk hq ?_
  rw [hbrk, hin, hrun]
  split_ifs <;> simp <;> omega

/-- A read in flight completes. -/
theorem Reaping.read (h : Reaping B F C R s) (hpos : 0 < s.readsInFlight) :
    ∃ t, PageStep B F C R s t := by
  obtain ⟨e, he, hread⟩ := List.countP_pos_iff.mp hpos
  cases e <;> simp only [Sqe.isPageRead, Bool.false_eq_true] at hread
  case pageRead op off =>
    have he := h.mem_kernel he
    obtain ⟨t, ht⟩ : ∃ t, pageRead ⟨0, 0⟩ op (s.taken (.pageRead op off)) = some t := ⟨_, rfl⟩
    refine ⟨t, _, he, by simp [Sqe.slot?], by simp [Sqe.slot?], trivial, ht,
      fun F' C' R' hu => ?_⟩
    obtain ⟨rfl, rfl⟩ := ((h.unwrapped.pipeline.taken he rfl).pageRead ht).unique hu.pipeline
    obtain ⟨hbrk, hfl, hpage, hlog, hk, hq⟩ : t.brk = s.brk ∧ t.flusherJob = s.flusherJob ∧
        t.readerJob.pageId = s.readerJob.pageId ∧ t.log = s.log ++ [.pageRead op.pageId] ∧
        t.kernel = (s.taken (.pageRead op off)).kernel ∧ t.sq = s.sq ++ [] := by
      obtain rfl := Option.some.inj ht
      exact ⟨rfl, rfl, rfl, rfl, rfl, (List.append_nil _).symm⟩
    obtain rfl := (h.unwrapped.reads.of_append hpage hlog
      (by simp [Event.readSubmitted?])).unique hu.reads
    refine workLeft_lt he hk hq ?_
    rw [hbrk, hfl]
    simp [Sqe.isPageRead]

/-- The fsync in flight completes. -/
theorem Reaping.synced (h : Reaping B F C R s) (hin : s.flusherJob.inflight ≠ 0) :
    ∃ t, PageStep B F C R s t := by
  have hone : s.flusherJob.inflight = 1 := by
    have := h.slots.fsync_le
    omega
  have hpos : 0 < s.occupied .fsync := by
    rw [h.slots.fsync, hone]
    exact Nat.one_pos
  obtain ⟨e, he, hslot⟩ := List.countP_pos_iff.mp hpos
  have hslot : e.slot? = some .fsync := of_decide_eq_true hslot
  cases e <;> simp only [Sqe.slot?, reduceCtorEq, Option.some.injEq] at hslot
  have he := h.mem_kernel he
  have hp := h.unwrapped.pipeline.taken he rfl
  obtain ⟨t, ht⟩ := fileSynced_isSome ⟨0, 0⟩ hp
  refine ⟨t, _, he, by simp [Sqe.slot?], by simp [Sqe.slot?], trivial, ht,
    fun F' C' R' hu => ?_⟩
  obtain ⟨hp', hlog⟩ := hp.fileSynced ht
  obtain ⟨rfl, rfl⟩ := hp'.unique hu.pipeline
  obtain ⟨hbrk, hin', hrun, hpage, hk, hq⟩ : t.brk = s.brk ∧ t.flusherJob.inflight = 0 ∧
      t.flusherJob.running = s.flusherJob.running ∧
      t.readerJob.pageId = s.readerJob.pageId ∧
      t.kernel = (s.taken .fsync).kernel ∧ t.sq = s.sq ++ [] := by
    obtain ⟨heap, log, stats, -, rfl⟩ := fileSynced_eq_some ht
    exact ⟨rfl, rfl, rfl, rfl, rfl, (List.append_nil _).symm⟩
  obtain rfl := (h.unwrapped.reads.of_append hpage hlog (by
    simp only [List.mem_cons, List.mem_map]
    rintro e (rfl | ⟨p, -, rfl⟩) <;> rfl)).unique hu.reads
  refine workLeft_lt he hk hq ?_
  rw [hbrk, hin', hrun, hone]
  simp [Sqe.isPageRead]

theorem System.writesInFlight_eq (s : System) :
    s.writesInFlight = (s.outstanding.filterMap Sqe.writeOp?).length := by
  rw [List.length_filterMap_eq_countP, System.writesInFlight]
  congr 1
  funext e
  cases e <;> rfl

/-- With every write completed the writer submits at least one more. -/
theorem Reaping.writer (h : Reaping B F C R s) (hrun : s.writerJob.running = true)
    (hC : C = s.brk) : ∃ t, PageStep B F C R s t := by
  have hp := h.unwrapped.pipeline
  have he : .timeout .writer ∈ s.kernel := h.timer_mem (by rw [h.slots.writer, hrun]; decide)
  have hidle : s.writerJob.inflight = 0 := by
    rw [h.counted.writes, System.writesInFlight_eq, hp.inFlight, hC, Nat.sub_self]
    rfl
  obtain ⟨t, ht⟩ := backgroundWriter_isSome (s := s.taken (.timeout .writer)) B ⟨0, 0⟩ h.sq
    h.batches.writer
  refine ⟨t, _, he, by simp [Sqe.slot?], by simp [Sqe.slot?], trivial, ht,
    fun F' C' R' hu => ?_⟩
  obtain ⟨rfl, rfl⟩ := ((hp.taken he rfl).backgroundWriter ht).unique hu.pipeline
  have hbrk' := hu.brk_lt_pow h.bound
  obtain ⟨b, hb, hbrk, hfl, hpage, hlog, hk, hq⟩ : ∃ b, 0 < b ∧ t.brk = s.brk + b ∧
      t.flusherJob = s.flusherJob ∧ t.readerJob.pageId = s.readerJob.pageId ∧
      (∃ n, t.log = s.log ++ (List.range b).map (writeEvent n s.brk)) ∧
      t.kernel = (s.taken (.timeout .writer)).kernel ∧
      (∃ n, t.sq = s.sq ++ ((List.range b).map (writeSqe n s.brk) ++
        resent B (u32 (n + b)) .writer)) := by
    obtain ⟨-, rfl⟩ := backgroundWriter_eq_some ht
    refine ⟨_, ?_, rfl, rfl, rfl, ⟨_, rfl⟩, rfl, ⟨_, List.append_assoc _ _ _⟩⟩
    change 0 < adaptBatch s.writerJob.inflight s.writerJob.batchSize
    rw [hidle]
    exact adaptBatch_pos h.batches.writer
  obtain ⟨n, hlog⟩ := hlog
  obtain ⟨m, hq⟩ := hq
  obtain rfl := (h.unwrapped.reads.of_append hpage hlog
    (by simp [writeEvent, Event.readSubmitted?])).unique hu.reads
  refine workLeft_lt he hk hq ?_
  rw [List.countP_append, countP_writeSqe _ _ _ _ false fun _ _ => rfl, countP_resent, hbrk, hfl]
  simp only [Sqe.isPageRead]
  rw [hbrk] at hbrk'
  split_ifs <;> simp <;> omega

/-- With nothing in flight and the writer stopped, the flusher flushes what is
left or stops. -/
theorem Reaping.flusher (h : Reaping B F C R s) (hrun : s.flusherJob.running = true)
    (hC : C = s.brk) (hidle : s.flusherJob.inflight = 0)
    (hstopped : s.writerJob.running = false) : ∃ t, PageStep B F C R s t := by
  have hp := h.unwrapped.pipeline
  have hbrk := h.unwrapped.brk_lt_pow h.bound
  have hle := hp.released_le
  have hB := h.unwrapped.writerStopped hstopped
  have he : .timeout .flusher ∈ s.kernel := h.timer_mem (by rw [h.slots.flusher, hrun]; decide)
  obtain ⟨t, ht⟩ := backgroundFlusher_isSome (s := s.taken (.timeout .flusher)) B ⟨0, 0⟩ h.sq
  refine ⟨t, _, he, by simp [Sqe.slot?], by simp [Sqe.slot?], trivial, ht,
    fun F' C' R' hu => ?_⟩
  obtain ⟨rfl, rfl⟩ := ((hp.taken he rfl).backgroundFlusher ht).unique hu.pipeline
  have hwants : wantsFsync (s.taken (.timeout .flusher)) ↔ F < C := by
    have hnoFlush : (s.taken (.timeout .flusher)).writerJob.writtenNoFlush = u32 (C - F) :=
      hp.noFlush
    have hidle' : (s.taken (.timeout .flusher)).flusherJob.inflight = 0 := hidle
    rw [wantsFsync, hnoFlush, hidle', u32_of_lt (by omega)]
    omega
  obtain ⟨hbrk', hpage, hk, ⟨hlt, hin, hlog, hq⟩ | ⟨hge, hin, hstop, hlog, hq⟩⟩ :
      t.brk = s.brk ∧ t.readerJob.pageId = s.readerJob.pageId ∧
      t.kernel = (s.taken (.timeout .flusher)).kernel ∧
      ((F < C ∧ t.flusherJob.inflight = 1 ∧ t.log = s.log ++ [.fsyncSubmitted] ∧
          t.sq = s.sq ++ ([.fsync] ++ resent B s.flusherJob.pageId .flusher)) ∨
        (C ≤ F ∧ t.flusherJob.inflight = 0 ∧ t.flusherJob.running = false ∧
          t.log = s.log ++ [] ∧ t.sq = s.sq ++ resent B s.flusherJob.pageId .flusher)) := by
    obtain ⟨u, hu', rfl⟩ := backgroundFlusher_eq_some ht
    rcases submitFsync_eq_some hu' with ⟨hw, rfl⟩ | ⟨hw, rfl⟩
    · exact ⟨rfl, rfl, rfl, .inl ⟨hwants.mp hw, rfl, rfl, List.append_assoc _ _ _⟩⟩
    · have hge : C ≤ F := not_lt.mp (hwants.not.mp hw)
      have hgo : goesOn B s.flusherJob.pageId = false := by
        rw [hp.flusherPage]
        exact goesOn_eq_false (by omega) (hB.trans (Nat.mul_le_mul_right _ (by omega)))
      refine ⟨rfl, rfl, rfl, .inr ⟨hge, hidle, ?_, (List.append_nil _).symm, rfl⟩⟩
      exact congrArg (· && s.flusherJob.running) hgo
  · obtain rfl := (h.unwrapped.reads.of_append hpage hlog
      (by simp [Event.readSubmitted?])).unique hu.reads
    refine workLeft_lt he hk hq ?_
    rw [List.countP_append, countP_resent, hbrk', hin, hidle, hrun]
    have := Bool.toNat_le t.flusherJob.running
    simp [Sqe.isPageRead, hlt]
    omega
  · obtain rfl := (h.unwrapped.reads.of_append hpage hlog (by simp)).unique hu.reads
    refine workLeft_lt he hk hq ?_
    rw [countP_resent, hbrk', hin, hidle, hrun, hstop]
    simp [Sqe.isPageRead]

/-- With the writer and the flusher stopped and no read in flight, the reader
reads at least one more page. -/
theorem Reaping.reader (h : Reaping B F C R s) (hrun : s.readerJob.running = true)
    (hreads : s.readsInFlight = 0) (hstopped : s.flusherJob.running = false) :
    ∃ t, PageStep B F C R s t := by
  have hp := h.unwrapped.pipeline
  have hFC := hp.released_le
  have hC := hp.written_le
  have hbrk := h.unwrapped.brk_lt_pow h.bound
  have hRF : R < F := by
    have hR := h.unwrapped.readerRunning hrun
    have hF := h.unwrapped.flusherStopped hstopped
    exact Nat.lt_of_mul_lt_mul_right (hR.trans_le hF)
  have he : .timeout .reader ∈ s.kernel := h.timer_mem (by rw [h.slots.reader, hrun]; decide)
  have hidle : s.readerJob.inflight = 0 := by
    rw [h.counted.reads, hreads]
    rfl
  obtain ⟨t, ht⟩ := backgroundReader_isSome (s := s.taken (.timeout .reader)) B ⟨0, 0⟩ h.sq
    h.batches.reader
  refine ⟨t, _, he, by simp [Sqe.slot?], by simp [Sqe.slot?], trivial, ht,
    fun F' C' R' hu => ?_⟩
  obtain ⟨rfl, rfl⟩ := ((hp.taken he rfl).backgroundReader ht).unique hu.pipeline
  have hr : Reads R (s.taken (.timeout .reader)) :=
    ⟨h.unwrapped.reads.page, h.unwrapped.reads.submitted⟩
  have hlim : sub64 s.flusherJob.pageId s.readerJob.pageId = F - R := by
    rw [hp.flusherPage, h.unwrapped.reads.page, u32_of_lt (by omega), u32_of_lt (by omega)]
    exact sub64_of_le (by omega) hRF.le
  obtain ⟨b, hb, hbrk', hfl, hlen, hk, n, hq⟩ : ∃ b, 0 < b ∧ t.brk = s.brk ∧
      t.flusherJob = s.flusherJob ∧ t.log.length = s.log.length + b ∧
      t.kernel = (s.taken (.timeout .reader)).kernel ∧
      ∃ n, t.sq = s.sq ++ ((List.range b).map (readSqe ⟨0, 0⟩ n) ++
        resent B (u32 (n + b)) .reader) := by
    obtain ⟨-, rfl⟩ := backgroundReader_eq_some ht
    refine ⟨_, ?_, rfl, rfl, by simp [System.taken], rfl, _, List.append_assoc _ _ _⟩
    change 0 < u32 (min (adaptBatch s.readerJob.inflight s.readerJob.batchSize)
      (sub64 s.flusherJob.pageId s.readerJob.pageId))
    rw [hidle, hlim, u32_of_lt ((Nat.min_le_right _ _).trans_lt (by omega))]
    exact Nat.lt_min.mpr ⟨adaptBatch_pos h.batches.reader, by omega⟩
  obtain ⟨b', hb', hr', hlog, -⟩ := hr.backgroundReader ht
  obtain rfl : b' = b := by simpa [hlog, System.taken] using hlen
  obtain rfl := hr'.unique hu.reads
  have hbR : b' ≤ F - R := hlim ▸ hb'
  refine workLeft_lt he hk hq ?_
  rw [List.countP_append, countP_readSqe _ _ _ _ true fun _ _ => rfl, countP_resent, hbrk', hfl]
  simp [Sqe.isPageRead]
  omega

theorem Reaping.pageStep (h : Reaping B F C R s) (hfin : s.finished = false) :
    ∃ t, PageStep B F C R s t := by
  have hC := h.unwrapped.pipeline.written_le
  by_cases hw : C < s.brk
  · exact h.write hw
  by_cases hr : 0 < s.readsInFlight
  · exact h.read hr
  by_cases hf : s.flusherJob.inflight = 0
  · by_cases hwriter : s.writerJob.running = true
    · exact h.writer hwriter (by omega)
    · have hwriter : s.writerJob.running = false := Bool.not_eq_true _ ▸ hwriter
      by_cases hflusher : s.flusherJob.running = true
      · exact h.flusher hflusher (by omega) hf hwriter
      · have hflusher : s.flusherJob.running = false := Bool.not_eq_true _ ▸ hflusher
        refine h.reader ?_ (by omega) hflusher
        simpa [System.finished, hwriter, hflusher] using hfin
  · exact h.synced hf

end

/-! ## Whole runs -/

/-- The kernel takes over whatever is queued. -/
def System.flushed (s : System) : System :=
  { s with kernel := s.kernel ++ s.sq, sq := [], phase := .reap }

theorem reachable_flushed {B : ℕ} {s : System} (hphase : s.phase ≠ .exited)
    (hrun : s.tracingJob.running = true) : Reachable (step B) InOrder s s.flushed := by
  have hsubmit : ∀ s : System, s.phase = .submit → Reachable (step B) InOrder s s.flushed :=
    fun s hs => Reachable.start.next (a := .submit) ⟨trivial, trivial⟩
      (by simp [step, hs, System.flushed])
  cases hp : s.phase with
  | submit => exact hsubmit s hp
  | reap =>
      have hstep : step B s .tickEnd = some { s with phase := .submit } := by
        simp [step, hp, System.allStopped, hrun]
      exact (Reachable.start.next (a := .tickEnd) ⟨trivial, trivial⟩ hstep).trans
        (hsubmit { s with phase := .submit } rfl)
  | exited => exact absurd hp hphase

/-- What a run without the tracer keeps. -/
structure TracerAside (s t : System) : Prop extends TracingFrame s t where
  phase : t.phase ≠ .exited

theorem TracerAside.trans {s t u : System} (h : TracerAside s t) (k : TracerAside t u) :
    TracerAside s u :=
  ⟨⟨k.tracingJob.trans h.tracingJob, k.timer.trans h.timer, k.dump.trans h.dump,
    k.finished ∘ h.finished⟩, k.phase⟩

theorem tracerAside_flushed (s : System) : TracerAside s s.flushed := by
  refine ⟨⟨rfl, ?_, ?_, id⟩, by simp [System.flushed]⟩ <;>
    simp [System.occupied, System.outstanding, System.flushed]

theorem Unwrapped.flushed {B F C R : ℕ} {s : System} (h : Unwrapped B F C R s) :
    Unwrapped B F C R s.flushed ∧ workLeft F C R s.flushed = workLeft F C R s := by
  have hout : s.flushed.outstanding = s.outstanding := List.append_nil _
  have hquiet : Quiet s s.flushed :=
    ⟨rfl, rfl, rfl, rfl, rfl, rfl, by rw [hout], [], (List.append_nil _).symm⟩
  refine ⟨⟨⟨h.pipeline.quiet hquiet, ⟨h.reads.page, h.reads.submitted⟩, h.writerStopped,
    h.readerStopped, h.flusherStopped⟩, ⟨h.running_lt, h.brk_lt⟩, h.readerRunning, h.read_le,
    h.justified⟩, ?_⟩
  rw [workLeft, workLeft, System.readsInFlight, System.readsInFlight, hout]
  rfl

/-- The page jobs can stop without a step of the tracer. -/
theorem exists_finished_from {B : ℕ} {t₀ t₁ : Timespec} (hpos : 0 < B)
    (hB : B + entries * bufSize ≤ 2 ^ 48) {s : System} (h : ReachInOrder B t₀ t₁ s)
    (hphase : s.phase ≠ .exited) (hrun : s.tracingJob.running = true) :
    ∃ t, Reachable (step B) InOrder s t ∧ TracerAside s t ∧ t.finished = true ∧
      t.phase = .reap ∧ t.sq = [] := by
  obtain ⟨F, C, R, hu⟩ := h.unwrapped hpos hB
  induction hm : workLeft F C R s using Nat.strong_induction_on generalizing s F C R with
  | _ m ih =>
      have hflush := reachable_flushed (B := B) hphase hrun
      have hreach : ReachInOrder B t₀ t₁ s.flushed := h.trans hflush
      have haside := tracerAside_flushed s
      by_cases hfin : s.finished = true
      · exact ⟨s.flushed, hflush, haside, hfin, rfl, rfl⟩
      · obtain ⟨hu', hwork⟩ := hu.flushed
        have hr : Reaping B F C R s.flushed :=
          ⟨hu', hreach.reach.slots, hreach.reach.batchBounded, hreach.reach.counted, rfl, rfl, hB⟩
        obtain ⟨t, e, he, htimer, hdump, horder, ht, hlt⟩ :=
          hr.pageStep (Bool.not_eq_true _ ▸ hfin)
        have hstep : step B s.flushed (completion e) = some t := (step_completion rfl he).trans ht
        have hnext : Reachable (step B) InOrder s t :=
          hflush.next ⟨successful_completion _ e, horder⟩ hstep
        have hreach' : ReachInOrder B t₀ t₁ t := h.trans hnext
        have haside' : TracerAside s t := by
          refine haside.trans ⟨callback_tracingFrame he htimer hdump ht, ?_⟩
          have hsame : t.phase = (s.flushed.taken e).phase := callback_phase ht
          exact hsame ▸ Phase.noConfusion
        obtain ⟨F', C', R', hu''⟩ := hreach'.unwrapped hpos hB
        have hdec : workLeft F' C' R' t < m := by
          have := hlt F' C' R' hu''
          omega
        obtain ⟨v, hv, hav, hrest⟩ :=
          ih _ hdec hreach' haside'.phase (haside'.tracingJob ▸ hrun) F' C' R' hu'' rfl
        exact ⟨v, hnext.trans hv, haside'.trans hav, hrest⟩

theorem exists_finished {B : ℕ} {t₀ t₁ : Timespec} (hpos : 0 < B)
    (hB : B + entries * bufSize ≤ 2 ^ 48) {s : System} (h : ReachInOrder B t₀ t₁ s)
    (hphase : s.phase ≠ .exited) (hrun : s.tracingJob.running = true) :
    ∃ t, ReachInOrder B t₀ t₁ t ∧ TracerAside s t ∧ t.finished = true ∧ t.phase = .reap ∧
      t.sq = [] := by
  obtain ⟨t, ht, haside, hrest⟩ := exists_finished_from hpos hB h hphase hrun
  exact ⟨t, h.trans ht, haside, hrest⟩

/-! ## The tracing job left behind -/

/-- Thirty-two items are recorded, dumped and synced; the ring is empty again. -/
def ringDrained : List Act :=
  (List.replicate 32 [Act.submit, .cqe (.timeout .tracing) (-62) ⟨0, 0⟩, .tickEnd]).flatten ++
    [.submit, .cqe (.dumpWrite 1280 0) 1280 ⟨0, 0⟩, .tickEnd, .submit, .cqe .dumpFsync 0 ⟨0, 0⟩]

theorem ringDrained_spec : ∃ s, ReachInOrder bytesToWrite ⟨0, 0⟩ ⟨0, 0⟩ s ∧
    decide (s.phase = .reap ∧ s.tracingJob.running = true ∧ s.tracingJob.traceDone = 32 ∧
      s.tracingJob.cbuf = ⟨64, 40, 32, 32⟩ ∧ s.tracingJob.dumpOp.inflight = 0 ∧
      s.occupied (.job .tracing) = 1) = true :=
  exists_of_execute ringDrained _ (by decide +kernel)

/-- The tick that ends nothing. -/
theorem backgroundTracing_drained {s : System} (hfin : s.finished = true)
    (hcbuf : s.tracingJob.cbuf = ⟨64, 40, 32, 32⟩) (hidle : s.tracingJob.dumpOp.inflight = 0) :
    backgroundTracing ⟨0, 0⟩ s = some s := by
  have hput : cbufPut (⟨64, 40, 32, 32⟩ : Cbuf) = some (32, 64) := by decide
  have hget : cbufGet (⟨64, 40, 32, 32⟩ : Cbuf) = some (32, 0) := by decide
  have hfree : cbufFreeCount (⟨64, 40, 32, 32⟩ : Cbuf) = 64 := by decide
  simp [backgroundTracing, dumpIfHalfFull, dumpTracingItems, hcbuf, hfin, hidle, hput, hget, hfree]

/-- With the target of the program as built: the page jobs finish after the ring has
been dumped, the last tick finds it empty, and the tracing job never stops. -/
theorem tracing_left_running :
    ∃ s, Reach bytesToWrite ⟨0, 0⟩ ⟨0, 0⟩ s ∧ ¬ TracingLive s := by
  obtain ⟨s, hs, hp⟩ := ringDrained_spec
  obtain ⟨hphase, hrun, -, hcbuf, hidle, htimer⟩ := of_decide_eq_true hp
  have hphase : s.phase ≠ .exited := hphase ▸ Phase.noConfusion
  obtain ⟨t, ht, haside, hfin, hreap, hsq⟩ :=
    exists_finished (by decide) (by decide) hs hphase hrun
  have hjob := haside.tracingJob
  have he : .timeout .tracing ∈ t.kernel :=
    System.timer_mem hsq ((haside.timer.trans htimer).symm ▸ Nat.one_pos)
  have htick : backgroundTracing ⟨0, 0⟩ (t.taken (.timeout .tracing)) =
      some (t.taken (.timeout .tracing)) :=
    backgroundTracing_drained hfin (by rw [← hcbuf, ← hjob]; rfl) (by rw [← hidle, ← hjob]; rfl)
  have hstep : step bytesToWrite t (completion (.timeout .tracing)) =
      some (t.taken (.timeout .tracing)) := (step_completion hreap he).trans htick
  have hok := successful_completion t (.timeout .tracing)
  refine ⟨_, ht.reach.next hok hstep,
    not_tracingLive_iff.mpr (stuck_of_tick ht.reach.slots hok ?_ hstep)⟩
  have hused : cbufUsedCount s.tracingJob.cbuf = 0 := by
    rw [hcbuf]
    decide
  simp [LastTickDumps, Act.completes, completion, nothingToDump, hfin, hjob, hrun, hidle, hused]

end IoScheduler
