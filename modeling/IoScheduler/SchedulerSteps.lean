import IoScheduler.Scheduler

/-!
# What each callback can do

One inversion lemma for each callback of the event loop: when it returns, the
new state is the old one with the listed fields replaced. The invariants are
proved from these equations and never unfold a callback again.
-/
namespace IoScheduler
open Machine

theorem ioPrepareSqe_eq_some {s t : System} {e : Sqe} :
    ioPrepareSqe s e = some t ↔ s.sq.length < entries ∧ t = { s with sq := s.sq ++ [e] } := by
  unfold ioPrepareSqe
  split_ifs with h
  · simp only [Option.some.injEq, h, true_and, eq_comm]
  · simp only [h, false_and]

/-- The five timeouts are queued and every job is marked running. -/
theorem mainStart_eq (start last : Timespec) :
    mainStart start last =
      { initialised start last with
        writerJob := ⟨true, 0, 0, 0, 0⟩
        readerJob := ⟨true, 0, 0, 0⟩
        flusherJob.running := true
        tracingJob.running := true
        statusJob.running := true
        sq := [.timeout .writer, .timeout .reader, .timeout .flusher, .timeout .tracing,
          .timeout .status] } := rfl

theorem batchIncrement_pos (b : ℕ) : 0 < batchIncrement b := Nat.le_max_left 1 _

/-- What `background_writer` puts in the queue and on the heap in one batch. -/
def writeSqe (pageId brk k : ℕ) : Sqe :=
  .pageWrite (brk + k) (u64 (bufSize * u32 (pageId + k)))

def writeEvent (pageId brk k : ℕ) : Event := .writeSubmitted (brk + k) (u32 (pageId + k))

def heapWithWrites (now : Timespec) (heap : ℕ → Option OpPageWrite) (pageId brk n p : ℕ) :
    Option OpPageWrite :=
  if brk ≤ p ∧ p < brk + n then some ⟨u32 (pageId + (p - brk)), none, none, now⟩ else heap p

def readSqe (now : Timespec) (pageId k : ℕ) : Sqe :=
  .pageRead ⟨u32 (pageId + k), now⟩ (u64 (bufSize * u32 (pageId + k)))

def readEvent (pageId k : ℕ) : Event := .readSubmitted (u32 (pageId + k))

theorem writeSqe_succ (pageId brk : ℕ) :
    writeSqe (pageId + 1) (brk + 1) = writeSqe pageId brk ∘ Nat.succ := by
  funext k
  simp only [writeSqe, Function.comp_apply, Nat.succ_eq_add_one, Nat.add_comm k 1, Nat.add_assoc]

theorem writeEvent_succ (pageId brk : ℕ) :
    writeEvent (pageId + 1) (brk + 1) = writeEvent pageId brk ∘ Nat.succ := by
  funext k
  simp only [writeEvent, Function.comp_apply, Nat.succ_eq_add_one, Nat.add_comm k 1,
    Nat.add_assoc]

theorem readSqe_succ (now : Timespec) (pageId : ℕ) :
    readSqe now (pageId + 1) = readSqe now pageId ∘ Nat.succ := by
  funext k
  simp only [readSqe, Function.comp_apply, Nat.succ_eq_add_one, Nat.add_comm k 1, Nat.add_assoc]

theorem readEvent_succ (pageId : ℕ) : readEvent (pageId + 1) = readEvent pageId ∘ Nat.succ := by
  funext k
  simp only [readEvent, Function.comp_apply, Nat.succ_eq_add_one, Nat.add_comm k 1,
    Nat.add_assoc]

theorem heapWithWrites_zero (now : Timespec) (heap : ℕ → Option OpPageWrite) (pageId brk : ℕ) :
    heapWithWrites now heap pageId brk 0 = heap := by
  funext p
  simp [heapWithWrites]

theorem heapWithWrites_succ (now : Timespec) (heap : ℕ → Option OpPageWrite)
    (pageId brk n : ℕ) :
    heapWithWrites now (Function.update heap brk (some ⟨u32 pageId, none, none, now⟩))
      (pageId + 1) (brk + 1) n = heapWithWrites now heap pageId brk (n + 1) := by
  funext p
  by_cases hp : p = brk
  · subst hp
    simp [heapWithWrites]
  · have hiff : brk + 1 ≤ p ∧ p < brk + 1 + n ↔ brk ≤ p ∧ p < brk + (n + 1) := by omega
    have hidx : brk < p → pageId + 1 + (p - (brk + 1)) = pageId + (p - brk) := by omega
    simp only [heapWithWrites, Function.update_of_ne hp, hiff]
    split_ifs with h
    · rw [hidx (by omega)]
    · rfl

/-- A batch that runs to its end has prepared one submission a round. The bound
says what is known of the queue: every round but none found a free entry. -/
theorem prepareBatch_write {now : Timespec} {i n : ℕ} {s t : System}
    (h : prepareBatch (prepareWrite now) i n s = some t) :
    (n = 0 ∨ s.sq.length + n ≤ entries) ∧
    t = { s with
      heap := heapWithWrites now s.heap (s.writerJob.pageId + i) s.brk n
      brk := s.brk + n
      sq := s.sq ++ (List.range n).map (writeSqe (s.writerJob.pageId + i) s.brk)
      log := s.log ++ (List.range n).map (writeEvent (s.writerJob.pageId + i) s.brk) } := by
  induction n generalizing i s with
  | zero =>
      simp only [prepareBatch, Option.some.injEq] at h
      subst h
      simp [heapWithWrites_zero]
  | succ n ih =>
      obtain ⟨u, hu, ht⟩ := Option.bind_eq_some_iff.mp h
      obtain ⟨hroom, rfl⟩ := ioPrepareSqe_eq_some.mp hu
      obtain ⟨hlen, rfl⟩ := ih ht
      simp only [List.length_append, List.length_singleton] at hlen hroom
      refine ⟨.inr (by omega), ?_⟩
      simp only [← Nat.add_assoc, heapWithWrites_succ, writeSqe_succ, writeEvent_succ,
        List.range_succ_eq_map, List.map_cons, List.map_map, List.append_assoc,
        List.singleton_append, Nat.add_sub_cancel, Nat.add_right_comm _ 1 n]
      rfl

theorem prepareBatch_read {now : Timespec} {i n : ℕ} {s t : System}
    (h : prepareBatch (prepareRead now) i n s = some t) :
    (n = 0 ∨ s.sq.length + n ≤ entries) ∧
    t = { s with
      sq := s.sq ++ (List.range n).map (readSqe now (s.readerJob.pageId + i))
      log := s.log ++ (List.range n).map (readEvent (s.readerJob.pageId + i)) } := by
  induction n generalizing i s with
  | zero =>
      simp only [prepareBatch, Option.some.injEq] at h
      subst h
      simp
  | succ n ih =>
      obtain ⟨u, hu, ht⟩ := Option.bind_eq_some_iff.mp h
      obtain ⟨hroom, rfl⟩ := ioPrepareSqe_eq_some.mp hu
      obtain ⟨hlen, rfl⟩ := ih ht
      simp only [List.length_append, List.length_singleton] at hlen hroom
      refine ⟨.inr (by omega), ?_⟩
      simp only [← Nat.add_assoc, readSqe_succ, readEvent_succ, List.range_succ_eq_map,
        List.map_cons, List.map_map, List.append_assoc, List.singleton_append]
      rfl

/-- The outcome of the stop test of the page jobs. -/
def goesOn (B pageId : ℕ) : Bool := u64 (pageId * bufSize) < B

/-- The submission a page job ends its tick with, if any. -/
def resent (B pageId : ℕ) (job : Job) : List Sqe :=
  if goesOn B pageId then [.timeout job] else []

theorem resendOrStop_eq_some {B pageId : ℕ} {job : Job} {s t : System}
    (h : resendOrStop B pageId job s = some t) :
    (goesOn B pageId = true ∧ s.sq.length < entries ∧
      t = { s with sq := s.sq ++ [.timeout job] }) ∨
    (goesOn B pageId = false ∧ t = s.setRunning job false) := by
  unfold resendOrStop at h
  split_ifs at h with hlt
  · exact .inl ⟨decide_eq_true hlt, ioPrepareSqe_eq_some.mp h⟩
  · exact .inr ⟨decide_eq_false hlt, (Option.some.inj h).symm⟩

/-- The writer's tick: adapt the batch, prepare it, and go on or stop. -/
theorem backgroundWriter_eq_some {B : ℕ} {now : Timespec} {s t : System}
    (h : backgroundWriter B now s = some t) :
    let b := adaptBatch s.writerJob.inflight s.writerJob.batchSize
    let pageId := u32 (s.writerJob.pageId + b)
    (b = 0 ∨ s.sq.length + b ≤ entries) ∧
    t = { s with
      writerJob := { s.writerJob with
        running := goesOn B pageId && s.writerJob.running
        pageId
        batchSize := b
        inflight := u8 (s.writerJob.inflight + b) }
      heap := heapWithWrites now s.heap s.writerJob.pageId s.brk b
      brk := s.brk + b
      sq := s.sq ++ (List.range b).map (writeSqe s.writerJob.pageId s.brk) ++
        resent B pageId .writer
      log := s.log ++ (List.range b).map (writeEvent s.writerJob.pageId s.brk) } := by
  obtain ⟨u, hu, ht⟩ := Option.bind_eq_some_iff.mp h
  obtain ⟨hroom, rfl⟩ := prepareBatch_write hu
  refine ⟨hroom, ?_⟩
  rcases resendOrStop_eq_some ht with ⟨hlt, -, rfl⟩ | ⟨hle, rfl⟩
  · simp only [resent, hlt, Bool.true_and, if_true]
    rfl
  · simp only [resent, hle, Bool.false_and, Bool.false_eq_true, if_false, List.append_nil]
    rfl

/-- The reader's tick, with its batch cut to the pages flushed and not read. -/
theorem backgroundReader_eq_some {B : ℕ} {now : Timespec} {s t : System}
    (h : backgroundReader B now s = some t) :
    let b := u32 (min (adaptBatch s.readerJob.inflight s.readerJob.batchSize)
      (sub64 s.flusherJob.pageId s.readerJob.pageId))
    let pageId := u32 (s.readerJob.pageId + b)
    (b = 0 ∨ s.sq.length + b ≤ entries) ∧
    t = { s with
      readerJob := { s.readerJob with
        running := goesOn B pageId && s.readerJob.running
        pageId
        batchSize := b
        inflight := u8 (s.readerJob.inflight + b) }
      sq := s.sq ++ (List.range b).map (readSqe now s.readerJob.pageId) ++
        resent B pageId .reader
      log := s.log ++ (List.range b).map (readEvent s.readerJob.pageId) } := by
  obtain ⟨u, hu, ht⟩ := Option.bind_eq_some_iff.mp h
  obtain ⟨hroom, rfl⟩ := prepareBatch_read hu
  refine ⟨hroom, ?_⟩
  rcases resendOrStop_eq_some ht with ⟨hlt, -, rfl⟩ | ⟨hle, rfl⟩
  · simp only [resent, hlt, Bool.true_and, if_true]
    rfl
  · simp only [resent, hle, Bool.false_and, Bool.false_eq_true, if_false, List.append_nil]
    rfl

/-- The flusher submits an fsync exactly when a write has completed since the
last one and none is in flight. -/
def wantsFsync (s : System) : Prop :=
  s.writerJob.writtenNoFlush ≠ 0 ∧ s.flusherJob.inflight = 0

instance (s : System) : Decidable (wantsFsync s) := by unfold wantsFsync; infer_instance

theorem submitFsync_eq_some {now : Timespec} {s t : System} (h : submitFsync now s = some t) :
    (wantsFsync s ∧ t = { s with
      flusherJob := { s.flusherJob with issued := now, inflight := 1 }
      sq := s.sq ++ [.fsync]
      log := s.log ++ [.fsyncSubmitted] }) ∨
    (¬ wantsFsync s ∧ t = s) := by
  unfold submitFsync at h
  split_ifs at h with hw
  · exact .inl ⟨hw, (ioPrepareSqe_eq_some.mp h).2⟩
  · exact .inr ⟨hw, (Option.some.inj h).symm⟩

theorem backgroundFlusher_eq_some {B : ℕ} {now : Timespec} {s t : System}
    (h : backgroundFlusher B now s = some t) :
    ∃ u, submitFsync now s = some u ∧
      t = { u with
        flusherJob.running :=
          goesOn B s.flusherJob.pageId && s.flusherJob.running
        sq := u.sq ++ resent B s.flusherJob.pageId .flusher } := by
  obtain ⟨u, hu, ht⟩ := Option.bind_eq_some_iff.mp h
  have hpage : u.flusherJob.pageId = s.flusherJob.pageId ∧
      u.flusherJob.running = s.flusherJob.running := by
    rcases submitFsync_eq_some hu with ⟨-, rfl⟩ | ⟨-, rfl⟩ <;> exact ⟨rfl, rfl⟩
  refine ⟨u, hu, ?_⟩
  rcases resendOrStop_eq_some ht with ⟨hlt, -, rfl⟩ | ⟨hle, rfl⟩
  · rw [hpage.1] at hlt
    simp only [resent, hlt, Bool.true_and, if_true, ← hpage.2]
  · rw [hpage.1] at hle
    simp only [resent, hle, Bool.false_and, Bool.false_eq_true, if_false, List.append_nil]
    rfl

/-! ## Completions -/

theorem appendWritten_eq_some {op : ℕ} {s t : System} (h : appendWritten op s = some t) :
    ∃ heap writeList,
      t = { s with heap, flusherJob := { s.flusherJob with writeList } } ∧
      ((s.flusherJob.writeList.tail = none ∧ heap = s.heap ∧ writeList = ⟨some op, some op⟩) ∨
        ∃ first last o, s.flusherJob.writeList = ⟨some first, some last⟩ ∧
          s.heap last = some o ∧
          heap = Function.update s.heap last (some { o with next := some op }) ∧
          writeList = ⟨some first, some op⟩) := by
  unfold appendWritten at h
  split at h
  · next hempty =>
      exact ⟨_, _, (Option.some.inj h).symm, .inl ⟨hempty, rfl, rfl⟩⟩
  · next first hfirst =>
      obtain ⟨last, hlast, h⟩ := Option.bind_eq_some_iff.mp h
      obtain ⟨o, ho, h⟩ := Option.bind_eq_some_iff.mp h
      refine ⟨_, _, (Option.some.inj h).symm, .inr ⟨first, last, o, ?_, ho, rfl, rfl⟩⟩
      rw [← hfirst, ← hlast]

/-- A completed write: the block is live, it is the next page expected, and the
list and the counters move by one. -/
theorem pageWritten_eq_some {now : Timespec} {op : ℕ} {s t : System}
    (h : pageWritten now op s = some t) :
    ∃ o heap writeList stats, s.heap op = some o ∧ o.pageId = s.pageIdCheckOrder ∧
      t = { s with
        writerJob := { s.writerJob with
          writtenNoFlush := u32 (s.writerJob.writtenNoFlush + 1)
          inflight := sub8 s.writerJob.inflight 1 }
        flusherJob := { s.flusherJob with writeList }
        pageIdCheckOrder := u32 (s.pageIdCheckOrder + 1)
        heap, stats
        log := s.log ++ [.pageWritten op o.pageId] } ∧
      ((s.flusherJob.writeList.tail = none ∧ heap = s.heap ∧ writeList = ⟨some op, some op⟩) ∨
        ∃ first last o, s.flusherJob.writeList = ⟨some first, some last⟩ ∧
          s.heap last = some o ∧
          heap = Function.update s.heap last (some { o with next := some op }) ∧
          writeList = ⟨some first, some op⟩) := by
  obtain ⟨o, ho, h⟩ := Option.bind_eq_some_iff.mp h
  dsimp only at h
  split_ifs at h with hpage
  obtain ⟨u, hu, ht⟩ := Option.bind_eq_some_iff.mp h
  obtain ⟨heap, writeList, rfl, hlist⟩ := appendWritten_eq_some hu
  exact ⟨o, heap, writeList, _, ho, not_not.mp hpage, (Option.some.inj ht).symm, hlist⟩

/-- What the loop of `file_synced` leaves alone. -/
theorem releaseList_eq_some {fuel : ℕ} {first : Option ℕ} {s t : System}
    (h : releaseList fuel first s = some t) :
    ∃ heap log, t = { s with heap, log } := by
  induction fuel generalizing first s with
  | zero =>
      cases first with
      | none => exact ⟨_, _, (Option.some.inj h).symm⟩
      | some op => simp [releaseList] at h
  | succ fuel ih =>
      cases first with
      | none => exact ⟨_, _, (Option.some.inj h).symm⟩
      | some op =>
          obtain ⟨o, -, h⟩ := Option.bind_eq_some_iff.mp h
          obtain ⟨heap, log, rfl⟩ := ih h
          exact ⟨heap, log, rfl⟩

theorem fileSynced_eq_some {now : Timespec} {s t : System} (h : fileSynced now s = some t) :
    ∃ heap log stats,
      releaseList s.brk s.flusherJob.writeList.tail { s with
        flusherJob := { s.flusherJob with
          pageId := u32 (s.flusherJob.pageId + s.writerJob.writtenNoFlush)
          writeList := ⟨none, none⟩ }
        writerJob := { s.writerJob with writtenNoFlush := 0 }
        log := s.log ++ [.fileSynced] } = some { s with
          flusherJob := { s.flusherJob with
            pageId := u32 (s.flusherJob.pageId + s.writerJob.writtenNoFlush)
            writeList := ⟨none, none⟩ }
          writerJob := { s.writerJob with writtenNoFlush := 0 }
          heap, log } ∧
      t = { s with
        flusherJob := { s.flusherJob with
          pageId := u32 (s.flusherJob.pageId + s.writerJob.writtenNoFlush)
          writeList := ⟨none, none⟩
          inflight := 0 }
        writerJob := { s.writerJob with writtenNoFlush := 0 }
        heap, log, stats } := by
  obtain ⟨u, hu, ht⟩ := Option.bind_eq_some_iff.mp h
  obtain ⟨heap, log, rfl⟩ := releaseList_eq_some hu
  exact ⟨heap, log, _, hu, (Option.some.inj ht).symm⟩

/-! ## The tracer -/

/-- The state after a dump of everything in the ring has been prepared. -/
def dumpStarted (s : System) : System :=
  { s with
    tracingJob.dumpOp := ⟨.tracingWrited,
      u32 (cbufUsedCount s.tracingJob.cbuf * sizeofTracingItem),
      cbufUsedCount s.tracingJob.cbuf, 1⟩
    sq := s.sq ++ [.dumpWrite (u32 (cbufUsedCount s.tracingJob.cbuf * sizeofTracingItem))
      s.tracingJob.traceSynced] }

theorem dumpTracingItems_eq_some {s t : System} (h : dumpTracingItems s = some t) :
    ((s.tracingJob.dumpOp.inflight ≠ 0 ∨ cbufUsedCount s.tracingJob.cbuf = 0) ∧ t = s) ∨
    (s.tracingJob.dumpOp.inflight = 0 ∧ cbufUsedCount s.tracingJob.cbuf ≠ 0 ∧
      t = dumpStarted s) := by
  unfold dumpTracingItems at h
  split_ifs at h with hin
  · exact .inl ⟨.inl hin, (Option.some.inj h).symm⟩
  · obtain ⟨⟨start, items⟩, hget, h⟩ := Option.bind_eq_some_iff.mp h
    obtain ⟨-, rfl : items = _⟩ := cbufGet_eq_some.mp hget
    dsimp only at h
    split_ifs at h with hz
    · exact .inl ⟨.inr hz, (Option.some.inj h).symm⟩
    · exact .inr ⟨by omega, hz, (ioPrepareSqe_eq_some.mp h).2⟩

theorem tracingWrited_eq_some {res : ℤ} {s t : System} (h : tracingWrited res s = some t) :
    (res % 2 ^ 32).toNat = s.tracingJob.dumpOp.toWrite ∧
    t = { s with
      tracingJob := { s.tracingJob with
        cbuf := cbufAdvanceHead s.tracingJob.cbuf s.tracingJob.dumpOp.items
        dumpOp := { s.tracingJob.dumpOp with callback := .tracingSynced } }
      sq := s.sq ++ [.dumpFsync] } := by
  unfold tracingWrited at h
  split_ifs at h with hres
  exact ⟨hres.2, (ioPrepareSqe_eq_some.mp h).2⟩

theorem tracingSynced_eq_some {s t : System} (h : tracingSynced s = some t) :
    t = { s with
      tracingJob := { s.tracingJob with
        running := !s.finished && s.tracingJob.running
        traceSynced := u64 (s.tracingJob.traceSynced + s.tracingJob.dumpOp.toWrite)
        dumpOp := { s.tracingJob.dumpOp with inflight := 0 } } } := by
  rw [tracingSynced, Option.some.injEq] at h
  rw [← h]
  by_cases hf : s.finished = true
  · simp only [System.finished] at hf
    simp only [System.finished, hf, if_true, Bool.not_true, Bool.false_and]
    rfl
  · simp only [System.finished] at hf
    simp only [System.finished, hf, Bool.not_false, Bool.true_and]
    rfl

theorem backgroundStatus_eq_some {now : Timespec} {s t : System}
    (h : backgroundStatus now s = some t) :
    ∃ stats, t = { s with stats, statusJob.lastTime := now, sq := s.sq ++ [.timeout .status] } := by
  unfold backgroundStatus resendJob at h
  have ht := (ioPrepareSqe_eq_some.mp h).2
  exact ⟨_, ht⟩

/-- The state after the recording part of the tracing tick. -/
def traced (now : Timespec) (s : System) : System :=
  if cbufFreeCount s.tracingJob.cbuf ≠ 0 ∧ s.finished = false then traceItem now s else s

theorem traced_of_finished {now : Timespec} {s : System} (h : s.finished = true) :
    traced now s = s := by
  simp [traced, h]

/-- Recording an item touches the ring, its counter and the log only. -/
theorem traced_eq (now : Timespec) (s : System) :
    ∃ cbuf traceDone log,
      traced now s = { s with tracingJob := { s.tracingJob with cbuf, traceDone }, log } := by
  unfold traced
  split_ifs
  · exact ⟨_, _, _, rfl⟩
  · exact ⟨_, _, _, rfl⟩

@[simp] theorem traced_dumpOp (now : Timespec) (s : System) :
    (traced now s).tracingJob.dumpOp = s.tracingJob.dumpOp := by
  unfold traced
  split_ifs <;> rfl

/-- The tracing tick records if it may, then either goes on, with or without a
dump just prepared, or lets its timer go: with a last dump, or with nothing
when the ring is empty. -/
theorem backgroundTracing_eq_some {now : Timespec} {s t : System}
    (h : backgroundTracing now s = some t) :
    ((s.finished = false ∨ s.tracingJob.dumpOp.inflight ≠ 0) ∧
      t = { traced now s with sq := (traced now s).sq ++ [.timeout .tracing] }) ∨
    (s.tracingJob.dumpOp.inflight = 0 ∧ cbufUsedCount (traced now s).tracingJob.cbuf ≠ 0 ∧
      t = { dumpStarted (traced now s) with
        sq := (dumpStarted (traced now s)).sq ++ [.timeout .tracing] }) ∨
    (s.finished = true ∧ s.tracingJob.dumpOp.inflight = 0 ∧
      cbufUsedCount s.tracingJob.cbuf = 0 ∧ t = s) ∨
    (s.finished = true ∧ s.tracingJob.dumpOp.inflight = 0 ∧
      cbufUsedCount s.tracingJob.cbuf ≠ 0 ∧ t = dumpStarted s) := by
  unfold backgroundTracing at h
  obtain ⟨⟨start, freeSpace⟩, hput, h⟩ := Option.bind_eq_some_iff.mp h
  obtain ⟨-, rfl : freeSpace = _⟩ := cbufPut_eq_some.mp hput
  dsimp only at h
  simp only [Bool.not_eq_true] at h
  obtain ⟨u, hu, ht⟩ := Option.bind_eq_some_iff.mp h
  change dumpIfHalfFull (traced now s) = some u at hu
  have hdump : u = traced now s ∨ (s.tracingJob.dumpOp.inflight = 0 ∧
      cbufUsedCount (traced now s).tracingJob.cbuf ≠ 0 ∧ u = dumpStarted (traced now s)) := by
    unfold dumpIfHalfFull at hu
    split_ifs at hu
    · rcases dumpTracingItems_eq_some hu with ⟨-, rfl⟩ | ⟨hidle, hused, rfl⟩
      · exact .inl rfl
      · rw [traced_dumpOp] at hidle
        exact .inr ⟨hidle, hused, rfl⟩
    · exact .inl (Option.some.inj hu).symm
  split_ifs at ht with hgo
  · obtain ⟨-, rfl⟩ := ioPrepareSqe_eq_some.mp ht
    rcases hdump with rfl | ⟨hidle, hused, rfl⟩
    · rw [traced_dumpOp] at hgo
      exact .inl ⟨hgo, rfl⟩
    · exact .inr (.inl ⟨hidle, hused, rfl⟩)
  · rw [not_or, not_not, Bool.not_eq_false] at hgo
    rcases hdump with rfl | ⟨hidle, hused, rfl⟩
    · rw [traced_of_finished hgo.1] at ht hgo
      rcases dumpTracingItems_eq_some ht with ⟨hempty, rfl⟩ | ⟨hidle, hused, rfl⟩
      · exact .inr (.inr (.inl ⟨hgo.1, hgo.2, hempty.resolve_left (not_not.mpr hgo.2), rfl⟩))
      · exact .inr (.inr (.inr ⟨hgo.1, hidle, hused, rfl⟩))
    · exact absurd hgo.2 (by simp [dumpStarted])

end IoScheduler
