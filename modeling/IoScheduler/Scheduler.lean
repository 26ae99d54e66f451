import IoScheduler.Cbuf
import IoScheduler.Clock
import IoScheduler.Stats
import IoScheduler.Transition

/-!
# The scheduler's event loop

One thread owns `thread_ctx` and an io_uring. Every callback runs inside
`io_tick` on a completion of an operation the kernel held, may prepare further
submissions, and either succeeds or fails an assertion (`none`). The ring is
split into `sq`, prepared since the last submit, and `kernel`, submitted and
not yet completed, both in submission order.

Page-write operations live on a heap of their own: address `n` is the `n`-th
block `background_writer` allocates, `none` is a block not allocated or freed,
and following such a pointer is a fault. The in-memory write list is the chain
of their `next` fields. A page read carries its operation in the submission,
since nothing changes it before its completion frees it.

`log` is a history the code does not keep. `B` is the macro `BYTES_TO_WRITE`.
-/
namespace IoScheduler
open Machine

def entries : ℕ := 2 ^ 14

def bufSize : ℕ := 2 ^ 6 * 2 ^ 10

def bytesToWrite : ℕ := 2 * 2 ^ 30

def inflightLowRange : ℕ := 8

def inflightHighRange : ℕ := 32

def batchIncrementPercent : ℕ := 1

def tracingBufLen : ℕ := 64

def sizeofTracingItem : ℕ := 40

/-- `SPEEDTEST_RANGE_MS / BACKGROUND_STATUS_MS`. -/
def statsBufLen : ℕ := 1500 / 200

/-- The error number of an expired timeout. -/
def etime : ℤ := 62

inductive Job where
  | writer | reader | flusher | tracing | status
  deriving DecidableEq, Repr

structure OpPageWrite where
  pageId : ℕ
  userFsyncCallback : Option ℕ
  next : Option ℕ
  issued : Timespec
  deriving DecidableEq, Repr

structure OpPageRead where
  pageId : ℕ
  issued : Timespec
  deriving DecidableEq, Repr

/-- The first element of the list is called `tail`, the last one `head`. -/
structure PageWriteNode where
  tail : Option ℕ
  head : Option ℕ
  deriving DecidableEq, Repr

/-- A submission with the operation its `user_data` points to. The two dump
forms share `tracing_job.dump_op`. -/
inductive Sqe where
  | timeout (job : Job)
  | pageWrite (op offset : ℕ)
  | pageRead (op : OpPageRead) (offset : ℕ)
  | fsync
  | dumpWrite (len offset : ℕ)
  | dumpFsync
  deriving DecidableEq, Repr

structure WriterJob where
  running : Bool
  pageId : ℕ
  batchSize : ℕ
  writtenNoFlush : ℕ
  inflight : ℕ
  deriving DecidableEq, Repr

structure ReaderJob where
  running : Bool
  pageId : ℕ
  batchSize : ℕ
  inflight : ℕ
  deriving DecidableEq, Repr

structure FlusherJob where
  running : Bool
  issued : Timespec
  writeList : PageWriteNode
  pageId : ℕ
  inflight : ℕ
  deriving DecidableEq, Repr

structure StatusJob where
  running : Bool
  lastTime : Timespec
  deriving DecidableEq, Repr

structure TracingItem where
  ts : ℕ
  flushPageId : ℕ
  writeInflight : ℕ
  writePageId : ℕ
  writeBatchSize : ℕ
  readInflight : ℕ
  readPageId : ℕ
  readBatchSize : ℕ
  deriving DecidableEq, Repr

inductive DumpCallback where
  | tracingWrited | tracingSynced
  deriving DecidableEq, Repr

structure TracingDumpOp where
  callback : DumpCallback
  toWrite : ℕ
  items : ℕ
  inflight : ℕ
  deriving DecidableEq, Repr

structure TracingJob where
  running : Bool
  startTime : Timespec
  cbuf : Cbuf
  traceDone : ℕ
  traceSynced : ℕ
  dumpOp : TracingDumpOp
  deriving DecidableEq, Repr

structure StatsBuckets where
  writeCount : Bucket
  readCount : Bucket
  writeLatency : Bucket
  readLatency : Bucket
  fsyncLatency : Bucket
  fsyncCount : Bucket
  deriving DecidableEq, Repr

/-- What happened, in order. `released` is one round of the loop of
`file_synced`: the user callback ran if it was set, and the block was freed. -/
inductive Event where
  | writeSubmitted (op pageId : ℕ)
  | pageWritten (op pageId : ℕ)
  | readSubmitted (pageId : ℕ)
  | pageRead (pageId : ℕ)
  | fsyncSubmitted
  | fileSynced
  | released (op pageId : ℕ) (callback : Option ℕ)
  | itemTraced (item : TracingItem)
  | completionFailed (sqe : Sqe) (res : ℤ)
  deriving DecidableEq, Repr

/-- Where `main` stands: about to submit, handling completions in `io_tick`,
or past its loop. -/
inductive Phase where
  | submit | reap | exited
  deriving DecidableEq, Repr

structure System where
  writerJob : WriterJob
  readerJob : ReaderJob
  flusherJob : FlusherJob
  statusJob : StatusJob
  tracingJob : TracingJob
  pageIdCheckOrder : ℕ
  stats : StatsBuckets
  heap : ℕ → Option OpPageWrite
  brk : ℕ
  sq : List Sqe
  kernel : List Sqe
  phase : Phase
  log : List Event

namespace System

/-- Every submission whose callback has not run: prepared or held by the kernel. -/
def outstanding (s : System) : List Sqe := s.kernel ++ s.sq

def record (s : System) (e : Event) : System := { s with log := s.log ++ [e] }

def setRunning (s : System) (job : Job) (running : Bool) : System :=
  match job with
  | .writer => { s with writerJob.running := running }
  | .reader => { s with readerJob.running := running }
  | .flusher => { s with flusherJob.running := running }
  | .tracing => { s with tracingJob.running := running }
  | .status => { s with statusJob.running := running }

/-- The test of `background_tracing` and `tracing_synced`. -/
def finished (s : System) : Bool :=
  !s.writerJob.running && !s.flusherJob.running && !s.readerJob.running

/-- The exit test of `main`. -/
def allStopped (s : System) : Bool := s.finished && !s.tracingJob.running

end System

/-- `none` when the submission queue is full. -/
def ioPrepareSqe (s : System) (e : Sqe) : Option System :=
  if s.sq.length < entries then some { s with sq := s.sq ++ [e] } else none

def resendJob (s : System) (job : Job) : Option System := ioPrepareSqe s (.timeout job)

def jobSetStopped (s : System) (job : Job) : System := s.setRunning job false

/-- `main` ignores the result: a job whose timeout cannot be queued does not run. -/
def runJob (s : System) (job : Job) : System :=
  match resendJob s job with
  | none => s
  | some s => s.setRunning job true

/-! ## Completions of page operations and of the data fsync -/

/-- Append a completed write behind the last element of the list. -/
def appendWritten (op : ℕ) (s : System) : Option System :=
  match s.flusherJob.writeList.tail with
  | none => some { s with flusherJob.writeList := ⟨some op, some op⟩ }
  | some first => do
      let last ← s.flusherJob.writeList.head
      let o ← s.heap last
      some { s with
        heap := Function.update s.heap last (some { o with next := some op })
        flusherJob.writeList := ⟨some first, some op⟩ }

def pageWritten (now : Timespec) (op : ℕ) (s : System) : Option System := do
  let o ← s.heap op
  if o.pageId ≠ s.pageIdCheckOrder then none else
  let s ← appendWritten op { s with pageIdCheckOrder := u32 (s.pageIdCheckOrder + 1) }
  let latency := statsBucketAdd s.stats.writeLatency (elapsedUs now o.issued)
  some { s with
    writerJob.writtenNoFlush := u32 (s.writerJob.writtenNoFlush + 1)
    writerJob.inflight := sub8 s.writerJob.inflight 1
    stats.writeCount := statsBucketAddOne s.stats.writeCount
    stats.writeLatency := latency
    log := s.log ++ [.pageWritten op o.pageId] }

/-- The assertion on the buffer is left to the kernel: a successful read
delivers the bytes that were written. -/
def pageRead (now : Timespec) (op : OpPageRead) (s : System) : Option System :=
  some { s with
    readerJob.inflight := sub8 s.readerJob.inflight 1
    stats.readCount := statsBucketAddOne s.stats.readCount
    stats.readLatency := statsBucketAdd s.stats.readLatency (elapsedUs now op.issued)
    log := s.log ++ [.pageRead op.pageId] }

/-- The loop of `file_synced`. Each round frees a block, so a chain of live
blocks ends within as many rounds as blocks were ever allocated. -/
def releaseList : ℕ → Option ℕ → System → Option System
  | _, none, s => some s
  | 0, some _, _ => none
  | fuel + 1, some op, s => do
      let o ← s.heap op
      releaseList fuel o.next { s with
        heap := Function.update s.heap op none
        log := s.log ++ [.released op o.pageId o.userFsyncCallback] }

def fileSynced (now : Timespec) (s : System) : Option System := do
  let first := s.flusherJob.writeList.tail
  let s := { s with
    flusherJob.pageId := u32 (s.flusherJob.pageId + s.writerJob.writtenNoFlush)
    flusherJob.writeList := ⟨none, none⟩
    writerJob.writtenNoFlush := 0
    log := s.log ++ [.fileSynced] }
  let s ← releaseList s.brk first s
  some { s with
    flusherJob.inflight := 0
    stats.fsyncCount := statsBucketAddOne s.stats.fsyncCount
    stats.fsyncLatency :=
      statsBucketAdd s.stats.fsyncLatency (elapsedUs now s.flusherJob.issued) }

/-! ## The batch controllers -/

/-- The step of one percent, but at least one. -/
def batchIncrement (batchSize : ℕ) : ℕ := max 1 (u32 (batchSize * batchIncrementPercent) / 100)

/-- The controller `background_reader` and `background_writer` both begin with. -/
def adaptBatch (inflight batchSize : ℕ) : ℕ :=
  if inflight ≤ inflightLowRange ∧ batchSize < entries / 2 then
    if inflight = 0 ∧ 0 < batchSize then u32 (batchSize * 2)
    else u32 (batchSize + batchIncrement batchSize)
  else if 0 < batchSize ∧ inflightHighRange ≤ inflight then
    sub32 batchSize (batchIncrement batchSize)
  else batchSize

/-- The stop test every page job ends with. -/
def resendOrStop (B pageId : ℕ) (job : Job) (s : System) : Option System :=
  if u64 (pageId * bufSize) < B then resendJob s job else some (jobSetStopped s job)

def prepareWrite (now : Timespec) (i : ℕ) (s : System) : Option System :=
  let pageId := u32 (s.writerJob.pageId + i)
  let s := { s with
    heap := Function.update s.heap s.brk (some ⟨pageId, none, none, now⟩)
    brk := s.brk + 1
    log := s.log ++ [.writeSubmitted s.brk pageId] }
  ioPrepareSqe s (.pageWrite (s.brk - 1) (u64 (bufSize * pageId)))

def prepareRead (now : Timespec) (i : ℕ) (s : System) : Option System :=
  let pageId := u32 (s.readerJob.pageId + i)
  let s := { s with log := s.log ++ [.readSubmitted pageId] }
  ioPrepareSqe s (.pageRead ⟨pageId, now⟩ (u64 (bufSize * pageId)))

/-- `for (i = first; i < first + n; i++)` of a submission loop. -/
def prepareBatch (prepare : ℕ → System → Option System) : ℕ → ℕ → System → Option System
  | _, 0, s => some s
  | i, n + 1, s => do
      let s ← prepare i s
      prepareBatch prepare (i + 1) n s

def backgroundWriter (B : ℕ) (now : Timespec) (s : System) : Option System := do
  let batchSize := adaptBatch s.writerJob.inflight s.writerJob.batchSize
  let s ← prepareBatch (prepareWrite now) 0 batchSize { s with writerJob.batchSize := batchSize }
  let s := { s with
    writerJob.inflight := u8 (s.writerJob.inflight + batchSize)
    writerJob.pageId := u32 (s.writerJob.pageId + batchSize) }
  resendOrStop B s.writerJob.pageId .writer s

/-- The limit is a 64-bit difference, and the smaller of the two is stored back
into the 32-bit batch size. -/
def backgroundReader (B : ℕ) (now : Timespec) (s : System) : Option System := do
  let limit := sub64 s.flusherJob.pageId s.readerJob.pageId
  let batchSize := u32 (min (adaptBatch s.readerJob.inflight s.readerJob.batchSize) limit)
  let s ← prepareBatch (prepareRead now) 0 batchSize { s with readerJob.batchSize := batchSize }
  let s := { s with
    readerJob.inflight := u8 (s.readerJob.inflight + batchSize)
    readerJob.pageId := u32 (s.readerJob.pageId + batchSize) }
  resendOrStop B s.readerJob.pageId .reader s

/-! ## The flusher, the tracer and the status line -/

/-- One fsync at a time, and only when some write has completed since the last. -/
def submitFsync (now : Timespec) (s : System) : Option System :=
  if s.writerJob.writtenNoFlush ≠ 0 ∧ s.flusherJob.inflight = 0 then
    ioPrepareSqe { s with
      flusherJob.issued := now
      flusherJob.inflight := 1
      log := s.log ++ [.fsyncSubmitted] } .fsync
  else some s

def backgroundFlusher (B : ℕ) (now : Timespec) (s : System) : Option System := do
  let s ← submitFsync now s
  resendOrStop B s.flusherJob.pageId .flusher s

def dumpTracingItems (s : System) : Option System :=
  if s.tracingJob.dumpOp.inflight ≠ 0 then some s else do
  let (_, items) ← cbufGet s.tracingJob.cbuf
  if items = 0 then some s else
  let toWrite := u32 (items * sizeofTracingItem)
  ioPrepareSqe { s with tracingJob.dumpOp := ⟨.tracingWrited, toWrite, items, 1⟩ }
    (.dumpWrite toWrite s.tracingJob.traceSynced)

def traceItem (now : Timespec) (s : System) : System :=
  let item : TracingItem :=
    { ts := elapsedTracing now s.tracingJob.startTime
      flushPageId := s.flusherJob.pageId
      writePageId := s.writerJob.pageId
      writeBatchSize := s.writerJob.batchSize
      writeInflight := s.writerJob.inflight
      readInflight := s.readerJob.inflight
      readBatchSize := s.readerJob.batchSize
      readPageId := s.readerJob.pageId }
  { s with
    tracingJob.cbuf := cbufAdvanceTail s.tracingJob.cbuf 1
    tracingJob.traceDone := u64 (s.tracingJob.traceDone + 1)
    log := s.log ++ [.itemTraced item] }

/-- The middle part of the tracing tick. -/
def dumpIfHalfFull (s : System) : Option System :=
  if cbufFreeCount s.tracingJob.cbuf ≤ s.tracingJob.cbuf.len / 2 then dumpTracingItems s
  else some s

def backgroundTracing (now : Timespec) (s : System) : Option System := do
  let (_, freeSpace) ← cbufPut s.tracingJob.cbuf
  let finished := s.finished
  let s := if freeSpace ≠ 0 ∧ ¬ finished then traceItem now s else s
  let s ← dumpIfHalfFull s
  if ¬ finished ∨ s.tracingJob.dumpOp.inflight ≠ 0 then resendJob s .tracing
  else dumpTracingItems s

def tracingWrited (res : ℤ) (s : System) : Option System :=
  if 0 ≤ res ∧ (res % 2 ^ 32).toNat = s.tracingJob.dumpOp.toWrite then
    ioPrepareSqe { s with
      tracingJob.cbuf := cbufAdvanceHead s.tracingJob.cbuf s.tracingJob.dumpOp.items
      tracingJob.dumpOp.callback := .tracingSynced } .dumpFsync
  else none

def tracingSynced (s : System) : Option System :=
  let s := { s with
    tracingJob.traceSynced := u64 (s.tracingJob.traceSynced + s.tracingJob.dumpOp.toWrite)
    tracingJob.dumpOp.inflight := 0 }
  some (if s.finished then jobSetStopped s .tracing else s)

def backgroundStatus (now : Timespec) (s : System) : Option System :=
  let elapsed := elapsedNs now s.statusJob.lastTime
  let move := fun b => statsBucketMove b elapsed
  resendJob { s with
    stats :=
      { writeCount := move s.stats.writeCount
        readCount := move s.stats.readCount
        writeLatency := move s.stats.writeLatency
        readLatency := move s.stats.readLatency
        fsyncLatency := move s.stats.fsyncLatency
        fsyncCount := move s.stats.fsyncCount }
    statusJob.lastTime := now } .status

/-! ## The loop of `main` -/

def Sqe.isTimeout : Sqe → Bool
  | .timeout _ => true
  | _ => false

/-- The callback stored in the operation of a completed submission. -/
def callback (B : ℕ) (now : Timespec) (res : ℤ) (s : System) : Sqe → Option System
  | .timeout .writer => backgroundWriter B now s
  | .timeout .reader => backgroundReader B now s
  | .timeout .flusher => backgroundFlusher B now s
  | .timeout .tracing => backgroundTracing now s
  | .timeout .status => backgroundStatus now s
  | .pageWrite op _ => pageWritten now op s
  | .pageRead op _ => pageRead now op s
  | .fsync => fileSynced now s
  | .dumpWrite _ _ | .dumpFsync =>
      match s.tracingJob.dumpOp.callback with
      | .tracingWrited => tracingWrited res s
      | .tracingSynced => tracingSynced s

/-- One round of the completion loop of `io_tick`. Only a timeout may report
`-ETIME`; any other negative result is printed and otherwise ignored. -/
def ioTickCqe (B : ℕ) (e : Sqe) (res : ℤ) (now : Timespec) (s : System) : Option System :=
  if res = -etime ∧ e.isTimeout = false then none
  else if 0 ≤ res ∨ res = -etime then callback B now res s e
  else some (s.record (.completionFailed e res))

/-- What the loop does next: submit the queue, handle one completion the kernel
picks, or leave `io_tick` and test for exit. -/
inductive Act where
  | submit
  | cqe (e : Sqe) (res : ℤ) (now : Timespec)
  | tickEnd
  deriving DecidableEq, Repr

def Act.completes (e : Sqe) : Act → Bool
  | .cqe e' _ _ => e' == e
  | _ => false

def step (B : ℕ) (s : System) : Act → Option System
  | .submit =>
      if s.phase = .submit then
        some { s with kernel := s.kernel ++ s.sq, sq := [], phase := .reap }
      else none
  | .cqe e res now =>
      if s.phase = .reap ∧ e ∈ s.kernel then
        ioTickCqe B e res now { s with kernel := s.kernel.erase e }
      else none
  | .tickEnd =>
      if s.phase = .reap then
        some { s with phase := if s.allStopped then .exited else .submit }
      else none

/-- The state after the five `background_*_init` calls. -/
def initialised (start last : Timespec) : System :=
  { writerJob := ⟨false, 0, 0, 0, 0⟩
    readerJob := ⟨false, 0, 0, 0⟩
    flusherJob := ⟨false, ⟨0, 0⟩, ⟨none, none⟩, 0, 0⟩
    statusJob := ⟨false, last⟩
    tracingJob :=
      ⟨false, start, cbufInit sizeofTracingItem tracingBufLen, 0, 0, ⟨.tracingWrited, 0, 0, 0⟩⟩
    pageIdCheckOrder := 0
    stats :=
      let b := statsBucketInit statsBufLen
      ⟨b, b, b, b, b, b⟩
    heap := fun _ => none
    brk := 0
    sq := []
    kernel := []
    phase := .submit
    log := [] }

/-- The state in which `main` enters its loop. -/
def mainStart (start last : Timespec) : System :=
  [Job.writer, .reader, .flusher, .tracing, .status].foldl runJob (initialised start last)

/-! ## Environments -/

/-- A timeout expires, any other operation succeeds. -/
def Successful (_ : System) : Act → Prop
  | .cqe e res _ => if e.isTimeout then res = -etime else 0 ≤ res
  | _ => True

instance : ∀ s a, Decidable (Successful s a)
  | _, .cqe e _ _ => by unfold Successful; infer_instance
  | _, .submit => isTrue trivial
  | _, .tickEnd => isTrue trivial

def Sqe.writeOp? : Sqe → Option ℕ
  | .pageWrite op _ => some op
  | _ => none

/-- Page writes complete in the order they were submitted. -/
def WritesInOrder (s : System) : Act → Prop
  | .cqe (.pageWrite op _) _ _ => (s.kernel.filterMap Sqe.writeOp?).head? = some op
  | _ => True

instance : ∀ s a, Decidable (WritesInOrder s a)
  | _, .submit | _, .tickEnd => isTrue trivial
  | _, .cqe e _ _ => by cases e <;> unfold WritesInOrder <;> infer_instance

/-- Runs in which timers and operations complete in any order, all with success. -/
def Reach (B : ℕ) (t₀ t₁ : Timespec) : System → Prop :=
  Transition.Reachable (step B) Successful (mainStart t₀ t₁)

abbrev InOrder (s : System) (a : Act) : Prop := Successful s a ∧ WritesInOrder s a

/-- The same with page writes completing in submission order. -/
def ReachInOrder (B : ℕ) (t₀ t₁ : Timespec) : System → Prop :=
  Transition.Reachable (step B) InOrder (mainStart t₀ t₁)

end IoScheduler
