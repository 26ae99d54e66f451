import IoScheduler.SchedulerQueue

/-!
# Two batches that do not fit

The batch of a page job doubles with every tick that finds nothing in flight. The
writer reaches batches of half the queue long before its target, and so does the
reader behind it; when both timers then expire in one `io_tick`, the second batch
overruns the queue.
-/
namespace IoScheduler
open Machine Transition

/-- Where the page jobs stand: pages released, written and submitted for writing,
the two batches, pages and reads submitted for reading, the data fsync in flight. -/
structure Numbers where
  released : ℕ
  written : ℕ
  submitted : ℕ
  writerBatch : ℕ
  readSubmitted : ℕ
  readerBatch : ℕ
  reading : ℕ
  syncing : ℕ

/-- A reachable state inside `io_tick` with the tracer running. -/
structure Awake (s : System) : Prop where
  reach : ReachInOrder bytesToWrite ⟨0, 0⟩ ⟨0, 0⟩ s
  phase : s.phase = .reap
  tracing : s.tracingJob.running = true

structure Ramp (n : Numbers) (s : System) : Prop extends Awake s where
  pipeline : Pipeline n.released n.written s
  brk : s.brk = n.submitted
  writerBatch : s.writerJob.batchSize = n.writerBatch
  reads : Reads n.readSubmitted s
  readerBatch : s.readerJob.batchSize = n.readerBatch
  reading : s.readsInFlight = n.reading
  syncing : s.flusherJob.inflight = n.syncing

section
variable {n : Numbers} {s t : System}

theorem Awake.next {e : Sqe} (h : Awake s) (he : e ∈ s.kernel)
    (htimer : e.slot? ≠ some (.job .tracing)) (hdump : e.slot? ≠ some .dump)
    (horder : WritesInOrder s (completion e))
    (ht : callback bytesToWrite ⟨0, 0⟩ (if e.isTimeout then -etime else 0) (s.taken e) e =
      some t) : Awake t := by
  refine ⟨h.reach.next ⟨successful_completion s e, horder⟩
    ((step_completion h.phase he).trans ht), (callback_phase ht).trans h.phase, ?_⟩
  rw [(callback_tracingFrame he htimer hdump ht).tracingJob]
  exact h.tracing

theorem Awake.flushed (h : Awake s) : Awake s.flushed :=
  ⟨h.reach.trans (reachable_flushed (by simp [h.phase]) h.tracing), rfl, h.tracing⟩

theorem Ramp.flushed (h : Ramp n s) : Ramp n s.flushed := by
  have hout : s.flushed.outstanding = s.outstanding := List.append_nil _
  refine ⟨h.toAwake.flushed, h.pipeline.quiet ⟨rfl, rfl, rfl, rfl, rfl, rfl, by rw [hout], [],
    (List.append_nil _).symm⟩, h.brk, h.writerBatch, ⟨h.reads.page, h.reads.submitted⟩,
    h.readerBatch, ?_, h.syncing⟩
  rw [System.readsInFlight, hout]
  exact h.reading

theorem System.readsInFlight_eq {e : Sqe} (new : List Sqe) (he : e ∈ s.kernel)
    (hkind : e.isPageRead = false) (hk : t.kernel = (s.taken e).kernel)
    (hq : t.sq = s.sq ++ new) (hnew : new.countP Sqe.isPageRead = 0) :
    t.readsInFlight = s.readsInFlight := by
  have hbalance := System.countP_balance he hk hq Sqe.isPageRead
  rw [hkind, hnew] at hbalance
  exact hbalance

/-- The oldest write in flight completes. -/
theorem Ramp.write (h : Ramp n s) (hsq : s.sq = []) (hlt : n.written < n.submitted) :
    ∃ t, Ramp { n with written := n.written + 1 } t ∧ t.sq = [] := by
  obtain ⟨off, t, he, horder, ht⟩ := h.pipeline.oldest hsq (h.brk.symm ▸ hlt)
  have hawake := h.toAwake.next he (by simp [Sqe.slot?]) (by simp [Sqe.slot?]) horder ht
  have hp := h.pipeline.pageWritten he horder ht
  obtain ⟨o, heap, writeList, stats, -, -, rfl, -⟩ := pageWritten_eq_some ht
  exact ⟨_, ⟨hawake, hp, h.brk, h.writerBatch,
    h.reads.of_append rfl rfl (by simp [Event.readSubmitted?]), h.readerBatch,
    (System.readsInFlight_eq [] he rfl rfl (List.append_nil _).symm rfl).trans h.reading,
    h.syncing⟩, hsq⟩

theorem Ramp.writes (h : Ramp n s) (hsq : s.sq = []) :
    ∃ t, Ramp { n with written := n.submitted } t ∧ t.sq = [] := by
  have hle : n.written ≤ n.submitted := h.brk ▸ h.pipeline.written_le
  induction hm : n.submitted - n.written generalizing n s with
  | zero =>
      have hn : { n with written := n.submitted } = n :=
        congrArg (fun c => { n with written := c }) (by omega)
      exact ⟨s, hn.symm ▸ h, hsq⟩
  | succ m ih =>
      obtain ⟨t, ht, hsq'⟩ := h.write hsq (by omega)
      exact ih (n := { n with written := n.written + 1 }) ht hsq'
        (by change n.written + 1 ≤ n.submitted; omega)
        (by change n.submitted - (n.written + 1) = m; omega)

/-- A read in flight completes. -/
theorem Ramp.read (h : Ramp n s) (hsq : s.sq = []) {m : ℕ} (hm : n.reading = m + 1) :
    ∃ t, Ramp { n with reading := m } t ∧ t.sq = [] := by
  have hpos : 0 < s.readsInFlight := by rw [h.reading, hm]; exact Nat.succ_pos m
  obtain ⟨e, he, hread⟩ := List.countP_pos_iff.mp hpos
  cases e <;> simp only [Sqe.isPageRead, Bool.false_eq_true] at hread
  case pageRead op off =>
    have he : .pageRead op off ∈ s.kernel := by simpa [System.outstanding, hsq] using he
    obtain ⟨t, ht⟩ : ∃ t, pageRead ⟨0, 0⟩ op (s.taken (.pageRead op off)) = some t := ⟨_, rfl⟩
    have hawake := h.toAwake.next he (by simp [Sqe.slot?]) (by simp [Sqe.slot?]) trivial ht
    have hp := (h.pipeline.taken he rfl).pageRead ht
    have hreads := fun hk (hq : t.sq = s.sq ++ []) =>
      System.countP_balance (t := t) he hk hq Sqe.isPageRead
    obtain rfl := Option.some.inj ht
    refine ⟨_, ⟨hawake, hp, h.brk, h.writerBatch,
      h.reads.of_append rfl rfl (by simp [Event.readSubmitted?]), h.readerBatch, ?_, h.syncing⟩,
      hsq⟩
    have hbalance := (hreads rfl (List.append_nil _).symm).trans
      ((Nat.add_zero _).trans (h.reading.trans hm))
    rw [System.readsInFlight]
    simpa [Sqe.isPageRead] using hbalance

theorem Ramp.readsDone (h : Ramp n s) (hsq : s.sq = []) :
    ∃ t, Ramp { n with reading := 0 } t ∧ t.sq = [] := by
  induction hm : n.reading generalizing n s with
  | zero =>
      have hn : { n with reading := 0 } = n := congrArg (fun c => { n with reading := c }) hm.symm
      exact ⟨s, hn.symm ▸ h, hsq⟩
  | succ m ih =>
      obtain ⟨t, ht, hsq'⟩ := h.read hsq hm
      exact ih (n := { n with reading := m }) ht hsq' rfl

theorem adaptBatch_double {b : ℕ} (hpos : 0 < b) (hlt : b < entries / 2) :
    adaptBatch 0 b = 2 * b := by
  have he : entries / 2 = 8192 := rfl
  rw [adaptBatch, if_pos ⟨Nat.zero_le _, hlt⟩, if_pos ⟨rfl, hpos⟩, u32_of_lt (by omega),
    Nat.mul_comm]

theorem length_resent (B pageId : ℕ) (job : Job) :
    (resent B pageId job).length = (goesOn B pageId).toNat := by
  unfold resent
  cases goesOn B pageId <;> rfl

/-- With nothing being written the writer's timer expires. -/
theorem Ramp.writerTick (h : Ramp n s) (hsq : s.sq = []) (hidle : n.written = n.submitted)
    (hlt : n.submitted * bufSize < bytesToWrite) :
    ∃ t, Ramp { n with
        submitted := n.submitted + adaptBatch 0 n.writerBatch
        writerBatch := adaptBatch 0 n.writerBatch } t ∧
      t.sq.length = batchDemand bytesToWrite (u32 n.submitted) (adaptBatch 0 n.writerBatch) ∧
      t.kernel = s.kernel.erase (.timeout .writer) := by
  obtain ⟨F, C, R, hu⟩ := h.reach.unwrapped (by decide) (by decide)
  have hrun : s.writerJob.running = true := by
    by_contra hstop
    have hdone := hu.writerStopped (Bool.not_eq_true _ ▸ hstop)
    rw [h.brk] at hdone
    omega
  have he : .timeout .writer ∈ s.kernel :=
    System.timer_mem hsq (by rw [h.reach.reach.slots.writer, hrun]; decide)
  have hin : s.writerJob.inflight = 0 := by
    rw [h.reach.reach.counted.writes, System.writesInFlight_eq, h.pipeline.inFlight, h.brk, hidle,
      Nat.sub_self]
    rfl
  obtain ⟨t, ht⟩ := backgroundWriter_isSome (s := s.taken (.timeout .writer)) bytesToWrite ⟨0, 0⟩
    hsq h.reach.reach.batchBounded.writer
  have hawake := h.toAwake.next he (by simp [Sqe.slot?]) (by simp [Sqe.slot?]) trivial ht
  have hp := (h.pipeline.taken he rfl).backgroundWriter ht
  obtain ⟨b, hb⟩ : ∃ b, b = adaptBatch 0 n.writerBatch := ⟨_, rfl⟩
  obtain ⟨hbrk, hbatch, hreader, hfl, hlog, hk, hq⟩ : t.brk = s.brk + b ∧
      t.writerJob.batchSize = b ∧ t.readerJob = s.readerJob ∧ t.flusherJob = s.flusherJob ∧
      t.log = s.log ++ (List.range b).map (writeEvent s.writerJob.pageId s.brk) ∧
      t.kernel = (s.taken (.timeout .writer)).kernel ∧
      t.sq = s.sq ++ ((List.range b).map (writeSqe s.writerJob.pageId s.brk) ++
        resent bytesToWrite (u32 (s.writerJob.pageId + b)) .writer) := by
    have hb' : b = adaptBatch s.writerJob.inflight s.writerJob.batchSize := by
      rw [hin, h.writerBatch, hb]
    obtain ⟨-, rfl⟩ := backgroundWriter_eq_some ht
    rw [hb']
    exact ⟨rfl, rfl, rfl, rfl, rfl, rfl, List.append_assoc _ _ _⟩
  rw [← hb]
  refine ⟨t, ⟨hawake, hp, by rw [hbrk, h.brk], hbatch, ?_, hreader ▸ h.readerBatch, ?_,
    hfl ▸ h.syncing⟩, ?_, hk⟩
  · exact h.reads.of_append (by rw [hreader]) hlog (by simp [writeEvent, Event.readSubmitted?])
  · refine (System.readsInFlight_eq _ he rfl hk hq ?_).trans h.reading
    rw [List.countP_append, countP_writeSqe _ _ _ _ false fun _ _ => rfl, countP_resent]
    simp [Sqe.isPageRead]
  · rw [hq, hsq, List.nil_append, List.length_append, List.length_map, List.length_range,
      length_resent, h.pipeline.writerPage, h.brk, batchDemand]

/-- With nothing being read the reader's timer expires, its batch cut by what is flushed. -/
theorem Ramp.readerTick (h : Ramp n s) (hsq : s.sq = []) (hidle : n.reading = 0)
    (hlt : n.readSubmitted * bufSize < bytesToWrite) {b : ℕ}
    (hb : min (adaptBatch 0 n.readerBatch) (n.released - n.readSubmitted) = b)
    (hle : n.readSubmitted ≤ n.released) :
    ∃ t, Ramp { n with
      readSubmitted := n.readSubmitted + b, readerBatch := b, reading := b } t := by
  obtain ⟨F, C, R, hu⟩ := h.reach.unwrapped (by decide) (by decide)
  have hbrk := hu.brk_lt_pow (by decide)
  have hF := h.pipeline.released_le.trans h.pipeline.written_le
  have hrun : s.readerJob.running = true := by
    by_contra hstop
    have hdone := hu.readerStopped (Bool.not_eq_true _ ▸ hstop)
    rw [hu.reads.unique h.reads] at hdone
    omega
  have he : .timeout .reader ∈ s.kernel :=
    System.timer_mem hsq (by rw [h.reach.reach.slots.reader, hrun]; decide)
  have hin : s.readerJob.inflight = 0 := by
    rw [h.reach.reach.counted.reads, h.reading, hidle]
    rfl
  have hb' : b = u32 (min (adaptBatch s.readerJob.inflight s.readerJob.batchSize)
      (sub64 s.flusherJob.pageId s.readerJob.pageId)) := by
    have hlimit : sub64 (u32 n.released) (u32 n.readSubmitted) = n.released - n.readSubmitted := by
      rw [u32_of_lt (by omega), u32_of_lt (by omega), sub64_of_le (by omega) hle]
    rw [hin, h.readerBatch, h.pipeline.flusherPage, h.reads.page, hlimit, hb, u32_of_lt (by omega)]
  obtain ⟨t, ht⟩ := backgroundReader_isSome (s := s.taken (.timeout .reader)) bytesToWrite ⟨0, 0⟩
    hsq h.reach.reach.batchBounded.reader
  have hawake := h.toAwake.next he (by simp [Sqe.slot?]) (by simp [Sqe.slot?]) trivial ht
  have hp := (h.pipeline.taken he rfl).backgroundReader ht
  obtain ⟨b', -, hr, hlog, -⟩ := Reads.backgroundReader (s := s.taken (.timeout .reader))
    ⟨h.reads.page, h.reads.submitted⟩ ht
  obtain ⟨hbrk', hbatch, hwriter, hfl, hlen, hk, hq⟩ : t.brk = s.brk ∧
      t.readerJob.batchSize = b ∧ t.writerJob = s.writerJob ∧ t.flusherJob = s.flusherJob ∧
      t.log.length = s.log.length + b ∧
      t.kernel = (s.taken (.timeout .reader)).kernel ∧
      t.sq = s.sq ++ ((List.range b).map (readSqe ⟨0, 0⟩ s.readerJob.pageId) ++
        resent bytesToWrite (u32 (s.readerJob.pageId + b)) .reader) := by
    obtain ⟨-, rfl⟩ := backgroundReader_eq_some ht
    rw [hb']
    exact ⟨rfl, rfl, rfl, rfl, by simp [System.taken], rfl, List.append_assoc _ _ _⟩
  obtain rfl : b' = b := by simpa [hlog, System.taken] using hlen
  have hreads := System.countP_balance he hk hq Sqe.isPageRead
  refine ⟨t, hawake, hp, hbrk'.trans h.brk, hwriter ▸ h.writerBatch, hr, hbatch, ?_,
    hfl ▸ h.syncing⟩
  change t.outstanding.countP Sqe.isPageRead = b'
  rw [List.countP_append, countP_readSqe _ _ _ _ true fun _ _ => rfl, countP_resent] at hreads
  have hzero : s.outstanding.countP Sqe.isPageRead = 0 := h.reading.trans hidle
  rw [hzero] at hreads
  simpa [Sqe.isPageRead] using hreads

/-- The fsync in flight completes. -/
theorem Ramp.synced (h : Ramp n s) (hsq : s.sq = []) (he : .fsync ∈ s.kernel) :
    ∃ t, Ramp { n with released := n.written, syncing := 0 } t ∧ t.sq = [] := by
  have htaken := h.pipeline.taken he rfl
  obtain ⟨t, ht⟩ := fileSynced_isSome ⟨0, 0⟩ htaken
  have hawake := h.toAwake.next he (by simp [Sqe.slot?]) (by simp [Sqe.slot?]) trivial ht
  obtain ⟨hp, hlog⟩ := htaken.fileSynced ht
  obtain ⟨heap, log, stats, -, rfl⟩ := fileSynced_eq_some ht
  refine ⟨_, ⟨hawake, hp, h.brk, h.writerBatch, h.reads.of_append rfl hlog ?_, h.readerBatch,
    (System.readsInFlight_eq [] he rfl rfl (List.append_nil _).symm rfl).trans h.reading, rfl⟩,
    hsq⟩
  simp only [List.mem_cons, List.mem_map]
  rintro e (rfl | ⟨p, -, rfl⟩) <;> rfl

/-- The flusher's timer expires and its fsync completes. -/
theorem Ramp.flush (h : Ramp n s) (hsq : s.sq = []) (hidle : n.syncing = 0)
    (hlt : n.released < n.written) (hgo : n.released * bufSize < bytesToWrite) :
    ∃ t, Ramp { n with released := n.written } t ∧ t.sq = [] := by
  obtain ⟨F, C, R, hu⟩ := h.reach.unwrapped (by decide) (by decide)
  have hbrk := hu.brk_lt_pow (by decide)
  have hC := h.pipeline.written_le
  have hrun : s.flusherJob.running = true := by
    by_contra hstop
    have hdone := hu.flusherStopped (Bool.not_eq_true _ ▸ hstop)
    rw [(hu.pipeline.unique h.pipeline).1] at hdone
    omega
  have he : .timeout .flusher ∈ s.kernel :=
    System.timer_mem hsq (by rw [h.reach.reach.slots.flusher, hrun]; decide)
  obtain ⟨t, ht⟩ := backgroundFlusher_isSome (s := s.taken (.timeout .flusher)) bytesToWrite ⟨0, 0⟩
    hsq
  have hawake := h.toAwake.next he (by simp [Sqe.slot?]) (by simp [Sqe.slot?]) trivial ht
  have hp := (h.pipeline.taken he rfl).backgroundFlusher ht
  have hwants : wantsFsync (s.taken (.timeout .flusher)) := by
    refine ⟨?_, h.syncing.trans hidle⟩
    change s.writerJob.writtenNoFlush ≠ 0
    rw [h.pipeline.noFlush, u32_of_lt (by omega)]
    omega
  obtain ⟨hk, hq, hin, hbrk', hwriter, hreader, hlog⟩ :
      t.kernel = (s.taken (.timeout .flusher)).kernel ∧
      t.sq = s.sq ++ ([.fsync] ++ resent bytesToWrite s.flusherJob.pageId .flusher) ∧
      t.flusherJob.inflight = 1 ∧ t.brk = s.brk ∧ t.writerJob = s.writerJob ∧
      t.readerJob = s.readerJob ∧ t.log = s.log ++ [.fsyncSubmitted] := by
    obtain ⟨u, hu', rfl⟩ := backgroundFlusher_eq_some ht
    obtain ⟨-, rfl⟩ := (submitFsync_eq_some hu').resolve_right fun hno => hno.1 hwants
    exact ⟨rfl, List.append_assoc _ _ _, rfl, rfl, rfl, rfl, rfl⟩
  have hr : Ramp { n with syncing := 1 } t := by
    refine ⟨hawake, hp, hbrk'.trans h.brk, hwriter ▸ h.writerBatch, ?_, hreader ▸ h.readerBatch,
      ?_, hin⟩
    · exact h.reads.of_append (by rw [hreader]) hlog (by simp [Event.readSubmitted?])
    · refine (System.readsInFlight_eq _ he rfl hk hq ?_).trans h.reading
      rw [List.countP_append, countP_resent]
      simp [Sqe.isPageRead]
  have hfsync : .fsync ∈ t.sq := by simp [hq]
  have hn : { n with released := n.written, syncing := 0 } = { n with released := n.written } :=
    congrArg (fun c => { n with released := n.written, syncing := c }) hidle.symm
  exact hn ▸ hr.flushed.synced rfl (List.mem_append_right _ hfsync)

theorem Ramp.writerRound (h : Ramp n s) (hsq : s.sq = []) (hidle : n.written = n.submitted)
    (hlt : n.submitted * bufSize < bytesToWrite) {b : ℕ} (hb : adaptBatch 0 n.writerBatch = b) :
    ∃ t, Ramp { n with
      written := n.submitted + b, submitted := n.submitted + b, writerBatch := b } t ∧
      t.sq = [] := by
  obtain ⟨t, ht, -, -⟩ := h.writerTick hsq hidle hlt
  rw [hb] at ht
  exact ht.flushed.writes rfl

theorem Ramp.readerRound (h : Ramp n s) (hsq : s.sq = []) (hidle : n.reading = 0)
    (hlt : n.readSubmitted * bufSize < bytesToWrite) {b : ℕ}
    (hb : min (adaptBatch 0 n.readerBatch) (n.released - n.readSubmitted) = b)
    (hle : n.readSubmitted ≤ n.released) :
    ∃ t, Ramp { n with readSubmitted := n.readSubmitted + b, readerBatch := b } t ∧
      t.sq = [] := by
  obtain ⟨t, ht⟩ := h.readerTick hsq hidle hlt hb hle
  obtain ⟨u, hu, hsq'⟩ := ht.flushed.readsDone rfl
  have hn : { n with readSubmitted := n.readSubmitted + b, readerBatch := b, reading := 0 } =
      { n with readSubmitted := n.readSubmitted + b, readerBatch := b } :=
    congrArg (fun c => { n with
      readSubmitted := n.readSubmitted + b, readerBatch := b, reading := c }) hidle.symm
  exact ⟨u, hn ▸ hu, hsq'⟩

end

/-! ## The two batches -/

theorem ramp_mainStart : Ramp ⟨0, 0, 0, 0, 0, 0, 0, 0⟩ (mainStart ⟨0, 0⟩ ⟨0, 0⟩).flushed := by
  have hstart : Unwrapped bytesToWrite 0 0 0 (mainStart ⟨0, 0⟩ ⟨0, 0⟩) :=
    unwrapped_mainStart (by decide) _ _
  have hu := hstart.flushed.1
  exact ⟨⟨Reachable.start.next (a := .submit) ⟨trivial, trivial⟩ rfl, rfl, rfl⟩, hu.pipeline, rfl,
    rfl, hu.reads, rfl, rfl, rfl⟩

/-- `k` doublings lie behind the writer, and nothing is in flight. -/
theorem exists_writer_doubled (k : ℕ) (hk : k ≤ 13) :
    ∃ s, Ramp ⟨0, 2 ^ (k + 1) - 1, 2 ^ (k + 1) - 1, 2 ^ k, 0, 0, 0, 0⟩ s ∧ s.sq = [] := by
  induction k with
  | zero => exact ramp_mainStart.writerRound rfl rfl (by decide) (b := 1) (by decide)
  | succ k ih =>
      obtain ⟨s, hs, hsq⟩ := ih (by omega)
      have hpow : 2 ^ k ≤ 2 ^ 12 := Nat.pow_le_pow_right (by decide) (by omega)
      have hpos : 0 < 2 ^ k := Nat.two_pow_pos k
      have hb : adaptBatch 0 (2 ^ k) = 2 ^ (k + 1) := by
        rw [adaptBatch_double hpos (hpow.trans_lt (by decide)), Nat.pow_succ, Nat.mul_comm]
      obtain ⟨t, ht, hsq'⟩ := hs.writerRound hsq rfl
        (by simp only [bytesToWrite, bufSize, Nat.pow_succ]; omega) hb
      have hsum : 2 ^ (k + 1) - 1 + 2 ^ (k + 1) = 2 ^ (k + 1 + 1) - 1 := by
        rw [Nat.pow_succ, Nat.pow_succ]
        omega
      exact ⟨t, hsum ▸ ht, hsq'⟩

/-- The same for the reader, behind a writer whose pages are flushed. -/
theorem exists_reader_doubled (k : ℕ) (hk : k ≤ 12) :
    ∃ s, Ramp ⟨16383, 16383, 16383, 8192, 2 ^ (k + 1) - 1, 2 ^ k, 0, 0⟩ s ∧ s.sq = [] := by
  induction k with
  | zero =>
      obtain ⟨s, hs, hsq⟩ := exists_writer_doubled 13 le_rfl
      obtain ⟨t, ht, hsq'⟩ := hs.flush hsq rfl (by decide) (by decide)
      exact ht.readerRound hsq' rfl (by decide) (b := 1) (by decide) (by decide)
  | succ k ih =>
      obtain ⟨s, hs, hsq⟩ := ih (by omega)
      have hpow : 2 ^ k ≤ 2 ^ 11 := Nat.pow_le_pow_right (by decide) (by omega)
      have hpos : 0 < 2 ^ k := Nat.two_pow_pos k
      have hb : min (adaptBatch 0 (2 ^ k)) (16383 - (2 ^ (k + 1) - 1)) = 2 ^ (k + 1) := by
        rw [adaptBatch_double hpos (hpow.trans_lt (by decide)), Nat.pow_succ]
        omega
      obtain ⟨t, ht, hsq'⟩ := hs.readerRound hsq rfl
        (by simp only [bytesToWrite, bufSize, Nat.pow_succ]; omega) hb
        (by simp only [Nat.pow_succ]; omega)
      have hsum : 2 ^ (k + 1) - 1 + 2 ^ (k + 1) = 2 ^ (k + 1 + 1) - 1 := by
        rw [Nat.pow_succ, Nat.pow_succ]
        omega
      exact ⟨t, hsum ▸ ht, hsq'⟩

/-- With the target of the program as built: the writer submits 8192 pages and its
timer, and no entry is left for the last of the reader's 8192 pages. -/
theorem queue_overrun : ∃ s, Reach bytesToWrite ⟨0, 0⟩ ⟨0, 0⟩ s ∧ s.phase = .reap ∧
    .timeout .reader ∈ s.kernel ∧ s.sq.length = 8193 ∧
    demand bytesToWrite ⟨0, 0⟩ s (.timeout .reader) = 8193 ∧
    step bytesToWrite s (.cqe (.timeout .reader) (-etime) ⟨0, 0⟩) = none := by
  obtain ⟨s, hs, hsq⟩ := exists_reader_doubled 12 le_rfl
  obtain ⟨F, C, R, hu⟩ := hs.reach.unwrapped (by decide) (by decide)
  have hrun : s.readerJob.running = true := by
    by_contra hstop
    have hdone := hu.readerStopped (Bool.not_eq_true _ ▸ hstop)
    rw [hu.reads.unique hs.reads] at hdone
    exact absurd hdone (by decide)
  have he : .timeout .reader ∈ s.kernel :=
    System.timer_mem hsq (by rw [hs.reach.reach.slots.reader, hrun]; decide)
  obtain ⟨t, ht, hlen, hk⟩ := hs.writerTick hsq rfl (by decide)
  have he' : .timeout .reader ∈ t.kernel := hk ▸ (List.mem_erase_of_ne (by simp)).mpr he
  have hlen : t.sq.length = 8193 := hlen.trans (by decide)
  have hin : t.readerJob.inflight = 0 := by
    rw [ht.reach.reach.counted.reads, ht.reading]
    rfl
  have hdemand : demand bytesToWrite ⟨0, 0⟩ t (.timeout .reader) = 8193 := by
    rw [demand, hin, ht.readerBatch, ht.pipeline.flusherPage, ht.reads.page]
    decide
  have hiff : (∃ u, step bytesToWrite t (.cqe (.timeout .reader) (-etime) ⟨0, 0⟩) = some u) ↔
      Fits t (demand bytesToWrite ⟨0, 0⟩ t (.timeout .reader)) :=
    step_isSome_iff (ht.reach.reach.mono fun _ _ _ => trivial) ht.phase he' rfl (.inr ⟨rfl, rfl⟩)
      Bool.noConfusion
  refine ⟨t, ht.reach.reach, ht.phase, he', hlen, hdemand, ?_⟩
  refine Option.eq_none_iff_forall_ne_some.mpr fun u hu => ?_
  have hfits := hiff.mp ⟨u, hu⟩
  rw [hdemand, Fits, hlen] at hfits
  exact absurd hfits (by decide)

end IoScheduler
