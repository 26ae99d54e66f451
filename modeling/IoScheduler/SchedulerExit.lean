import IoScheduler.SchedulerReads

/-!
# Leaving the loop

`main` leaves its loop when the four jobs are marked stopped. Each page job
stops by its own page counter, and nothing drains the ring afterwards.
-/
namespace IoScheduler
open Machine Transition

section
variable {B : ℕ} {now : Timespec} {res : ℤ} {s t : System}

/-- No callback moves `main` itself. -/
theorem callback_phase {e : Sqe} (h : callback B now res s e = some t) : t.phase = s.phase := by
  cases e with
  | pageWrite op off =>
      obtain ⟨o, heap, writeList, stats, -, -, rfl, -⟩ := pageWritten_eq_some h
      rfl
  | pageRead op off =>
      obtain rfl := Option.some.inj h
      rfl
  | timeout job =>
      cases job with
      | writer =>
          obtain ⟨-, rfl⟩ := backgroundWriter_eq_some h
          rfl
      | reader =>
          obtain ⟨-, rfl⟩ := backgroundReader_eq_some h
          rfl
      | flusher =>
          obtain ⟨u, hu, rfl⟩ := backgroundFlusher_eq_some h
          rcases submitFsync_eq_some hu with ⟨-, rfl⟩ | ⟨-, rfl⟩ <;> rfl
      | tracing =>
          obtain ⟨cbuf, traceDone, log, htr⟩ := traced_eq now s
          rcases backgroundTracing_eq_some h with ⟨-, rfl⟩ | ⟨-, -, rfl⟩ | ⟨-, -, -, rfl⟩ |
            ⟨-, -, -, rfl⟩
          · rw [htr]
          · rw [htr]
            rfl
          · rfl
          · rfl
      | status =>
          obtain ⟨stats, rfl⟩ := backgroundStatus_eq_some h
          rfl
  | fsync =>
      obtain ⟨heap, log, stats, -, rfl⟩ := fileSynced_eq_some h
      rfl
  | dumpWrite len off | dumpFsync =>
      simp only [callback] at h
      split at h
      · obtain ⟨-, rfl⟩ := tracingWrited_eq_some h
        rfl
      · obtain rfl := tracingSynced_eq_some h
        rfl

theorem allStopped_of_step {a : Act} (hok : Successful s a) (hs : step B s a = some t)
    (hexit : t.phase = .exited) : t.allStopped = true := by
  cases a with
  | submit =>
      obtain ⟨-, rfl⟩ := step_submit hs
      cases hexit
  | tickEnd =>
      obtain ⟨-, rfl⟩ := step_tickEnd hs
      by_cases hstop : s.allStopped = true
      · exact hstop
      · simp [hstop] at hexit
  | cqe e res now =>
      obtain ⟨hphase, -, ht⟩ := step_cqe hok hs
      have hsame : t.phase = (s.taken e).phase := callback_phase ht
      exact absurd (hphase.symm.trans (hsame.symm.trans hexit)) (by decide)

end

theorem Reach.allStopped {B : ℕ} {t₀ t₁ : Timespec} {s : System} (h : Reach B t₀ t₁ s)
    (hexit : s.phase = .exited) : s.allStopped = true := by
  refine Reachable.invariant (I := fun s => s.phase = .exited → s.allStopped = true) h ?_ ?_ hexit
  · rw [mainStart_eq]
    exact fun hp => nomatch hp
  · exact fun s a t _ hc hs => allStopped_of_step hc hs

/-- At exit the pages that reach the target have been written, flushed and
submitted for reading. A page past them is released, or written and in the write
list, or still in flight. -/
theorem exit_progress {B : ℕ} {t₀ t₁ : Timespec} {s : System} (h : ReachInOrder B t₀ t₁ s)
    (hexit : s.phase = .exited) :
    ∃ F C R, B ≤ F * bufSize ∧ B ≤ R * bufSize ∧ F ≤ C ∧ C ≤ s.brk ∧
      s.log.filterMap Event.writeSubmitted? = pagesBelow s.brk ∧
      s.log.filterMap Event.pageWritten? = pagesBelow C ∧
      s.log.filterMap Event.released? = pagesBelow F ∧
      s.log.filterMap Event.readSubmitted? = (List.range R).map u32 ∧
      s.outstanding.filterMap Sqe.writeOp? = List.range' C (s.brk - C) ∧
      s.flusherJob.writeList = listBetween F C ∧
      (∀ p, F ≤ p → p < C → (s.heap p).map OpPageWrite.next = some (nextBelow C p)) ∧
      s.writerJob.writtenNoFlush = u32 (C - F) ∧
      s.flusherJob.pageId = u32 F ∧ s.readerJob.pageId = u32 R ∧
      s.writerJob.pageId = u32 s.brk := by
  obtain ⟨F, C, R, hp⟩ := h.progress
  have hstop := h.reach.allStopped hexit
  simp only [System.allStopped, System.finished, Bool.and_eq_true, Bool.not_eq_true'] at hstop
  obtain ⟨⟨⟨-, hflusher⟩, hreader⟩, -⟩ := hstop
  refine ⟨F, C, R, hp.flusherStopped hflusher, hp.readerStopped hreader, hp.pipeline.released_le,
    hp.pipeline.written_le, hp.pipeline.submitted, hp.pipeline.written, hp.pipeline.released,
    hp.reads.submitted, hp.pipeline.inFlight, hp.pipeline.list, fun p hF hC => ?_,
    hp.pipeline.noFlush, hp.pipeline.flusherPage, hp.reads.page, hp.pipeline.writerPage⟩
  obtain ⟨issued, hlive⟩ := hp.pipeline.live p hF (hC.trans_le hp.pipeline.written_le)
  rw [hlive]
  rfl

/-- Four pages of target: the writer overshoots to seven, the flusher stops in the
tick that submits its second fsync, and the reader with four reads in flight. -/
def earlyExit : List Act :=
  let expire := fun job => Act.cqe (.timeout job) (-62) ⟨0, 0⟩
  let written := fun op => Act.cqe (.pageWrite op (op * 65536)) 65536 ⟨0, 0⟩
  [.submit, expire .writer, expire .tracing, .tickEnd,
    .submit, written 0, expire .writer, .tickEnd,
    .submit, written 1, written 2, expire .writer, .tickEnd,
    .submit, written 3, expire .flusher, .tickEnd,
    .submit, .cqe .fsync 0 ⟨0, 0⟩, expire .reader, .tickEnd,
    .submit, expire .reader, .tickEnd,
    .submit, expire .reader, written 4, expire .flusher, expire .tracing, .tickEnd,
    .submit, .cqe (.dumpWrite 40 0) 40 ⟨0, 0⟩, .tickEnd,
    .submit, .cqe .dumpFsync 0 ⟨0, 0⟩, .tickEnd]

/-- The state the loop is left in by `earlyExit`. -/
theorem earlyExit_spec : ∃ s, ReachInOrder 262144 ⟨0, 0⟩ ⟨0, 0⟩ s ∧
    decide (s.phase = .exited ∧ s.writesInFlight = 2 ∧ s.readsInFlight = 4 ∧
      .fsync ∈ s.outstanding ∧ s.flusherJob.writeList = ⟨some 4, some 4⟩ ∧
      s.writerJob.writtenNoFlush = 1 ∧ s.flusherJob.pageId = 4 ∧
      s.writerJob.pageId = 7) = true :=
  exists_of_execute earlyExit _ (by decide +kernel)

/-- The loop is left with writes, reads and an fsync in flight, a page in the write
list, and the counters of the flusher behind those of the writer. -/
theorem exit_not_drained :
    ∃ s, 0 < 262144 ∧ ReachInOrder 262144 ⟨0, 0⟩ ⟨0, 0⟩ s ∧ s.phase = .exited ∧
      s.writesInFlight ≠ 0 ∧ s.readsInFlight ≠ 0 ∧ .fsync ∈ s.outstanding ∧
      s.flusherJob.writeList ≠ ⟨none, none⟩ ∧ s.writerJob.writtenNoFlush ≠ 0 ∧
      s.flusherJob.pageId ≠ s.writerJob.pageId := by
  obtain ⟨s, hs, hp⟩ := earlyExit_spec
  obtain ⟨hexit, hwrites, hreads, hfsync, hlist, hflush, hflusher, hwriter⟩ :=
    of_decide_eq_true hp
  refine ⟨s, by decide, hs, hexit, ?_, ?_, hfsync, ?_, ?_, ?_⟩
  · omega
  · omega
  · rw [hlist]
    decide
  · omega
  · omega

/-- The early exit meets what holds at every exit. -/
theorem exit_progress_earlyExit :
    ∃ s, ReachInOrder 262144 ⟨0, 0⟩ ⟨0, 0⟩ s ∧ s.phase = .exited ∧
      ∃ F C, 262144 ≤ F * bufSize ∧ F ≤ C ∧ C ≤ s.brk ∧
        s.log.filterMap Event.released? = pagesBelow F := by
  obtain ⟨s, hs, hp⟩ := earlyExit_spec
  obtain ⟨hexit, -⟩ := of_decide_eq_true hp
  obtain ⟨F, C, R, hF, -, hFC, hC, -, -, hreleased, -⟩ := exit_progress hs hexit
  exact ⟨s, hs, hexit, F, C, hF, hFC, hC, hreleased⟩

end IoScheduler
