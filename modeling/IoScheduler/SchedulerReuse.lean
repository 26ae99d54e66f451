import IoScheduler.SchedulerTracing

/-!
# Reused operations are left alone while the kernel holds them

A static operation is prepared again only when it is not outstanding, so at most
one submission of it exists. `issued` of the data fsync and the fields of the
dump operation are written only by the tick that prepares them and by their own
completions; the timers keep the callback they were initialised with.
-/
namespace IoScheduler
open Machine Transition

section
variable {B : ℕ} {now : Timespec} {res : ℤ} {s t : System} {e e' : Sqe} {slot : Slot}

theorem Slots.le_one (h : Slots s) (slot : Slot) : s.occupied slot ≤ 1 := by
  cases slot with
  | job job =>
      cases job with
      | writer => exact h.writer.trans_le (Bool.toNat_le _)
      | reader => exact h.reader.trans_le (Bool.toNat_le _)
      | flusher => exact h.flusher.trans_le (Bool.toNat_le _)
      | tracing => exact h.tracing
      | status => exact h.status.le
  | fsync => exact h.fsync.trans_le h.fsync_le
  | dump => exact h.dump.trans_le h.dump_le

/-- Once a completed operation is taken, no other of its slot is outstanding. -/
theorem Slots.taken_free (h : Slots s) (he : e ∈ s.kernel) (hslot : e.slot? = some slot) :
    (s.taken e).occupied slot = 0 := by
  have hle := h.le_one slot
  have hcount : s.occupied slot = (s.taken e).occupied slot + 1 := by
    rw [System.occupied, System.countP_outstanding he]
    simp [Sqe.inSlot, hslot, System.occupied]
  omega

theorem Slots.taken_alone (h : Slots s) (he : e ∈ s.kernel) (hslot : e.slot? = some slot)
    (he' : e' ∈ (s.taken e).kernel) : e'.slot? ≠ some slot :=
  System.slot_ne_of_free (h.taken_free he hslot) (List.mem_append_left _ he')

/-- An operation is not outstanding when its flag is down. -/
theorem Slots.not_mem_of_idle (h : Slots s) (hidle : s.flusherJob.inflight = 0)
    (he : e ∈ s.kernel) : e.slot? ≠ some .fsync :=
  System.slot_ne_of_free (h.fsync.trans hidle) (List.mem_append_left _ he)

theorem Slots.not_mem_of_dumpIdle (h : Slots s) (hidle : s.tracingJob.dumpOp.inflight = 0)
    (he : e ∈ s.kernel) : e.slot? ≠ some .dump :=
  System.slot_ne_of_free (h.dump.trans hidle) (List.mem_append_left _ he)

theorem mem_of_mem_taken (he' : e' ∈ (s.taken e).kernel) : e' ∈ s.kernel :=
  List.mem_of_mem_erase he'

/-- No callback writes the data fsync while the kernel holds it. -/
theorem Slots.issued_callback (h : Slots s) (he : e ∈ s.kernel)
    (ht : IoScheduler.callback B now res (s.taken e) e = some t) (he' : e' ∈ t.kernel)
    (hslot : e'.slot? = some .fsync) : t.flusherJob.issued = s.flusherJob.issued := by
  cases e with
  | pageWrite op off =>
      obtain ⟨o, heap, writeList, stats, -, -, rfl, -⟩ := pageWritten_eq_some ht
      rfl
  | pageRead op off =>
      obtain rfl := Option.some.inj ht
      rfl
  | fsync =>
      obtain ⟨heap, log, stats, -, rfl⟩ := fileSynced_eq_some ht
      rfl
  | dumpWrite len off | dumpFsync =>
      simp only [IoScheduler.callback] at ht
      split at ht
      · obtain ⟨-, rfl⟩ := tracingWrited_eq_some ht
        rfl
      · obtain rfl := tracingSynced_eq_some ht
        rfl
  | timeout job =>
      cases job with
      | writer =>
          obtain ⟨-, rfl⟩ := backgroundWriter_eq_some ht
          rfl
      | reader =>
          obtain ⟨-, rfl⟩ := backgroundReader_eq_some ht
          rfl
      | flusher =>
          obtain ⟨u, hu, rfl⟩ := backgroundFlusher_eq_some ht
          rcases submitFsync_eq_some hu with ⟨⟨-, hidle⟩, rfl⟩ | ⟨-, rfl⟩
          · exact absurd hslot (h.not_mem_of_idle hidle (mem_of_mem_taken he'))
          · rfl
      | tracing =>
          obtain ⟨cbuf, traceDone, log, htr⟩ := traced_eq now (s.taken (.timeout .tracing))
          rcases backgroundTracing_eq_some ht with ⟨-, rfl⟩ | ⟨-, -, rfl⟩ | ⟨-, -, -, rfl⟩ |
            ⟨-, -, -, rfl⟩
          · rw [htr]
            rfl
          · rw [htr]
            rfl
          · rfl
          · rfl
      | status =>
          obtain ⟨stats, rfl⟩ := backgroundStatus_eq_some ht
          rfl

/-- Only a tick that finds no dump in flight, or the completion of the dump
itself, writes the dump operation. -/
theorem Slots.dumpOp_step {a : Act} (h : Slots s) (hok : Successful s a)
    (hs : IoScheduler.step B s a = some t) (he' : e' ∈ t.kernel)
    (hslot : e'.slot? = some .dump) : t.tracingJob.dumpOp = s.tracingJob.dumpOp := by
  rcases tracing_cases hok hs with ⟨hf, -⟩ | ⟨res, now, rfl, he, ht⟩ |
    ⟨e, res, he, hdump, -, ht | ht⟩
  · rw [hf.tracingJob]
  · obtain ⟨hk, -⟩ := traced_flags now (s.taken (.timeout .tracing))
    have hbusy : s.tracingJob.dumpOp.inflight = 0 → e' ∈ (s.taken (.timeout .tracing)).kernel →
        False := fun hidle hmem =>
      h.not_mem_of_dumpIdle hidle (mem_of_mem_taken hmem) hslot
    rcases backgroundTracing_eq_some ht with ⟨-, rfl⟩ | ⟨hidle, -, rfl⟩ | ⟨-, -, -, rfl⟩ |
      ⟨-, hidle, -, rfl⟩
    · exact traced_dumpOp now _
    · exact (hbusy hidle (hk ▸ he')).elim
    · rfl
    · exact (hbusy hidle he').elim
  · obtain ⟨-, rfl⟩ := tracingWrited_eq_some ht
    exact absurd hslot (h.taken_alone he hdump he')
  · obtain rfl := tracingSynced_eq_some ht
    exact absurd hslot (h.taken_alone he hdump he')

theorem Slots.issued_step {a : Act} (h : Slots s) (hok : Successful s a)
    (hs : IoScheduler.step B s a = some t) (he' : e' ∈ t.kernel)
    (hslot : e'.slot? = some .fsync) : t.flusherJob.issued = s.flusherJob.issued := by
  cases a with
  | submit =>
      obtain ⟨-, rfl⟩ := step_submit hs
      rfl
  | tickEnd =>
      obtain ⟨-, rfl⟩ := step_tickEnd hs
      rfl
  | cqe e res now =>
      obtain ⟨-, he, ht⟩ := step_cqe hok hs
      exact h.issued_callback he ht he' hslot

end

/-- In every reachable state each static operation is outstanding at most once, a
page job runs exactly while its timer is outstanding, and no step writes an
operation that the kernel goes on holding. -/
theorem reused_once {B : ℕ} {t₀ t₁ : Timespec} {s : System} (h : Reach B t₀ t₁ s) :
    (∀ slot, s.occupied slot ≤ 1) ∧
      (s.writerJob.running = true ↔ s.occupied (.job .writer) = 1) ∧
      (s.readerJob.running = true ↔ s.occupied (.job .reader) = 1) ∧
      (s.flusherJob.running = true ↔ s.occupied (.job .flusher) = 1) ∧
      ∀ a t, Successful s a → step B s a = some t → ∀ e ∈ t.kernel,
        (e.slot? = some .fsync → t.flusherJob.issued = s.flusherJob.issued) ∧
          (e.slot? = some .dump → t.tracingJob.dumpOp = s.tracingJob.dumpOp) := by
  have hs := h.slots
  refine ⟨hs.le_one, ?_, ?_, ?_, fun a t hok hst e he =>
    ⟨hs.issued_step hok hst he, hs.dumpOp_step hok hst he⟩⟩
  · rw [hs.writer, Bool.toNat_eq_one]
  · rw [hs.reader, Bool.toNat_eq_one]
  · rw [hs.flusher, Bool.toNat_eq_one]

/-- A data fsync in flight while the flusher's timer expires again. -/
theorem reused_once_fsync_in_flight :
    ∃ s, Reach bytesToWrite ⟨0, 0⟩ ⟨0, 0⟩ s ∧ s.occupied .fsync = 1 ∧ s.writerJob.running = true ∧
      s.occupied (.job .writer) = 1 ∧ ∀ slot, s.occupied slot ≤ 1 := by
  obtain ⟨s, hs, hp⟩ : ∃ s, Reach bytesToWrite ⟨0, 0⟩ ⟨0, 0⟩ s ∧
      decide (s.occupied .fsync = 1 ∧ s.writerJob.running = true) = true :=
    exists_of_execute
      [.submit, .cqe (.timeout .writer) (-62) ⟨0, 0⟩, .tickEnd, .submit,
        .cqe (.pageWrite 0 0) 65536 ⟨0, 0⟩, .cqe (.timeout .flusher) (-62) ⟨0, 0⟩, .tickEnd,
        .submit, .cqe (.timeout .flusher) (-62) ⟨0, 0⟩] _
      (by decide +kernel)
  obtain ⟨hfsync, hrun⟩ := of_decide_eq_true hp
  obtain ⟨hle, hwriter, -⟩ := reused_once hs
  exact ⟨s, hs, hfsync, hrun, hwriter.mp hrun, hle⟩

end IoScheduler
