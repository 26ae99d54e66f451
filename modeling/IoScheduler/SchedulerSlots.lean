import IoScheduler.SchedulerInflight

/-!
# Operations that exist once

The five job timers, `flusher_job.op_fsync` and `tracing_job.dump_op` are static
and reused. A slot names one of them; `occupied` counts how often it is
outstanding. The flags of the jobs say which slots are occupied.
-/
namespace IoScheduler
open Machine Transition

inductive Slot where
  | job (job : Job)
  | fsync
  | dump
  deriving DecidableEq, Repr

def Sqe.slot? : Sqe → Option Slot
  | .timeout job => some (.job job)
  | .fsync => some .fsync
  | .dumpWrite _ _ | .dumpFsync => some .dump
  | .pageWrite _ _ | .pageRead _ _ => none

def Sqe.inSlot (slot : Slot) (e : Sqe) : Bool := decide (e.slot? = some slot)

def System.occupied (s : System) (slot : Slot) : ℕ := s.outstanding.countP (Sqe.inSlot slot)

structure Slots (s : System) : Prop where
  writer : s.occupied (.job .writer) = s.writerJob.running.toNat
  reader : s.occupied (.job .reader) = s.readerJob.running.toNat
  flusher : s.occupied (.job .flusher) = s.flusherJob.running.toNat
  status : s.occupied (.job .status) = 1
  tracing : s.occupied (.job .tracing) ≤ 1
  fsync : s.occupied .fsync = s.flusherJob.inflight
  dump : s.occupied .dump = s.tracingJob.dumpOp.inflight
  fsync_le : s.flusherJob.inflight ≤ 1
  dump_le : s.tracingJob.dumpOp.inflight ≤ 1

theorem slots_mainStart (start last : Timespec) : Slots (mainStart start last) := by
  rw [mainStart_eq]
  constructor <;> first | rfl | exact Nat.zero_le 1

theorem System.occupied_balance {s t : System} {e : Sqe} {new : List Sqe} (he : e ∈ s.kernel)
    (hk : t.kernel = (s.taken e).kernel) (hq : t.sq = s.sq ++ new) (slot : Slot) :
    t.occupied slot + (if e.inSlot slot then 1 else 0) =
      s.occupied slot + new.countP (Sqe.inSlot slot) :=
  System.countP_balance he hk hq _

/-- A slot stays as it is when as many of it come as leave. -/
theorem System.occupied_eq {s t : System} {e : Sqe} {slot : Slot} {n : ℕ} (new : List Sqe)
    (hn : s.occupied slot = n) (he : e ∈ s.kernel) (hk : t.kernel = (s.taken e).kernel)
    (hq : t.sq = s.sq ++ new)
    (hnew : new.countP (Sqe.inSlot slot) = (e.inSlot slot).toNat) : t.occupied slot = n := by
  have hb := System.occupied_balance he hk hq slot
  rw [hnew, hn] at hb
  cases hslot : e.inSlot slot <;> simpa [hslot] using hb

@[simp] theorem countP_inSlot_writes (slot : Slot) (pageId brk n : ℕ) :
    (List.range n).countP (Sqe.inSlot slot ∘ writeSqe pageId brk) = 0 :=
  List.countP_map.symm.trans (countP_writeSqe _ _ _ _ false fun _ _ => rfl)

@[simp] theorem countP_inSlot_reads (slot : Slot) (now : Timespec) (pageId n : ℕ) :
    (List.range n).countP (Sqe.inSlot slot ∘ readSqe now pageId) = 0 :=
  List.countP_map.symm.trans (countP_readSqe _ _ _ _ false fun _ _ => rfl)

@[simp] theorem countP_inSlot_resent (slot : Slot) (B pageId : ℕ) (job : Job) :
    (resent B pageId job).countP (Sqe.inSlot slot) =
      if goesOn B pageId = true ∧ slot = .job job then 1 else 0 := by
  rw [countP_resent]
  congr 1
  simp only [Sqe.inSlot, Sqe.slot?, Option.some.injEq, decide_eq_true_eq]
  rw [eq_comm (a := slot)]

/-- One entry of `e` leaves the kernel, `new` enters the queue, and the flags
move by the same amounts. -/
structure SlotStep (s t : System) (e : Sqe) (new : List Sqe) : Prop where
  mem : e ∈ s.kernel
  kernel : t.kernel = (s.taken e).kernel
  sq : t.sq = s.sq ++ new
  writer : t.writerJob.running.toNat + (e.inSlot (.job .writer)).toNat =
    s.writerJob.running.toNat + new.countP (Sqe.inSlot (.job .writer))
  reader : t.readerJob.running.toNat + (e.inSlot (.job .reader)).toNat =
    s.readerJob.running.toNat + new.countP (Sqe.inSlot (.job .reader))
  flusher : t.flusherJob.running.toNat + (e.inSlot (.job .flusher)).toNat =
    s.flusherJob.running.toNat + new.countP (Sqe.inSlot (.job .flusher))
  status : (e.inSlot (.job .status)).toNat = new.countP (Sqe.inSlot (.job .status))
  tracing : new.countP (Sqe.inSlot (.job .tracing)) ≤ (e.inSlot (.job .tracing)).toNat
  fsync : t.flusherJob.inflight + (e.inSlot .fsync).toNat =
    s.flusherJob.inflight + new.countP (Sqe.inSlot .fsync)
  dump : t.tracingJob.dumpOp.inflight + (e.inSlot .dump).toNat =
    s.tracingJob.dumpOp.inflight + new.countP (Sqe.inSlot .dump)
  fsync_le : t.flusherJob.inflight ≤ 1
  dump_le : t.tracingJob.dumpOp.inflight ≤ 1

theorem Slots.of_step {s t : System} {e : Sqe} {new : List Sqe} (h : Slots s)
    (k : SlotStep s t e new) : Slots t := by
  have hb : ∀ slot, t.occupied slot + (e.inSlot slot).toNat =
      s.occupied slot + new.countP (Sqe.inSlot slot) := fun slot => by
    rw [← System.occupied_balance k.mem k.kernel k.sq slot]
    cases e.inSlot slot <;> rfl
  constructor
  case writer => have := hb (.job .writer); have := h.writer; have := k.writer; omega
  case reader => have := hb (.job .reader); have := h.reader; have := k.reader; omega
  case flusher => have := hb (.job .flusher); have := h.flusher; have := k.flusher; omega
  case status => have := hb (.job .status); have := h.status; have := k.status; omega
  case tracing => have := hb (.job .tracing); have := h.tracing; have := k.tracing; omega
  case fsync => have := hb .fsync; have := h.fsync; have := k.fsync; omega
  case dump => have := hb .dump; have := h.dump; have := k.dump; omega
  case fsync_le => exact k.fsync_le
  case dump_le => exact k.dump_le

theorem System.occupied_pos {s : System} {e : Sqe} {slot : Slot} (he : e ∈ s.kernel)
    (hslot : e.inSlot slot = true) : 0 < s.occupied slot :=
  List.countP_pos_iff.mpr ⟨e, List.mem_append_left _ he, hslot⟩

theorem System.slot_ne_of_free {s : System} {x : Sqe} {slot : Slot} (h : s.occupied slot = 0)
    (hx : x ∈ s.outstanding) : x.slot? ≠ some slot := by
  intro hslot
  have hfree := List.countP_eq_zero.mp h x hx
  exact hfree (by simp [Sqe.inSlot, hslot])

/-- A job whose timer the kernel holds is marked running. -/
theorem Slots.running {s : System} (h : Slots s) :
    (.timeout .writer ∈ s.kernel → s.writerJob.running = true) ∧
      (.timeout .reader ∈ s.kernel → s.readerJob.running = true) ∧
      (.timeout .flusher ∈ s.kernel → s.flusherJob.running = true) := by
  have hpos : ∀ b : Bool, 0 < b.toNat → b = true := by decide
  refine ⟨fun he => hpos _ ?_, fun he => hpos _ ?_, fun he => hpos _ ?_⟩
  · exact h.writer ▸ System.occupied_pos he rfl
  · exact h.reader ▸ System.occupied_pos he rfl
  · exact h.flusher ▸ System.occupied_pos he rfl

section
variable {B : ℕ} {now : Timespec} {s t : System}

theorem Slots.backgroundWriter (h : Slots s) (he : .timeout .writer ∈ s.kernel)
    (ht : backgroundWriter B now (s.taken (.timeout .writer)) = some t) : Slots t := by
  have hrun := h.running.1 he
  obtain ⟨-, rfl⟩ := backgroundWriter_eq_some ht
  refine h.of_step ⟨he, rfl, List.append_assoc _ _ _, ?_, ?_, ?_, ?_, ?_, ?_, ?_, h.fsync_le,
    h.dump_le⟩ <;>
    simp [System.taken, Sqe.inSlot, Sqe.slot?, hrun, Bool.toNat, Nat.add_comm]

theorem Slots.backgroundReader (h : Slots s) (he : .timeout .reader ∈ s.kernel)
    (ht : backgroundReader B now (s.taken (.timeout .reader)) = some t) : Slots t := by
  have hrun := h.running.2.1 he
  obtain ⟨-, rfl⟩ := backgroundReader_eq_some ht
  refine h.of_step ⟨he, rfl, List.append_assoc _ _ _, ?_, ?_, ?_, ?_, ?_, ?_, ?_, h.fsync_le,
    h.dump_le⟩ <;>
    simp [System.taken, Sqe.inSlot, Sqe.slot?, hrun, Bool.toNat, Nat.add_comm]

theorem Slots.backgroundFlusher (h : Slots s) (he : .timeout .flusher ∈ s.kernel)
    (ht : backgroundFlusher B now (s.taken (.timeout .flusher)) = some t) : Slots t := by
  have hrun := h.running.2.2 he
  obtain ⟨u, hu, rfl⟩ := backgroundFlusher_eq_some ht
  rcases submitFsync_eq_some hu with ⟨⟨-, hidle⟩, rfl⟩ | ⟨-, rfl⟩
  · have hidle : s.flusherJob.inflight = 0 := hidle
    refine h.of_step ⟨he, rfl, List.append_assoc _ _ _, ?_, ?_, ?_, ?_, ?_, ?_, ?_, le_rfl,
      h.dump_le⟩ <;>
      simp [System.taken, Sqe.inSlot, Sqe.slot?, hrun, hidle, Bool.toNat,
        Nat.add_comm]
  · refine h.of_step ⟨he, rfl, rfl, ?_, ?_, ?_, ?_, ?_, ?_, ?_, h.fsync_le, h.dump_le⟩ <;>
      simp [System.taken, Sqe.inSlot, Sqe.slot?, hrun, Bool.toNat, Nat.add_comm]

theorem Slots.backgroundTracing (h : Slots s) (he : .timeout .tracing ∈ s.kernel)
    (ht : backgroundTracing now (s.taken (.timeout .tracing)) = some t) : Slots t := by
  obtain ⟨cbuf, traceDone, log, htr⟩ := traced_eq now (s.taken (.timeout .tracing))
  rcases backgroundTracing_eq_some ht with ⟨-, rfl⟩ | ⟨hidle, -, rfl⟩ | ⟨-, -, -, rfl⟩ |
    ⟨-, hidle, -, rfl⟩
  · rw [htr]
    refine h.of_step ⟨he, rfl, rfl, ?_, ?_, ?_, ?_, ?_, ?_, ?_, h.fsync_le, h.dump_le⟩ <;>
      simp [System.taken, Sqe.inSlot, Sqe.slot?]
  · have hidle : s.tracingJob.dumpOp.inflight = 0 := hidle
    rw [htr]
    refine h.of_step ⟨he, rfl, List.append_assoc _ _ _, ?_, ?_, ?_, ?_, ?_, ?_, ?_, h.fsync_le,
      le_rfl⟩ <;>
      simp [dumpStarted, System.taken, Sqe.inSlot, Sqe.slot?, hidle]
  · refine h.of_step ⟨he, rfl, (List.append_nil _).symm, ?_, ?_, ?_, ?_, ?_, ?_, ?_, h.fsync_le,
      h.dump_le⟩ <;>
      simp [System.taken, Sqe.inSlot, Sqe.slot?]
  · have hidle : s.tracingJob.dumpOp.inflight = 0 := hidle
    refine h.of_step ⟨he, rfl, rfl, ?_, ?_, ?_, ?_, ?_, ?_, ?_, h.fsync_le, le_rfl⟩ <;>
      simp [dumpStarted, System.taken, Sqe.inSlot, Sqe.slot?, hidle]

theorem Slots.backgroundStatus (h : Slots s) (he : .timeout .status ∈ s.kernel)
    (ht : backgroundStatus now (s.taken (.timeout .status)) = some t) : Slots t := by
  obtain ⟨stats, rfl⟩ := backgroundStatus_eq_some ht
  refine h.of_step ⟨he, rfl, rfl, ?_, ?_, ?_, ?_, ?_, ?_, ?_, h.fsync_le, h.dump_le⟩ <;>
    simp [System.taken, Sqe.inSlot, Sqe.slot?]

theorem Slots.pageWritten {op off : ℕ} (h : Slots s) (he : .pageWrite op off ∈ s.kernel)
    (ht : pageWritten now op (s.taken (.pageWrite op off)) = some t) : Slots t := by
  obtain ⟨o, heap, writeList, stats, -, -, rfl, -⟩ := pageWritten_eq_some ht
  refine h.of_step ⟨he, rfl, (List.append_nil _).symm, ?_, ?_, ?_, ?_, ?_, ?_, ?_, h.fsync_le,
    h.dump_le⟩ <;>
    simp [System.taken, Sqe.inSlot, Sqe.slot?]

theorem Slots.pageRead {op : OpPageRead} {off : ℕ} (h : Slots s)
    (he : .pageRead op off ∈ s.kernel)
    (ht : pageRead now op (s.taken (.pageRead op off)) = some t) : Slots t := by
  obtain rfl := Option.some.inj ht
  refine h.of_step ⟨he, rfl, (List.append_nil _).symm, ?_, ?_, ?_, ?_, ?_, ?_, ?_, h.fsync_le,
    h.dump_le⟩ <;>
    simp [System.taken, Sqe.inSlot, Sqe.slot?]

/-- The flag of the data fsync is set while its slot is occupied. -/
theorem Slots.fsync_inflight (h : Slots s) (he : .fsync ∈ s.kernel) :
    s.flusherJob.inflight = 1 := by
  have hpos : 0 < s.occupied .fsync := System.occupied_pos he rfl
  have := h.fsync
  have := h.fsync_le
  omega

theorem Slots.dump_inflight {e : Sqe} (h : Slots s) (he : e ∈ s.kernel)
    (hslot : e.slot? = some .dump) : s.tracingJob.dumpOp.inflight = 1 := by
  have hpos : 0 < s.occupied .dump := System.occupied_pos he (by simp [Sqe.inSlot, hslot])
  have := h.dump
  have := h.dump_le
  omega

theorem Slots.fileSynced (h : Slots s) (he : .fsync ∈ s.kernel)
    (ht : fileSynced now (s.taken .fsync) = some t) : Slots t := by
  have hin := h.fsync_inflight he
  obtain ⟨heap, log, stats, -, rfl⟩ := fileSynced_eq_some ht
  refine h.of_step ⟨he, rfl, (List.append_nil _).symm, ?_, ?_, ?_, ?_, ?_, ?_, ?_, Nat.zero_le 1,
    h.dump_le⟩ <;>
    simp [System.taken, Sqe.inSlot, Sqe.slot?, hin]

theorem Slots.tracingWrited {e : Sqe} {res : ℤ} (h : Slots s) (he : e ∈ s.kernel)
    (hslot : e.slot? = some .dump) (ht : tracingWrited res (s.taken e) = some t) : Slots t := by
  have hd : Sqe.slot? .dumpFsync = some .dump := rfl
  obtain ⟨-, rfl⟩ := tracingWrited_eq_some ht
  refine h.of_step ⟨he, rfl, rfl, ?_, ?_, ?_, ?_, ?_, ?_, ?_, h.fsync_le, h.dump_le⟩ <;>
    simp [System.taken, Sqe.inSlot, hslot, hd]

theorem Slots.tracingSynced {e : Sqe} (h : Slots s) (he : e ∈ s.kernel)
    (hslot : e.slot? = some .dump) (ht : tracingSynced (s.taken e) = some t) : Slots t := by
  have hin := h.dump_inflight he hslot
  obtain rfl := tracingSynced_eq_some ht
  refine h.of_step ⟨he, rfl, (List.append_nil _).symm, ?_, ?_, ?_, ?_, ?_, ?_, ?_, h.fsync_le,
    Nat.zero_le 1⟩ <;>
    simp [System.taken, Sqe.inSlot, hslot, hin]

theorem Slots.callback {e : Sqe} {res : ℤ} (h : Slots s) (he : e ∈ s.kernel)
    (ht : callback B now res (s.taken e) e = some t) : Slots t := by
  cases e with
  | pageWrite op off => exact h.pageWritten he ht
  | pageRead op off => exact h.pageRead he ht
  | timeout job =>
      cases job with
      | writer => exact h.backgroundWriter he ht
      | reader => exact h.backgroundReader he ht
      | flusher => exact h.backgroundFlusher he ht
      | tracing => exact h.backgroundTracing he ht
      | status => exact h.backgroundStatus he ht
  | fsync => exact h.fileSynced he ht
  | dumpWrite len off | dumpFsync =>
      simp only [IoScheduler.callback] at ht
      split at ht
      · exact h.tracingWrited he rfl ht
      · exact h.tracingSynced he rfl ht

theorem Slots.of_outstanding (h : Slots s)
    (hout : ∀ slot, t.occupied slot = s.occupied slot) (hw : t.writerJob = s.writerJob)
    (hr : t.readerJob = s.readerJob) (hf : t.flusherJob = s.flusherJob)
    (ht : t.tracingJob = s.tracingJob) : Slots t := by
  refine ⟨?_, ?_, ?_, ?_, ?_, ?_, ?_, hf ▸ h.fsync_le, ht ▸ h.dump_le⟩ <;> rw [hout]
  · exact hw ▸ h.writer
  · exact hr ▸ h.reader
  · exact hf ▸ h.flusher
  · exact h.status
  · exact h.tracing
  · exact hf ▸ h.fsync
  · exact ht ▸ h.dump

theorem Slots.step {a : Act} (h : Slots s) (hok : Successful s a) (hs : step B s a = some t) :
    Slots t := by
  cases a with
  | submit =>
      obtain ⟨-, rfl⟩ := step_submit hs
      exact h.of_outstanding (fun slot => by simp [System.occupied, System.outstanding])
        rfl rfl rfl rfl
  | tickEnd =>
      obtain ⟨-, rfl⟩ := step_tickEnd hs
      exact h.of_outstanding (fun _ => rfl) rfl rfl rfl rfl
  | cqe e res now =>
      obtain ⟨-, he, ht⟩ := step_cqe hok hs
      exact h.callback he ht

end

theorem Reach.slots {B : ℕ} {t₀ t₁ : Timespec} {s : System} (h : Reach B t₀ t₁ s) : Slots s :=
  h.invariant (slots_mainStart t₀ t₁) fun _ _ _ hi hok hs => hi.step hok hs

end IoScheduler
