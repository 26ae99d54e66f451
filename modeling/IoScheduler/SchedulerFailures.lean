import IoScheduler.SchedulerBounds

/-!
# Completions that fail

`io_tick` prints a failed completion and runs no callback, so what its callback
would have taken off a counter or a flag stays there. A counter is the number of
operations in flight plus the failed ones, modulo 256; a flag that was set for
an operation that failed is never cleared.
-/
namespace IoScheduler
open Machine Transition

/-- Timers expire, any other operation succeeds or reports an error that is not
`-ETIME`. -/
def Completes (_ : System) : Act → Prop
  | .cqe e res _ => if e.isTimeout = true then res = -etime else res ≠ -etime
  | _ => True

instance : ∀ s a, Decidable (Completes s a)
  | _, .submit | _, .tickEnd => isTrue trivial
  | _, .cqe e _ _ => inferInstanceAs (Decidable (if e.isTimeout = true then _ else _))

def ReachFailing (t₀ t₁ : Timespec) : System → Prop :=
  Reachable (step bytesToWrite) Completes (mainStart t₀ t₁)

/-- A flag that guards one operation, whether that operation is outstanding, and
how often it failed. -/
structure OpFlag where
  flag : ℕ
  occupied : ℕ
  failed : ℕ

namespace OpFlag

structure Sound (v : OpFlag) : Prop where
  sum : v.occupied + v.failed = v.flag
  flag_le : v.flag ≤ 1

inductive Step (v w : OpFlag) : Prop
  | quiet (flag : w.flag = v.flag) (sum : w.occupied + w.failed = v.occupied + v.failed)
  | start (idle : v.flag = 0) (flag : w.flag = 1) (occupied : w.occupied = v.occupied + 1)
      (failed : w.failed = v.failed)
  | complete (flag : w.flag = 0) (occupied : w.occupied + 1 = v.occupied)
      (failed : w.failed = v.failed)

theorem Sound.step {v w : OpFlag} (h : v.Sound) (hs : Step v w) : w.Sound := by
  obtain ⟨hsum, hle⟩ := h
  cases hs with
  | quiet flag sum => exact ⟨by omega, by omega⟩
  | start idle flag occupied failed => exact ⟨by omega, by omega⟩
  | complete flag occupied failed => exact ⟨by omega, by omega⟩

/-- The flag means what its name says as long as nothing failed. -/
theorem Sound.iff {v : OpFlag} (h : v.Sound) : (v.flag ≠ 0 → 0 < v.occupied) ↔ v.failed = 0 := by
  obtain ⟨hsum, hle⟩ := h
  omega

end OpFlag

namespace System

def fsyncFlag (s : System) : OpFlag :=
  ⟨s.flusherJob.inflight, s.occupied .fsync, s.failures.countP (Sqe.inSlot .fsync)⟩

def dumpFlag (s : System) : OpFlag :=
  ⟨s.tracingJob.dumpOp.inflight, s.occupied .dump, s.failures.countP (Sqe.inSlot .dump)⟩

end System

section
variable {B : ℕ} {now : Timespec} {res : ℤ} {s t : System} {e : Sqe}

theorem owner_of_inSlot_fsync {x : Sqe} (h : x.inSlot .fsync = true) : x.owner = .flusher := by
  cases x <;> simp_all [Sqe.inSlot, Sqe.slot?, Sqe.owner]

theorem owner_of_inSlot_dump {x : Sqe} (h : x.inSlot .dump = true) : x.owner = .tracing := by
  cases x <;> simp_all [Sqe.inSlot, Sqe.slot?, Sqe.owner]

/-- Only the flusher's callbacks write its flag. -/
theorem flusher_inflight_foreign (hne : e.owner ≠ .flusher) (ht : callback B now res s e = some t) :
    t.flusherJob.inflight = s.flusherJob.inflight := by
  cases e with
  | pageWrite op off =>
      obtain ⟨o, heap, writeList, stats, -, -, rfl, -⟩ := pageWritten_eq_some ht
      rfl
  | pageRead op off =>
      obtain rfl := Option.some.inj ht
      rfl
  | fsync => exact absurd rfl hne
  | dumpWrite len off | dumpFsync =>
      simp only [callback] at ht
      split at ht
      · obtain ⟨-, rfl⟩ := tracingWrited_eq_some ht
        rfl
      · obtain rfl := tracingSynced_eq_some ht
        rfl
  | timeout job =>
      cases job with
      | writer =>
          obtain ⟨-, rfl⟩ := backgroundWriter_eq_some ht
          rfl
      | reader =>
          obtain ⟨-, rfl⟩ := backgroundReader_eq_some ht
          rfl
      | flusher => exact absurd rfl hne
      | tracing =>
          obtain ⟨cbuf, traceDone, log, htr⟩ := traced_eq now s
          rcases backgroundTracing_eq_some ht with ⟨-, rfl⟩ | ⟨-, -, rfl⟩ | ⟨-, -, -, rfl⟩ |
            ⟨-, -, -, rfl⟩
          · rw [htr]
          · rw [htr]
            rfl
          · rfl
          · rfl
      | status =>
          obtain ⟨stats, rfl⟩ := backgroundStatus_eq_some ht
          rfl

/-- Only the tracer's callbacks write the dump operation. -/
theorem tracingJob_foreign (hne : e.owner ≠ .tracing) (ht : callback B now res s e = some t) :
    t.tracingJob = s.tracingJob := by
  cases e with
  | pageWrite op off =>
      obtain ⟨o, heap, writeList, stats, -, -, rfl, -⟩ := pageWritten_eq_some ht
      rfl
  | pageRead op off =>
      obtain rfl := Option.some.inj ht
      rfl
  | fsync =>
      obtain ⟨heap, log, stats, -, rfl⟩ := fileSynced_eq_some ht
      rfl
  | dumpWrite len off | dumpFsync => exact absurd rfl hne
  | timeout job =>
      cases job with
      | writer =>
          obtain ⟨-, rfl⟩ := backgroundWriter_eq_some ht
          rfl
      | reader =>
          obtain ⟨-, rfl⟩ := backgroundReader_eq_some ht
          rfl
      | flusher =>
          obtain ⟨u, hu, rfl⟩ := backgroundFlusher_eq_some ht
          rcases submitFsync_eq_some hu with ⟨-, rfl⟩ | ⟨-, rfl⟩ <;> rfl
      | tracing => exact absurd rfl hne
      | status =>
          obtain ⟨stats, rfl⟩ := backgroundStatus_eq_some ht
          rfl

theorem fsyncFlag_foreign (hne : e.owner ≠ .flusher) (he : e ∈ s.kernel)
    (ht : callback B now res (s.taken e) e = some t) : OpFlag.Step s.fsyncFlag t.fsyncFlag := by
  obtain ⟨new, events, h⟩ := callback_appends ht
  have hin := flusher_inflight_foreign hne ht
  refine .quiet hin (congrArg₂ (· + ·) ?_ ?_)
  · exact h.countP_foreign he hne fun x => owner_of_inSlot_fsync
  · exact congrArg (List.countP _) h.failures

theorem dumpFlag_foreign (hne : e.owner ≠ .tracing) (he : e ∈ s.kernel)
    (ht : callback B now res (s.taken e) e = some t) : OpFlag.Step s.dumpFlag t.dumpFlag := by
  obtain ⟨new, events, h⟩ := callback_appends ht
  have hjob := tracingJob_foreign hne ht
  refine .quiet (congrArg (fun job => job.dumpOp.inflight) hjob) (congrArg₂ (· + ·) ?_ ?_)
  · exact h.countP_foreign he hne fun x => owner_of_inSlot_dump
  · exact congrArg (List.countP _) h.failures

theorem callback_failures (ht : callback B now res (s.taken e) e = some t) :
    t.failures = s.failures := by
  obtain ⟨new, events, h⟩ := callback_appends ht
  exact h.failures

/-- The flusher sets its flag when it prepares the fsync. -/
theorem fsyncFlag_tick (he : .timeout .flusher ∈ s.kernel)
    (ht : backgroundFlusher B now (s.taken (.timeout .flusher)) = some t)
    (hfail : t.failures = s.failures) : OpFlag.Step s.fsyncFlag t.fsyncFlag := by
  obtain ⟨u, hu, heq⟩ := backgroundFlusher_eq_some ht
  rcases submitFsync_eq_some hu with ⟨⟨-, hidle⟩, rfl⟩ | ⟨-, rfl⟩
  · have hk : t.kernel = (s.taken (.timeout .flusher)).kernel := by rw [heq]
    have hq : t.sq = s.sq ++ (.fsync :: resent B s.flusherJob.pageId .flusher) := by
      rw [heq]
      exact List.append_assoc _ _ _
    have hbal := System.occupied_balance he hk hq .fsync
    refine .start hidle (by rw [heq]; rfl) (hbal.trans ?_) (congrArg (List.countP _) hfail)
    simp [Sqe.inSlot, Sqe.slot?, System.fsyncFlag]
  · have hk : t.kernel = (s.taken (.timeout .flusher)).kernel := by rw [heq]
    have hq : t.sq = s.sq ++ resent B s.flusherJob.pageId .flusher := by
      rw [heq]
      rfl
    have hbal := System.occupied_balance he hk hq .fsync
    refine .quiet (by rw [heq]; rfl) (congrArg₂ (· + ·) (hbal.trans ?_)
      (congrArg (List.countP _) hfail))
    simp [System.fsyncFlag]

theorem fsyncFlag_synced (he : .fsync ∈ s.kernel) (ht : fileSynced now (s.taken .fsync) = some t)
    (hfail : t.failures = s.failures) : OpFlag.Step s.fsyncFlag t.fsyncFlag := by
  obtain ⟨heap, log, stats, -, heq⟩ := fileSynced_eq_some ht
  have hk : t.kernel = (s.taken .fsync).kernel := by rw [heq]
  have hq : t.sq = s.sq ++ [] := by
    rw [heq]
    exact (List.append_nil _).symm
  exact .complete (by rw [heq]; rfl) (System.occupied_balance he hk hq .fsync)
    (congrArg (List.countP _) hfail)

/-- The tracer sets its flag when it prepares a dump. -/
theorem dumpFlag_tick (he : .timeout .tracing ∈ s.kernel)
    (ht : backgroundTracing now (s.taken (.timeout .tracing)) = some t)
    (hfail : t.failures = s.failures) : OpFlag.Step s.dumpFlag t.dumpFlag := by
  obtain ⟨hk, hq⟩ := traced_flags now (s.taken (.timeout .tracing))
  have hquiet : ∀ new, t.kernel = (s.taken (.timeout .tracing)).kernel → t.sq = s.sq ++ new →
      new.countP (Sqe.inSlot .dump) = 0 → t.occupied .dump = s.occupied .dump := by
    intro new hk hq hnew
    have hbal := System.occupied_balance he hk hq .dump
    rw [hnew] at hbal
    simpa [Sqe.inSlot, Sqe.slot?] using hbal
  have hstart : ∀ new, t.kernel = (s.taken (.timeout .tracing)).kernel → t.sq = s.sq ++ new →
      new.countP (Sqe.inSlot .dump) = 1 → t.occupied .dump = s.occupied .dump + 1 := by
    intro new hk hq hnew
    have hbal := System.occupied_balance he hk hq .dump
    rw [hnew] at hbal
    simpa [Sqe.inSlot, Sqe.slot?] using hbal
  have hsum := congrArg (List.countP (Sqe.inSlot .dump)) hfail
  rcases backgroundTracing_eq_some ht with ⟨-, heq⟩ | ⟨hidle, -, heq⟩ | ⟨-, -, -, heq⟩ |
    ⟨-, hidle, -, heq⟩
  · refine .quiet ?_ (congrArg₂ (· + ·) (hquiet [.timeout .tracing] ?_ ?_ rfl) hsum)
    · rw [heq]
      exact congrArg TracingDumpOp.inflight (traced_dumpOp now _)
    · rw [heq]
      exact hk
    · rw [heq]
      exact congrArg (· ++ _) hq
  · obtain ⟨len, off, hsq⟩ : ∃ len off,
        t.sq = s.sq ++ [.dumpWrite len off, .timeout .tracing] := by
      rw [heq]
      simp only [dumpStarted, hq, List.append_assoc]
      exact ⟨_, _, rfl⟩
    refine .start hidle (by rw [heq]; rfl) (hstart _ ?_ hsq rfl) hsum
    rw [heq]
    exact hk
  · refine .quiet (by rw [heq]; rfl) (congrArg₂ (· + ·) (hquiet [] ?_ ?_ rfl) hsum)
    · rw [heq]
    · rw [heq]
      exact (List.append_nil _).symm
  · obtain ⟨len, off, hsq⟩ : ∃ len off, t.sq = s.sq ++ [.dumpWrite len off] := by
      rw [heq]
      exact ⟨_, _, rfl⟩
    refine .start hidle (by rw [heq]; rfl) (hstart _ ?_ hsq rfl) hsum
    rw [heq]
    rfl

/-- The two completions of a dump. -/
theorem dumpFlag_dump (he : e ∈ s.kernel) (hslot : e.slot? = some .dump)
    (ht : tracingWrited res (s.taken e) = some t ∨ tracingSynced (s.taken e) = some t)
    (hfail : t.failures = s.failures) : OpFlag.Step s.dumpFlag t.dumpFlag := by
  have hin : e.inSlot .dump = true := by simp [Sqe.inSlot, hslot]
  have hsum := congrArg (List.countP (Sqe.inSlot .dump)) hfail
  rcases ht with ht | ht
  · obtain ⟨-, heq⟩ := tracingWrited_eq_some ht
    have hk : t.kernel = (s.taken e).kernel := by rw [heq]
    have hq : t.sq = s.sq ++ [.dumpFsync] := by
      rw [heq]
      rfl
    have hbal := System.occupied_balance he hk hq .dump
    rw [hin] at hbal
    exact .quiet (by rw [heq]; rfl) (congrArg₂ (· + ·) (Nat.add_right_cancel hbal) hsum)
  · have heq := tracingSynced_eq_some ht
    have hk : t.kernel = (s.taken e).kernel := by rw [heq]
    have hq : t.sq = s.sq ++ [] := by
      rw [heq]
      exact (List.append_nil _).symm
    have hbal := System.occupied_balance he hk hq .dump
    rw [hin] at hbal
    exact .complete (by rw [heq]; rfl) hbal hsum

theorem flags_callback (he : e ∈ s.kernel) (ht : callback B now res (s.taken e) e = some t) :
    OpFlag.Step s.fsyncFlag t.fsyncFlag ∧ OpFlag.Step s.dumpFlag t.dumpFlag := by
  have hfail := callback_failures ht
  constructor
  · by_cases hf : e.owner = .flusher
    · cases e <;> simp only [Sqe.owner, reduceCtorEq] at hf
      case timeout job =>
        subst hf
        exact fsyncFlag_tick he ht hfail
      case fsync => exact fsyncFlag_synced he ht hfail
    · exact fsyncFlag_foreign hf he ht
  · by_cases hd : e.owner = .tracing
    · cases e <;> simp only [Sqe.owner, reduceCtorEq] at hd
      case timeout job =>
        subst hd
        exact dumpFlag_tick he ht hfail
      all_goals
        simp only [callback] at ht
        split at ht
        · exact dumpFlag_dump he rfl (.inl ht) hfail
        · exact dumpFlag_dump he rfl (.inr (a := tracingWrited res _ = some t) ht) hfail
    · exact dumpFlag_foreign hd he ht

theorem flags_step {a : Act} (hs : step B s a = some t) :
    OpFlag.Step s.fsyncFlag t.fsyncFlag ∧ OpFlag.Step s.dumpFlag t.dumpFlag := by
  cases a with
  | submit =>
      obtain ⟨-, rfl⟩ := step_submit hs
      constructor <;> refine .quiet rfl ?_ <;>
        simp [System.fsyncFlag, System.dumpFlag, System.occupied, System.outstanding,
          System.failures]
  | tickEnd =>
      obtain ⟨-, rfl⟩ := step_tickEnd hs
      exact ⟨.quiet rfl rfl, .quiet rfl rfl⟩
  | cqe e res now =>
      obtain ⟨-, he, ⟨-, ht⟩ | ⟨-, rfl⟩⟩ := step_cqe_cases hs
      · exact flags_callback he ht
      · exact ⟨.quiet rfl (failed_balance he _), .quiet rfl (failed_balance he _)⟩

end

theorem ReachFailing.any {t₀ t₁ : Timespec} {s : System} (h : ReachFailing t₀ t₁ s) :
    ReachAny t₀ t₁ s :=
  h.mono fun _ _ _ => trivial

theorem ReachAny.flags {t₀ t₁ : Timespec} {s : System} (h : ReachAny t₀ t₁ s) :
    s.fsyncFlag.Sound ∧ s.dumpFlag.Sound := by
  refine Reachable.invariant (I := fun s => s.fsyncFlag.Sound ∧ s.dumpFlag.Sound) h ?_ ?_
  · rw [mainStart_eq]
    exact ⟨⟨rfl, Nat.zero_le 1⟩, rfl, Nat.zero_le 1⟩
  · rintro s a t ⟨hf, hd⟩ - hs
    obtain ⟨hfs, hds⟩ := flags_step hs
    exact ⟨hf.step hfs, hd.step hds⟩

theorem countP_inSlot_eq_zero_iff {l : List Sqe} {slot : Slot} :
    l.countP (Sqe.inSlot slot) = 0 ↔ ∀ e ∈ l, e.slot? ≠ some slot := by
  simp [List.countP_eq_zero, Sqe.inSlot]

/-- While fewer than 256 page operations are in flight, the counters and flags are
right exactly when no data fsync and no part of a dump has failed and the failed
page operations wrap to nothing. -/
theorem inflight_right_iff {t₀ t₁ : Timespec} {s : System} (h : ReachFailing t₀ t₁ s)
    (hsmall : s.writesInFlight + s.readsInFlight < 2 ^ 8) :
    (s.writerJob.inflight = s.writesInFlight ∧ s.readerJob.inflight = s.readsInFlight ∧
      (s.flusherJob.inflight ≠ 0 → 0 < s.occupied .fsync) ∧
      (s.tracingJob.dumpOp.inflight ≠ 0 → 0 < s.occupied .dump)) ↔
    (2 ^ 8 ∣ s.failures.countP Sqe.isPageWrite ∧ 2 ^ 8 ∣ s.failures.countP Sqe.isPageRead ∧
      (∀ e ∈ s.failures, e.slot? ≠ some .fsync) ∧ ∀ e ∈ s.failures, e.slot? ≠ some .dump) := by
  obtain ⟨hw, hr⟩ := h.any.parts
  obtain ⟨hf, hd⟩ := h.any.flags
  have hwrites : s.writerJob.inflight = u8 (s.writesInFlight + s.failures.countP _) := hw.counter
  have hreads : s.readerJob.inflight = u8 (s.readsInFlight + s.failures.countP _) := hr.counter
  have hfsync : (s.flusherJob.inflight ≠ 0 → 0 < s.occupied .fsync) ↔ _ := hf.iff
  have hdump : (s.tracingJob.dumpOp.inflight ≠ 0 → 0 < s.occupied .dump) ↔ _ := hd.iff
  rw [hfsync, hdump, hwrites, hreads]
  refine and_congr ?_ (and_congr ?_ (and_congr countP_inSlot_eq_zero_iff
    countP_inSlot_eq_zero_iff))
  · simp only [u8, Nat.dvd_iff_mod_eq_zero]
    omega
  · simp only [u8, Nat.dvd_iff_mod_eq_zero]
    omega

/-- A page written, two in flight, nothing failed. -/
theorem inflight_right_iff_two_writes :
    ∃ s, ReachFailing ⟨0, 0⟩ ⟨0, 0⟩ s ∧ s.writesInFlight = 2 ∧ s.failures = [] ∧
      s.writerJob.inflight = s.writesInFlight := by
  obtain ⟨s, hs, hp⟩ : ∃ s, ReachFailing ⟨0, 0⟩ ⟨0, 0⟩ s ∧
      decide (s.writesInFlight = 2 ∧ s.readsInFlight = 0 ∧ s.failures = []) = true :=
    exists_of_execute
      [.submit, .cqe (.timeout .writer) (-62) ⟨0, 0⟩, .tickEnd, .submit,
        .cqe (.pageWrite 0 0) 65536 ⟨0, 0⟩, .cqe (.timeout .writer) (-62) ⟨0, 0⟩] _
      (by decide +kernel)
  obtain ⟨hwrites, hreads, hnone⟩ := of_decide_eq_true hp
  refine ⟨s, hs, hwrites, hnone, ((inflight_right_iff hs (by omega)).mpr ?_).1⟩
  rw [hnone]
  decide

/-- A page write fails and then the data fsync: nothing of either is in flight, and
both are counted as if it were. -/
theorem failed_operations_counted :
    ∃ s, ReachFailing ⟨0, 0⟩ ⟨0, 0⟩ s ∧ s.writesInFlight = 1 ∧ s.readsInFlight = 0 ∧
      s.writerJob.inflight = 2 ∧ s.flusherJob.inflight = 1 ∧ s.occupied .fsync = 0 := by
  obtain ⟨s, hs, hp⟩ : ∃ s, ReachFailing ⟨0, 0⟩ ⟨0, 0⟩ s ∧
      decide (s.writesInFlight = 1 ∧ s.readsInFlight = 0 ∧ s.writerJob.inflight = 2 ∧
        s.flusherJob.inflight = 1 ∧ s.occupied .fsync = 0) = true :=
    exists_of_execute
      [.submit, .cqe (.timeout .writer) (-62) ⟨0, 0⟩, .tickEnd, .submit,
        .cqe (.pageWrite 0 0) 65536 ⟨0, 0⟩, .cqe (.timeout .writer) (-62) ⟨0, 0⟩,
        .cqe (.timeout .flusher) (-62) ⟨0, 0⟩, .tickEnd, .submit,
        .cqe (.pageWrite 1 65536) (-5) ⟨0, 0⟩, .cqe .fsync (-5) ⟨0, 0⟩] _
      (by decide +kernel)
  exact ⟨s, hs, of_decide_eq_true hp⟩

end IoScheduler
