import IoScheduler.SchedulerDumps
import IoScheduler.SchedulerProgress

/-!
# The last dump

`tracing_synced` stops the tracing job as soon as the page jobs have stopped,
whatever the ring holds by then. Items recorded after the dump in flight was
prepared are left in the ring, and `main` leaves its loop.
-/
namespace IoScheduler
open Machine Transition

/-- Every item recorded has been dumped and synced. -/
def Drained (s : System) : Prop :=
  cbufUsedCount s.tracingJob.cbuf = 0 ∧
    s.tracingJob.traceSynced = u64 (s.tracingJob.traceDone * sizeofTracingItem)

instance (s : System) : Decidable (Drained s) := inferInstanceAs (Decidable (_ ∧ _))

/-- With the page jobs stopped, the fsync of a dump completes only when the ring is
empty. -/
def LastDumpDrains (s : System) (a : Act) : Prop :=
  a.completes .dumpFsync = true → s.finished = true → cbufUsedCount s.tracingJob.cbuf = 0

instance (s : System) (a : Act) : Decidable (LastDumpDrains s a) :=
  inferInstanceAs (Decidable (_ → _))

/-- The loop is about to end: the tracing job is the last that stopped. -/
structure TracerStopped (s : System) : Prop where
  phase : s.phase ≠ .submit
  finished : s.finished = true
  stopped : s.tracingJob.running = false
  noDump : ∀ x ∈ s.kernel, x.slot? ≠ some .dump

section
variable {B : ℕ} {now : Timespec} {res : ℤ} {s t : System} {e : Sqe} {items : List ℕ}

/-- After it stopped, a tick of the tracer may still prepare a dump, which is never
submitted. -/
theorem TracerStopped.step {a : Act} (h : TracerStopped s) (hok : Successful s a)
    (hs : IoScheduler.step B s a = some t) : TracerStopped t ∧ (Drained t ↔ Drained s) := by
  cases a with
  | submit => exact absurd (step_submit hs).1 h.phase
  | tickEnd =>
      obtain ⟨-, rfl⟩ := step_tickEnd hs
      refine ⟨⟨?_, h.finished, h.stopped, h.noDump⟩, Iff.rfl⟩
      simp [System.allStopped, h.finished, h.stopped]
  | cqe e res now =>
      obtain ⟨-, he, ht⟩ := step_cqe hok hs
      have hphase : t.phase ≠ .submit := (callback_phase ht).symm ▸ h.phase
      have hkernel : t.kernel = (s.taken e).kernel := by
        obtain ⟨new, events, happ⟩ := callback_appends ht
        exact happ.kernel
      have hnoDump : ∀ x ∈ t.kernel, x.slot? ≠ some .dump := fun x hx =>
        h.noDump x (mem_of_mem_taken (hkernel ▸ hx))
      rcases tracing_cases hok hs with ⟨hf, -⟩ | ⟨res, now, ha, -, ht⟩ | ⟨e, res, he, hslot, -⟩
      · refine ⟨⟨hphase, hf.finished h.finished, ?_, hnoDump⟩, ?_⟩
        · rw [hf.tracingJob, h.stopped]
        · rw [Drained, Drained, hf.tracingJob]
      · have hfin : (s.taken (.timeout .tracing)).finished = true := h.finished
        have htr : traced now (s.taken (.timeout .tracing)) = s.taken (.timeout .tracing) :=
          traced_of_finished hfin
        rcases backgroundTracing_eq_some ht with ⟨-, rfl⟩ | ⟨-, -, rfl⟩ | ⟨-, -, -, rfl⟩ |
          ⟨-, -, -, rfl⟩
        · rw [htr] at hphase hnoDump ⊢
          exact ⟨⟨hphase, h.finished, h.stopped, hnoDump⟩, Iff.rfl⟩
        · rw [htr] at hphase hnoDump ⊢
          exact ⟨⟨hphase, h.finished, h.stopped, hnoDump⟩, Iff.rfl⟩
        · exact ⟨⟨hphase, h.finished, h.stopped, hnoDump⟩, Iff.rfl⟩
        · exact ⟨⟨hphase, h.finished, h.stopped, hnoDump⟩, Iff.rfl⟩
      · exact absurd hslot (h.noDump e he)

/-- The completion that stops the tracing job. -/
theorem tracerStopped_of_synced {k n : ℕ} (h : Dumped items s) (hslots : Slots s)
    (hphase : s.phase = .reap) (he : .dumpFsync ∈ s.kernel) (hfin : s.finished = true)
    (hsum : k + n = items.sum)
    (hop : s.tracingJob.dumpOp = ⟨.tracingSynced, n * sizeofTracingItem, n, 1⟩)
    (hsynced : s.tracingJob.traceSynced = u64 (k * sizeofTracingItem))
    (ht : tracingSynced (s.taken .dumpFsync) = some t) :
    TracerStopped t ∧ (Drained t ↔ cbufUsedCount s.tracingJob.cbuf = 0) := by
  have hd := h.synced hsum hop hsynced ht
  obtain rfl := tracingSynced_eq_some ht
  have hfin' : (s.taken .dumpFsync).finished = true := hfin
  refine ⟨⟨?_, hfin, ?_, fun x hx => ?_⟩, ⟨fun hdr => hdr.1, fun hused => ⟨hused, ?_⟩⟩⟩
  · exact hphase.trans_ne Phase.noConfusion
  · simp only [hfin', Bool.not_true, Bool.false_and]
  · exact System.slot_ne_of_free (hslots.taken_free he rfl) (List.mem_append_left _ hx)
  · have hnone : s.recorded - items.sum = 0 := (h.ring.used (by decide)).symm.trans hused
    have hle := h.ring.head_le
    have hN : s.recorded = items.sum := by omega
    change u64 (s.tracingJob.traceSynced + s.tracingJob.dumpOp.toWrite) =
      u64 (s.tracingJob.traceDone * sizeofTracingItem)
    rw [hsynced, hop, h.done, hN, ← hsum]
    simp only [u64, sizeofTracingItem]
    omega

/-- A step stops the tracing job, which ends the loop, or leaves it running. -/
theorem tracing_running_step {a : Act} (h : Dumped items s) (hslots : Slots s)
    (hok : Successful s a) (hs : IoScheduler.step B s a = some t) :
    (a.completes .dumpFsync = true ∧ s.finished = true ∧ TracerStopped t ∧
      (Drained t ↔ cbufUsedCount s.tracingJob.cbuf = 0)) ∨
    ((a.completes .dumpFsync = true → s.finished = false) ∧
      t.tracingJob.running = s.tracingJob.running) := by
  cases a with
  | submit =>
      obtain ⟨-, rfl⟩ := step_submit hs
      exact .inr ⟨Bool.noConfusion, rfl⟩
  | tickEnd =>
      obtain ⟨-, rfl⟩ := step_tickEnd hs
      exact .inr ⟨Bool.noConfusion, rfl⟩
  | cqe e res now =>
      obtain ⟨hphase, he, ht⟩ := step_cqe hok hs
      by_cases hslot : e.slot? = some .dump
      · rcases h.completion hslots he hslot ht with ⟨n, -, -, -, -, rfl, ht⟩ |
          ⟨k, n, hsum, hop, hsynced, rfl, ht⟩
        · obtain ⟨-, rfl⟩ := tracingWrited_eq_some ht
          exact .inr ⟨fun hc => absurd hc (by simp [Act.completes]), rfl⟩
        · by_cases hfin : s.finished = true
          · exact .inl ⟨by simp [Act.completes], hfin,
              tracerStopped_of_synced h hslots hphase he hfin hsum hop hsynced ht⟩
          · have hfin : s.finished = false := Bool.not_eq_true _ ▸ hfin
            obtain rfl := tracingSynced_eq_some ht
            exact .inr ⟨fun _ => hfin, congrArg (fun b => !b && s.tracingJob.running) hfin⟩
      · refine .inr ⟨fun hc => ?_, ?_⟩
        · simp only [Act.completes, beq_iff_eq] at hc
          exact absurd (hc ▸ rfl) hslot
        · by_cases htimer : e = .timeout .tracing
          · subst htimer
            obtain ⟨cbuf, traceDone, log, htr⟩ := traced_eq now (s.taken (.timeout .tracing))
            rcases backgroundTracing_eq_some ht with ⟨-, rfl⟩ | ⟨-, -, rfl⟩ | ⟨-, -, -, rfl⟩ |
              ⟨-, -, -, rfl⟩
            · rw [htr]
              rfl
            · rw [htr]
              rfl
            · rfl
            · rfl
          · refine congrArg TracingJob.running
              (callback_tracingFrame he (fun hj => htimer ?_) hslot ht).tracingJob
            cases e <;> simp_all [Sqe.slot?]

end

theorem TracerStopped.lastDumpDrains {B : ℕ} {s t : System} {a : Act} (h : TracerStopped s)
    (hok : Successful s a) (hs : IoScheduler.step B s a = some t) : LastDumpDrains s a := by
  intro hc
  cases a with
  | submit | tickEnd => cases hc
  | cqe e res now =>
      have he : e = .dumpFsync := by simpa [Act.completes] using hc
      exact absurd (he ▸ rfl) (h.noDump e (step_cqe hok hs).2.1)

/-- In a run that meets the condition the tracing job runs, or its last dump drained
the ring. -/
theorem running_or_drained {B : ℕ} {t₀ t₁ : Timespec} {as : List Act} {s : System}
    (h : Run (step B) (fun s a => Successful s a ∧ LastDumpDrains s a) (mainStart t₀ t₁) as s) :
    s.tracingJob.running = true ∨ TracerStopped s ∧ Drained s := by
  induction h with
  | nil =>
      rw [mainStart_eq]
      exact .inl rfl
  | snoc hr hc hs ih =>
      have hr' := hr.mono fun _ _ hc => hc.1
      rcases ih with hrun | ⟨hstop, hdr⟩
      · obtain ⟨items, -, hd⟩ := dumped_of_run hr'
        rcases tracing_running_step hd (Reach.slots ⟨_, hr'⟩) hc.1 hs with
          ⟨hfsync, hfin, hstop, hiff⟩ | ⟨-, hsame⟩
        · exact .inr ⟨hstop, hiff.mpr (hc.2 hfsync hfin)⟩
        · exact .inl (hsame.trans hrun)
      · obtain ⟨hstop', hiff⟩ := hstop.step hc.1 hs
        exact .inr ⟨hstop', hiff.mpr hdr⟩

/-- A run met the condition, or items are left in the ring for good. -/
theorem run_or_lost {B : ℕ} {t₀ t₁ : Timespec} {as : List Act} {s : System}
    (h : Run (step B) Successful (mainStart t₀ t₁) as s) :
    Run (step B) (fun s a => Successful s a ∧ LastDumpDrains s a) (mainStart t₀ t₁) as s ∨
      TracerStopped s ∧ ¬ Drained s := by
  induction h with
  | nil => exact .inl .nil
  | @snoc as s t a hr hok hs ih =>
      rcases ih with hrun | ⟨hstop, hlost⟩
      · by_cases hcond : LastDumpDrains s a
        · exact .inl (hrun.snoc ⟨hok, hcond⟩ hs)
        · obtain ⟨items, -, hd⟩ := dumped_of_run hr
          rcases tracing_running_step hd (Reach.slots ⟨_, hr⟩) hok hs with
            ⟨hfsync, hfin, hstop, hiff⟩ | ⟨hgo, -⟩
          · exact .inr ⟨hstop, fun hdr => hcond fun _ _ => hiff.mp hdr⟩
          · refine (hcond fun hfsync hfin => ?_).elim
            rw [hgo hfsync] at hfin
            cases hfin
      · obtain ⟨hstop', hiff⟩ := hstop.step hok hs
        exact .inr ⟨hstop', hlost ∘ hiff.mp⟩

/-- When `main`'s loop has ended, everything recorded is written and synced exactly
if every dump fsync that completed after the page jobs found the ring empty. -/
theorem drained_iff_run {B : ℕ} {t₀ t₁ : Timespec} {as : List Act} {s : System}
    (h : Run (step B) Successful (mainStart t₀ t₁) as s) (hexit : s.phase = .exited) :
    Drained s ↔
      Run (step B) (fun s a => Successful s a ∧ LastDumpDrains s a) (mainStart t₀ t₁) as s := by
  constructor
  · intro hdr
    exact (run_or_lost h).resolve_right fun hlost => hlost.2 hdr
  · intro hr
    have hstop : s.tracingJob.running = false := by
      have hall := Reach.allStopped ⟨as, h⟩ hexit
      simpa using (Bool.and_eq_true_iff.mp hall).2
    rcases running_or_drained hr with hrun | ⟨-, hdr⟩
    · rw [hstop] at hrun
      cases hrun
    · exact hdr

/-- One page of target: the only item recorded is dumped and synced before the end. -/
theorem drained_iff_run_one_page :
    ∃ as s, Run (step 65536) (fun s a => Successful s a ∧ LastDumpDrains s a)
      (mainStart ⟨0, 0⟩ ⟨0, 0⟩) as s ∧ s.phase = .exited ∧ s.recorded = 1 ∧ Drained s := by
  obtain ⟨s, ⟨as, hs⟩, hp⟩ : ∃ s, Reachable (step 65536)
      (fun s a => Successful s a ∧ LastDumpDrains s a) (mainStart ⟨0, 0⟩ ⟨0, 0⟩) s ∧
      decide (s.phase = .exited ∧ s.recorded = 1) = true :=
    exists_of_execute
      [.submit, .cqe (.timeout .tracing) (-62) ⟨0, 0⟩, .cqe (.timeout .writer) (-62) ⟨0, 0⟩,
        .tickEnd, .submit, .cqe (.pageWrite 0 0) 65536 ⟨0, 0⟩,
        .cqe (.timeout .flusher) (-62) ⟨0, 0⟩, .tickEnd, .submit, .cqe .fsync 0 ⟨0, 0⟩,
        .cqe (.timeout .flusher) (-62) ⟨0, 0⟩, .cqe (.timeout .reader) (-62) ⟨0, 0⟩,
        .cqe (.timeout .tracing) (-62) ⟨0, 0⟩, .tickEnd, .submit,
        .cqe (.dumpWrite 40 0) 40 ⟨0, 0⟩, .tickEnd, .submit, .cqe .dumpFsync 0 ⟨0, 0⟩,
        .tickEnd] _ (by decide +kernel)
  obtain ⟨hexit, hrec⟩ := of_decide_eq_true hp
  exact ⟨as, s, hs, hexit, hrec,
    (drained_iff_run (hs.mono fun _ _ hc => hc.1) hexit).mpr hs⟩

/-! ## An item left behind -/

/-- Thirty-two items are recorded and their dump is submitted; one more is recorded. -/
def dumpInFlight : List Act :=
  (List.replicate 33 [Act.submit, .cqe (.timeout .tracing) (-62) ⟨0, 0⟩, .tickEnd]).flatten

theorem dumpInFlight_spec : ∃ s, ReachInOrder bytesToWrite ⟨0, 0⟩ ⟨0, 0⟩ s ∧
    decide (s.phase = .submit ∧ s.tracingJob.running = true ∧ s.occupied .dump = 1 ∧
      s.tracingJob.cbuf = ⟨64, 40, 0, 33⟩ ∧
      s.tracingJob.dumpOp = ⟨.tracingWrited, 1280, 32, 1⟩) = true :=
  exists_of_execute dumpInFlight _ (by decide +kernel)

theorem step_cqe_eq {B : ℕ} {s : System} {e : Sqe} {res : ℤ} {now : Timespec}
    (hphase : s.phase = .reap) (he : e ∈ s.kernel) (hres : 0 ≤ res) :
    step B s (.cqe e res now) = callback B now res (s.taken e) e := by
  have hetime : res ≠ -etime := by
    intro h
    rw [h] at hres
    exact absurd hres (by decide)
  simp only [step, hphase, he, and_self, if_true, ioTickCqe, hetime, false_and, if_false, hres,
    true_or]
  rw [← hphase]
  rfl

/-- The dump in flight is written after the page jobs have stopped. -/
theorem exists_last_writed {B : ℕ} {s : System} (hs : Reach B ⟨0, 0⟩ ⟨0, 0⟩ s)
    (hphase : s.phase = .reap) (hsq : s.sq = []) (hocc : s.occupied .dump = 1)
    (hop : s.tracingJob.dumpOp = ⟨.tracingWrited, 1280, 32, 1⟩) :
    ∃ t, Reach B ⟨0, 0⟩ ⟨0, 0⟩ t ∧ t.phase = .reap ∧ t.finished = s.finished ∧
      t.sq = [.dumpFsync] ∧
      t.tracingJob = { s.tracingJob with
        cbuf := cbufAdvanceHead s.tracingJob.cbuf 32
        dumpOp := ⟨.tracingSynced, 1280, 32, 1⟩ } := by
  obtain ⟨e, he, hslot⟩ := List.countP_pos_iff.mp (hocc ▸ Nat.one_pos : 0 < s.occupied .dump)
  have he : e ∈ s.kernel := by simpa [System.outstanding, hsq] using he
  have hslot : e.slot? = some .dump := of_decide_eq_true hslot
  have hop' : (s.taken e).tracingJob.dumpOp = ⟨.tracingWrited, 1280, 32, 1⟩ := hop
  obtain ⟨t, ht⟩ : ∃ t, tracingWrited 1280 (s.taken e) = some t := by
    have hres : (0 : ℤ) ≤ 1280 ∧
        ((1280 : ℤ) % 2 ^ 32).toNat = (s.taken e).tracingJob.dumpOp.toWrite := by
      rw [hop']
      decide
    rw [tracingWrited, if_pos hres]
    exact ioPrepareSqe_isSome (by simp [System.taken, hsq, entries])
  have hcall : callback B ⟨0, 0⟩ 1280 (s.taken e) e = some t := by
    rw [← ht]
    cases e <;> first | (simp only [callback, hop']; done) | cases hslot
  have hok : Successful s (.cqe e 1280 ⟨0, 0⟩) := by
    cases e <;> first | (simp [Successful, Sqe.isTimeout]; done) | cases hslot
  have hreach := hs.next hok ((step_cqe_eq hphase he (by decide)).trans hcall)
  obtain ⟨-, rfl⟩ := tracingWrited_eq_some ht
  refine ⟨_, hreach, hphase, rfl, congrArg (fun q => q ++ [Sqe.dumpFsync]) hsq, ?_⟩
  simp only [hop']
  rfl

/-- Its fsync completes, and the loop ends. -/
theorem exists_last_synced {B : ℕ} {s : System} (hs : Reach B ⟨0, 0⟩ ⟨0, 0⟩ s)
    (hphase : s.phase = .reap) (hsq : s.sq = [.dumpFsync]) (hfin : s.finished = true)
    (hrun : s.tracingJob.running = true)
    (hop : s.tracingJob.dumpOp.callback = .tracingSynced) :
    ∃ t, Reach B ⟨0, 0⟩ ⟨0, 0⟩ t ∧ t.phase = .exited ∧
      t.tracingJob.cbuf = s.tracingJob.cbuf := by
  have hflush : Reach B ⟨0, 0⟩ ⟨0, 0⟩ s.flushed :=
    hs.trans ((reachable_flushed (by simp [hphase]) hrun).mono fun _ _ hc => hc.1)
  have he : Sqe.dumpFsync ∈ s.flushed.kernel := by simp [System.flushed, hsq]
  obtain ⟨t, ht⟩ : ∃ t, tracingSynced (s.flushed.taken .dumpFsync) = some t := ⟨_, rfl⟩
  have hcall : callback B ⟨0, 0⟩ 0 (s.flushed.taken .dumpFsync) .dumpFsync = some t := by
    rw [← ht]
    simp only [callback, System.flushed, System.taken, hop]
  have hreach := hflush.next (a := .cqe .dumpFsync 0 ⟨0, 0⟩) (by simp [Successful, Sqe.isTimeout])
    ((step_cqe_eq rfl he le_rfl).trans hcall)
  obtain rfl := tracingSynced_eq_some ht
  have hfin' : (s.flushed.taken .dumpFsync).finished = true := hfin
  refine ⟨_, hreach.next (a := .tickEnd) trivial rfl, ?_, rfl⟩
  refine if_pos ?_
  simp only [System.allStopped, hfin', Bool.not_true, Bool.false_and, Bool.not_false,
    Bool.and_true]
  exact hfin

/-- With the target of the program as built: the page jobs finish while a dump is in
flight, and the item recorded since it was prepared is lost. -/
theorem item_left_behind : ∃ s, Reach bytesToWrite ⟨0, 0⟩ ⟨0, 0⟩ s ∧ s.phase = .exited ∧
    s.allStopped = true ∧ cbufUsedCount s.tracingJob.cbuf = 1 ∧ ¬ Drained s := by
  obtain ⟨s, hs, hp⟩ := dumpInFlight_spec
  obtain ⟨hphase, hrun, hocc, hcbuf, hop⟩ := of_decide_eq_true hp
  obtain ⟨t, ht, haside, hfin, hreap, hsq⟩ :=
    exists_finished (by decide) (by decide) hs (by simp [hphase]) hrun
  have hjob := haside.tracingJob
  obtain ⟨u, hu, hreap', hfin', hsq', hjob'⟩ := exists_last_writed ht.reach hreap hsq
    (haside.dump.trans hocc) (hjob ▸ hop)
  obtain ⟨v, hv, hexit, hcbuf'⟩ := exists_last_synced hu hreap' hsq' (hfin'.trans hfin)
    (by rw [hjob', hjob]; exact hrun) (by rw [hjob'])
  have hused : cbufUsedCount v.tracingJob.cbuf = 1 := by
    rw [hcbuf', hjob', hjob, hcbuf]
    exact (by decide : cbufUsedCount (cbufAdvanceHead ⟨64, 40, 0, 33⟩ 32) = 1)
  refine ⟨v, hv, hexit, hv.allStopped hexit, hused, fun hdr => ?_⟩
  rw [hdr.1] at hused
  cases hused

end IoScheduler
