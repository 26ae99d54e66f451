import IoScheduler.SchedulerQueue

/-!
# Where the loop can still end

Once the page jobs have stopped, no dump is in flight and the ring is empty, the
tracing job is never stopped and `main` does not leave its loop. From every other
state reached the kernel can complete operations in an order that ends it.
-/
namespace IoScheduler
open Machine Transition

section
variable {B : ℕ} {now : Timespec} {res : ℤ} {s t u : System} {a : Act} {e : Sqe} {items : List ℕ}

/-! ## Past the last dump -/

theorem nothingToDump_iff : nothingToDump s = true ↔ s.finished = true ∧
    s.tracingJob.running = true ∧ s.tracingJob.dumpOp.inflight = 0 ∧
      cbufUsedCount s.tracingJob.cbuf = 0 := by
  simp only [nothingToDump, Bool.and_eq_true, beq_iff_eq, and_assoc]

theorem nothingToDump_step (h : nothingToDump s = true) (hslots : Slots s)
    (hok : Successful s a) (hs : step B s a = some t) : nothingToDump t = true := by
  obtain ⟨hfin, hrun, hidle, hempty⟩ := nothingToDump_iff.mp h
  rcases tracing_cases hok hs with ⟨hf, -⟩ | ⟨res, now, rfl, he, ht⟩ | ⟨e, res, he, hslot, -⟩
  · rw [nothingToDump_iff, hf.tracingJob]
    exact ⟨hf.finished hfin, hrun, hidle, hempty⟩
  · have hfin' : (s.taken (.timeout .tracing)).finished = true := hfin
    rcases backgroundTracing_eq_some ht with ⟨hgo, -⟩ | ⟨-, hused, -⟩ | ⟨-, -, -, rfl⟩ |
      ⟨-, -, hused, -⟩
    · rcases hgo with hgo | hbusy
      · rw [hfin'] at hgo
        cases hgo
      · exact absurd hidle hbusy
    · rw [traced_of_finished hfin'] at hused
      exact absurd hempty hused
    · exact nothingToDump_iff.mpr ⟨hfin, hrun, hidle, hempty⟩
    · exact absurd hempty hused
  · exact absurd hslot (hslots.not_mem_of_dumpIdle hidle he)

end

section
variable {B : ℕ} {t₀ t₁ : Timespec} {s t u : System}

theorem Reach.nothingToDump (h : Reach B t₀ t₁ s) (hnone : nothingToDump s = true)
    (k : Reachable (step B) Successful s u) : IoScheduler.nothingToDump u = true :=
  k.invariant_reachable hnone fun _ _ _ hr hi hok hs =>
    nothingToDump_step hi (Reach.slots (h.trans hr)) hok hs

/-- The tracing job is ready until nothing is left to dump. -/
theorem Reach.ready (h : Reach B t₀ t₁ s) (hsome : IoScheduler.nothingToDump s = false) :
    TracingReady s := by
  have hor : TracingReady s ∨ IoScheduler.nothingToDump s = true := by
    refine Reachable.invariant_reachable
      (I := fun s => TracingReady s ∨ IoScheduler.nothingToDump s = true) h
      (.inl (tracingReady_mainStart t₀ t₁)) fun s a t hr hi hok hs => ?_
    have hslots : Slots s := Reach.slots hr
    rcases hi with hready | hnone
    · by_cases hlast : LastTickDumps s a
      · exact .inl (hready.step hslots hok hlast hs)
      · simp only [LastTickDumps, Classical.not_imp, Bool.not_eq_false] at hlast
        exact .inr (nothingToDump_step hlast.2 hslots hok hs)
    · exact .inr (nothingToDump_step hnone hslots hok hs)
  refine hor.resolve_right fun hnone => ?_
  rw [hsome] at hnone
  cases hnone

/-- The tracing job stops last, and the loop ends before anything else is submitted. -/
theorem Reach.running_or_stopped (h : Reach B t₀ t₁ s) :
    s.tracingJob.running = true ∨ TracerStopped s := by
  refine Reachable.invariant_reachable
    (I := fun s => s.tracingJob.running = true ∨ TracerStopped s) h ?_ fun s a t hr hi hok hs => ?_
  · rw [mainStart_eq]
    exact .inl rfl
  · rcases hi with hrun | hstop
    · obtain ⟨as, hr⟩ := hr
      obtain ⟨items, -, hd⟩ := dumped_of_run hr
      have hslots : Slots s := Reach.slots ⟨as, hr⟩
      rcases tracing_running_step hd hslots hok hs with ⟨-, -, hstop, -⟩ | ⟨-, hsame⟩
      · exact .inr hstop
      · exact .inl (hsame.trans hrun)
    · exact .inr (hstop.step hok hs).1

/-! ## An order that ends the loop -/

/-- The loop can still end. -/
def CanExit (B : ℕ) (s : System) : Prop :=
  ∃ u, Reachable (step B) InOrder s u ∧ u.phase = .exited

theorem CanExit.of_reachable (h : CanExit B t) (k : Reachable (step B) InOrder s t) :
    CanExit B s := by
  obtain ⟨u, hu, hexit⟩ := h
  exact ⟨u, k.trans hu, hexit⟩

theorem TracerStopped.canExit (h : TracerStopped s) : CanExit B s := by
  cases hphase : s.phase with
  | submit => exact absurd hphase h.phase
  | exited => exact ⟨s, .start, hphase⟩
  | reap =>
      have hall : s.allStopped = true := by simp [System.allStopped, h.finished, h.stopped]
      have hstep : IoScheduler.step B s .tickEnd = some { s with phase := .exited } := by
        simp [IoScheduler.step, hphase, hall]
      exact ⟨_, Reachable.start.next (a := .tickEnd) ⟨trivial, trivial⟩ hstep, rfl⟩

theorem Reach.phase_ne (h : Reach B t₀ t₁ s) (hrun : s.tracingJob.running = true) :
    s.phase ≠ .exited := by
  intro hexit
  have hall := h.allStopped hexit
  rw [System.allStopped, hrun, Bool.not_true, Bool.and_false] at hall
  cases hall

theorem Reach.dumped (h : Reach B t₀ t₁ s) : ∃ items, Dumped items s := by
  obtain ⟨as, hr⟩ := h
  obtain ⟨items, -, hd⟩ := dumped_of_run hr
  exact ⟨items, hd⟩

/-- What the kernel holds of a dump, once everything is submitted. -/
theorem Reach.dump_outstanding (h : Reach B t₀ t₁ s) (hbusy : s.tracingJob.dumpOp.inflight ≠ 0) :
    (∃ n off, n ≤ tracingBufLen ∧
      s.tracingJob.dumpOp = ⟨.tracingWrited, n * sizeofTracingItem, n, 1⟩ ∧
      .dumpWrite (n * sizeofTracingItem) off ∈ s.flushed.kernel) ∨
    s.tracingJob.dumpOp.callback = .tracingSynced ∧ .dumpFsync ∈ s.flushed.kernel := by
  have hpos : 0 < s.occupied .dump := h.slots.dump.symm ▸ Nat.pos_of_ne_zero hbusy
  obtain ⟨e, he, hslot⟩ := List.countP_pos_iff.mp hpos
  have hslot : e.slot? = some .dump := of_decide_eq_true hslot
  obtain ⟨items, hd⟩ := h.dumped
  rcases hd.dump with ⟨hidle, -⟩ | ⟨n, -, hle, hop, -, honly⟩ | ⟨k, n, -, hop, -, honly⟩
  · exact absurd hidle hbusy
  · obtain rfl := honly e he hslot
    have hroom := hd.ring.room
    exact .inl ⟨n, _, by omega, hop, he⟩
  · obtain rfl := honly e he hslot
    exact .inr ⟨congrArg TracingDumpOp.callback hop, he⟩

/-- The fsync of the last dump completes, and the loop ends. -/
theorem ReachInOrder.exit_of_syncing (h : ReachInOrder B t₀ t₁ s) (hfin : s.finished = true)
    (hrun : s.tracingJob.running = true)
    (hcallback : s.tracingJob.dumpOp.callback = .tracingSynced)
    (hbusy : s.tracingJob.dumpOp.inflight ≠ 0) : CanExit B s := by
  have he : .dumpFsync ∈ s.flushed.kernel := by
    rcases h.reach.dump_outstanding hbusy with ⟨n, off, -, hop, -⟩ | ⟨-, he⟩
    · rw [hop] at hcallback
      cases hcallback
    · exact he
  obtain ⟨t, ht⟩ : ∃ t, tracingSynced (s.flushed.taken .dumpFsync) = some t := ⟨_, rfl⟩
  have hcall : callback B ⟨0, 0⟩ 0 (s.flushed.taken .dumpFsync) .dumpFsync = some t := by
    rw [← ht]
    simp only [callback, System.flushed, System.taken, hcallback]
  have hflush := reachable_flushed (B := B) (h.reach.phase_ne hrun) hrun
  have hok : InOrder s.flushed (.cqe .dumpFsync 0 ⟨0, 0⟩) :=
    ⟨by simp [Successful, Sqe.isTimeout], by simp [WritesInOrder]⟩
  have hreach := hflush.next hok ((step_cqe_eq rfl he le_rfl).trans hcall)
  refine CanExit.of_reachable (TracerStopped.canExit ?_) hreach
  have hflushed : ReachInOrder B t₀ t₁ s.flushed := h.trans hflush
  have hfree := hflushed.reach.slots.taken_free he rfl
  obtain rfl := tracingSynced_eq_some ht
  have hfin' : (s.flushed.taken .dumpFsync).finished = true := hfin
  refine ⟨Phase.noConfusion, hfin, ?_, fun x hx => ?_⟩
  · rw [hfin', Bool.not_true, Bool.false_and]
  · exact System.slot_ne_of_free hfree (List.mem_append_left _ hx)

/-- The write of the last dump completes first, with its full length. -/
theorem ReachInOrder.exit_of_dumping (h : ReachInOrder B t₀ t₁ s) (hfin : s.finished = true)
    (hrun : s.tracingJob.running = true) (hbusy : s.tracingJob.dumpOp.inflight ≠ 0) :
    CanExit B s := by
  rcases h.reach.dump_outstanding hbusy with ⟨n, off, hle, hop, he⟩ | ⟨hcallback, -⟩
  · generalize hlen : n * sizeofTracingItem = len at hop he
    have hlt : len < 2 ^ 32 := by
      rw [← hlen]
      simp only [tracingBufLen, sizeofTracingItem] at hle ⊢
      omega
    have hop' : (s.flushed.taken (.dumpWrite len off)).tracingJob.dumpOp =
        ⟨.tracingWrited, len, n, 1⟩ := hop
    obtain ⟨t, ht⟩ : ∃ t, tracingWrited len (s.flushed.taken (.dumpWrite len off)) = some t := by
      have hres : (0 : ℤ) ≤ len ∧ ((len : ℤ) % 2 ^ 32).toNat =
          (s.flushed.taken (.dumpWrite len off)).tracingJob.dumpOp.toWrite := by
        rw [hop']
        refine ⟨Int.natCast_nonneg len, ?_⟩
        change ((len : ℤ) % 2 ^ 32).toNat = len
        omega
      rw [tracingWrited, if_pos hres]
      exact ioPrepareSqe_isSome (by simp [System.taken, System.flushed, entries])
    have hcall : callback B ⟨0, 0⟩ len (s.flushed.taken (.dumpWrite len off))
        (.dumpWrite len off) = some t := by
      rw [← ht]
      simp only [callback, hop']
    have hok : InOrder s.flushed (.cqe (.dumpWrite len off) len ⟨0, 0⟩) :=
      ⟨by simp [Successful, Sqe.isTimeout], by simp [WritesInOrder]⟩
    have hreach := (reachable_flushed (B := B) (h.reach.phase_ne hrun) hrun).next hok
      ((step_cqe_eq rfl he (Int.natCast_nonneg len)).trans hcall)
    have ht' : ReachInOrder B t₀ t₁ t := h.trans hreach
    refine CanExit.of_reachable ?_ hreach
    obtain ⟨-, rfl⟩ := tracingWrited_eq_some ht
    exact ht'.exit_of_syncing hfin hrun rfl hbusy
  · exact h.exit_of_syncing hfin hrun hcallback hbusy

theorem demand_tracing_le {now : Timespec} : demand B now s (.timeout .tracing) ≤ 2 := by
  have hdump : ∀ v : System, dumpDemand v ≤ 1 := fun v => by
    unfold dumpDemand
    split_ifs <;> omega
  have hhalf : halfDemand (traced now s) ≤ 1 := by
    unfold halfDemand
    split_ifs
    · exact hdump _
    · exact Nat.zero_le 1
  have hone := hdump s
  simp only [demand]
  split_ifs <;> omega

/-- With everything submitted the tracing timer may expire. -/
theorem ReachInOrder.tick (h : ReachInOrder B t₀ t₁ s) (hrun : s.tracingJob.running = true)
    (htimer : s.occupied (.job .tracing) = 1) :
    ∃ t, Reachable (step B) InOrder s t ∧
      backgroundTracing ⟨0, 0⟩ (s.flushed.taken (.timeout .tracing)) = some t := by
  have he : .timeout .tracing ∈ s.flushed.kernel :=
    System.timer_mem rfl ((tracerAside_flushed s).timer.trans htimer ▸ Nat.one_pos)
  obtain ⟨items, hd⟩ := h.reach.dumped
  have hlen : (s.flushed.taken (.timeout .tracing)).tracingJob.cbuf.len = tracingBufLen :=
    hd.ring.len_eq
  obtain ⟨t, ht⟩ : ∃ t,
      backgroundTracing ⟨0, 0⟩ (s.flushed.taken (.timeout .tracing)) = some t := by
    refine (backgroundTracing_isSome_iff (B := B) (by rw [hlen]; decide)
      (by rw [hlen]; decide)).mpr (.inr ?_)
    have hle : demand B ⟨0, 0⟩ (s.flushed.taken (.timeout .tracing)) (.timeout .tracing) ≤ 2 :=
      demand_tracing_le
    have hsq : (s.flushed.taken (.timeout .tracing)).sq.length = 0 := rfl
    have hentries : entries = 16384 := rfl
    omega
  have hreach := (reachable_flushed (B := B) (h.reach.phase_ne hrun) hrun).next
    ⟨successful_completion _ _, by simp [completion, WritesInOrder]⟩
    ((step_completion rfl he).trans ht)
  exact ⟨t, hreach, ht⟩

theorem ReachInOrder.exit_of_finished (h : ReachInOrder B t₀ t₁ s) (hfin : s.finished = true)
    (hsome : IoScheduler.nothingToDump s = false) : CanExit B s := by
  rcases h.reach.running_or_stopped with hrun | hstop
  · by_cases hbusy : s.tracingJob.dumpOp.inflight = 0
    · have htimer : s.occupied (.job .tracing) = 1 :=
        (h.reach.ready hsome hrun).resolve_right fun hone => by
          rw [hbusy] at hone
          exact absurd hone.2 (by decide)
      have hused : cbufUsedCount s.tracingJob.cbuf ≠ 0 := fun hempty => by
        rw [nothingToDump_iff.mpr ⟨hfin, hrun, hbusy, hempty⟩] at hsome
        cases hsome
      obtain ⟨t, hreach, ht⟩ := h.tick hrun htimer
      have hfin' : (s.flushed.taken (.timeout .tracing)).finished = true := hfin
      have hstarted : t.finished = true ∧ t.tracingJob.running = true ∧
          t.tracingJob.dumpOp.inflight ≠ 0 := by
        rcases backgroundTracing_eq_some ht with ⟨hgo, -⟩ | ⟨-, -, rfl⟩ | ⟨-, -, hempty, -⟩ |
          ⟨-, -, -, rfl⟩
        · rcases hgo with hgo | hgo
          · rw [hfin'] at hgo
            cases hgo
          · exact absurd hbusy hgo
        · rw [traced_of_finished hfin']
          exact ⟨hfin, hrun, Nat.one_ne_zero⟩
        · exact absurd hempty hused
        · exact ⟨hfin, hrun, Nat.one_ne_zero⟩
      have ht' : ReachInOrder B t₀ t₁ t := h.trans hreach
      exact (ht'.exit_of_dumping hstarted.1 hstarted.2.1 hstarted.2.2).of_reachable hreach
    · exact h.exit_of_dumping hfin hrun hbusy
  · exact hstop.canExit

/-- A tick before the page jobs are done leaves an item in the ring. -/
theorem Dumped.used_traced {items : List ℕ} (h : Dumped items s) {now : Timespec}
    (hgo : s.finished = false) : cbufUsedCount (IoScheduler.traced now s).tracingJob.cbuf ≠ 0 := by
  have hle := h.ring.head_le
  have hfree := h.ring.free (by decide)
  rw [(h.traced now).ring.used (by decide)]
  rcases traced_recorded now s with ⟨-, hrec, -⟩ | hsame
  · rw [hrec]
    omega
  · have hfull : cbufFreeCount s.tracingJob.cbuf = 0 := by
      by_contra hroom
      have htr : IoScheduler.traced now s = traceItem now s := if_pos ⟨hroom, hgo⟩
      have hlog := congrArg System.recorded (htr.symm.trans hsame)
      simp [System.recorded, traceItem, Event.itemTraced?] at hlog
    rw [hsame]
    rw [hfull] at hfree
    simp only [tracingBufLen] at hfree
    omega

theorem ReachInOrder.canExit (hpos : 0 < B) (hB : B + entries * bufSize ≤ 2 ^ 48)
    (h : ReachInOrder B t₀ t₁ s) (hsome : IoScheduler.nothingToDump s = false) : CanExit B s := by
  by_cases hfin : s.finished = true
  · exact h.exit_of_finished hfin hsome
  · have hgo : s.finished = false := Bool.not_eq_true _ ▸ hfin
    have hrun : s.tracingJob.running = true :=
      h.reach.running_or_stopped.resolve_right fun hstop => hfin hstop.finished
    have htimer : s.occupied (.job .tracing) = 1 :=
      (h.reach.ready hsome hrun).resolve_right fun hdone => hfin hdone.1
    obtain ⟨t, hreach, ht⟩ := h.tick hrun htimer
    obtain ⟨items, hd⟩ := h.reach.dumped
    have hgo' : (s.flushed.taken (.timeout .tracing)).finished = false := hgo
    have hd' : Dumped items (s.flushed.taken (.timeout .tracing)) :=
      hd.frame rfl rfl fun x hx _ => by
        have hmem : x ∈ s.flushed.outstanding := System.mem_outstanding_of_taken hx
        simpa [System.outstanding, System.flushed] using hmem
    have hused : cbufUsedCount (traced ⟨0, 0⟩
        (s.flushed.taken (.timeout .tracing))).tracingJob.cbuf ≠ 0 := hd'.used_traced hgo'
    obtain ⟨cbuf, traceDone, log, htr⟩ := traced_eq ⟨0, 0⟩ (s.flushed.taken (.timeout .tracing))
    have hleft : t.tracingJob.running = true ∧ cbufUsedCount t.tracingJob.cbuf ≠ 0 := by
      rcases backgroundTracing_eq_some ht with ⟨-, rfl⟩ | ⟨-, -, rfl⟩ | ⟨hdone, -⟩ | ⟨hdone, -⟩
      · refine ⟨?_, hused⟩
        rw [htr]
        exact hrun
      · refine ⟨?_, hused⟩
        rw [htr]
        exact hrun
      · rw [hgo'] at hdone
        cases hdone
      · rw [hgo'] at hdone
        cases hdone
    have ht' : ReachInOrder B t₀ t₁ t := h.trans hreach
    obtain ⟨v, hv, haside, hfin', -⟩ :=
      exists_finished_from hpos hB ht' (ht'.reach.phase_ne hleft.1) hleft.1
    have hv' : ReachInOrder B t₀ t₁ v := ht'.trans hv
    refine (hv'.exit_of_finished hfin' ?_).of_reachable (hreach.trans hv)
    rw [← Bool.not_eq_true, nothingToDump_iff, haside.tracingJob]
    exact fun hnone => hleft.2 hnone.2.2.2

end

/-- From a state that completions in submission order reach, the loop can still end
exactly if the page jobs are at work, the tracing job is stopped, a dump is in flight or
the ring holds an item. -/
theorem canExit_iff {B : ℕ} {t₀ t₁ : Timespec} {s : System} (hpos : 0 < B)
    (hB : B + entries * bufSize ≤ 2 ^ 48) (h : ReachInOrder B t₀ t₁ s) :
    (∃ u, Reachable (step B) InOrder s u ∧ u.phase = .exited) ↔ nothingToDump s = false := by
  refine ⟨fun hexit => ?_, h.canExit hpos hB⟩
  obtain ⟨u, hu, hphase⟩ := hexit
  by_contra hnone
  have hu' : Reachable (step B) Successful s u := hu.mono fun _ _ hc => hc.1
  have hrun := (nothingToDump_iff.mp (h.reach.nothingToDump (Bool.not_eq_false _ ▸ hnone) hu')).2.1
  have hreach : Reach B t₀ t₁ u := h.reach.trans hu'
  exact hreach.phase_ne hrun hphase

/-- One page is written, synced and read while the tracing timer is pending; the timer
expires when all of it is done. -/
def onePage : List Act :=
  [.submit, .cqe (.timeout .writer) (-62) ⟨0, 0⟩, .tickEnd, .submit,
    .cqe (.pageWrite 0 0) 65536 ⟨0, 0⟩, .cqe (.timeout .flusher) (-62) ⟨0, 0⟩, .tickEnd, .submit,
    .cqe .fsync 0 ⟨0, 0⟩, .cqe (.timeout .flusher) (-62) ⟨0, 0⟩,
    .cqe (.timeout .reader) (-62) ⟨0, 0⟩, .tickEnd, .submit,
    .cqe (.pageRead ⟨0, ⟨0, 0⟩⟩ 0) 65536 ⟨0, 0⟩, .cqe (.timeout .tracing) (-62) ⟨0, 0⟩]

theorem onePage_spec : ∃ s, ReachInOrder bufSize ⟨0, 0⟩ ⟨0, 0⟩ s ∧
    decide (nothingToDump s = true ∧ s.phase = .reap ∧ s.kernel = [.timeout .status] ∧
      s.sq = []) = true :=
  exists_of_execute onePage _ (by decide +kernel)

theorem canExit_iff_one_page :
    (∃ u, Reachable (step bufSize) InOrder (mainStart ⟨0, 0⟩ ⟨0, 0⟩) u ∧ u.phase = .exited) ∧
    ∃ s, ReachInOrder bufSize ⟨0, 0⟩ ⟨0, 0⟩ s ∧
      ¬ ∃ u, Reachable (step bufSize) InOrder s u ∧ u.phase = .exited := by
  constructor
  · exact (canExit_iff (by decide) (by decide) .start).mpr (by decide)
  · obtain ⟨s, hs, hp⟩ := onePage_spec
    refine ⟨s, hs, fun hexit => ?_⟩
    have hsome := (canExit_iff (by decide) (by decide) hs).mp hexit
    rw [(of_decide_eq_true hp).1] at hsome
    cases hsome

end IoScheduler
