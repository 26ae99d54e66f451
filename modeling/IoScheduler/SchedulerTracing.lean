import IoScheduler.SchedulerSlots

/-!
# Who stops the tracing job

Only `tracing_synced` stops the tracing job, and only after the page jobs have
stopped. A tick of the tracing timer that finds them stopped, no dump in flight
and the ring empty queues neither its timer nor a dump, and nothing is left that
could ever stop the job.
-/
namespace IoScheduler
open Machine Transition

/-- With the page jobs stopped and the tracing job running, something that may
lead to `tracing_synced` is outstanding. -/
def TracingLive (s : System) : Prop :=
  s.finished = true → s.tracingJob.running = true →
    0 < s.occupied (.job .tracing) ∨ 0 < s.occupied .dump

/-- The tick that finds nothing left to dump. -/
def nothingToDump (s : System) : Bool :=
  s.finished && s.tracingJob.running && s.tracingJob.dumpOp.inflight == 0 &&
    cbufUsedCount s.tracingJob.cbuf == 0

/-- The tracing timer does not expire in a state with nothing left to dump. -/
def LastTickDumps (s : System) (a : Act) : Prop :=
  a.completes (.timeout .tracing) = true → nothingToDump s = false

instance (s : System) (a : Act) : Decidable (LastTickDumps s a) :=
  inferInstanceAs (Decidable (_ → _))

/-- A step that leaves the tracing job and its operations alone. -/
structure TracingFrame (s t : System) : Prop where
  tracingJob : t.tracingJob = s.tracingJob
  timer : t.occupied (.job .tracing) = s.occupied (.job .tracing)
  dump : t.occupied .dump = s.occupied .dump
  finished : s.finished = true → t.finished = true

section
variable {B : ℕ} {now : Timespec} {res : ℤ} {s t : System}

theorem TracingFrame.of_append {e : Sqe} {new : List Sqe} (he : e ∈ s.kernel)
    (hk : t.kernel = (s.taken e).kernel) (hq : t.sq = s.sq ++ new)
    (hjob : t.tracingJob = s.tracingJob) (hfin : s.finished = true → t.finished = true)
    (htimer : new.countP (Sqe.inSlot (.job .tracing)) = (e.inSlot (.job .tracing)).toNat)
    (hdump : new.countP (Sqe.inSlot .dump) = (e.inSlot .dump).toNat) : TracingFrame s t :=
  ⟨hjob, System.occupied_eq new rfl he hk hq htimer, System.occupied_eq new rfl he hk hq hdump,
    hfin⟩

/-- Every callback but those of the tracer frames it. -/
theorem callback_tracingFrame {e : Sqe} (he : e ∈ s.kernel)
    (htimer : e.slot? ≠ some (.job .tracing)) (hdump : e.slot? ≠ some .dump)
    (ht : callback B now res (s.taken e) e = some t) : TracingFrame s t := by
  cases e with
  | pageWrite op off =>
      obtain ⟨o, heap, writeList, stats, -, -, rfl, -⟩ := pageWritten_eq_some ht
      exact .of_append he rfl (List.append_nil _).symm rfl id rfl rfl
  | pageRead op off =>
      obtain rfl := Option.some.inj ht
      exact .of_append he rfl (List.append_nil _).symm rfl id rfl rfl
  | fsync =>
      obtain ⟨heap, log, stats, -, rfl⟩ := fileSynced_eq_some ht
      exact .of_append he rfl (List.append_nil _).symm rfl id rfl rfl
  | dumpWrite len off | dumpFsync => exact absurd rfl hdump
  | timeout job =>
      cases job with
      | writer =>
          obtain ⟨-, rfl⟩ := backgroundWriter_eq_some ht
          refine .of_append he rfl (List.append_assoc _ _ _) rfl ?_ ?_ ?_ <;>
            simp +contextual [System.finished, System.taken, Sqe.inSlot, Sqe.slot?]
      | reader =>
          obtain ⟨-, rfl⟩ := backgroundReader_eq_some ht
          refine .of_append he rfl (List.append_assoc _ _ _) rfl ?_ ?_ ?_ <;>
            simp +contextual [System.finished, System.taken, Sqe.inSlot, Sqe.slot?]
      | flusher =>
          obtain ⟨u, hu, rfl⟩ := backgroundFlusher_eq_some ht
          rcases submitFsync_eq_some hu with ⟨-, rfl⟩ | ⟨-, rfl⟩
          · refine .of_append he rfl (List.append_assoc _ _ _) rfl ?_ ?_ ?_ <;>
              simp +contextual [System.finished, System.taken, Sqe.inSlot, Sqe.slot?]
          · refine .of_append he rfl rfl rfl ?_ ?_ ?_ <;>
              simp +contextual [System.finished, System.taken, Sqe.inSlot, Sqe.slot?]
      | tracing => exact absurd rfl htimer
      | status =>
          obtain ⟨stats, rfl⟩ := backgroundStatus_eq_some ht
          exact .of_append he rfl rfl rfl id rfl rfl

theorem lastTickDumps_of_ne {e : Sqe} (h : e ≠ .timeout .tracing) :
    LastTickDumps s (.cqe e res now) := by
  intro hc
  exact absurd (by simpa [Act.completes] using hc) h

theorem lastTickDumps_tick :
    LastTickDumps s (.cqe (.timeout .tracing) res now) ↔ nothingToDump s = false := by
  simp [LastTickDumps, Act.completes]

/-- A step frames the tracer or is one of its three callbacks. -/
theorem tracing_cases {a : Act} (hok : Successful s a) (hs : step B s a = some t) :
    (TracingFrame s t ∧ LastTickDumps s a) ∨
    (∃ res now, a = .cqe (.timeout .tracing) res now ∧ .timeout .tracing ∈ s.kernel ∧
      backgroundTracing now (s.taken (.timeout .tracing)) = some t) ∨
    (∃ e res, e ∈ s.kernel ∧ e.slot? = some .dump ∧ LastTickDumps s a ∧
      (tracingWrited res (s.taken e) = some t ∨ tracingSynced (s.taken e) = some t)) := by
  cases a with
  | submit =>
      obtain ⟨-, rfl⟩ := step_submit hs
      refine .inl ⟨⟨rfl, ?_, ?_, id⟩, fun h => Bool.noConfusion h⟩ <;>
        simp [System.occupied, System.outstanding]
  | tickEnd =>
      obtain ⟨-, rfl⟩ := step_tickEnd hs
      exact .inl ⟨⟨rfl, rfl, rfl, id⟩, fun h => Bool.noConfusion h⟩
  | cqe e res now =>
      obtain ⟨-, he, ht⟩ := step_cqe hok hs
      cases e with
      | pageWrite op off =>
          exact .inl ⟨callback_tracingFrame he (by simp [Sqe.slot?]) (by simp [Sqe.slot?]) ht,
            lastTickDumps_of_ne (by simp)⟩
      | pageRead op off =>
          exact .inl ⟨callback_tracingFrame he (by simp [Sqe.slot?]) (by simp [Sqe.slot?]) ht,
            lastTickDumps_of_ne (by simp)⟩
      | fsync =>
          exact .inl ⟨callback_tracingFrame he (by simp [Sqe.slot?]) (by simp [Sqe.slot?]) ht,
            lastTickDumps_of_ne (by simp)⟩
      | dumpWrite len off | dumpFsync =>
          refine .inr (.inr ⟨_, res, he, rfl, lastTickDumps_of_ne (by simp), ?_⟩)
          simp only [callback] at ht
          split at ht
          · exact .inl ht
          · exact .inr ht
      | timeout job =>
          by_cases hjob : job = .tracing
          · subst hjob
            exact .inr (.inl ⟨res, now, rfl, he, ht⟩)
          · refine .inl ⟨callback_tracingFrame he ?_ (by simp [Sqe.slot?]) ht,
              lastTickDumps_of_ne (by simpa using hjob)⟩
            simpa [Sqe.slot?] using hjob

/-- A tracing job that runs has its timer outstanding, or the page jobs are done
and a dump is in flight. -/
def TracingReady (s : System) : Prop :=
  s.tracingJob.running = true →
    s.occupied (.job .tracing) = 1 ∨ (s.finished = true ∧ s.tracingJob.dumpOp.inflight = 1)

theorem TracingReady.live (h : TracingReady s) (hslots : Slots s) : TracingLive s := by
  intro _ hrun
  rcases h hrun with htimer | ⟨-, hdump⟩
  · exact .inl (by omega)
  · refine .inr ?_
    rw [hslots.dump, hdump]
    exact Nat.one_pos

theorem tracingReady_mainStart (start last : Timespec) : TracingReady (mainStart start last) := by
  rw [mainStart_eq]
  exact fun _ => .inl rfl

/-- The tracing timer that just expired is the only one. -/
theorem Slots.timer_eq_one (h : Slots s) (he : .timeout .tracing ∈ s.kernel) :
    s.occupied (.job .tracing) = 1 := by
  have hpos : 0 < s.occupied (.job .tracing) := System.occupied_pos he rfl
  have := h.tracing
  omega

theorem traced_flags (now : Timespec) (s : System) :
    (traced now s).kernel = s.kernel ∧ (traced now s).sq = s.sq := by
  obtain ⟨cbuf, traceDone, log, htr⟩ := traced_eq now s
  rw [htr]
  exact ⟨rfl, rfl⟩

theorem TracingReady.tick (hslots : Slots s) (he : .timeout .tracing ∈ s.kernel)
    (hlast : nothingToDump s = false)
    (ht : backgroundTracing now (s.taken (.timeout .tracing)) = some t) : TracingReady t := by
  intro hrun
  have hone := hslots.timer_eq_one he
  obtain ⟨hk, hq⟩ := traced_flags now (s.taken (.timeout .tracing))
  rcases backgroundTracing_eq_some ht with ⟨-, rfl⟩ | ⟨-, -, rfl⟩ | ⟨hfin, hidle, hempty, rfl⟩ |
    ⟨hfin, -, -, rfl⟩
  · refine .inl (System.occupied_eq [.timeout .tracing] hone he hk ?_ rfl)
    exact congrArg (fun q => q ++ [Sqe.timeout .tracing]) hq
  · obtain ⟨len, off, hd⟩ : ∃ len off, (dumpStarted (traced now (s.taken
        (.timeout .tracing)))).sq = s.sq ++ [.dumpWrite len off] := by
      simp only [dumpStarted, hq]
      exact ⟨_, _, rfl⟩
    refine .inl (System.occupied_eq [.dumpWrite len off, .timeout .tracing] hone he hk ?_ rfl)
    exact (congrArg (fun q => q ++ [Sqe.timeout .tracing]) hd).trans (List.append_assoc _ _ _)
  · have hnone : nothingToDump s = true := by
      have hfin : s.finished = true := hfin
      have hidle : s.tracingJob.dumpOp.inflight = 0 := hidle
      have hempty : cbufUsedCount s.tracingJob.cbuf = 0 := hempty
      have hrun : s.tracingJob.running = true := hrun
      simp [nothingToDump, hfin, hidle, hempty, hrun]
    rw [hlast] at hnone
    cases hnone
  · exact .inr ⟨hfin, rfl⟩

theorem TracingReady.step {a : Act} (h : TracingReady s) (hslots : Slots s)
    (hok : Successful s a) (hlast : LastTickDumps s a) (hs : step B s a = some t) :
    TracingReady t := by
  rcases tracing_cases hok hs with ⟨hf, -⟩ | ⟨res, now, rfl, he, ht⟩ |
    ⟨e, res, he, hslot, -, ht | ht⟩
  · intro hrun
    rw [hf.tracingJob] at hrun ⊢
    rw [hf.timer]
    exact (h hrun).imp_right fun ⟨hfin, hdump⟩ => ⟨hf.finished hfin, hdump⟩
  · exact TracingReady.tick hslots he (lastTickDumps_tick.mp hlast) ht
  · have hother : e.inSlot (.job .tracing) = false := by simp [Sqe.inSlot, hslot]
    obtain ⟨-, rfl⟩ := tracingWrited_eq_some ht
    intro hrun
    rcases h hrun with htimer | hdump
    · exact .inl (System.occupied_eq [.dumpFsync] htimer he rfl rfl (by rw [hother]; rfl))
    · exact .inr hdump
  · have hother : e.inSlot (.job .tracing) = false := by simp [Sqe.inSlot, hslot]
    obtain rfl := tracingSynced_eq_some ht
    intro hrun
    obtain ⟨hfin, hrun⟩ := Bool.and_eq_true_iff.mp hrun
    have hfin : s.finished = false := Bool.not_eq_true' _ ▸ hfin
    rcases h hrun with htimer | ⟨hdone, -⟩
    · exact .inl (System.occupied_eq [] htimer he rfl (List.append_nil _).symm
        (by rw [hother]; rfl))
    · rw [hfin] at hdone
      cases hdone

/-- The page jobs are stopped, the tracing job is not, and nothing of it is
outstanding. -/
structure Stuck (s : System) : Prop where
  finished : s.finished = true
  running : s.tracingJob.running = true
  timer : s.occupied (.job .tracing) = 0
  dump : s.occupied .dump = 0

theorem not_tracingLive_iff : ¬ TracingLive s ↔ Stuck s := by
  constructor
  · intro h
    simp only [TracingLive, Classical.not_imp, not_or, Nat.pos_iff_ne_zero, not_not] at h
    exact ⟨h.1, h.2.1, h.2.2.1, h.2.2.2⟩
  · intro h hlive
    have htimer := h.timer
    have hdump := h.dump
    rcases hlive h.finished h.running with hpos | hpos <;> omega

/-- Nothing ever moves the tracing job again. -/
theorem Stuck.step {a : Act} (h : Stuck s) (hok : Successful s a) (hs : step B s a = some t) :
    Stuck t := by
  rcases tracing_cases hok hs with ⟨hf, -⟩ | ⟨res, now, rfl, he, -⟩ | ⟨e, res, he, hslot, -⟩
  · exact ⟨hf.finished h.finished, hf.tracingJob ▸ h.running, hf.timer.trans h.timer,
      hf.dump.trans h.dump⟩
  · exact absurd h.timer (System.occupied_pos he rfl).ne'
  · exact absurd h.dump (System.occupied_pos he (by simp [Sqe.inSlot, hslot])).ne'

theorem stuck_of_tick {a : Act} (hslots : Slots s) (hok : Successful s a)
    (hlast : ¬ LastTickDumps s a) (hs : IoScheduler.step B s a = some t) : Stuck t := by
  rcases tracing_cases hok hs with ⟨-, hl⟩ | ⟨res, now, rfl, he, ht⟩ | ⟨e, res, -, -, hl, -⟩
  · exact absurd hl hlast
  · simp only [lastTickDumps_tick, nothingToDump, Bool.not_eq_false, Bool.and_eq_true,
      beq_iff_eq] at hlast
    obtain ⟨⟨⟨hfin, hrun⟩, hidle⟩, hempty⟩ := hlast
    have hfin' : (s.taken (.timeout .tracing)).finished = true := hfin
    rcases backgroundTracing_eq_some ht with ⟨hgo, -⟩ | ⟨-, hused, -⟩ | ⟨-, -, -, rfl⟩ |
      ⟨-, -, hused, -⟩
    · rcases hgo with hgo | hbusy
      · rw [hfin'] at hgo
        cases hgo
      · exact absurd hidle hbusy
    · rw [traced_of_finished hfin'] at hused
      exact absurd hempty hused
    · have htimer := System.occupied_balance he rfl (List.append_nil _).symm (.job .tracing)
      have hdump := System.occupied_balance he rfl (List.append_nil _).symm .dump
      rw [hslots.timer_eq_one he] at htimer
      rw [hslots.dump, hidle] at hdump
      exact ⟨hfin, hrun, by simpa [Sqe.inSlot, Sqe.slot?] using htimer,
        by simpa [Sqe.inSlot, Sqe.slot?] using hdump⟩
    · exact absurd hempty hused
  · exact absurd hl hlast

end

theorem tracingReady_of_run {B : ℕ} {t₀ t₁ : Timespec} {as : List Act} {s : System}
    (h : Run (step B) (fun s a => Successful s a ∧ LastTickDumps s a) (mainStart t₀ t₁) as s) :
    TracingReady s := by
  induction h with
  | nil => exact tracingReady_mainStart t₀ t₁
  | snoc hr hc hs ih =>
      have hreach : Reach B t₀ t₁ _ := ⟨_, hr.mono fun _ _ hc => hc.1⟩
      exact ih.step hreach.slots hc.1 hc.2 hs

/-- The run theorem: the loop can wait for the tracing job in vain exactly after a
tick that found nothing left to dump. -/
theorem tracingLive_iff_run {B : ℕ} {t₀ t₁ : Timespec} {as : List Act} {s : System}
    (h : Run (step B) Successful (mainStart t₀ t₁) as s) :
    TracingLive s ↔
      Run (step B) (fun s a => Successful s a ∧ LastTickDumps s a) (mainStart t₀ t₁) as s := by
  refine ⟨fun hlive => ?_, fun hr => (tracingReady_of_run hr).live (Reach.slots ⟨as, h⟩)⟩
  induction h with
  | nil => exact .nil
  | snoc hr hc hs ih =>
      have hslots := Reach.slots ⟨_, hr⟩
      refine .snoc (ih ?_) ⟨hc, ?_⟩ hs
      · by_contra hstuck
        exact not_tracingLive_iff.mpr ((not_tracingLive_iff.mp hstuck).step hc hs) hlive
      · by_contra hlast
        exact not_tracingLive_iff.mpr (stuck_of_tick hslots hc hlast hs) hlive

/-- One page of target: the last tracing tick finds the item recorded in the first
one and dumps it. -/
theorem tracingLive_iff_run_one_page :
    ∃ as s, Run (step 65536) (fun s a => Successful s a ∧ LastTickDumps s a)
      (mainStart ⟨0, 0⟩ ⟨0, 0⟩) as s ∧ s.finished = true ∧ s.tracingJob.running = true ∧
      TracingLive s := by
  obtain ⟨s, ⟨as, hs⟩, hp⟩ : ∃ s, Reachable (step 65536)
      (fun s a => Successful s a ∧ LastTickDumps s a) (mainStart ⟨0, 0⟩ ⟨0, 0⟩) s ∧
      decide (s.finished = true ∧ s.tracingJob.running = true) = true :=
    exists_of_execute
      [.submit, .cqe (.timeout .tracing) (-62) ⟨0, 0⟩, .cqe (.timeout .writer) (-62) ⟨0, 0⟩,
        .tickEnd, .submit, .cqe (.pageWrite 0 0) 65536 ⟨0, 0⟩,
        .cqe (.timeout .flusher) (-62) ⟨0, 0⟩, .tickEnd, .submit, .cqe .fsync 0 ⟨0, 0⟩,
        .cqe (.timeout .flusher) (-62) ⟨0, 0⟩, .cqe (.timeout .reader) (-62) ⟨0, 0⟩,
        .cqe (.timeout .tracing) (-62) ⟨0, 0⟩] _ (by decide +kernel)
  obtain ⟨hfin, hrun⟩ := of_decide_eq_true hp
  exact ⟨as, s, hs, hfin, hrun, (tracingLive_iff_run (hs.mono fun _ _ hc => hc.1)).mpr hs⟩

end IoScheduler
