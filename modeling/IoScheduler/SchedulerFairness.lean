import IoScheduler.Fairness
import IoScheduler.SchedulerPages
import IoScheduler.SchedulerTermination

/-!
# Runs in which every operation completes

In a fair run whatever is prepared completes some time, and the page jobs stop
after finitely many steps: each change of a page counter takes something off the
work left. The loop then ends, or goes on forever because the tracing job found
nothing left to dump.
-/
namespace IoScheduler
open Machine Transition

/-! ## The page jobs -/

/-- What is left to do, a page weighing more the fewer of its stages it has passed. -/
def Pages.work (v : Pages) : ℕ :=
  8 * (2 ^ 32 - v.submitted) + 4 * (v.submitted - v.written) +
    (if v.released < v.written ∧ v.fsync = 0 then 2 else 0) + v.fsync + v.flusher.toNat +
    2 * (2 ^ 32 - v.read) + v.reads

/-- The completions that take something off the work. -/
def Pages.Helpful (v : Pages) : Sqe → Prop
  | .pageWrite _ _ | .pageRead _ _ | .fsync => True
  | .timeout .writer => v.written = v.submitted
  | .timeout .flusher => v.written = v.submitted ∧ v.fsync = 0 ∧ v.writer = false
  | .timeout .reader => v.reads = 0 ∧ v.flusher = false
  | _ => False

section
variable {B : ℕ} {now : Timespec} {res : ℤ} {s t : System} {a : Act} {e : Sqe}

theorem goesOn_of_lt {n : ℕ} (h : n * bufSize < B) : goesOn B (u32 n) = true := by
  have hle : u64 (u32 n * bufSize) ≤ n * bufSize :=
    (Nat.mod_le _ _).trans (Nat.mul_le_mul_right _ (u32_le n))
  exact decide_eq_true (hle.trans_lt h)

/-- With no page operation in flight a page job's next batch is not empty. -/
theorem Working.batch_pos (h : Working B s) :
    (s.pages.written = s.pages.submitted →
      0 < adaptBatch s.writerJob.inflight s.writerJob.batchSize) ∧
    (s.pages.reads = 0 → 0 < adaptBatch s.readerJob.inflight s.readerJob.batchSize) := by
  constructor
  · intro hall
    have hC : s.pageIdCheckOrder = s.brk := hall.trans h.submitted
    have hidle : s.writerJob.inflight = 0 := by
      rw [h.counted.writes, System.writesInFlight_eq, h.unwrapped.pipeline.inFlight, hC,
        Nat.sub_self]
      rfl
    rw [hidle]
    exact adaptBatch_pos h.batches.writer
  · intro hnone
    have hidle : s.readerJob.inflight = 0 := by
      rw [h.counted.reads]
      exact congrArg u8 hnone
    rw [hidle]
    exact adaptBatch_pos h.batches.reader

/-- A completion takes something off the work, or it leaves the page jobs as they are
and was not one that helps. -/
theorem Working.pages_cqe (h : Working B s) (k : Working B t) (he : e ∈ s.kernel)
    (horder : WritesInOrder s (.cqe e res now))
    (ht : callback B now res (s.taken e) e = some t) :
    t.pages.work < s.pages.work ∨ t.pages = s.pages ∧ ¬ s.pages.Helpful e := by
  have hread : s.pages.read ≤ s.pages.released := h.unwrapped.read_le
  have hreleased : s.pages.released ≤ s.pages.written := h.unwrapped.pipeline.released_le
  have hsubmitted : s.pages.submitted = s.brk := h.submitted
  have hwritten : s.pages.written ≤ s.pages.submitted :=
    h.unwrapped.pipeline.written_le.trans_eq h.submitted.symm
  have hbrk := h.brk_lt
  cases e with
  | pageWrite op off =>
      obtain ⟨hlt, hpages⟩ := h.pages_written he horder ht
      rw [hpages]
      simp only [Pages.work]
      split_ifs <;> exact .inl (by omega)
  | pageRead op off =>
      obtain ⟨hpos, hpages⟩ := pages_read he ht
      rw [hpages]
      simp only [Pages.work]
      exact .inl (by omega)
  | fsync =>
      obtain ⟨hone, hpages⟩ := h.pages_synced he ht
      rw [hpages]
      simp only [Pages.work, hone]
      exact .inl (by simp)
  | dumpWrite len off =>
      have hq := dump_quiet he (.inr ⟨len, off, rfl⟩) ht
      exact .inr ⟨pages_quiet he Job.noConfusion hq ht, id⟩
  | dumpFsync =>
      have hq := dump_quiet he (.inl rfl) ht
      exact .inr ⟨pages_quiet he Job.noConfusion hq ht, id⟩
  | timeout job =>
      cases job with
      | tracing =>
          have hq := backgroundTracing_quiet he ht
          exact .inr ⟨pages_quiet he Job.noConfusion hq ht, id⟩
      | status =>
          have hq := backgroundStatus_quiet he ht
          exact .inr ⟨pages_quiet he Job.noConfusion hq ht, id⟩
      | writer =>
          obtain ⟨b, hb, hlt, hrun, hpages⟩ := h.pages_writer k he ht
          rcases Nat.eq_zero_or_pos b with rfl | hpos
          · have hgo : s.pages.submitted * bufSize < B := hsubmitted ▸ h.unwrapped.running_lt hrun
            rw [Nat.add_zero, goesOn_of_lt hgo, ← hrun] at hpages
            exact .inr ⟨hpages, fun hhelps => (h.batch_pos.1 hhelps).ne hb⟩
          · rw [hpages]
            simp only [Pages.work]
            exact .inl (by omega)
      | reader =>
          obtain ⟨b, hb, hlt, hrun, hpages, -⟩ := h.pages_reader he ht
          rcases Nat.eq_zero_or_pos b with rfl | hpos
          · have hgo : s.pages.read * bufSize < B := h.unwrapped.readerRunning hrun
            rw [Nat.add_zero, Nat.add_zero, goesOn_of_lt hgo, ← hrun] at hpages
            refine .inr ⟨hpages, fun hhelps => ?_⟩
            have hbatch := h.batch_pos.2 hhelps.1
            have hstop : B ≤ s.pages.released * bufSize := h.unwrapped.flusherStopped hhelps.2
            have hless : s.pages.read < s.pages.released :=
              Nat.lt_of_mul_lt_mul_right (hgo.trans_le hstop)
            omega
          · rw [hpages]
            simp only [Pages.work]
            exact .inl (by omega)
      | flusher =>
          obtain ⟨hrun, hpages, -⟩ := h.pages_flusher he ht
          by_cases hwants : s.pages.released < s.pages.written ∧ s.pages.fsync = 0
          · have hflag := Bool.toNat_le (goesOn B s.pages.released)
            rw [if_pos hwants] at hpages
            rw [hpages]
            simp only [Pages.work, hrun, hwants, and_self, if_true, Nat.one_ne_zero, and_false,
              if_false, Bool.toNat_true]
            exact .inl (by omega)
          · rw [if_neg hwants] at hpages
            cases hgo : goesOn B s.pages.released with
            | false =>
                rw [hpages]
                simp only [Pages.work, hrun, hgo, Bool.toNat_true, Bool.toNat_false]
                exact .inl (by omega)
            | true =>
                rw [hgo, ← hrun] at hpages
                refine .inr ⟨hpages, fun ⟨hall, hidle, hstopped⟩ => ?_⟩
                have hB : B ≤ s.brk * bufSize := h.unwrapped.writerStopped hstopped
                have hdone : s.pages.released = s.brk := by omega
                have hno := goesOn_eq_false hbrk hB
                rw [u32_of_lt hbrk, ← hdone, hgo] at hno
                cases hno

theorem Working.pages_step (h : Working B s) (k : Working B t) (hok : InOrder s a)
    (hs : step B s a = some t) : t.pages.work < s.pages.work ∨ t.pages = s.pages := by
  cases a with
  | submit =>
      obtain ⟨-, rfl⟩ := step_submit hs
      exact .inr (by simp [System.pages, System.readsInFlight, System.outstanding])
  | tickEnd =>
      obtain ⟨-, rfl⟩ := step_tickEnd hs
      exact .inr rfl
  | cqe e res now =>
      obtain ⟨-, he, ht⟩ := step_cqe hok.1 hs
      exact (h.pages_cqe k he hok.2 ht).imp_right And.left

theorem Slots.mem_of_occupied {job : Job} (hpos : 0 < s.occupied (.job job)) :
    .timeout job ∈ s.outstanding := by
  obtain ⟨e, he, hslot⟩ := List.countP_pos_iff.mp hpos
  have hslot : e.slot? = some (.job job) := of_decide_eq_true hslot
  cases e <;> simp only [Sqe.slot?, reduceCtorEq, Option.some.injEq, Slot.job.injEq] at hslot
  rwa [hslot] at he

/-- Until the page jobs are done something outstanding helps. -/
theorem Working.exists_helpful (h : Working B s) (hgo : s.finished = false) :
    ∃ e ∈ s.outstanding, s.pages.Helpful e := by
  have hle := h.unwrapped.pipeline.written_le
  by_cases hw : s.pageIdCheckOrder < s.brk
  · have hne : s.outstanding.filterMap Sqe.writeOp? ≠ [] := by
      rw [h.unwrapped.pipeline.inFlight]
      exact List.ne_nil_of_length_pos (by rw [List.length_range']; omega)
    obtain ⟨op, hop⟩ := List.exists_mem_of_ne_nil _ hne
    obtain ⟨e, he, hop⟩ := List.mem_filterMap.mp hop
    refine ⟨e, he, ?_⟩
    cases e <;> first | exact trivial | cases hop
  have hall : s.pages.written = s.pages.submitted := by
    have hsubmitted := h.submitted
    simp only [System.pages]
    omega
  by_cases hr : s.pages.reads = 0
  swap
  · obtain ⟨e, he, hread⟩ := List.countP_pos_iff.mp (Nat.pos_of_ne_zero hr)
    refine ⟨e, he, ?_⟩
    cases e <;> first | exact trivial | cases hread
  by_cases hf : s.pages.fsync = 0
  swap
  · obtain ⟨e, he, hslot⟩ :=
      List.countP_pos_iff.mp (h.slots.fsync.symm ▸ Nat.pos_of_ne_zero hf : 0 < s.occupied .fsync)
    refine ⟨e, he, ?_⟩
    have hslot : e.slot? = some .fsync := of_decide_eq_true hslot
    cases e <;> first | exact trivial | cases hslot
  have htimer : ∀ {job : Job} {running : Bool}, s.occupied (.job job) = running.toNat →
      running = true → .timeout job ∈ s.outstanding := fun hocc hrun =>
    Slots.mem_of_occupied (by rw [hocc, hrun]; exact Nat.one_pos)
  cases hwriter : s.writerJob.running with
  | true => exact ⟨_, htimer h.slots.writer hwriter, hall⟩
  | false =>
      cases hflusher : s.flusherJob.running with
      | true => exact ⟨_, htimer h.slots.flusher hflusher, hall, hf, hwriter⟩
      | false =>
          have hreader : s.readerJob.running = true := by
            simpa [System.finished, hwriter, hflusher] using hgo
          exact ⟨_, htimer h.slots.reader hreader, hr, hflusher⟩

end

/-! ## The tracing job -/

/-- The steps the tracing job still takes once the page jobs are done. -/
def System.tracerStage (s : System) : ℕ :=
  if s.tracingJob.running = false then 0
  else if s.tracingJob.dumpOp.inflight = 0 then 3
  else
    match s.tracingJob.dumpOp.callback with
    | .tracingSynced => 1
    | .tracingWrited => 2

/-- The completions that bring it a step further. -/
def StageHelpful (stage : ℕ) (e : Sqe) : Prop :=
  if stage = 3 then e = .timeout .tracing else e.slot? = some .dump

section
variable {B : ℕ} {s t : System} {a : Act}

theorem tracerStage_idle (hrun : s.tracingJob.running = true)
    (hidle : s.tracingJob.dumpOp.inflight = 0) : s.tracerStage = 3 := by
  simp [System.tracerStage, hrun, hidle]

theorem tracerStage_busy (hbusy : s.tracingJob.dumpOp.inflight ≠ 0) : s.tracerStage ≤ 2 := by
  unfold System.tracerStage
  split_ifs
  · exact Nat.zero_le 2
  · cases s.tracingJob.dumpOp.callback <;> decide

theorem finished_step (hfin : s.finished = true) (hok : Successful s a)
    (hs : step B s a = some t) : t.finished = true := by
  rcases tracing_cases hok hs with ⟨hf, -⟩ | ⟨res, now, -, -, ht⟩ | ⟨e, res, -, -, -, ht | ht⟩
  · exact hf.finished hfin
  · have hfin' : (s.taken (.timeout .tracing)).finished = true := hfin
    rcases backgroundTracing_eq_some ht with ⟨-, rfl⟩ | ⟨-, -, rfl⟩ | ⟨-, -, -, rfl⟩ |
      ⟨-, -, -, rfl⟩
    · rw [traced_of_finished hfin']
      exact hfin
    · rw [traced_of_finished hfin']
      exact hfin
    · exact hfin
    · exact hfin
  · obtain ⟨-, rfl⟩ := tracingWrited_eq_some ht
    exact hfin
  · obtain rfl := tracingSynced_eq_some ht
    exact hfin

theorem tracerStage_stopped (hstop : s.tracingJob.running = false) : s.tracerStage = 0 :=
  if_pos hstop

/-- The tick of the tracing timer starts the last dump. -/
theorem tracerStage_tick {now : Timespec} (hfin : s.finished = true)
    (hsome : nothingToDump s = false) (hrun : s.tracingJob.running = true)
    (ht : backgroundTracing now (s.taken (.timeout .tracing)) = some t) :
    t.tracerStage < s.tracerStage ∨ t.tracerStage = s.tracerStage ∧ s.tracerStage ≤ 2 := by
  have hfin' : (s.taken (.timeout .tracing)).finished = true := hfin
  have htr : traced now (s.taken (.timeout .tracing)) = s.taken (.timeout .tracing) :=
    traced_of_finished hfin'
  have hstarted : s.tracingJob.dumpOp.inflight = 0 →
      t.tracingJob.dumpOp.inflight = 1 → t.tracerStage < s.tracerStage := fun hidle hone => by
    have hle := tracerStage_busy (s := t) (hone ▸ Nat.one_ne_zero)
    rw [tracerStage_idle hrun hidle]
    omega
  rcases backgroundTracing_eq_some ht with ⟨hgo, rfl⟩ | ⟨hidle, -, rfl⟩ | ⟨-, hidle, hempty, -⟩ |
    ⟨-, hidle, -, rfl⟩
  · rcases hgo with hgo | hbusy
    · rw [hfin'] at hgo
      cases hgo
    · refine .inr ⟨?_, tracerStage_busy hbusy⟩
      rw [htr]
      rfl
  · exact .inl (hstarted hidle rfl)
  · rw [nothingToDump_iff.mpr ⟨hfin, hrun, hidle, hempty⟩] at hsome
    cases hsome
  · exact .inl (hstarted hidle rfl)

/-- A completion of the dump operation brings the tracing job a step further. -/
theorem tracerStage_dump {now : Timespec} {res : ℤ} {e : Sqe} (hslots : Slots s)
    (he : e ∈ s.kernel) (hslot : e.slot? = some .dump) (hfin : s.finished = true)
    (hrun : s.tracingJob.running = true) (ht : callback B now res (s.taken e) e = some t) :
    t.tracerStage < s.tracerStage := by
  have hbusy : s.tracingJob.dumpOp.inflight ≠ 0 := by
    have hone := hslots.dump_inflight he hslot
    omega
  rcases callback_dump hslot ht with ⟨hcallback, ht⟩ | ⟨hcallback, ht⟩
  all_goals replace hcallback : s.tracingJob.dumpOp.callback = _ := hcallback
  · obtain ⟨-, rfl⟩ := tracingWrited_eq_some ht
    simp [System.tracerStage, System.taken, hrun, hbusy, hcallback]
  · obtain rfl := tracingSynced_eq_some ht
    have hfin' : (s.taken e).finished = true := hfin
    have hzero : (0 : ℕ) < s.tracerStage := by
      simp [System.tracerStage, hrun, hbusy, hcallback]
    rw [tracerStage_stopped (by simp [hfin'])]
    exact hzero

/-- Once the page jobs are done and until nothing is left to dump, a step brings the
tracing job further, or it leaves it where it is and served nothing that helps. -/
theorem tracerStage_step (hslots : Slots s) (hfin : s.finished = true)
    (hsome : nothingToDump s = false) (hrun : s.tracingJob.running = true)
    (hok : Successful s a) (hs : step B s a = some t) :
    t.tracerStage < s.tracerStage ∨ t.tracerStage = s.tracerStage ∧
      ∀ e, a.completes e = true → ¬ StageHelpful s.tracerStage e := by
  cases a with
  | submit =>
      obtain ⟨-, rfl⟩ := step_submit hs
      exact .inr ⟨rfl, fun e he => Bool.noConfusion he⟩
  | tickEnd =>
      obtain ⟨-, rfl⟩ := step_tickEnd hs
      exact .inr ⟨rfl, fun e he => Bool.noConfusion he⟩
  | cqe e res now =>
      obtain ⟨-, he, ht⟩ := step_cqe hok hs
      have honly : ∀ e', (Act.cqe e res now).completes e' = true → e = e' :=
        fun e' he' => beq_iff_eq.mp he'
      by_cases hslot : e.slot? = some .dump
      · exact .inl (tracerStage_dump hslots he hslot hfin hrun ht)
      by_cases htimer : e = .timeout .tracing
      · subst htimer
        refine (tracerStage_tick hfin hsome hrun ht).imp_right fun ⟨hsame, hle⟩ => ⟨hsame, ?_⟩
        intro e' he' hhelps
        obtain rfl := honly e' he'
        rw [StageHelpful, if_neg (by omega)] at hhelps
        exact hslot hhelps
      · have hjob : t.tracingJob = s.tracingJob := by
          refine (callback_tracingFrame he (fun hj => htimer ?_) hslot ht).tracingJob
          cases e <;> simp_all [Sqe.slot?]
        refine .inr ⟨by simp only [System.tracerStage, hjob], fun e' he' hhelps => ?_⟩
        obtain rfl := honly e' he'
        unfold StageHelpful at hhelps
        split_ifs at hhelps
        · exact htimer hhelps
        · exact hslot hhelps

/-- Past the stop the loop only reaps, and each completion leaves the kernel less. -/
theorem TracerStopped.reaps {a' : Act} {u : System} (h : TracerStopped s) (hok : Successful s a)
    (hs : IoScheduler.step B s a = some t) (hs' : IoScheduler.step B t a' = some u) :
    t.kernel.length < s.kernel.length := by
  cases a with
  | submit => exact absurd (step_submit hs).1 h.phase
  | tickEnd =>
      obtain ⟨-, rfl⟩ := step_tickEnd hs
      have hall : s.allStopped = true := by simp [System.allStopped, h.finished, h.stopped]
      rw [if_pos hall] at hs'
      cases a' <;> simp [IoScheduler.step] at hs'
  | cqe e res now =>
      obtain ⟨-, he, ht⟩ := step_cqe hok hs
      obtain ⟨new, events, happ⟩ := callback_appends ht
      rw [happ.kernel, ← List.length_erase_add_one he]
      exact Nat.lt_succ_self _

end

/-! ## Fair runs -/

section
variable {B : ℕ} {t₀ t₁ : Timespec} {s t : System} {a : Act}

/-- Every prepared operation completes some time. -/
def FairRun (r : Trace (step B) InOrder (mainStart t₀ t₁)) : Prop :=
  r.Fair (fun s e => e ∈ s.outstanding) fun a e => a.completes e = true

theorem completes_iff {e : Sqe} : a.completes e = true ↔ ∃ res now, a = .cqe e res now := by
  constructor
  · intro h
    cases a with
    | submit | tickEnd => cases h
    | cqe e' res now =>
        obtain rfl : e' = e := beq_iff_eq.mp h
        exact ⟨res, now, rfl⟩
  · rintro ⟨res, now, rfl⟩
    exact beq_self_eq_true e

variable {r : Trace (step B) InOrder (mainStart t₀ t₁)}

theorem FairRun.finished (hpos : 0 < B) (hB : B + entries * bufSize ≤ 2 ^ 48) (h : FairRun r) :
    ∃ N, (r.state N).finished = true := by
  have hworking : ∀ n, Working B (r.state n) := fun n =>
    ReachInOrder.working hpos hB (r.reachable n)
  have hranked : r.Ranked (fun s e => e ∈ s.outstanding) (fun a e => a.completes e = true)
      (fun s => s.finished = true) System.pages Pages.work Pages.Helpful 0 := by
    refine ⟨fun n _ => (hworking n).pages_step (hworking (n + 1)) (r.guard n) (r.next n),
      fun n _ => ?_, fun n _ e hserved hhelps => ?_⟩
    · cases hfin : (r.state n).finished with
      | true => exact .inl rfl
      | false => exact .inr ((hworking n).exists_helpful hfin)
    · obtain ⟨res, now, ha⟩ := completes_iff.mp hserved
      have hguard := r.guard n
      have hnext := r.next n
      rw [ha] at hguard hnext
      obtain ⟨-, he, ht⟩ := step_cqe hguard.1 hnext
      rcases (hworking n).pages_cqe (hworking (n + 1)) he hguard.2 ht with hless | ⟨-, hno⟩
      · exact fun hsame => hless.ne (congrArg Pages.work hsame)
      · exact absurd hhelps hno
  obtain ⟨N, -, hfin⟩ := Trace.Fair.eventually h hranked (Nat.zero_le 0)
  exact ⟨N, hfin⟩

theorem tracer_helpful {s : System} (hslots : Slots s) (hready : TracingReady s)
    (hrun : s.tracingJob.running = true) :
    ∃ e ∈ s.outstanding, StageHelpful s.tracerStage e := by
  by_cases hidle : s.tracingJob.dumpOp.inflight = 0
  · have htimer : s.occupied (.job .tracing) = 1 :=
      (hready hrun).resolve_right fun hone => by
        rw [hidle] at hone
        exact absurd hone.2 (by decide)
    refine ⟨_, Slots.mem_of_occupied (by rw [htimer]; exact Nat.one_pos), ?_⟩
    rw [StageHelpful, if_pos (tracerStage_idle hrun hidle)]
  · have hpos : 0 < s.occupied .dump := hslots.dump.symm ▸ Nat.pos_of_ne_zero hidle
    obtain ⟨e, he, hslot⟩ := List.countP_pos_iff.mp hpos
    refine ⟨e, he, ?_⟩
    have hle := tracerStage_busy hidle
    rw [StageHelpful, if_neg (by omega)]
    exact of_decide_eq_true hslot

/-- If something is always left to dump, the tracing job is stopped. -/
theorem FairRun.stopped (hpos : 0 < B) (hB : B + entries * bufSize ≤ 2 ^ 48) (h : FairRun r)
    (hsome : ∀ n, nothingToDump (r.state n) = false) :
    ∃ N, (r.state N).tracingJob.running = false := by
  have hreach : ∀ n, Reach B t₀ t₁ (r.state n) := fun n =>
    ReachInOrder.reach (r.reachable n)
  obtain ⟨N, hN⟩ := h.finished hpos hB
  have hfin : ∀ n ≥ N, (r.state n).finished = true := fun n hn =>
    r.keeps (I := fun s => s.finished = true) hN
      (fun m _ hm => finished_step hm (r.guard m).1 (r.next m)) hn
  have hranked : r.Ranked (fun s e => e ∈ s.outstanding) (fun a e => a.completes e = true)
      (fun s => s.tracingJob.running = false) System.tracerStage id StageHelpful N := by
    refine ⟨fun n hn => ?_, fun n hn => ?_, fun n hn e hserved hhelps => ?_⟩
    · rcases (hreach n).running_or_stopped with hrun | hstop
      · exact (tracerStage_step (hreach n).slots (hfin n hn) (hsome n) hrun (r.guard n).1
          (r.next n)).imp_right And.left
      · have hstop' := (hstop.step (r.guard n).1 (r.next n)).1
        exact .inr ((tracerStage_stopped hstop'.stopped).trans
          (tracerStage_stopped hstop.stopped).symm)
    · cases hrun : (r.state n).tracingJob.running with
      | false => exact .inl rfl
      | true => exact .inr (tracer_helpful (hreach n).slots ((hreach n).ready (hsome n)) hrun)
    · rcases (hreach n).running_or_stopped with hrun | hstop
      · rcases tracerStage_step (hreach n).slots (hfin n hn) (hsome n) hrun (r.guard n).1
          (r.next n) with hless | ⟨-, hno⟩
        · exact hless.ne
        · exact absurd hhelps (hno e hserved)
      · obtain ⟨res, now, ha⟩ := completes_iff.mp hserved
        have hguard := r.guard n
        have hnext := r.next n
        rw [ha] at hguard hnext
        obtain ⟨-, he, -⟩ := step_cqe hguard.1 hnext
        rw [StageHelpful, tracerStage_stopped hstop.stopped, if_neg (by decide)] at hhelps
        exact absurd hhelps (hstop.noDump e he)
  obtain ⟨m, -, hm⟩ := Trace.Fair.eventually h hranked le_rfl
  exact ⟨m, hm⟩

end

/-- In a fair run that never ends the tracing job finds nothing left to dump. -/
theorem fair_run_stuck {B : ℕ} {t₀ t₁ : Timespec} (hpos : 0 < B)
    (hB : B + entries * bufSize ≤ 2 ^ 48) (r : Trace (step B) InOrder (mainStart t₀ t₁))
    (hfair : FairRun r) : ∃ n, nothingToDump (r.state n) = true := by
  by_contra hnone
  have hsome : ∀ n, nothingToDump (r.state n) = false := fun n => by
    by_contra h
    exact hnone ⟨n, Bool.not_eq_false _ ▸ h⟩
  obtain ⟨N, hN⟩ := hfair.stopped hpos hB hsome
  have hstop : ∀ k, TracerStopped (r.state (N + k)) := fun k => by
    induction k with
    | zero =>
        exact (ReachInOrder.reach (r.reachable N)).running_or_stopped.resolve_left fun hrun => by
          rw [hN] at hrun
          cases hrun
    | succ k ih => exact (ih.step (r.guard _).1 (r.next _)).1
  have hkernel : ∀ k, (r.state (N + k)).kernel.length + k ≤ (r.state N).kernel.length := fun k => by
    induction k with
    | zero => exact le_rfl
    | succ k ih =>
        have hless := (hstop k).reaps (r.guard _).1 (r.next _) (r.next _)
        rw [Nat.add_assoc] at hless
        omega
  have htoo := hkernel ((r.state N).kernel.length + 1)
  omega

/-! ## A fair run that never ends -/

/-- Only the status timer is outstanding; the argument counts the steps until it can
expire. -/
def Idling (s : System) : ℕ → Prop
  | 0 => s.phase = .reap ∧ s.kernel = [.timeout .status] ∧ s.sq = []
  | 1 => s.phase = .submit ∧ s.kernel = [] ∧ s.sq = [.timeout .status]
  | 2 => s.phase = .reap ∧ s.kernel = [] ∧ s.sq = [.timeout .status]
  | _ => False

def idleAct (s : System) : Act :=
  if s.phase = .submit then .submit
  else if s.kernel = [] then .tickEnd
  else completion (.timeout .status)

section
variable {B k : ℕ} {s t : System} {a : Act} {e : Sqe}

theorem Idling.outstanding (h : Idling s k) : s.outstanding = [.timeout .status] := by
  match k, h with
  | 0, ⟨_, hkernel, hsq⟩ => simp [System.outstanding, hkernel, hsq]
  | 1, ⟨_, hkernel, hsq⟩ => simp [System.outstanding, hkernel, hsq]
  | 2, ⟨_, hkernel, hsq⟩ => simp [System.outstanding, hkernel, hsq]

theorem Idling.wait (h : Idling s (k + 1)) (hrun : s.tracingJob.running = true) :
    InOrder s (idleAct s) ∧ ∃ t, step B s (idleAct s) = some t ∧
      t.tracingJob = s.tracingJob ∧ Idling t k := by
  match k, h with
  | 0, ⟨hphase, hkernel, hsq⟩ =>
      rw [idleAct, if_pos hphase]
      refine ⟨⟨trivial, trivial⟩, _, if_pos hphase, rfl, rfl, ?_, rfl⟩
      rw [hkernel, hsq]
      rfl
  | 1, ⟨hphase, hkernel, hsq⟩ =>
      have hgo : s.allStopped = false := by simp [System.allStopped, hrun]
      rw [idleAct, if_neg (by simp [hphase]), if_pos hkernel]
      refine ⟨⟨trivial, trivial⟩, _, if_pos hphase, rfl, ?_, hkernel, hsq⟩
      rw [hgo]
      rfl

theorem Idling.expire (h : Idling s 0) :
    idleAct s = completion (.timeout .status) ∧ InOrder s (idleAct s) ∧
      ∃ t, step B s (idleAct s) = some t ∧ t.tracingJob = s.tracingJob ∧ Idling t 2 := by
  obtain ⟨hphase, hkernel, hsq⟩ := h
  have hact : idleAct s = completion (.timeout .status) := by
    rw [idleAct, if_neg (by simp [hphase]), if_neg (by simp [hkernel])]
  have he : .timeout .status ∈ s.kernel := by simp [hkernel]
  obtain ⟨t, ht⟩ : ∃ t, backgroundStatus ⟨0, 0⟩ (s.taken (.timeout .status)) = some t :=
    ioPrepareSqe_isSome (by simp [System.taken, hsq, entries])
  refine ⟨hact, hact ▸ ⟨successful_completion s _, trivial⟩, t, ?_, ?_⟩
  · rw [hact, step_completion hphase he]
    exact ht
  · obtain ⟨stats, rfl⟩ := backgroundStatus_eq_some ht
    refine ⟨rfl, hphase, ?_, ?_⟩
    · simp [System.taken, hkernel]
    · simp [System.taken, hsq]

theorem Idling.exists_fair (h : Idling s k) (hrun : s.tracingJob.running = true) :
    ∃ r : Trace (step B) InOrder s,
      r.Fair (fun s e => e ∈ s.outstanding) fun a e => a.completes e = true := by
  obtain ⟨r, hr⟩ : ∃ r : Trace (step B) InOrder s, ∀ n,
      ((r.state n).tracingJob.running = true ∧ ∃ k, Idling (r.state n) k) ∧
        r.label n = idleAct (r.state n) := by
    refine Trace.exists_of_scheduler (I := fun s => s.tracingJob.running = true ∧ ∃ k, Idling s k)
      idleAct ⟨hrun, k, h⟩ ?_
    rintro s ⟨hrun, k, h⟩
    cases k with
    | zero =>
        obtain ⟨-, hok, t, ht, hjob, hidle⟩ := h.expire (B := B)
        exact ⟨hok, t, ht, hjob ▸ hrun, 2, hidle⟩
    | succ k =>
        obtain ⟨hok, t, ht, hjob, hidle⟩ := h.wait (B := B) hrun
        exact ⟨hok, t, ht, hjob ▸ hrun, k, hidle⟩
  have hserved : ∀ k n, Idling (r.state n) k →
      ∃ m, n ≤ m ∧ (r.label m).completes (.timeout .status) = true := by
    intro k
    induction k with
    | zero =>
        intro n hidle
        refine ⟨n, le_rfl, ?_⟩
        rw [(hr n).2, (hidle.expire (B := B)).1]
        exact beq_self_eq_true _
    | succ k ih =>
        intro n hidle
        obtain ⟨-, t, ht, -, hnext⟩ := hidle.wait (B := B) (hr n).1.1
        rw [← (hr n).2, r.next n] at ht
        obtain ⟨m, hm, hserved⟩ := ih (n + 1) (Option.some.inj ht ▸ hnext)
        exact ⟨m, (Nat.le_succ n).trans hm, hserved⟩
  refine ⟨r, fun n e he => ?_⟩
  obtain ⟨-, k, hidle⟩ := (hr n).1
  have hone : e ∈ [Sqe.timeout .status] := hidle.outstanding ▸ he
  obtain rfl := List.mem_singleton.mp hone
  exact hserved k n hidle

/-- What is outstanding stays so until it completes. -/
theorem outstanding_persistent :
    Persistent (step B) (fun s e => e ∈ s.outstanding) fun a e => a.completes e = true := by
  intro s a t e hs he
  cases a with
  | submit =>
      obtain ⟨-, rfl⟩ := step_submit hs
      exact .inr (by simpa [System.outstanding] using he)
  | tickEnd =>
      obtain ⟨-, rfl⟩ := step_tickEnd hs
      exact .inr he
  | cqe e' res now =>
      by_cases hsame : e' = e
      · exact .inl (beq_iff_eq.mpr hsame)
      · have htaken : e ∈ (s.taken e').outstanding := by
          rcases List.mem_append.mp he with hk | hq
          · exact List.mem_append_left _ ((List.mem_erase_of_ne (Ne.symm hsame)).mpr hk)
          · exact List.mem_append_right _ hq
        rcases (step_cqe_cases hs).2.2 with ⟨-, ht⟩ | ⟨-, rfl⟩
        · obtain ⟨new, events, happ⟩ := callback_appends ht
          refine .inr ?_
          change e ∈ t.kernel ++ t.sq
          rw [happ.kernel, happ.sq, ← List.append_assoc]
          exact List.mem_append_left _ htaken
        · exact .inr htaken

end

theorem fair_run_stuck_one_page : ∃ r : Trace (step bufSize) InOrder (mainStart ⟨0, 0⟩ ⟨0, 0⟩),
    FairRun r ∧ ∃ n, nothingToDump (r.state n) = true := by
  obtain ⟨s, hs, hp⟩ := onePage_spec
  obtain ⟨hnone, hphase, hkernel, hsq⟩ := of_decide_eq_true hp
  obtain ⟨r, hfair⟩ := Idling.exists_fair (B := bufSize) (k := 0) ⟨hphase, hkernel, hsq⟩
    (nothingToDump_iff.mp hnone).2.1
  obtain ⟨as, hrun⟩ := hs
  obtain ⟨r', hfair'⟩ := hrun.exists_fair outstanding_persistent r hfair
  exact ⟨r', hfair', fair_run_stuck (by decide) (by decide) r' hfair'⟩

end IoScheduler
