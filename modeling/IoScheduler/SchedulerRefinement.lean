import IoScheduler.PageFlow
import IoScheduler.SchedulerPages
import IoScheduler.SchedulerTermination

/-!
# The log as a run of the page flow

With page writes completing in submission order the log of the loop is a run of the
page flow, and the state the flow is in can be read off the loop's own counters. So
an item of the trace shows how far the pages were when it was recorded.
-/
namespace IoScheduler
open Machine Transition History

/-- The state of the flow, read off the counters. -/
def System.flow (s : System) : PageFlow where
  submitted := s.pages.submitted
  written := s.pages.written
  synced := s.pages.released
  released := s.pages.released
  requested := s.pages.read
  syncing := decide (s.pages.fsync ≠ 0)
  reading := s.reading

/-- The new part of the log is a run between the two states. -/
def Flows (s t : System) : Prop := ∃ events, t.log = s.log ++ events ∧ s.flow.Over events t.flow

section
variable {B : ℕ} {now : Timespec} {res : ℤ} {s t : System} {a : Act} {e : Sqe} {x : Event}

theorem Flows.single (hlog : t.log = s.log ++ [x]) (h : s.flow.step x = some t.flow) : Flows s t :=
  ⟨_, hlog, .single h⟩

theorem Flows.quiet (hlog : t.log = s.log) (h : t.flow = s.flow) : Flows s t :=
  ⟨[], by rw [hlog, List.append_nil], h ▸ .nil⟩

theorem System.flow_eq {v : Pages} {m : Multiset ℕ} (hpages : t.pages = v)
    (hreading : t.reading = m) :
    t.flow = ⟨v.submitted, v.written, v.released, v.released, v.read, decide (v.fsync ≠ 0), m⟩ := by
  rw [System.flow, hpages, hreading]

theorem System.flow_same (hpages : t.pages = s.pages) (hreading : t.reading = s.reading) :
    t.flow = s.flow := System.flow_eq hpages hreading

/-! ## One completion -/

theorem Working.flows_written {op off : ℕ} (h : Working B s) (he : .pageWrite op off ∈ s.kernel)
    (horder : (s.kernel.filterMap Sqe.writeOp?).head? = some op)
    (ht : pageWritten now op (s.taken (.pageWrite op off)) = some t) : Flows s t := by
  obtain ⟨hlt, hpages⟩ := h.pages_written he horder ht
  obtain ⟨hop, -, -⟩ := h.unwrapped.pipeline.next_eq he horder
  have hreading : t.reading = s.reading := System.reading_foreign (B := B) 0 he Job.noConfusion ht
  have hlog : t.log = s.log ++ [.pageWritten op s.pageIdCheckOrder] := by
    obtain ⟨o, heap, writeList, stats, -, hpage, rfl, -⟩ := pageWritten_eq_some ht
    exact congrArg (fun p => s.log ++ [Event.pageWritten op p]) hpage
  refine .single hlog ((if_pos ⟨hop, rfl, hlt⟩).trans ?_)
  rw [System.flow_eq hpages hreading]
  rfl

theorem flows_read {op : OpPageRead} {off : ℕ} (he : .pageRead op off ∈ s.kernel)
    (ht : pageRead now op (s.taken (.pageRead op off)) = some t) : Flows s t := by
  obtain ⟨-, hpages⟩ := pages_read he ht
  obtain ⟨hlog, hk, hq⟩ : t.log = s.log ++ [.pageRead op.pageId] ∧
      t.kernel = (s.taken (.pageRead op off)).kernel ∧ t.sq = s.sq ++ [] := by
    obtain rfl := Option.some.inj ht
    exact ⟨rfl, rfl, (List.append_nil _).symm⟩
  have hreading : s.reading = op.pageId ::ₘ t.reading := by
    have hbalance := System.reading_eq he hk hq
    simpa [Sqe.readPage?] using hbalance.symm
  have hmem : op.pageId ∈ s.reading := hreading ▸ Multiset.mem_cons_self _ _
  refine .single hlog ((if_pos hmem).trans ?_)
  have herase : t.reading = s.reading.erase op.pageId := by
    rw [hreading, Multiset.erase_cons_head]
  rw [System.flow_eq hpages herase]
  rfl

theorem Working.flows_synced (h : Working B s) (he : .fsync ∈ s.kernel)
    (ht : fileSynced now (s.taken .fsync) = some t) : Flows s t := by
  obtain ⟨hone, hpages⟩ := h.pages_synced he ht
  have hle : s.pages.released ≤ s.pages.written := h.unwrapped.pipeline.released_le
  have hwritten : s.pages.written ≤ s.brk := h.unwrapped.pipeline.written_le
  have hbrk := h.brk_lt
  have hreading : t.reading = s.reading := System.reading_foreign (B := B) 0 he Job.noConfusion ht
  have hlog := ((h.unwrapped.pipeline.taken he rfl).fileSynced ht).2
  have hevents : ((List.range' s.pages.released (s.pages.written - s.pages.released)).map
      fun p => Event.released p (u32 p) none) =
        (List.range' s.pages.released (s.pages.written - s.pages.released)).map
          fun p => Event.released p p none := by
    refine List.map_congr_left fun p hp => ?_
    have hlt := (List.mem_range'_1.mp hp).2
    rw [u32_of_lt (by omega)]
  refine ⟨_, hlog.trans (congrArg (fun l => s.log ++ Event.fileSynced :: l) hevents), ?_⟩
  have hsyncing : s.flow.syncing = true := by simp [System.flow, hone]
  have hsynced : s.flow.Over [.fileSynced]
      { s.flow with syncing := false, synced := s.flow.written } := .single (if_pos hsyncing)
  have hall := PageFlow.over_releases
    { s.flow with syncing := false, synced := s.flow.written }
    (n := s.pages.written - s.pages.released) (Nat.add_sub_cancel' hle).le
  have hflow : t.flow = { s.flow with
      syncing := false
      synced := s.flow.written
      released := s.pages.released + (s.pages.written - s.pages.released) } := by
    rw [System.flow_eq hpages hreading, Nat.add_sub_cancel' hle]
    rfl
  rw [hflow]
  exact hsynced.append hall

theorem Working.flows_writer (h : Working B s) (k : Working B t) (he : .timeout .writer ∈ s.kernel)
    (ht : backgroundWriter B now (s.taken (.timeout .writer)) = some t) : Flows s t := by
  obtain ⟨b, hb, hlt, -, hpages⟩ := h.pages_writer k he ht
  have hreading : t.reading = s.reading := System.reading_foreign (B := B) 0 he Job.noConfusion ht
  have hevents : (List.range b).map (writeEvent s.writerJob.pageId s.brk) =
      (List.range b).map fun k => .writeSubmitted (s.pages.submitted + k)
        (s.pages.submitted + k) := by
    refine List.map_congr_left fun k hk => ?_
    have hk := List.mem_range.mp hk
    have hpage : s.writerJob.pageId = s.pages.submitted := rfl
    rw [writeEvent, ← h.submitted, hpage, u32_of_lt (by omega)]
  have hlog : t.log = s.log ++ (List.range b).map (writeEvent s.writerJob.pageId s.brk) := by
    obtain ⟨-, rfl⟩ := backgroundWriter_eq_some ht
    rw [hb]
    rfl
  refine ⟨_, hlog.trans (congrArg (s.log ++ ·) hevents), ?_⟩
  rw [System.flow_eq hpages hreading]
  exact s.flow.over_writes b

theorem Working.flows_reader (h : Working B s) (he : .timeout .reader ∈ s.kernel)
    (ht : backgroundReader B now (s.taken (.timeout .reader)) = some t) : Flows s t := by
  obtain ⟨b, hb, -, -, hpages, hlog, hreading⟩ := h.pages_reader he ht
  have hle : s.pages.read ≤ s.pages.released := h.unwrapped.read_le
  refine ⟨_, hlog, ?_⟩
  rw [System.flow_eq hpages hreading]
  exact s.flow.over_reads (by change s.pages.read + b ≤ s.pages.released; omega)

theorem Working.flows_flusher (h : Working B s) (he : .timeout .flusher ∈ s.kernel)
    (ht : backgroundFlusher B now (s.taken (.timeout .flusher)) = some t) : Flows s t := by
  obtain ⟨-, hpages, hlog⟩ := h.pages_flusher he ht
  have hreading : t.reading = s.reading := System.reading_foreign (B := B) 0 he Job.noConfusion ht
  by_cases hwants : s.pages.released < s.pages.written ∧ s.pages.fsync = 0
  · rw [if_pos hwants] at hpages hlog
    have hidle : s.flow.syncing = false := by simp [System.flow, hwants.2]
    refine .single hlog ((if_pos ⟨hidle, hwants.1⟩).trans ?_)
    rw [System.flow_eq hpages hreading]
    rfl
  · rw [if_neg hwants] at hpages hlog
    refine .quiet (hlog.trans (List.append_nil _)) ?_
    rw [System.flow_eq hpages hreading]
    rfl

/-- An item shows the counters of the moment. -/
theorem Working.shows (h : Working B s) :
    s.flow.Shows
      { ts := elapsedTracing now s.tracingJob.startTime
        flushPageId := s.flusherJob.pageId
        writePageId := s.writerJob.pageId
        writeBatchSize := s.writerJob.batchSize
        writeInflight := s.writerJob.inflight
        readInflight := s.readerJob.inflight
        readBatchSize := s.readerJob.batchSize
        readPageId := s.readerJob.pageId } := by
  refine ⟨rfl, rfl, rfl, ?_, ?_⟩
  · have hcount : s.writesInFlight = s.flow.submitted - s.flow.written := by
      rw [System.writesInFlight_eq, h.unwrapped.pipeline.inFlight, List.length_range',
        ← h.submitted]
      rfl
    exact h.counted.writes.trans (congrArg u8 hcount)
  · exact h.counted.reads.trans (congrArg u8 s.reading_card.symm)

/-- Recording an item is a step that changes nothing. -/
theorem Working.flows_traced (h : Working B s)
    (hlog : t.log = (traced now (s.taken e)).log) (hflow : t.flow = s.flow) : Flows s t := by
  unfold traced at hlog
  split_ifs at hlog
  · exact .single hlog ((if_pos h.shows).trans (congrArg some hflow.symm))
  · exact .quiet hlog hflow

theorem Working.flows_cqe (h : Working B s) (k : Working B t) (he : e ∈ s.kernel)
    (horder : WritesInOrder s (.cqe e res now))
    (ht : callback B now res (s.taken e) e = some t) : Flows s t := by
  have hquiet : e.owner ≠ .reader → Quiet s t → t.flow = s.flow := fun hne hq =>
    System.flow_same (pages_quiet he hne hq ht) (System.reading_foreign res he hne ht)
  have hdump : e.slot? = some .dump → t.log = s.log := by
    intro hslot
    rcases callback_dump hslot ht with ⟨-, ht⟩ | ⟨-, ht⟩
    · obtain ⟨-, rfl⟩ := tracingWrited_eq_some ht
      rfl
    · obtain rfl := tracingSynced_eq_some ht
      rfl
  cases e with
  | pageWrite op off => exact h.flows_written he horder ht
  | pageRead op off => exact flows_read he ht
  | fsync => exact h.flows_synced he ht
  | dumpWrite len off =>
      have hq := dump_quiet he (.inr ⟨len, off, rfl⟩) ht
      exact .quiet (hdump rfl) (hquiet Job.noConfusion hq)
  | dumpFsync =>
      have hq := dump_quiet he (.inl rfl) ht
      exact .quiet (hdump rfl) (hquiet Job.noConfusion hq)
  | timeout job =>
      cases job with
      | writer => exact h.flows_writer k he ht
      | reader => exact h.flows_reader he ht
      | flusher => exact h.flows_flusher he ht
      | tracing =>
          have hflow := hquiet Job.noConfusion (backgroundTracing_quiet he ht)
          rcases backgroundTracing_eq_some ht with ⟨-, rfl⟩ | ⟨-, -, rfl⟩ | ⟨-, -, -, rfl⟩ |
            ⟨-, -, -, rfl⟩
          · exact h.flows_traced rfl hflow
          · exact h.flows_traced rfl hflow
          · exact .quiet rfl hflow
          · exact .quiet rfl hflow
      | status =>
          have hflow := hquiet Job.noConfusion (backgroundStatus_quiet he ht)
          obtain ⟨stats, rfl⟩ := backgroundStatus_eq_some ht
          exact .quiet rfl hflow

theorem Working.flows_step (h : Working B s) (k : Working B t) (hok : InOrder s a)
    (hs : step B s a = some t) : Flows s t := by
  cases a with
  | submit =>
      obtain ⟨-, rfl⟩ := step_submit hs
      refine .quiet rfl (System.flow_same ?_ ?_)
      · simp [System.pages, System.readsInFlight, System.outstanding]
      · simp [System.reading, System.outstanding]
  | tickEnd =>
      obtain ⟨-, rfl⟩ := step_tickEnd hs
      exact .quiet rfl rfl
  | cqe e res now =>
      obtain ⟨-, he, ht⟩ := step_cqe hok.1 hs
      exact h.flows_cqe k he hok.2 ht

end

section
variable {B : ℕ} {t₀ t₁ : Timespec} {s : System}

theorem ReachInOrder.flow (hpos : 0 < B) (hB : B + entries * bufSize ≤ 2 ^ 48)
    (h : ReachInOrder B t₀ t₁ s) : PageFlow.start.Over s.log s.flow := by
  refine Reachable.invariant_reachable (I := fun s => PageFlow.start.Over s.log s.flow) h ?_
    fun s a t hr hi hok hs => ?_
  · rw [mainStart_eq]
    exact .nil
  · have hs' : Working B s := ReachInOrder.working hpos hB hr
    have ht' : Working B t := ReachInOrder.working hpos hB (hr.next hok hs)
    obtain ⟨events, hlog, hover⟩ := hs'.flows_step ht' hok hs
    rw [hlog]
    exact hi.append hover

end

/-- With page writes completing in submission order the log is a run of the page flow
that ends in the loop's own counters, and those never overtake each other. -/
theorem log_refines {B : ℕ} {t₀ t₁ : Timespec} {s : System} (hpos : 0 < B)
    (hB : B + entries * bufSize ≤ 2 ^ 48) (h : ReachInOrder B t₀ t₁ s) :
    Run PageFlow.step (fun _ _ => True) PageFlow.start s.log s.flow ∧ s.flow.Sound :=
  have hover := h.flow hpos hB
  ⟨hover, hover.sound⟩

theorem log_refines_one_page : ∃ s, ReachInOrder bufSize ⟨0, 0⟩ ⟨0, 0⟩ s ∧
    Run PageFlow.step (fun _ _ => True) PageFlow.start
      [.writeSubmitted 0 0, .pageWritten 0 0, .fsyncSubmitted, .fileSynced, .released 0 0 none,
        .readSubmitted 0, .pageRead 0] s.flow ∧ s.flow.requested = 1 := by
  obtain ⟨s, hs, hp⟩ : ∃ s, ReachInOrder bufSize ⟨0, 0⟩ ⟨0, 0⟩ s ∧
      decide (s.log = [.writeSubmitted 0 0, .pageWritten 0 0, .fsyncSubmitted, .fileSynced,
        .released 0 0 none, .readSubmitted 0, .pageRead 0] ∧ s.readerJob.pageId = 1) = true :=
    exists_of_execute onePage _ (by decide +kernel)
  obtain ⟨hlog, hread⟩ := of_decide_eq_true hp
  have hrun := (log_refines (by decide) (by decide) hs).1
  rw [hlog] at hrun
  exact ⟨s, hs, hrun, hread⟩

/-- Every item of the trace shows how many pages had passed each stage when it was
recorded, and later items are at least as far. -/
theorem items_snapshots {B : ℕ} {t₀ t₁ : Timespec} {s : System} (hpos : 0 < B)
    (hB : B + entries * bufSize ≤ 2 ^ 48) (h : ReachInOrder B t₀ t₁ s) :
    Justified Snapshot s.log ∧
    (∀ item ∈ s.log.filterMap Event.itemTraced?,
      item.readPageId ≤ item.flushPageId ∧ item.flushPageId ≤ item.writePageId) ∧
    (s.log.filterMap Event.itemTraced?).Pairwise Behind :=
  have htold := (h.flow hpos hB).told
  ⟨htold.snapshots, htold.inside, htold.ordered⟩

theorem items_snapshots_one_write : ∃ s item, ReachInOrder bufSize ⟨0, 0⟩ ⟨0, 0⟩ s ∧
    s.log = [.writeSubmitted 0 0, .itemTraced item] ∧ item.writePageId = 1 ∧
    item.writeInflight = 1 ∧ Justified Snapshot s.log := by
  obtain ⟨s, hs, hp⟩ : ∃ s, ReachInOrder bufSize ⟨0, 0⟩ ⟨0, 0⟩ s ∧
      decide (s.log = [.writeSubmitted 0 0, .itemTraced ⟨0, 0, 1, 1, 1, 0, 0, 0⟩]) = true :=
    exists_of_execute [.submit, .cqe (.timeout .writer) (-62) ⟨0, 0⟩,
      .cqe (.timeout .tracing) (-62) ⟨0, 0⟩] _ (by decide +kernel)
  exact ⟨s, _, hs, of_decide_eq_true hp, rfl, rfl, (items_snapshots (by decide) (by decide) hs).1⟩

end IoScheduler
