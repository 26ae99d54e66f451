import IoScheduler.SchedulerSlots
import IoScheduler.SchedulerPipeline
import IoScheduler.History

/-!
# How far each page job has come

`F` pages are released, `C` written, `brk` submitted for writing and `R`
submitted for reading. A page job stops only past the target. As long as no
counter wraps the reader stays behind the flusher, and then every page is read
once, in order, after its write.
-/
namespace IoScheduler
open Machine Transition History

/-- `R` page reads have been submitted, in the order of their pages. -/
structure Reads (R : ℕ) (s : System) : Prop where
  page : s.readerJob.pageId = u32 R
  submitted : s.log.filterMap Event.readSubmitted? = (List.range R).map u32

structure Progress (B F C R : ℕ) (s : System) : Prop where
  pipeline : Pipeline F C s
  reads : Reads R s
  writerStopped : s.writerJob.running = false → B ≤ s.brk * bufSize
  readerStopped : s.readerJob.running = false → B ≤ R * bufSize
  flusherStopped : s.flusherJob.running = false → B ≤ F * bufSize

theorem progress_mainStart (B : ℕ) (start last : Timespec) :
    Progress B 0 0 0 (mainStart start last) := by
  refine ⟨pipeline_mainStart start last, ?_, ?_, ?_, ?_⟩ <;> rw [mainStart_eq]
  · exact ⟨rfl, rfl⟩
  all_goals exact fun h => Bool.noConfusion h

theorem le_of_goesOn_eq_false {B n : ℕ} (h : goesOn B (u32 n) = false) : B ≤ n * bufSize := by
  have hB : B ≤ u64 (u32 n * bufSize) := by simpa [goesOn] using h
  exact hB.trans ((Nat.mod_le _ _).trans (Nat.mul_le_mul_right _ (u32_le n)))

theorem lt_of_goesOn {B n : ℕ} (hn : n < 2 ^ 32) (h : goesOn B (u32 n) = true) :
    n * bufSize < B := by
  have hlt : u64 (n * bufSize) < B := by simpa [goesOn, u32_of_lt hn] using h
  rwa [u64_of_lt (by unfold bufSize; omega)] at hlt

section
variable {B F C R : ℕ} {now : Timespec} {s t : System}

theorem Reads.unique {R' : ℕ} (h : Reads R s) (h' : Reads R' s) : R = R' := by
  simpa using congrArg List.length (h.submitted.symm.trans h'.submitted)

theorem Reads.of_append {new : List Event} (h : Reads R s)
    (hpage : t.readerJob.pageId = s.readerJob.pageId) (hlog : t.log = s.log ++ new)
    (hnew : ∀ e ∈ new, e.readSubmitted? = none) : Reads R t := by
  refine ⟨hpage ▸ h.page, ?_⟩
  rw [hlog, List.filterMap_append, List.filterMap_eq_nil_iff.mpr hnew, List.append_nil,
    h.submitted]

/-- The reader's tick reads at most as many pages as the difference of the two
counters says. -/
theorem Reads.backgroundReader (h : Reads R s) (ht : backgroundReader B now s = some t) :
    ∃ b, b ≤ sub64 s.flusherJob.pageId s.readerJob.pageId ∧ Reads (R + b) t ∧
      t.log = s.log ++ (List.range b).map (readEvent R) ∧
      t.readerJob.running = (goesOn B (u32 (R + b)) && s.readerJob.running) := by
  obtain ⟨-, rfl⟩ := backgroundReader_eq_some ht
  generalize hb : u32 (min (adaptBatch s.readerJob.inflight s.readerJob.batchSize)
    (sub64 s.flusherJob.pageId s.readerJob.pageId)) = b
  have hpage : u32 (s.readerJob.pageId + b) = u32 (R + b) := by rw [h.page, u32_add]
  have hevent : readEvent s.readerJob.pageId = readEvent R := by
    funext k
    rw [readEvent, readEvent, h.page, u32_add]
  refine ⟨b, hb ▸ (u32_le _).trans (Nat.min_le_right _ _), ⟨hpage, ?_⟩, by rw [hevent], ?_⟩
  · rw [List.filterMap_append, h.submitted, List.range_add, List.map_append, List.map_map]
    congr 1
    simp [List.filterMap_map, Function.comp_def, hevent, readEvent, Event.readSubmitted?]
  · exact congrArg (fun p => goesOn B p && s.readerJob.running) hpage

/-- The events of every other step leave the reader alone. -/
theorem log_of_step {a : Act} (h : Pipeline F C s) (hok : Successful s a)
    (hs : step B s a = some t) :
    (∃ now, .timeout .reader ∈ s.kernel ∧
      backgroundReader B now (s.taken (.timeout .reader)) = some t) ∨
    (t.readerJob.pageId = s.readerJob.pageId ∧ t.readerJob.running = s.readerJob.running ∧
      ∃ new, t.log = s.log ++ new ∧ ∀ e ∈ new, e.readSubmitted? = none) := by
  rcases step_cases hok hs with hq | ⟨now, he, ht⟩ | hr | ⟨now, he, ht⟩ |
    ⟨op, off, res, now, rfl, he, ht⟩ | ⟨op, off, now, he, ht⟩ | ⟨res, now, rfl, he, ht⟩
  · obtain ⟨items, hlog⟩ := hq.log
    exact .inr ⟨by rw [hq.readerJob], by rw [hq.readerJob], _, hlog,
      by simp [Event.readSubmitted?]⟩
  · obtain ⟨-, rfl⟩ := backgroundWriter_eq_some ht
    exact .inr ⟨rfl, rfl, _, rfl, by simp [writeEvent, Event.readSubmitted?]⟩
  · exact .inl hr
  · obtain ⟨u, hu, rfl⟩ := backgroundFlusher_eq_some ht
    rcases submitFsync_eq_some hu with ⟨-, rfl⟩ | ⟨-, rfl⟩
    · exact .inr ⟨rfl, rfl, _, rfl, by simp [Event.readSubmitted?]⟩
    · exact .inr ⟨rfl, rfl, [], (List.append_nil _).symm, by simp⟩
  · obtain ⟨o, heap, writeList, stats, -, -, rfl, -⟩ := pageWritten_eq_some ht
    exact .inr ⟨rfl, rfl, _, rfl, by simp [Event.readSubmitted?]⟩
  · obtain rfl := Option.some.inj ht
    exact .inr ⟨rfl, rfl, _, rfl, by simp [Event.readSubmitted?]⟩
  · have hlog := ((h.taken he rfl).fileSynced ht).2
    obtain ⟨heap, log, stats, -, rfl⟩ := fileSynced_eq_some ht
    refine .inr ⟨rfl, rfl, _, hlog, ?_⟩
    simp only [List.mem_cons, List.mem_map]
    rintro e (rfl | ⟨p, -, rfl⟩) <;> rfl

/-- The writer and the flusher over one step. -/
theorem writer_flusher_of_step {a : Act} (h : Pipeline F C s) (hok : Successful s a)
    (horder : WritesInOrder s a) (hs : step B s a = some t) :
    ∃ F' C', Pipeline F' C' t ∧ F ≤ F' ∧ s.brk ≤ t.brk ∧
      (t.writerJob.running = false → s.writerJob.running = false ∨ B ≤ t.brk * bufSize) ∧
      (t.flusherJob.running = false → s.flusherJob.running = false ∨ B ≤ F' * bufSize) := by
  rcases step_cases hok hs with hq | ⟨now, he, ht⟩ | ⟨now, he, ht⟩ | ⟨now, he, ht⟩ |
    ⟨op, off, res, now, rfl, he, ht⟩ | ⟨op, off, now, he, ht⟩ | ⟨res, now, rfl, he, ht⟩
  · exact ⟨F, C, h.quiet hq, le_rfl, hq.brk.ge, fun hf => .inl (hq.writerJob ▸ hf),
      fun hf => .inl (hq.flusherJob ▸ hf)⟩
  · have hp := (h.taken he rfl).backgroundWriter ht
    obtain ⟨-, rfl⟩ := backgroundWriter_eq_some ht
    refine ⟨F, C, hp, le_rfl, Nat.le_add_right _ _, fun hf => ?_, .inl⟩
    rcases Bool.and_eq_false_iff.mp hf with hstop | hrun
    · exact .inr (le_of_goesOn_eq_false (hp.writerPage ▸ hstop))
    · exact .inl hrun
  · have hp := (h.taken he rfl).backgroundReader ht
    obtain ⟨-, rfl⟩ := backgroundReader_eq_some ht
    exact ⟨F, C, hp, le_rfl, le_rfl, .inl, .inl⟩
  · have hp := (h.taken he rfl).backgroundFlusher ht
    obtain ⟨u, hu, rfl⟩ := backgroundFlusher_eq_some ht
    have hstop : (goesOn B s.flusherJob.pageId && u.flusherJob.running) = false →
        u.flusherJob.running = false ∨ B ≤ F * bufSize := fun hf =>
      (Bool.and_eq_false_iff.mp hf).symm.imp id
        fun hgo => le_of_goesOn_eq_false (h.flusherPage ▸ hgo)
    rcases submitFsync_eq_some hu with ⟨-, rfl⟩ | ⟨-, rfl⟩
    · exact ⟨F, C, hp, le_rfl, le_rfl, .inl, hstop⟩
    · exact ⟨F, C, hp, le_rfl, le_rfl, .inl, hstop⟩
  · have hp := h.pageWritten he horder ht
    obtain ⟨o, heap, writeList, stats, -, -, rfl, -⟩ := pageWritten_eq_some ht
    exact ⟨F, C + 1, hp, le_rfl, le_rfl, .inl, .inl⟩
  · have hp := (h.taken he rfl).pageRead ht
    obtain rfl := Option.some.inj ht
    exact ⟨F, C, hp, le_rfl, le_rfl, .inl, .inl⟩
  · have hp := ((h.taken he rfl).fileSynced ht).1
    obtain ⟨heap, log, stats, -, rfl⟩ := fileSynced_eq_some ht
    exact ⟨C, C, hp, h.released_le, le_rfl, .inl, .inl⟩

theorem Progress.step {a : Act} (h : Progress B F C R s) (hok : Successful s a)
    (horder : WritesInOrder s a) (hs : step B s a = some t) :
    ∃ F' C' R', Progress B F' C' R' t ∧ F ≤ F' ∧ R' ≤ R + sub64 (u32 F) (u32 R) := by
  obtain ⟨F', C', hp, hF, hbrk, hw, hf⟩ := writer_flusher_of_step h.pipeline hok horder hs
  have hw' : t.writerJob.running = false → B ≤ t.brk * bufSize := fun hstop =>
    (hw hstop).elim (fun hold => (h.writerStopped hold).trans (Nat.mul_le_mul_right _ hbrk)) id
  have hf' : t.flusherJob.running = false → B ≤ F' * bufSize := fun hstop =>
    (hf hstop).elim (fun hold => (h.flusherStopped hold).trans (Nat.mul_le_mul_right _ hF)) id
  rcases log_of_step h.pipeline hok hs with ⟨now, he, ht⟩ | ⟨hpage, hrun, new, hlog, hnew⟩
  · have hr : Reads R (s.taken (.timeout .reader)) := ⟨h.reads.page, h.reads.submitted⟩
    obtain ⟨b, hb, hr', -, hrun⟩ := hr.backgroundReader ht
    have hlim : b ≤ sub64 (u32 F) (u32 R) := by
      rw [← h.pipeline.flusherPage, ← h.reads.page]
      exact hb
    refine ⟨F', C', R + b, ⟨hp, hr', hw', fun hstop => ?_, hf'⟩, hF, by omega⟩
    rw [hrun] at hstop
    rcases Bool.and_eq_false_iff.mp hstop with hgo | hold
    · exact le_of_goesOn_eq_false hgo
    · exact (h.readerStopped hold).trans (Nat.mul_le_mul_right _ (Nat.le_add_right R b))
  · refine ⟨F', C', R, ⟨hp, h.reads.of_append hpage hlog hnew, hw', fun hstop => ?_, hf'⟩, hF,
      Nat.le_add_right _ _⟩
    exact h.readerStopped (hrun ▸ hstop)

end

theorem ReachInOrder.progress {B : ℕ} {t₀ t₁ : Timespec} {s : System}
    (h : ReachInOrder B t₀ t₁ s) : ∃ F C R, Progress B F C R s := by
  refine Reachable.invariant (I := fun s => ∃ F C R, Progress B F C R s) h
    ⟨0, 0, 0, progress_mainStart B t₀ t₁⟩ ?_
  rintro s a t ⟨F, C, R, hi⟩ hc hs
  obtain ⟨F', C', R', hi', -⟩ := hi.step hc.1 hc.2 hs
  exact ⟨F', C', R', hi'⟩

/-! ## Below the wrap -/

/-- The writer overshoots the target by at most one full queue. -/
structure Bounded (B : ℕ) (s : System) : Prop where
  running_lt : s.writerJob.running = true → s.brk * bufSize < B
  brk_lt : s.brk * bufSize < B + entries * bufSize

theorem Bounded.step {B F C : ℕ} {s t : System} {a : Act} (hB : B + entries * bufSize ≤ 2 ^ 48)
    (h : Bounded B s) (hp : Pipeline F C s) (hslots : Slots s) (hok : Successful s a)
    (hs : step B s a = some t) : Bounded B t := by
  rcases step_cases hok hs with hq | ⟨now, he, ht⟩ | ⟨now, he, ht⟩ | ⟨now, he, ht⟩ |
    ⟨op, off, res, now, rfl, he, ht⟩ | ⟨op, off, now, he, ht⟩ | ⟨res, now, rfl, he, ht⟩
  · exact ⟨by rw [hq.writerJob, hq.brk]; exact h.running_lt, by rw [hq.brk]; exact h.brk_lt⟩
  · have hlt : s.brk * bufSize < B := h.running_lt (hslots.running.1 he)
    have hpage := ((hp.taken he rfl).backgroundWriter ht).writerPage
    obtain ⟨hroom, rfl⟩ := backgroundWriter_eq_some ht
    generalize adaptBatch (s.taken (.timeout .writer)).writerJob.inflight
      (s.taken (.timeout .writer)).writerJob.batchSize = b at hroom hpage ⊢
    have hb : b ≤ entries := by omega
    have hle : (s.brk + b) * bufSize < B + entries * bufSize := by
      rw [Nat.add_mul]
      exact Nat.add_lt_add_of_lt_of_le hlt (Nat.mul_le_mul_right _ hb)
    refine ⟨fun hrun => ?_, hle⟩
    have hgo := (Bool.and_eq_true_iff.mp hrun).1
    simp only at hpage
    rw [hpage] at hgo
    refine lt_of_goesOn ?_ hgo
    have hlt' : (s.brk + b) * bufSize < 2 ^ 32 * bufSize := by
      have : 2 ^ 32 * bufSize = 2 ^ 48 := rfl
      omega
    exact Nat.lt_of_mul_lt_mul_right hlt'
  · obtain ⟨-, rfl⟩ := backgroundReader_eq_some ht
    exact ⟨h.running_lt, h.brk_lt⟩
  · obtain ⟨u, hu, rfl⟩ := backgroundFlusher_eq_some ht
    rcases submitFsync_eq_some hu with ⟨-, rfl⟩ | ⟨-, rfl⟩
    · exact ⟨h.running_lt, h.brk_lt⟩
    · exact ⟨h.running_lt, h.brk_lt⟩
  · obtain ⟨o, heap, writeList, stats, -, -, rfl, -⟩ := pageWritten_eq_some ht
    exact ⟨h.running_lt, h.brk_lt⟩
  · obtain rfl := Option.some.inj ht
    exact ⟨h.running_lt, h.brk_lt⟩
  · obtain ⟨heap, log, stats, -, rfl⟩ := fileSynced_eq_some ht
    exact ⟨h.running_lt, h.brk_lt⟩

/-- A page read is submitted only after a write of its page has completed. -/
def ReadAfterWrite (past : List Event) (e : Event) : Prop :=
  ∀ pageId, e = .readSubmitted pageId → ∃ op, .pageWritten op pageId ∈ past

/-- Progress in a run whose counters have not wrapped. -/
structure Unwrapped (B F C R : ℕ) (s : System) : Prop extends Progress B F C R s, Bounded B s where
  readerRunning : s.readerJob.running = true → R * bufSize < B
  read_le : R ≤ F
  justified : Justified ReadAfterWrite s.log

theorem Unwrapped.brk_lt_pow {B F C R : ℕ} {s : System} (hB : B + entries * bufSize ≤ 2 ^ 48)
    (h : Unwrapped B F C R s) : s.brk < 2 ^ 32 := by
  have hlt : s.brk * bufSize < 2 ^ 32 * bufSize := h.brk_lt.trans_le hB
  exact Nat.lt_of_mul_lt_mul_right hlt

theorem unwrapped_mainStart {B : ℕ} (hB : 0 < B) (start last : Timespec) :
    Unwrapped B 0 0 0 (mainStart start last) := by
  have hzero : 0 * bufSize < B := (Nat.zero_mul _).trans_lt hB
  refine ⟨progress_mainStart B start last, ?_, fun _ => hzero, le_rfl, ?_⟩
  · rw [mainStart_eq]
    exact ⟨fun _ => hzero, hzero.trans_le (Nat.le_add_right _ _)⟩
  · rw [mainStart_eq]
    exact Justified.nil

theorem Pipeline.written_mem {F C p : ℕ} {s : System} (h : Pipeline F C s) (hp : p < C) :
    .pageWritten p (u32 p) ∈ s.log := by
  have hmem : (p, u32 p) ∈ s.log.filterMap Event.pageWritten? := by
    rw [h.written]
    exact List.mem_map.mpr ⟨p, List.mem_range.mpr hp, rfl⟩
  obtain ⟨e, he, hsome⟩ := List.mem_filterMap.mp hmem
  cases e <;> simp only [Event.pageWritten?, reduceCtorEq, Option.some.injEq,
    Prod.mk.injEq] at hsome
  obtain ⟨rfl, rfl⟩ := hsome
  exact he

theorem Unwrapped.step {B F C R : ℕ} {s t : System} {a : Act}
    (hB : B + entries * bufSize ≤ 2 ^ 48) (h : Unwrapped B F C R s) (hslots : Slots s)
    (hok : Successful s a) (horder : WritesInOrder s a) (hs : step B s a = some t) :
    ∃ F' C' R', Unwrapped B F' C' R' t := by
  have hbrk := h.brk_lt_pow hB
  have hFC := h.pipeline.released_le
  have hC := h.pipeline.written_le
  have hRF := h.read_le
  have hlim : sub64 (u32 F) (u32 R) = F - R := by
    rw [u32_of_lt (by omega), u32_of_lt (by omega)]
    exact sub64_of_le (by omega) hRF
  obtain ⟨F', C', R', hi, hF, hR⟩ := h.toProgress.step hok horder hs
  have hbound := h.toBounded.step hB h.pipeline hslots hok hs
  rcases log_of_step h.pipeline hok hs with ⟨now, he, ht⟩ | ⟨hpage, hrun, new, hlog, hnew⟩
  · have hr : Reads R (s.taken (.timeout .reader)) := ⟨h.reads.page, h.reads.submitted⟩
    obtain ⟨b, hb, hr', hlog, hrun⟩ := hr.backgroundReader ht
    obtain rfl := hi.reads.unique hr'
    have hb' : b ≤ F - R := by
      rw [← hlim, ← h.pipeline.flusherPage, ← h.reads.page]
      exact hb
    refine ⟨F', C', R + b, hi, hbound, fun hgo => ?_, by omega, ?_⟩
    · rw [hrun] at hgo
      exact lt_of_goesOn (by omega) (Bool.and_eq_true_iff.mp hgo).1
    · rw [hlog]
      refine justified_append.mpr ⟨h.justified, fun mid e hm pageId hpage => ?_⟩
      have hmem : e ∈ (List.range b).map (readEvent R) := hm.subset (by simp)
      obtain ⟨k, hk, rfl⟩ := List.mem_map.mp hmem
      obtain rfl : u32 (R + k) = pageId := Event.readSubmitted.inj hpage
      have hkb := List.mem_range.mp hk
      exact ⟨R + k, List.mem_append_left _ (h.pipeline.written_mem (by omega))⟩
  · obtain rfl := hi.reads.unique (h.reads.of_append hpage hlog hnew)
    refine ⟨F', C', R', hi, hbound, fun hgo => h.readerRunning (hrun ▸ hgo), by omega, ?_⟩
    rw [hlog]
    refine h.justified.append_free fun past e he pageId hpage => ?_
    rw [hpage] at he
    exact absurd (hnew _ he) (by simp [Event.readSubmitted?])

theorem ReachInOrder.unwrapped {B : ℕ} {t₀ t₁ : Timespec} {s : System} (hpos : 0 < B)
    (hB : B + entries * bufSize ≤ 2 ^ 48) (h : ReachInOrder B t₀ t₁ s) :
    ∃ F C R, Unwrapped B F C R s := by
  refine Reachable.invariant_reachable (I := fun s => ∃ F C R, Unwrapped B F C R s) h
    ⟨0, 0, 0, unwrapped_mainStart hpos t₀ t₁⟩ ?_
  rintro s a t hr ⟨F, C, R, hi⟩ hc hs
  exact hi.step hB (ReachInOrder.reach hr).slots hc.1 hc.2 hs

/-- The reader never passes the flusher, the flusher never passes the write
completions, and these never pass the writer; so the reader's limit never wraps
and each page is read once, in order, after its write. -/
theorem reads_follow_flushes {t₀ t₁ : Timespec} {s : System}
    (h : ReachInOrder bytesToWrite t₀ t₁ s) :
    s.readerJob.pageId ≤ s.flusherJob.pageId ∧
    s.flusherJob.pageId + s.writerJob.writtenNoFlush = s.pageIdCheckOrder ∧
    s.pageIdCheckOrder = (s.log.filterMap Event.pageWritten?).length ∧
    s.pageIdCheckOrder ≤ s.writerJob.pageId ∧
    sub64 s.flusherJob.pageId s.readerJob.pageId =
      s.flusherJob.pageId - s.readerJob.pageId ∧
    s.log.filterMap Event.readSubmitted? = List.range s.readerJob.pageId ∧
    Justified ReadAfterWrite s.log := by
  have hB : bytesToWrite + entries * bufSize ≤ 2 ^ 48 := by decide
  obtain ⟨F, C, R, hu⟩ := h.unwrapped (by decide) hB
  have hbrk := hu.brk_lt_pow hB
  have hFC := hu.pipeline.released_le
  have hC := hu.pipeline.written_le
  have hRF := hu.read_le
  have hreader : s.readerJob.pageId = R := hu.reads.page.trans (u32_of_lt (by omega))
  have hflusher : s.flusherJob.pageId = F := hu.pipeline.flusherPage.trans (u32_of_lt (by omega))
  have hwriter : s.writerJob.pageId = s.brk := hu.pipeline.writerPage.trans (u32_of_lt hbrk)
  have hcheck : s.pageIdCheckOrder = C := hu.pipeline.check.trans (u32_of_lt (by omega))
  have hflush : s.writerJob.writtenNoFlush = C - F :=
    hu.pipeline.noFlush.trans (u32_of_lt (by omega))
  rw [hreader, hflusher, hwriter, hcheck, hflush]
  refine ⟨hRF, by omega, ?_, hC, sub64_of_le (by omega) hRF, ?_, hu.justified⟩
  · rw [hu.pipeline.written, length_pagesBelow]
  · have hid : ∀ k ∈ List.range R, u32 k = k := fun k hk => by
      have := List.mem_range.mp hk
      exact u32_of_lt (by omega)
    rw [hu.reads.submitted]
    exact (List.map_congr_left hid).trans (List.map_id' _)

/-- One page written, flushed and read. -/
theorem reads_follow_flushes_one_page :
    ∃ s, ReachInOrder bytesToWrite ⟨0, 0⟩ ⟨0, 0⟩ s ∧ s.readerJob.pageId = 1 ∧
      s.log.filterMap Event.readSubmitted? = List.range s.readerJob.pageId ∧
      Justified ReadAfterWrite s.log := by
  obtain ⟨s, hs, hp⟩ : ∃ s, ReachInOrder bytesToWrite ⟨0, 0⟩ ⟨0, 0⟩ s ∧
      decide (s.readerJob.pageId = 1) = true :=
    exists_of_execute
      [.submit, .cqe (.timeout .writer) (-62) ⟨0, 0⟩, .tickEnd, .submit,
        .cqe (.pageWrite 0 0) 65536 ⟨0, 0⟩, .cqe (.timeout .flusher) (-62) ⟨0, 0⟩, .tickEnd,
        .submit, .cqe .fsync 0 ⟨0, 0⟩, .cqe (.timeout .reader) (-62) ⟨0, 0⟩] _
      (by decide +kernel)
  obtain ⟨-, -, -, -, -, hreads, hafter⟩ := reads_follow_flushes hs
  exact ⟨s, hs, of_decide_eq_true hp, hreads, hafter⟩

end IoScheduler
