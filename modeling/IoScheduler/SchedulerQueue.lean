import IoScheduler.SchedulerBounds
import IoScheduler.SchedulerLastDump

/-!
# Room in the submission queue

`io_prepare_sqe` fails only when `ENTRIES` entries have been prepared since the
last submit. `demand` is the number of entries a callback takes; it is read off
the state before the callback. A callback of the first completion of `io_tick`
always finds room, two page jobs in one `io_tick` need not.
-/
namespace IoScheduler
open Machine Transition

/-- `n` more entries can be prepared. -/
def Fits (s : System) (n : ℕ) : Prop := n = 0 ∨ s.sq.length + n ≤ entries

instance (s : System) (n : ℕ) : Decidable (Fits s n) := inferInstanceAs (Decidable (_ ∨ _))

/-- The entries of `dump_tracing_items`. -/
def dumpDemand (s : System) : ℕ :=
  if s.tracingJob.dumpOp.inflight = 0 ∧ cbufUsedCount s.tracingJob.cbuf ≠ 0 then 1 else 0

/-- The entries of the middle part of the tracing tick. -/
def halfDemand (s : System) : ℕ :=
  if cbufFreeCount s.tracingJob.cbuf ≤ s.tracingJob.cbuf.len / 2 then dumpDemand s else 0

/-- The entries a page job takes with a batch of `b` pages after page `pageId`. -/
def batchDemand (B pageId b : ℕ) : ℕ := b + (goesOn B (u32 (pageId + b))).toNat

/-- The entries the callback of a completion takes. -/
def demand (B : ℕ) (now : Timespec) (s : System) : Sqe → ℕ
  | .timeout .writer =>
      batchDemand B s.writerJob.pageId (adaptBatch s.writerJob.inflight s.writerJob.batchSize)
  | .timeout .reader =>
      batchDemand B s.readerJob.pageId (u32 (min
        (adaptBatch s.readerJob.inflight s.readerJob.batchSize)
        (sub64 s.flusherJob.pageId s.readerJob.pageId)))
  | .timeout .flusher =>
      (if wantsFsync s then 1 else 0) + (goesOn B s.flusherJob.pageId).toNat
  | .timeout .tracing =>
      halfDemand (traced now s) +
        if s.finished = false ∨ s.tracingJob.dumpOp.inflight ≠ 0 ∨ halfDemand (traced now s) ≠ 0
        then 1 else dumpDemand s
  | .timeout .status => 1
  | .dumpWrite _ _ | .dumpFsync =>
      match s.tracingJob.dumpOp.callback with
      | .tracingWrited => 1
      | .tracingSynced => 0
  | .pageWrite _ _ | .pageRead _ _ | .fsync => 0

section
variable {B : ℕ} {now : Timespec} {s : System}

theorem ioPrepareSqe_isSome_iff {e : Sqe} : (∃ t, ioPrepareSqe s e = some t) ↔ Fits s 1 := by
  simp only [ioPrepareSqe_eq_some, exists_and_left, exists_eq, and_true, Fits, one_ne_zero,
    false_or, Nat.succ_le_iff]

theorem resendOrStop_isSome_iff {pageId : ℕ} {job : Job} :
    (∃ t, resendOrStop B pageId job s = some t) ↔ Fits s (goesOn B pageId).toNat := by
  cases hgo : goesOn B pageId with
  | true =>
      have hlt : u64 (pageId * bufSize) < B := of_decide_eq_true hgo
      simp only [resendOrStop, hlt, if_true, resendJob, ioPrepareSqe_isSome_iff, Bool.toNat_true]
  | false =>
      have hle : ¬ u64 (pageId * bufSize) < B := of_decide_eq_false hgo
      simp [resendOrStop, hle, Fits]

/-- A batch and what follows it fit together. -/
theorem fits_of_length {u : System} {n m : ℕ} (hlen : u.sq.length = s.sq.length + n)
    (hn : Fits s n) : Fits u m ↔ Fits s (n + m) := by
  simp only [Fits] at hn ⊢
  omega

theorem Fits.of_add {n m : ℕ} (h : Fits s (n + m)) : Fits s n := by
  simp only [Fits] at h ⊢
  omega

theorem prepareBatch_of_fits {prepare : ℕ → System → Option System}
    (hp : ∀ i s, s.sq.length < entries →
      ∃ t, prepare i s = some t ∧ t.sq.length = s.sq.length + 1)
    {i n : ℕ} (h : Fits s n) : ∃ t, prepareBatch prepare i n s = some t := by
  rcases h with rfl | h
  · exact ⟨s, rfl⟩
  · exact (prepareBatch_isSome hp h).imp fun _ ht => ht.1

theorem backgroundWriter_isSome_iff :
    (∃ t, backgroundWriter B now s = some t) ↔ Fits s (demand B now s (.timeout .writer)) := by
  simp only [demand, batchDemand, backgroundWriter, Option.bind_eq_bind]
  generalize adaptBatch s.writerJob.inflight s.writerJob.batchSize = b
  constructor
  · rintro ⟨t, h⟩
    obtain ⟨u, hu, ht⟩ := Option.bind_eq_some_iff.mp h
    obtain ⟨hroom, rfl⟩ := prepareBatch_write hu
    exact (fits_of_length (by simp) hroom).mp (resendOrStop_isSome_iff.mp ⟨t, ht⟩)
  · intro h
    have hroom : Fits { s with writerJob.batchSize := b } b := h.of_add
    obtain ⟨u, hu⟩ : ∃ u, prepareBatch (prepareWrite now) 0 b
        { s with writerJob.batchSize := b } = some u :=
      prepareBatch_of_fits prepareWrite_isSome hroom
    simp only [hu, Option.bind_some]
    obtain ⟨-, rfl⟩ := prepareBatch_write hu
    exact resendOrStop_isSome_iff.mpr ((fits_of_length (by simp) hroom).mpr h)

theorem backgroundReader_isSome_iff :
    (∃ t, backgroundReader B now s = some t) ↔ Fits s (demand B now s (.timeout .reader)) := by
  simp only [demand, batchDemand, backgroundReader, Option.bind_eq_bind]
  generalize u32 (min (adaptBatch s.readerJob.inflight s.readerJob.batchSize)
    (sub64 s.flusherJob.pageId s.readerJob.pageId)) = b
  constructor
  · rintro ⟨t, h⟩
    obtain ⟨u, hu, ht⟩ := Option.bind_eq_some_iff.mp h
    obtain ⟨hroom, rfl⟩ := prepareBatch_read hu
    exact (fits_of_length (by simp) hroom).mp (resendOrStop_isSome_iff.mp ⟨t, ht⟩)
  · intro h
    have hroom : Fits { s with readerJob.batchSize := b } b := h.of_add
    obtain ⟨u, hu⟩ : ∃ u, prepareBatch (prepareRead now) 0 b
        { s with readerJob.batchSize := b } = some u :=
      prepareBatch_of_fits prepareRead_isSome hroom
    simp only [hu, Option.bind_some]
    obtain ⟨-, rfl⟩ := prepareBatch_read hu
    exact resendOrStop_isSome_iff.mpr ((fits_of_length (by simp) hroom).mpr h)

theorem backgroundFlusher_isSome_iff :
    (∃ t, backgroundFlusher B now s = some t) ↔ Fits s (demand B now s (.timeout .flusher)) := by
  simp only [demand, backgroundFlusher, Option.bind_eq_bind]
  by_cases hw : wantsFsync s
  · have hsubmit : submitFsync now s = ioPrepareSqe { s with
        flusherJob.issued := now
        flusherJob.inflight := 1
        log := s.log ++ [.fsyncSubmitted] } .fsync := if_pos hw
    rw [if_pos hw, hsubmit]
    constructor
    · rintro ⟨t, h⟩
      obtain ⟨u, hu, ht⟩ := Option.bind_eq_some_iff.mp h
      obtain ⟨hroom, rfl⟩ := ioPrepareSqe_eq_some.mp hu
      exact (fits_of_length (by simp) (.inr hroom)).mp (resendOrStop_isSome_iff.mp ⟨t, ht⟩)
    · intro h
      have hroom : Fits { s with
        flusherJob.issued := now
        flusherJob.inflight := 1
        log := s.log ++ [.fsyncSubmitted] } 1 := h.of_add
      obtain ⟨u, hu⟩ := (ioPrepareSqe_isSome_iff (e := .fsync)).mpr hroom
      simp only [hu, Option.bind_some]
      obtain ⟨hroom, rfl⟩ := ioPrepareSqe_eq_some.mp hu
      exact resendOrStop_isSome_iff.mpr ((fits_of_length (by simp) (.inr hroom)).mpr h)
  · have hsubmit : submitFsync now s = some s := if_neg hw
    rw [if_neg hw, hsubmit, Option.bind_some, Nat.zero_add]
    exact resendOrStop_isSome_iff

/-! ## The tracer -/

theorem dumpTracingItems_isSome_iff (hlen : s.tracingJob.cbuf.len ≠ 1)
    (hlt : s.tracingJob.cbuf.len < 2 ^ 32) :
    (∃ t, dumpTracingItems s = some t) ↔ Fits s (dumpDemand s) := by
  obtain ⟨start, hstart⟩ := (cbufIdx_isSome_iff hlt s.tracingJob.cbuf.head).mpr hlen
  have hget : cbufGet s.tracingJob.cbuf = some (start, cbufUsedCount s.tracingJob.cbuf) :=
    cbufGet_eq_some.mpr ⟨hstart, rfl⟩
  unfold dumpTracingItems dumpDemand
  by_cases hidle : s.tracingJob.dumpOp.inflight = 0
  · by_cases hused : cbufUsedCount s.tracingJob.cbuf = 0
    · simp [hidle, hget, hused, Fits]
    · simp only [hidle, hget, hused, ne_eq, not_true_eq_false, if_false, not_false_eq_true,
        and_self, if_true, Option.bind_eq_bind, Option.bind_some]
      exact ioPrepareSqe_isSome_iff
  · simp [hidle, Fits]

theorem dumpIfHalfFull_isSome_iff (hlen : s.tracingJob.cbuf.len ≠ 1)
    (hlt : s.tracingJob.cbuf.len < 2 ^ 32) :
    (∃ t, dumpIfHalfFull s = some t) ↔ Fits s (halfDemand s) := by
  unfold dumpIfHalfFull halfDemand
  split_ifs
  · exact dumpTracingItems_isSome_iff hlen hlt
  · simp [Fits]

theorem dumpTracingItems_demand {t : System} (h : dumpTracingItems s = some t) :
    (dumpDemand s = 0 ∧ t = s) ∨ (dumpDemand s = 1 ∧ t = dumpStarted s) := by
  rcases dumpTracingItems_eq_some h with ⟨hno, rfl⟩ | ⟨hidle, hused, rfl⟩
  · refine .inl ⟨if_neg fun hboth => ?_, rfl⟩
    exact hno.elim (fun hbusy => hbusy hboth.1) hboth.2
  · exact .inr ⟨if_pos ⟨hidle, hused⟩, rfl⟩

theorem dumpIfHalfFull_demand {t : System} (h : dumpIfHalfFull s = some t) :
    (halfDemand s = 0 ∧ t = s) ∨ (halfDemand s = 1 ∧ t = dumpStarted s) := by
  unfold dumpIfHalfFull at h
  unfold halfDemand
  split_ifs at h ⊢
  · exact dumpTracingItems_demand h
  · exact .inl ⟨rfl, (Option.some.inj h).symm⟩

theorem backgroundTracing_isSome_iff (hlen : s.tracingJob.cbuf.len ≠ 1)
    (hlt : s.tracingJob.cbuf.len < 2 ^ 32) :
    (∃ t, backgroundTracing now s = some t) ↔ Fits s (demand B now s (.timeout .tracing)) := by
  obtain ⟨start, hstart⟩ := (cbufIdx_isSome_iff hlt s.tracingJob.cbuf.tail).mpr hlen
  have hput : cbufPut s.tracingJob.cbuf = some (start, cbufFreeCount s.tracingJob.cbuf) :=
    cbufPut_eq_some.mpr ⟨hstart, rfl⟩
  obtain ⟨-, hq⟩ := traced_flags now s
  have hcbuf : (traced now s).tracingJob.cbuf.len = s.tracingJob.cbuf.len := by
    rcases traced_recorded now s with ⟨-, -, hcbuf, -⟩ | hsame
    · rw [hcbuf]
      rfl
    · rw [hsame]
  have htr : backgroundTracing now s = (dumpIfHalfFull (traced now s)).bind fun u =>
      if ¬ s.finished = true ∨ u.tracingJob.dumpOp.inflight ≠ 0 then resendJob u .tracing
      else dumpTracingItems u := by
    simp only [backgroundTracing, hput, Option.bind_eq_bind, Option.bind_some, traced,
      Bool.not_eq_true]
  have hfits : ∀ n, Fits (traced now s) n ↔ Fits s n := fun n => by simp only [Fits, hq]
  have hhalf := dumpIfHalfFull_isSome_iff (s := traced now s) (hcbuf ▸ hlen) (hcbuf ▸ hlt)
  have htail : ∀ u, dumpIfHalfFull (traced now s) = some u →
      ((∃ t, (if ¬ s.finished = true ∨ u.tracingJob.dumpOp.inflight ≠ 0 then resendJob u .tracing
        else dumpTracingItems u) = some t) ↔ Fits s (demand B now s (.timeout .tracing))) := by
    intro u hu
    have hroom := (hfits _).mp (hhalf.mp ⟨u, hu⟩)
    simp only [demand, Bool.not_eq_true]
    rcases dumpIfHalfFull_demand hu with ⟨hnone, rfl⟩ | ⟨hone, rfl⟩
    · rw [traced_dumpOp, hnone, Nat.zero_add]
      by_cases hgo : s.finished = false ∨ s.tracingJob.dumpOp.inflight ≠ 0
      · rw [if_pos hgo, if_pos (hgo.imp_right .inl)]
        exact ioPrepareSqe_isSome_iff.trans (hfits 1)
      · have hdone : s.finished = true := Bool.not_eq_false _ ▸ fun h => hgo (.inl h)
        have hstop : ¬ (s.finished = false ∨ s.tracingJob.dumpOp.inflight ≠ 0 ∨ 0 ≠ 0) := by
          rintro (h | h | h)
          · exact hgo (.inl h)
          · exact hgo (.inr h)
          · exact h rfl
        rw [if_neg hgo, if_neg hstop, traced_of_finished hdone]
        exact dumpTracingItems_isSome_iff hlen hlt
    · have hbusy : (dumpStarted (traced now s)).tracingJob.dumpOp.inflight ≠ 0 := Nat.one_ne_zero
      rw [hone] at hroom ⊢
      rw [if_pos (.inr hbusy), if_pos (.inr (.inr Nat.one_ne_zero))]
      exact ioPrepareSqe_isSome_iff.trans (fits_of_length (by simp [dumpStarted, hq]) hroom)
  rw [htr]
  constructor
  · rintro ⟨t, h⟩
    obtain ⟨u, hu, ht⟩ := Option.bind_eq_some_iff.mp h
    exact (htail u hu).mp ⟨t, ht⟩
  · intro h
    obtain ⟨u, hu⟩ := hhalf.mpr ((hfits _).mpr h.of_add)
    rw [hu]
    exact (htail u hu).mpr h

/-! ## Every callback -/

/-- The callbacks that prepare submissions. -/
def Sqe.prepares (s : System) : Sqe → Bool
  | .timeout _ => true
  | .dumpWrite _ _ | .dumpFsync => s.tracingJob.dumpOp.callback == .tracingWrited
  | .pageWrite _ _ | .pageRead _ _ | .fsync => false

/-- A dump write reports its full length. -/
def FullLength (s : System) (e : Sqe) (res : ℤ) : Prop :=
  e.isTimeout = false → 0 ≤ res ∧ (res % 2 ^ 32).toNat = s.tracingJob.dumpOp.toWrite

theorem callback_isSome_iff {e : Sqe} {res : ℤ} (hprep : e.prepares s = true)
    (hfull : FullLength s e res) (hlen : s.tracingJob.cbuf.len ≠ 1)
    (hlt : s.tracingJob.cbuf.len < 2 ^ 32) :
    (∃ t, callback B now res s e = some t) ↔ Fits s (demand B now s e) := by
  cases e with
  | timeout job =>
      cases job with
      | writer => exact backgroundWriter_isSome_iff
      | reader => exact backgroundReader_isSome_iff
      | flusher => exact backgroundFlusher_isSome_iff
      | tracing => exact backgroundTracing_isSome_iff hlen hlt
      | status => exact ioPrepareSqe_isSome_iff
  | dumpWrite len off | dumpFsync =>
      have hop : s.tracingJob.dumpOp.callback = .tracingWrited := by
        simpa [Sqe.prepares] using hprep
      simp only [callback, demand, hop, tracingWrited, if_pos (hfull rfl)]
      exact ioPrepareSqe_isSome_iff
  | pageWrite op off | pageRead op off | fsync => cases hprep

theorem callback_ringLen {e : Sqe} {res : ℤ} {t : System} (he : e ∈ s.kernel)
    (ht : callback B now res (s.taken e) e = some t) :
    t.tracingJob.cbuf.len = s.tracingJob.cbuf.len := by
  by_cases hslot : e.slot? = some .dump
  · have hdump : tracingWrited res (s.taken e) = some t ∨ tracingSynced (s.taken e) = some t := by
      cases e <;> simp only [Sqe.slot?, reduceCtorEq, Option.some.injEq] at hslot
      all_goals
        simp only [callback] at ht
        split at ht
        · exact .inl ht
        · exact .inr ht
    rcases hdump with ht | ht
    · obtain ⟨-, rfl⟩ := tracingWrited_eq_some ht
      rfl
    · obtain rfl := tracingSynced_eq_some ht
      rfl
  by_cases htimer : e = .timeout .tracing
  · subst htimer
    have hlen : (traced now (s.taken (.timeout .tracing))).tracingJob.cbuf.len =
        s.tracingJob.cbuf.len := by
      rcases traced_recorded now (s.taken (.timeout .tracing)) with ⟨-, -, hcbuf, -⟩ | hsame
      · rw [hcbuf]
        rfl
      · rw [hsame]
        rfl
    rcases backgroundTracing_eq_some ht with ⟨-, rfl⟩ | ⟨-, -, rfl⟩ | ⟨-, -, -, rfl⟩ |
      ⟨-, -, -, rfl⟩
    · exact hlen
    · exact hlen
    · rfl
    · rfl
  · have hjob := (callback_tracingFrame he (fun hj => htimer ?_) hslot ht).tracingJob
    · rw [hjob]
    · cases e <;> simp_all [Sqe.slot?]

theorem demand_taken (e e' : Sqe) : demand B now (s.taken e) e' = demand B now s e' := by
  have htr : ∀ {v : System}, (traced now (v.taken e)).tracingJob = (traced now v).tracingJob := by
    intro v
    unfold traced
    split_ifs <;> first | rfl | contradiction
  cases e' with
  | timeout job =>
      cases job with
      | tracing => simp only [demand, halfDemand, dumpDemand, htr]; rfl
      | _ => rfl
  | _ => rfl

end

theorem ReachAny.ringLen {t₀ t₁ : Timespec} {s : System} (h : ReachAny t₀ t₁ s) :
    s.tracingJob.cbuf.len = tracingBufLen := by
  refine Reachable.invariant (I := fun s => s.tracingJob.cbuf.len = tracingBufLen) h ?_ ?_
  · rw [mainStart_eq]
    rfl
  · rintro s a t hlen - hs
    cases a with
    | submit =>
        obtain ⟨-, rfl⟩ := step_submit hs
        exact hlen
    | tickEnd =>
        obtain ⟨-, rfl⟩ := step_tickEnd hs
        exact hlen
    | cqe e res now =>
        obtain ⟨-, he, ⟨-, ht⟩ | ⟨-, rfl⟩⟩ := step_cqe_cases hs
        · exact (callback_ringLen he ht).trans hlen
        · exact hlen

/-- With the queue empty every callback finds room. -/
theorem demand_le {t₀ t₁ : Timespec} {s : System} (h : ReachAny t₀ t₁ s) (now : Timespec)
    (e : Sqe) : demand bytesToWrite now s e ≤ entries := by
  have hentries : entries = 16384 := rfl
  obtain ⟨⟨hw, hr, -, -⟩, -⟩ := page_jobs_bounded h
  have hbatch : ∀ pageId b, b ≤ entries - 2 → batchDemand bytesToWrite pageId b ≤ entries := by
    intro pageId b hb
    have := Bool.toNat_le (goesOn bytesToWrite (u32 (pageId + b)))
    simp only [batchDemand]
    omega
  have hdump : ∀ s, dumpDemand s ≤ 1 := fun s => by
    unfold dumpDemand
    split_ifs <;> simp
  cases e with
  | timeout job =>
      cases job with
      | writer => exact hbatch _ _ (adaptBatch_le _ hw)
      | reader =>
          exact hbatch _ _ ((u32_le _).trans ((Nat.min_le_left _ _).trans (adaptBatch_le _ hr)))
      | flusher =>
          have := Bool.toNat_le (goesOn bytesToWrite s.flusherJob.pageId)
          simp only [demand]
          split_ifs <;> omega
      | tracing =>
          have hhalf : halfDemand (traced now s) ≤ 1 := by
            unfold halfDemand
            split_ifs
            · exact hdump _
            · exact Nat.zero_le 1
          have := hdump s
          simp only [demand]
          split_ifs <;> omega
      | status => exact (by decide : 1 ≤ entries)
  | dumpWrite len off | dumpFsync =>
      simp only [demand]
      split <;> omega
  | _ => exact Nat.zero_le _

theorem step_isSome_iff {t₀ t₁ : Timespec} {s : System} {e : Sqe} {res : ℤ} {now : Timespec}
    (h : ReachAny t₀ t₁ s) (hphase : s.phase = .reap) (he : e ∈ s.kernel)
    (hprep : e.prepares s = true) (hres : 0 ≤ res ∨ res = -etime ∧ e.isTimeout = true)
    (hfull : FullLength s e res) :
    (∃ t, step bytesToWrite s (.cqe e res now) = some t) ↔
      Fits s (demand bytesToWrite now s e) := by
  have hlen := h.ringLen
  have htime : ¬ (res = -etime ∧ e.isTimeout = false) := by
    rintro ⟨hneg, hkind⟩
    rcases hres with hpos | ⟨-, htimeout⟩
    · rw [hneg] at hpos
      exact absurd hpos (by decide)
    · rw [hkind] at htimeout
      cases htimeout
  have hstep : step bytesToWrite s (.cqe e res now) =
      callback bytesToWrite now res (s.taken e) e := by
    simp only [step, hphase, he, and_self, if_true, ioTickCqe, if_neg htime,
      if_pos (hres.imp_right And.left)]
    rw [← hphase]
    rfl
  rw [hstep, ← demand_taken e e]
  exact callback_isSome_iff (s := s.taken e) hprep hfull (hlen.trans_ne (by decide))
    (hlen.trans_lt (by decide))

/-- A completion is handled without `io_prepare_sqe` returning `NULL` exactly when the
entries its callback takes still fit; the first one of an `io_tick` always is. -/
theorem never_null_iff {t₀ t₁ : Timespec} {s : System} {e : Sqe} {res : ℤ} {now : Timespec}
    (h : ReachAny t₀ t₁ s) (hphase : s.phase = .reap) (he : e ∈ s.kernel)
    (hprep : e.prepares s = true) (hres : 0 ≤ res ∨ res = -etime ∧ e.isTimeout = true)
    (hfull : FullLength s e res) :
    ((∃ t, step bytesToWrite s (.cqe e res now) = some t) ↔
      Fits s (demand bytesToWrite now s e)) ∧
    (s.sq = [] → ∃ t, step bytesToWrite s (.cqe e res now) = some t) := by
  have hiff : (∃ t, step bytesToWrite s (.cqe e res now) = some t) ↔
      Fits s (demand bytesToWrite now s e) := step_isSome_iff h hphase he hprep hres hfull
  refine ⟨hiff, fun hsq => hiff.mpr (.inr ?_)⟩
  rw [hsq, List.length_nil, Nat.zero_add]
  exact demand_le h now e

/-- The writer's tick has left two entries in the queue; the tracer's takes one more. -/
theorem never_null_iff_second_timer :
    ∃ s, ReachAny ⟨0, 0⟩ ⟨0, 0⟩ s ∧ s.sq.length = 2 ∧
      Fits s (demand bytesToWrite ⟨0, 0⟩ s (.timeout .tracing)) ∧
      ∃ t, step bytesToWrite s (.cqe (.timeout .tracing) (-62) ⟨0, 0⟩) = some t := by
  obtain ⟨s, hs, hp⟩ : ∃ s, ReachAny ⟨0, 0⟩ ⟨0, 0⟩ s ∧
      decide (s.phase = .reap ∧ .timeout .tracing ∈ s.kernel ∧ s.sq.length = 2 ∧
        Fits s (demand bytesToWrite ⟨0, 0⟩ s (.timeout .tracing))) = true :=
    exists_of_execute [.submit, .cqe (.timeout .writer) (-62) ⟨0, 0⟩] _ (by decide +kernel)
  obtain ⟨hphase, he, hlen, hfits⟩ := of_decide_eq_true hp
  exact ⟨s, hs, hlen, hfits, (never_null_iff hs hphase he rfl (.inr ⟨rfl, rfl⟩)
    Bool.noConfusion).1.mpr hfits⟩

end IoScheduler
