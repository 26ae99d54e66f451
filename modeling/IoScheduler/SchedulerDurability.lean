import IoScheduler.SchedulerPipeline
import IoScheduler.SchedulerSlots
import IoScheduler.History

/-!
# What an fsync acknowledges

The kernel makes durable the writes that completed before the fsync was
submitted. `file_synced` acknowledges whatever is in the write list when the
fsync completes, and `page_written` may have added to it in between.
-/
namespace IoScheduler
open Machine Transition History

/-- A released write had completed before the fsync that releases it, the last
one submitted, entered the queue. -/
def Covered (past : List Event) (e : Event) : Prop :=
  ∀ op pageId callback, e = .released op pageId callback →
    ∃ before after, past = before ++ .fsyncSubmitted :: after ∧ .fsyncSubmitted ∉ after ∧
      .pageWritten op pageId ∈ before

/-- The writes completed since the last fsync was submitted. -/
def writtenSinceFsync (log : List Event) : List (ℕ × ℕ) :=
  (since (fun e => decide (e = .fsyncSubmitted)) log).filterMap Event.pageWritten?

/-- No write has completed between the submission and the completion of an fsync. -/
def FsyncCovers (s : System) (a : Act) : Prop :=
  a.completes .fsync = true → writtenSinceFsync s.log = []

instance (s : System) (a : Act) : Decidable (FsyncCovers s a) :=
  inferInstanceAs (Decidable (_ → _))

/-- Where the log stands while an fsync is in flight: `C₀` writes had completed
when it was submitted, and none has been released since. -/
def FsyncOpen (F : ℕ) (s : System) : Prop :=
  s.flusherJob.inflight ≠ 0 → ∃ before after C₀, s.log = before ++ .fsyncSubmitted :: after ∧
    .fsyncSubmitted ∉ after ∧ F ≤ C₀ ∧ before.filterMap Event.pageWritten? = pagesBelow C₀

section
variable {B F C : ℕ} {s t : System}

theorem FsyncOpen.of_append {new : List Event} (h : FsyncOpen F s)
    (hin : t.flusherJob.inflight = s.flusherJob.inflight) (hlog : t.log = s.log ++ new)
    (hnew : .fsyncSubmitted ∉ new) : FsyncOpen F t := by
  intro hne
  obtain ⟨before, after, C₀, hs, hafter, hF, hbefore⟩ := h (hin ▸ hne)
  refine ⟨before, after ++ new, C₀, ?_, ?_, hF, hbefore⟩
  · rw [hlog, hs, List.append_assoc, List.cons_append]
  · exact fun hmem => (List.mem_append.mp hmem).elim hafter hnew

/-- A step is a completion of the fsync, which releases everything written, or
it releases nothing. -/
theorem fsync_cases {a : Act} (h : Pipeline F C s) (ho : FsyncOpen F s) (hok : InOrder s a)
    (hs : step B s a = some t) :
    (∃ res now, a = .cqe .fsync res now ∧ .fsync ∈ s.kernel ∧ Pipeline C C t ∧ FsyncOpen C t ∧
      t.log = s.log ++ .fileSynced ::
        (List.range' F (C - F)).map fun p => .released p (u32 p) none) ∨
    ((∀ res now, a ≠ .cqe .fsync res now) ∧ (∃ C', Pipeline F C' t) ∧ FsyncOpen F t ∧
      ∃ new, t.log = s.log ++ new ∧ ∀ e ∈ new, e.released? = none) := by
  by_cases hfsync : ∃ res now, a = .cqe .fsync res now
  · obtain ⟨res, now, rfl⟩ := hfsync
    obtain ⟨-, he, ht⟩ := step_cqe hok.1 hs
    obtain ⟨hp, hlog⟩ := (h.taken he rfl).fileSynced ht
    obtain ⟨heap, log, stats, -, rfl⟩ := fileSynced_eq_some ht
    exact .inl ⟨res, now, rfl, he, hp, fun hne => absurd rfl hne, hlog⟩
  · have hne : ∀ res now, a ≠ .cqe .fsync res now := fun res now ha => hfsync ⟨res, now, ha⟩
    rcases step_cases hok.1 hs with hq | ⟨now, he, ht⟩ | ⟨now, he, ht⟩ | ⟨now, he, ht⟩ |
      ⟨op, off, res, now, rfl, he, ht⟩ | ⟨op, off, now, he, ht⟩ | ⟨res, now, rfl, -, -⟩
    · obtain ⟨items, hlog⟩ := hq.log
      exact .inr ⟨hne, ⟨C, h.quiet hq⟩,
        ho.of_append (by rw [hq.flusherJob]) hlog (by simp), _, hlog, by simp [Event.released?]⟩
    · have hp := (h.taken he rfl).backgroundWriter ht
      obtain ⟨-, rfl⟩ := backgroundWriter_eq_some ht
      exact .inr ⟨hne, ⟨C, hp⟩, ho.of_append rfl rfl (by simp [writeEvent]), _, rfl,
        by simp [writeEvent, Event.released?]⟩
    · have hp := (h.taken he rfl).backgroundReader ht
      obtain ⟨-, rfl⟩ := backgroundReader_eq_some ht
      exact .inr ⟨hne, ⟨C, hp⟩, ho.of_append rfl rfl (by simp [readEvent]), _, rfl,
        by simp [readEvent, Event.released?]⟩
    · have hp := (h.taken he rfl).backgroundFlusher ht
      obtain ⟨u, hu, rfl⟩ := backgroundFlusher_eq_some ht
      rcases submitFsync_eq_some hu with ⟨-, rfl⟩ | ⟨-, rfl⟩
      · exact .inr ⟨hne, ⟨C, hp⟩, fun _ => ⟨s.log, [], C, rfl, List.not_mem_nil,
          h.released_le, h.written⟩, _, rfl, by simp [Event.released?]⟩
      · exact .inr ⟨hne, ⟨C, hp⟩, ho, [], (List.append_nil _).symm, by simp⟩
    · have hp := h.pageWritten he hok.2 ht
      obtain ⟨o, heap, writeList, stats, -, -, rfl, -⟩ := pageWritten_eq_some ht
      exact .inr ⟨hne, ⟨C + 1, hp⟩, ho.of_append rfl rfl (by simp), _, rfl,
        by simp [Event.released?]⟩
    · have hp := (h.taken he rfl).pageRead ht
      obtain rfl := Option.some.inj ht
      exact .inr ⟨hne, ⟨C, hp⟩, ho.of_append rfl rfl (by simp), _, rfl,
        by simp [Event.released?]⟩
    · exact absurd rfl (hne res now)

/-- What an fsync releases is covered exactly when no write completed while it
was in flight. -/
theorem covered_iff {before after : List Event} {C₀ : ℕ} (h : Pipeline F C s)
    (hlog : s.log = before ++ .fsyncSubmitted :: after) (hafter : .fsyncSubmitted ∉ after)
    (hF : F ≤ C₀) (hbefore : before.filterMap Event.pageWritten? = pagesBelow C₀) :
    (∀ mid e, mid ++ [e] <+: .fileSynced ::
        (List.range' F (C - F)).map (fun p => .released p (u32 p) none) →
      Covered (s.log ++ mid) e) ↔ after.filterMap Event.pageWritten? = [] := by
  have hwritten : pagesBelow C₀ ++ after.filterMap Event.pageWritten? = pagesBelow C := by
    rw [← h.written, hlog, List.filterMap_append, hbefore]
    rfl
  have hlen : C₀ + (after.filterMap Event.pageWritten?).length = C := by
    simpa only [List.length_append, length_pagesBelow] using congrArg List.length hwritten
  have hmem : ∀ p, p < C₀ ↔ .pageWritten p (u32 p) ∈ before := by
    intro p
    have hiff : (p, u32 p) ∈ pagesBelow C₀ ↔ p < C₀ := by
      simp only [pagesBelow, List.mem_map, List.mem_range, Prod.mk.injEq]
      constructor
      · rintro ⟨k, hk, rfl, -⟩
        exact hk
      · exact fun hp => ⟨p, hp, rfl, rfl⟩
    rw [← hiff, ← hbefore, List.mem_filterMap]
    constructor
    · rintro ⟨e, he, hsome⟩
      cases e <;> simp only [Event.pageWritten?, reduceCtorEq, Option.some.injEq,
        Prod.mk.injEq] at hsome
      obtain ⟨rfl, hpage⟩ := hsome
      exact hpage ▸ he
    · exact fun he => ⟨_, he, rfl⟩
  constructor
  · intro hcov
    by_contra hne
    have hlt : C₀ < C := by
      have := List.length_pos_iff.mpr hne
      omega
    have hin : Event.released C₀ (u32 C₀) none ∈ Event.fileSynced ::
        (List.range' F (C - F)).map fun p => .released p (u32 p) none :=
      List.mem_cons_of_mem _ (List.mem_map.mpr
        ⟨C₀, List.mem_range'_1.mpr ⟨hF, by omega⟩, rfl⟩)
    obtain ⟨mid, hmid⟩ := exists_prefix_of_mem hin
    obtain ⟨before', after', hpast, hafter', hw⟩ := hcov mid _ hmid C₀ (u32 C₀) none rfl
    have hmid' : .fsyncSubmitted ∉ after ++ mid := by
      rintro hm
      rcases List.mem_append.mp hm with hm | hm
      · exact hafter hm
      · have := hmid.subset (List.mem_append_left _ hm)
        simp at this
    rw [hlog, List.append_assoc, List.cons_append] at hpast
    obtain ⟨rfl, -⟩ := append_cons_inj_of_notMem hmid' hafter' hpast
    exact Nat.lt_irrefl C₀ ((hmem C₀).mpr hw)
  · rintro hnil mid e hm op pageId callback rfl
    have hC : C₀ = C := by simpa [hnil] using hlen
    have hin := hm.subset (List.mem_append_right _ (List.mem_singleton.mpr rfl))
    simp only [List.mem_cons, reduceCtorEq, List.mem_map, false_or, Event.released.injEq] at hin
    obtain ⟨p, hp, rfl, rfl, -⟩ := hin
    have hlt := (List.mem_range'_1.mp hp).2
    refine ⟨before, after ++ mid, ?_, ?_, (hmem p).mp (by omega)⟩
    · rw [hlog, List.append_assoc, List.cons_append]
    · intro hmem'
      rcases List.mem_append.mp hmem' with hmem' | hmem'
      · exact hafter hmem'
      · have := hm.subset (List.mem_append_left _ hmem')
        simp at this

end

theorem ReachInOrder.fsyncOpen {B : ℕ} {t₀ t₁ : Timespec} {s : System}
    (h : ReachInOrder B t₀ t₁ s) : ∃ F C, Pipeline F C s ∧ FsyncOpen F s := by
  refine Reachable.invariant (I := fun s => ∃ F C, Pipeline F C s ∧ FsyncOpen F s) h
    ⟨0, 0, pipeline_mainStart t₀ t₁, ?_⟩ ?_
  · rw [mainStart_eq]
    exact fun hne => absurd rfl hne
  · rintro s a t ⟨F, C, hp, ho⟩ hc hs
    rcases fsync_cases hp ho hc hs with ⟨-, -, -, -, hp', ho', -⟩ | ⟨-, ⟨C', hp'⟩, ho', -⟩
    · exact ⟨C, C, hp', ho'⟩
    · exact ⟨F, C', hp', ho'⟩

/-- One step keeps every release covered exactly when it is no fsync completion
that comes after a write completion. -/
theorem justified_covered_step {B : ℕ} {t₀ t₁ : Timespec} {s t : System} {a : Act}
    (hr : ReachInOrder B t₀ t₁ s) (hok : InOrder s a) (hs : step B s a = some t) :
    Justified Covered t.log ↔ Justified Covered s.log ∧ FsyncCovers s a := by
  obtain ⟨F, C, hp, ho⟩ := hr.fsyncOpen
  rcases fsync_cases hp ho hok hs with ⟨res, now, rfl, he, -, -, hlog⟩ |
    ⟨hne, -, -, new, hlog, hnew⟩
  · have hin : s.flusherJob.inflight ≠ 0 := by
      have := hr.reach.slots.fsync_inflight he
      omega
    obtain ⟨before, after, C₀, hs', hafter, hF, hbefore⟩ := ho hin
    have hsince : FsyncCovers s (.cqe .fsync res now) ↔
        after.filterMap Event.pageWritten? = [] := by
      have hcut : since (fun e => decide (e = .fsyncSubmitted)) s.log = after := by
        rw [hs']
        refine since_append_cons (decide_eq_true rfl) fun x hx => decide_eq_false ?_
        exact fun hxe => hafter (hxe ▸ hx)
      simp [FsyncCovers, Act.completes, writtenSinceFsync, hcut]
    rw [hlog, justified_append, hsince, covered_iff hp hs' hafter hF hbefore]
  · have hcov : FsyncCovers s a := by
      intro hfsync
      cases a with
      | cqe e res now =>
          have he : e = .fsync := by simpa [Act.completes] using hfsync
          exact absurd (he ▸ rfl) (hne res now)
      | _ => cases hfsync
    have hkeep : Justified Covered s.log → Justified Covered (s.log ++ new) := fun h =>
      h.append_free fun past e he op pageId callback heq => by
        rw [heq] at he
        exact absurd (hnew _ he) (by simp [Event.released?])
    rw [hlog]
    exact ⟨fun h => ⟨(justified_append.mp h).1, hcov⟩, fun h => hkeep h.1⟩

/-- Every acknowledgement so far was due: `page_id` counts the released pages,
these are the first ones written, and the fsync that released each was submitted
after its write had completed. -/
structure Durable (s : System) : Prop where
  pageId : s.flusherJob.pageId = u32 (s.log.filterMap Event.released?).length
  inOrder : s.log.filterMap Event.released? =
    pagesBelow (s.log.filterMap Event.released?).length
  covered : Justified Covered s.log

theorem ReachInOrder.durable_iff {B : ℕ} {t₀ t₁ : Timespec} {s : System}
    (h : ReachInOrder B t₀ t₁ s) : Durable s ↔ Justified Covered s.log := by
  obtain ⟨F, C, hp⟩ := h.pipeline
  refine ⟨Durable.covered, fun hcov => ⟨?_, ?_, hcov⟩⟩ <;>
    rw [hp.released, length_pagesBelow]
  exact hp.flusherPage

theorem justified_covered_of_run {B : ℕ} {t₀ t₁ : Timespec} {as : List Act} {s : System}
    (h : Run (step B) (fun s a => InOrder s a ∧ FsyncCovers s a) (mainStart t₀ t₁) as s) :
    Justified Covered s.log := by
  induction h with
  | nil =>
      rw [mainStart_eq]
      exact Justified.nil
  | snoc hr hc hs ih =>
      exact (justified_covered_step ⟨_, hr.mono fun _ _ h => h.1⟩ hc.1 hs).mpr ⟨ih, hc.2⟩

/-- The run theorem: what has been acknowledged is durable exactly in the runs
whose fsyncs all complete before another write does. -/
theorem durable_iff_run {B : ℕ} {t₀ t₁ : Timespec} {as : List Act} {s : System}
    (h : Run (step B) InOrder (mainStart t₀ t₁) as s) :
    Durable s ↔
      Run (step B) (fun s a => InOrder s a ∧ FsyncCovers s a) (mainStart t₀ t₁) as s := by
  rw [ReachInOrder.durable_iff ⟨as, h⟩]
  refine ⟨fun hcov => ?_, justified_covered_of_run⟩
  induction h with
  | nil => exact .nil
  | snoc hr hc hs ih =>
      obtain ⟨hold, hfsync⟩ := (justified_covered_step ⟨_, hr⟩ hc hs).mp hcov
      exact .snoc (ih hold) ⟨hc, hfsync⟩ hs

/-- One page written and flushed with nothing in between. -/
theorem durable_iff_run_one_page :
    ∃ as s, Run (step bytesToWrite) (fun s a => InOrder s a ∧ FsyncCovers s a)
      (mainStart ⟨0, 0⟩ ⟨0, 0⟩) as s ∧ s.flusherJob.pageId = 1 ∧ Durable s := by
  obtain ⟨s, ⟨as, hs⟩, hp⟩ : ∃ s, Reachable (step bytesToWrite)
      (fun s a => InOrder s a ∧ FsyncCovers s a) (mainStart ⟨0, 0⟩ ⟨0, 0⟩) s ∧
      decide (s.flusherJob.pageId = 1) = true :=
    exists_of_execute
      [.submit, .cqe (.timeout .writer) (-62) ⟨0, 0⟩, .tickEnd, .submit,
        .cqe (.pageWrite 0 0) 65536 ⟨0, 0⟩, .cqe (.timeout .flusher) (-62) ⟨0, 0⟩, .tickEnd,
        .submit, .cqe .fsync 0 ⟨0, 0⟩] _ (by decide +kernel)
  exact ⟨as, s, hs, of_decide_eq_true hp,
    (durable_iff_run (hs.mono fun _ _ hc => hc.1)).mpr hs⟩

/-- The second write completes while the fsync submitted after the first is in
flight, and that fsync releases both. -/
def lateWrite : List Act :=
  [.submit, .cqe (.timeout .writer) (-62) ⟨0, 0⟩, .tickEnd,
    .submit, .cqe (.pageWrite 0 0) 65536 ⟨0, 0⟩, .cqe (.timeout .writer) (-62) ⟨0, 0⟩,
    .cqe (.timeout .flusher) (-62) ⟨0, 0⟩, .tickEnd,
    .submit, .cqe (.pageWrite 1 65536) 65536 ⟨0, 0⟩, .cqe .fsync 0 ⟨0, 0⟩]

theorem lateWrite_log : ∃ s, ReachInOrder bytesToWrite ⟨0, 0⟩ ⟨0, 0⟩ s ∧
    decide (s.flusherJob.pageId = 2 ∧ s.log =
      [.writeSubmitted 0 0, .pageWritten 0 0, .writeSubmitted 1 1, .writeSubmitted 2 2] ++
        .fsyncSubmitted :: [.pageWritten 1 1, .fileSynced, .released 0 0 none,
          .released 1 1 none]) = true :=
  exists_of_execute lateWrite _ (by decide +kernel)

/-- `file_synced` reports page 1 durable by an fsync submitted before its write
completed. -/
theorem late_write_acknowledged :
    ∃ s, ReachInOrder bytesToWrite ⟨0, 0⟩ ⟨0, 0⟩ s ∧ s.flusherJob.pageId = 2 ∧
      ¬ Justified Covered s.log := by
  obtain ⟨s, hs, hp⟩ := lateWrite_log
  obtain ⟨hpage, hlog⟩ := of_decide_eq_true hp
  refine ⟨s, hs, hpage, fun hcov => ?_⟩
  rw [hlog] at hcov
  obtain ⟨before, after, hpast, hafter, hw⟩ := hcov
    ([.writeSubmitted 0 0, .pageWritten 0 0, .writeSubmitted 1 1, .writeSubmitted 2 2] ++
      .fsyncSubmitted :: [.pageWritten 1 1, .fileSynced, .released 0 0 none])
    (.released 1 1 none) ⟨[], rfl⟩ 1 1 none rfl
  obtain ⟨rfl, -⟩ := append_cons_inj_of_notMem (by decide) hafter hpast
  simp at hw

end IoScheduler
