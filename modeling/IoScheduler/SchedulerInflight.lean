import IoScheduler.SchedulerSteps

/-!
# Operations in flight

Every submission stays in `outstanding` from the moment it is prepared until
its callback runs. The counters the batch controllers read are 8 bits wide, so
what a run keeps is their value modulo 256.
-/
namespace IoScheduler
open Machine Transition

/-- Entering the event loop's callback: the completed submission is no longer
outstanding, everything else is as it was. -/
def System.taken (s : System) (e : Sqe) : System := { s with kernel := s.kernel.erase e }

theorem System.taken_outstanding {s : System} {e : Sqe} (he : e ∈ s.kernel) :
    (s.taken e).outstanding = s.outstanding.erase e := by
  simp only [taken, outstanding, List.erase_append_left _ he]

theorem System.mem_outstanding_of_taken {s : System} {e x : Sqe}
    (hx : x ∈ (s.taken e).outstanding) : x ∈ s.outstanding :=
  (List.mem_append.mp hx).elim
    (fun hk => List.mem_append_left _ (List.mem_of_mem_erase hk))
    fun hq => List.mem_append_right _ hq

/-- The completed submission is counted once more before its callback. -/
theorem System.countP_outstanding {s : System} {e : Sqe} (he : e ∈ s.kernel) (p : Sqe → Bool) :
    s.outstanding.countP p = (s.taken e).outstanding.countP p + if p e then 1 else 0 := by
  have hmem : e ∈ s.outstanding := List.mem_append_left _ he
  rw [taken_outstanding he, (List.perm_cons_erase hmem).countP_eq p, List.countP_cons]

/-- What leaves the kernel and what is prepared balance in every count. -/
theorem System.countP_balance {s t : System} {e : Sqe} {new : List Sqe} (he : e ∈ s.kernel)
    (hk : t.kernel = (s.taken e).kernel) (hq : t.sq = s.sq ++ new) (p : Sqe → Bool) :
    t.outstanding.countP p + (if p e then 1 else 0) =
      s.outstanding.countP p + new.countP p := by
  have hout : t.outstanding = (s.taken e).outstanding ++ new := by
    simp only [outstanding, hk, hq, taken, List.append_assoc]
  rw [System.countP_outstanding he p, hout, List.countP_append]
  omega

theorem step_submit {B : ℕ} {s t : System} (h : step B s .submit = some t) :
    s.phase = .submit ∧ t = { s with kernel := s.kernel ++ s.sq, sq := [], phase := .reap } := by
  simp only [step] at h
  split_ifs at h with hp
  exact ⟨hp, (Option.some.inj h).symm⟩

theorem step_tickEnd {B : ℕ} {s t : System} (h : step B s .tickEnd = some t) :
    s.phase = .reap ∧ t = { s with phase := if s.allStopped then .exited else .submit } := by
  unfold step at h
  by_cases hp : s.phase = .reap
  · simp only [hp, if_true, Option.some.injEq] at h
    exact ⟨hp, h.symm⟩
  · simp only [hp, if_false, reduceCtorEq] at h

/-- A successful completion runs the callback of an operation the kernel held. -/
theorem step_cqe {B : ℕ} {s t : System} {e : Sqe} {res : ℤ} {now : Timespec}
    (hok : Successful s (.cqe e res now)) (h : step B s (.cqe e res now) = some t) :
    s.phase = .reap ∧ e ∈ s.kernel ∧ callback B now res (s.taken e) e = some t := by
  simp only [step] at h
  split_ifs at h with hp
  simp only [ioTickCqe] at h
  split_ifs at h with hfail hres
  · exact ⟨hp.1, hp.2, h⟩
  · simp only [Successful] at hok
    split_ifs at hok <;> omega

def Sqe.isPageWrite : Sqe → Bool
  | .pageWrite _ _ => true
  | _ => false

def Sqe.isPageRead : Sqe → Bool
  | .pageRead _ _ => true
  | _ => false

/-- The page writes submitted whose `page_written` has not run. -/
def System.writesInFlight (s : System) : ℕ := s.outstanding.countP Sqe.isPageWrite

/-- The page reads submitted whose `page_read` has not run. -/
def System.readsInFlight (s : System) : ℕ := s.outstanding.countP Sqe.isPageRead

theorem countP_writeSqe (p : Sqe → Bool) (pageId brk n : ℕ) (c : Bool)
    (hp : ∀ op off, p (.pageWrite op off) = c) :
    ((List.range n).map (writeSqe pageId brk)).countP p = if c then n else 0 := by
  rw [List.countP_map]
  cases c <;> simp [Function.comp_def, writeSqe, hp]

theorem countP_readSqe (p : Sqe → Bool) (now : Timespec) (pageId n : ℕ) (c : Bool)
    (hp : ∀ op off, p (.pageRead op off) = c) :
    ((List.range n).map (readSqe now pageId)).countP p = if c then n else 0 := by
  rw [List.countP_map]
  cases c <;> simp [Function.comp_def, readSqe, hp]

theorem countP_resent (p : Sqe → Bool) (B pageId : ℕ) (job : Job) :
    (resent B pageId job).countP p =
      if goesOn B pageId = true ∧ p (.timeout job) = true then 1 else 0 := by
  unfold resent
  split_ifs with h₁ h₂ h₂ <;> simp_all

/-- The invariant behind the controllers: each counter is the true number of
operations in flight, wrapped to eight bits. -/
structure Counted (s : System) : Prop where
  writes : s.writerJob.inflight = u8 s.writesInFlight
  reads : s.readerJob.inflight = u8 s.readsInFlight

theorem counted_mainStart (start last : Timespec) : Counted (mainStart start last) := by
  rw [mainStart_eq]
  constructor <;> rfl

/-- A step that only prepares submissions keeps the counts if the counters grow
by the page operations among them. -/
theorem Counted.of_append {s t : System} {new : List Sqe} (h : Counted s)
    (hk : t.kernel = s.kernel) (hq : t.sq = s.sq ++ new)
    (hw : t.writerJob.inflight = u8 (s.writerJob.inflight + new.countP Sqe.isPageWrite))
    (hr : t.readerJob.inflight = u8 (s.readerJob.inflight + new.countP Sqe.isPageRead)) :
    Counted t := by
  have hout : t.outstanding = s.outstanding ++ new := by
    simp only [System.outstanding, hk, hq, List.append_assoc]
  constructor
  · rw [hw, h.writes, u8_add, System.writesInFlight, System.writesInFlight, hout,
      List.countP_append]
  · rw [hr, h.reads, u8_add, System.readsInFlight, System.readsInFlight, hout,
      List.countP_append]

/-- The same when no page operation is among them and the counters stay. -/
theorem Counted.of_quiet {s t : System} (new : List Sqe) (h : Counted s)
    (hk : t.kernel = s.kernel) (hq : t.sq = s.sq ++ new)
    (hw : t.writerJob.inflight = s.writerJob.inflight)
    (hr : t.readerJob.inflight = s.readerJob.inflight)
    (hnew : ∀ e ∈ new, e.isPageWrite = false ∧ e.isPageRead = false) : Counted t := by
  have hzero : new.countP Sqe.isPageWrite = 0 ∧ new.countP Sqe.isPageRead = 0 := by
    constructor <;> rw [List.countP_eq_zero] <;> intro e he <;> simp [hnew e he]
  refine h.of_append hk hq ?_ ?_
  · rw [hzero.1, hw, Nat.add_zero, h.writes, u8_u8]
  · rw [hzero.2, hr, Nat.add_zero, h.reads, u8_u8]

/-- Only a page operation changes the counts when it leaves the kernel. -/
theorem Counted.taken {s : System} {e : Sqe} (h : Counted s) (he : e ∈ s.kernel)
    (hw : e.isPageWrite = false) (hr : e.isPageRead = false) : Counted (s.taken e) := by
  have h₁ := System.countP_outstanding he Sqe.isPageWrite
  have h₂ := System.countP_outstanding he Sqe.isPageRead
  simp only [hw, hr, Bool.false_eq_true, if_false, Nat.add_zero] at h₁ h₂
  exact ⟨by rw [System.writesInFlight, ← h₁]; exact h.writes,
    by rw [System.readsInFlight, ← h₂]; exact h.reads⟩

theorem resent_quiet (B pageId : ℕ) (job : Job) :
    ∀ e ∈ resent B pageId job, e.isPageWrite = false ∧ e.isPageRead = false := by
  unfold resent
  split_ifs <;> simp [Sqe.isPageWrite, Sqe.isPageRead]

theorem traced_counted {now : Timespec} {s : System} (h : Counted s) :
    Counted (traced now s) := by
  unfold traced
  split_ifs
  · exact ⟨h.writes, h.reads⟩
  · exact h

theorem backgroundTracing_counted {now : Timespec} {s t : System} (h : Counted s)
    (ht : backgroundTracing now s = some t) : Counted t := by
  have hu := (traced_counted h : Counted (traced now s))
  rcases backgroundTracing_eq_some ht with ⟨-, rfl⟩ | ⟨-, -, rfl⟩ | ⟨-, -, -, rfl⟩ |
    ⟨-, -, -, rfl⟩
  · exact hu.of_quiet _ rfl rfl rfl rfl (by simp [Sqe.isPageWrite, Sqe.isPageRead])
  · exact hu.of_quiet _ rfl (List.append_assoc _ _ _) rfl rfl
      (by simp [Sqe.isPageWrite, Sqe.isPageRead])
  · exact h
  · exact h.of_quiet _ rfl rfl rfl rfl (by simp [Sqe.isPageWrite, Sqe.isPageRead])

theorem backgroundFlusher_counted {B : ℕ} {now : Timespec} {s t : System} (h : Counted s)
    (ht : backgroundFlusher B now s = some t) : Counted t := by
  obtain ⟨u, hu, rfl⟩ := backgroundFlusher_eq_some ht
  have hcu : Counted u := by
    rcases submitFsync_eq_some hu with ⟨-, rfl⟩ | ⟨-, rfl⟩
    · exact h.of_quiet _ rfl rfl rfl rfl (by simp [Sqe.isPageWrite, Sqe.isPageRead])
    · exact h
  exact hcu.of_quiet _ rfl rfl rfl rfl (resent_quiet B _ _)

theorem backgroundWriter_counted {B : ℕ} {now : Timespec} {s t : System} (h : Counted s)
    (ht : backgroundWriter B now s = some t) : Counted t := by
  obtain ⟨-, rfl⟩ := backgroundWriter_eq_some ht
  refine h.of_append rfl (List.append_assoc _ _ _) ?_ ?_
  · rw [List.countP_append, countP_writeSqe _ _ _ _ true fun _ _ => rfl, countP_resent]
    simp [Sqe.isPageWrite]
  · rw [List.countP_append, countP_writeSqe _ _ _ _ false fun _ _ => rfl, countP_resent]
    simp [Sqe.isPageRead, h.reads]

theorem backgroundReader_counted {B : ℕ} {now : Timespec} {s t : System} (h : Counted s)
    (ht : backgroundReader B now s = some t) : Counted t := by
  obtain ⟨-, rfl⟩ := backgroundReader_eq_some ht
  refine h.of_append rfl (List.append_assoc _ _ _) ?_ ?_
  · rw [List.countP_append, countP_readSqe _ _ _ _ false fun _ _ => rfl, countP_resent]
    simp [Sqe.isPageWrite, h.writes]
  · rw [List.countP_append, countP_readSqe _ _ _ _ true fun _ _ => rfl, countP_resent]
    simp [Sqe.isPageRead]

/-- A completed page write leaves the kernel and takes one off the counter. -/
theorem pageWritten_counted {now : Timespec} {s t : System} {op off : ℕ} (h : Counted s)
    (he : .pageWrite op off ∈ s.kernel)
    (ht : pageWritten now op (s.taken (.pageWrite op off)) = some t) : Counted t := by
  obtain ⟨o, heap, writeList, stats, -, -, rfl, -⟩ := pageWritten_eq_some ht
  have h₁ := System.countP_outstanding he Sqe.isPageWrite
  have h₂ := System.countP_outstanding he Sqe.isPageRead
  simp only [Sqe.isPageWrite, Sqe.isPageRead, Bool.false_eq_true, if_true, if_false,
    Nat.add_zero] at h₁ h₂
  constructor
  · change sub8 s.writerJob.inflight 1 = u8 ((s.taken _).outstanding.countP _)
    rw [h.writes, System.writesInFlight, sub8_one (by omega), h₁, Nat.add_sub_cancel]
  · change s.readerJob.inflight = u8 ((s.taken _).outstanding.countP _)
    rw [h.reads, System.readsInFlight, h₂]

theorem pageRead_counted {now : Timespec} {s t : System} {op : OpPageRead} {off : ℕ}
    (h : Counted s) (he : .pageRead op off ∈ s.kernel)
    (ht : pageRead now op (s.taken (.pageRead op off)) = some t) : Counted t := by
  obtain rfl := Option.some.inj ht
  have h₁ := System.countP_outstanding he Sqe.isPageWrite
  have h₂ := System.countP_outstanding he Sqe.isPageRead
  simp only [Sqe.isPageWrite, Sqe.isPageRead, Bool.false_eq_true, if_true, if_false,
    Nat.add_zero] at h₁ h₂
  constructor
  · change s.writerJob.inflight = u8 ((s.taken _).outstanding.countP _)
    rw [h.writes, System.writesInFlight, h₁]
  · change sub8 s.readerJob.inflight 1 = u8 ((s.taken _).outstanding.countP _)
    rw [h.reads, System.readsInFlight, sub8_one (by omega), h₂, Nat.add_sub_cancel]

theorem callback_counted {B : ℕ} {now : Timespec} {res : ℤ} {s t : System} {e : Sqe}
    (h : Counted s) (he : e ∈ s.kernel) (ht : callback B now res (s.taken e) e = some t) :
    Counted t := by
  cases e with
  | pageWrite op off => exact pageWritten_counted h he ht
  | pageRead op off => exact pageRead_counted h he ht
  | timeout job =>
      have hs := h.taken he rfl rfl
      cases job with
      | writer => exact backgroundWriter_counted hs ht
      | reader => exact backgroundReader_counted hs ht
      | flusher => exact backgroundFlusher_counted hs ht
      | tracing => exact backgroundTracing_counted hs ht
      | status =>
          obtain ⟨stats, rfl⟩ := backgroundStatus_eq_some ht
          exact hs.of_quiet _ rfl rfl rfl rfl (by simp [Sqe.isPageWrite, Sqe.isPageRead])
  | fsync =>
      obtain ⟨heap, log, stats, -, rfl⟩ := fileSynced_eq_some ht
      exact ⟨(h.taken he rfl rfl).writes, (h.taken he rfl rfl).reads⟩
  | dumpWrite len off | dumpFsync =>
      have hs := h.taken he rfl rfl
      simp only [callback] at ht
      split at ht
      · obtain ⟨-, rfl⟩ := tracingWrited_eq_some ht
        exact hs.of_quiet _ rfl rfl rfl rfl (by simp [Sqe.isPageWrite, Sqe.isPageRead])
      · obtain rfl := tracingSynced_eq_some ht
        exact ⟨hs.writes, hs.reads⟩

theorem Counted.step {B : ℕ} {s t : System} {a : Act} (h : Counted s) (hok : Successful s a)
    (hs : step B s a = some t) : Counted t := by
  cases a with
  | submit =>
      obtain ⟨-, rfl⟩ := step_submit hs
      constructor
      · simpa [System.writesInFlight, System.outstanding] using h.writes
      · simpa [System.readsInFlight, System.outstanding] using h.reads
  | tickEnd =>
      obtain ⟨-, rfl⟩ := step_tickEnd hs
      exact ⟨h.writes, h.reads⟩
  | cqe e res now =>
      obtain ⟨-, he, ht⟩ := step_cqe hok hs
      exact callback_counted h he ht

theorem Reach.counted {B : ℕ} {t₀ t₁ : Timespec} {s : System} (h : Reach B t₀ t₁ s) :
    Counted s :=
  h.invariant (counted_mainStart t₀ t₁) fun _ _ _ hi hok hs => hi.step hok hs

/-- The counters are exact as long as the operations in flight fit into them. -/
theorem inflight_eq_iff {B : ℕ} {t₀ t₁ : Timespec} {s : System} (h : Reach B t₀ t₁ s) :
    (s.writerJob.inflight = s.writesInFlight ∧ s.readerJob.inflight = s.readsInFlight) ↔
      (s.writesInFlight < 2 ^ 8 ∧ s.readsInFlight < 2 ^ 8) := by
  have hiff : ∀ n, u8 n = n ↔ n < 2 ^ 8 := fun n =>
    ⟨fun hn => hn ▸ u8_lt n, u8_of_lt⟩
  rw [h.counted.writes, h.counted.reads, hiff, hiff]

/-- Two writes in flight, one of three completed. -/
theorem inflight_eq_iff_three_writes :
    ∃ s, Reach bytesToWrite ⟨0, 0⟩ ⟨0, 0⟩ s ∧ s.writerJob.inflight = s.writesInFlight ∧
      s.writesInFlight = 2 := by
  obtain ⟨s, hs, hp⟩ : ∃ s, Reach bytesToWrite ⟨0, 0⟩ ⟨0, 0⟩ s ∧
      decide (s.writesInFlight = 2 ∧ s.readsInFlight = 0) = true :=
    exists_of_execute
      [.submit, .cqe (.timeout .writer) (-62) ⟨0, 0⟩, .tickEnd, .submit,
        .cqe (.timeout .writer) (-62) ⟨0, 0⟩, .cqe (.pageWrite 0 0) 65536 ⟨0, 0⟩] _
      (by decide +kernel)
  obtain ⟨hwrites, hreads⟩ := of_decide_eq_true hp
  exact ⟨s, hs, ((inflight_eq_iff hs).mpr ⟨by omega, by omega⟩).1, hwrites⟩

/-- `k` ticks of the writer, each after every write of the one before has
completed, so that the batch doubles. -/
def doublingTicks (k : ℕ) : List Act :=
  (List.range k).flatMap fun i =>
    [.submit, .cqe (.timeout .writer) (-62) ⟨0, 0⟩, .tickEnd, .submit] ++
      ((List.range (2 ^ i)).map fun j =>
        .cqe (.pageWrite (2 ^ i - 1 + j) ((2 ^ i - 1 + j) * 65536)) 65536 ⟨0, 0⟩) ++
      [.tickEnd]

/-- After eight doublings the ninth batch wraps the counter to zero. -/
theorem inflight_wraps :
    ∃ s, Reach bytesToWrite ⟨0, 0⟩ ⟨0, 0⟩ s ∧ s.writesInFlight = 256 ∧
      s.writerJob.inflight = 0 := by
  obtain ⟨s, hs, hp⟩ : ∃ s, Reach bytesToWrite ⟨0, 0⟩ ⟨0, 0⟩ s ∧
      decide (s.writesInFlight = 256 ∧ s.writerJob.inflight = 0) = true :=
    exists_of_execute (doublingTicks 8 ++ [.submit, .cqe (.timeout .writer) (-62) ⟨0, 0⟩]) _
      (by decide +kernel)
  exact ⟨s, hs, of_decide_eq_true hp⟩

end IoScheduler
