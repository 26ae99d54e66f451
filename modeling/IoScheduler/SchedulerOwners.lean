import IoScheduler.SchedulerInflight

/-!
# Completions with any result

`io_tick` runs the callback of a completion that succeeded or timed out and
only prints every other one. A callback prepares submissions of the job that
owns the completed operation and records events of its own kind; it neither
reads nor writes what the kernel holds.
-/
namespace IoScheduler
open Machine Transition

/-- The job a submission belongs to. -/
def Sqe.owner : Sqe → Job
  | .timeout job => job
  | .pageWrite _ _ => .writer
  | .pageRead _ _ => .reader
  | .fsync => .flusher
  | .dumpWrite _ _ | .dumpFsync => .tracing

/-- The completion an event is recorded in. -/
def Event.recordedBy (e : Sqe) : Event → Bool
  | .writeSubmitted _ _ => e == .timeout .writer
  | .readSubmitted _ => e == .timeout .reader
  | .fsyncSubmitted => e == .timeout .flusher
  | .itemTraced _ => e == .timeout .tracing
  | .pageWritten _ _ => e.isPageWrite
  | .pageRead _ => e.isPageRead
  | .fileSynced | .released _ _ _ => e == .fsync
  | .completionFailed _ _ => false

/-- A completion runs its callback, or it is only printed. -/
theorem step_cqe_cases {B : ℕ} {s t : System} {e : Sqe} {res : ℤ} {now : Timespec}
    (h : step B s (.cqe e res now) = some t) :
    s.phase = .reap ∧ e ∈ s.kernel ∧
      ((0 ≤ res ∨ res = -etime ∧ e.isTimeout = true) ∧
          callback B now res (s.taken e) e = some t ∨
        (res < 0 ∧ res ≠ -etime) ∧ t = (s.taken e).record (.completionFailed e res)) := by
  simp only [step] at h
  split_ifs at h with hp
  simp only [ioTickCqe] at h
  split_ifs at h with hfail hres
  · refine ⟨hp.1, hp.2, .inl ⟨?_, h⟩⟩
    refine hres.imp_right fun htime => ⟨htime, ?_⟩
    by_contra hkind
    exact hfail ⟨htime, Bool.not_eq_true _ ▸ hkind⟩
  · rw [not_or, not_le] at hres
    exact ⟨hp.1, hp.2, .inr ⟨hres, (Option.some.inj h).symm⟩⟩

/-! ## What a callback adds -/

/-- The queue and the log grow by what the callback of `e` may add. -/
structure Appends (s t : System) (e : Sqe) (new : List Sqe) (events : List Event) : Prop where
  kernel : t.kernel = s.kernel
  sq : t.sq = s.sq ++ new
  log : t.log = s.log ++ events
  owner : ∀ x ∈ new, x.owner = e.owner
  recorded : ∀ x ∈ events, Event.recordedBy e x = true

theorem owner_resent (B pageId : ℕ) (job : Job) : ∀ x ∈ resent B pageId job, x.owner = job := by
  unfold resent
  split_ifs <;> simp [Sqe.owner]

theorem releaseList_log {fuel : ℕ} {first : Option ℕ} {s t : System}
    (h : releaseList fuel first s = some t) :
    ∃ events, t.log = s.log ++ events ∧ ∀ x ∈ events, ∃ op p cb, x = .released op p cb := by
  induction fuel generalizing first s with
  | zero =>
      cases first with
      | none =>
          obtain rfl := Option.some.inj h
          exact ⟨[], (List.append_nil _).symm, by simp⟩
      | some op => simp [releaseList] at h
  | succ fuel ih =>
      cases first with
      | none =>
          obtain rfl := Option.some.inj h
          exact ⟨[], (List.append_nil _).symm, by simp⟩
      | some op =>
          obtain ⟨o, -, h⟩ := Option.bind_eq_some_iff.mp h
          obtain ⟨events, hlog, hall⟩ := ih h
          refine ⟨.released op o.pageId o.userFsyncCallback :: events, ?_, ?_⟩
          · rw [hlog, List.append_assoc, List.singleton_append]
          · exact List.forall_mem_cons.mpr ⟨⟨_, _, _, rfl⟩, hall⟩

theorem traced_log (now : Timespec) (s : System) :
    ∃ items : List TracingItem, (traced now s).log = s.log ++ items.map .itemTraced := by
  unfold traced
  split_ifs
  · exact ⟨[_], rfl⟩
  · exact ⟨[], (List.append_nil _).symm⟩

section
variable {B : ℕ} {now : Timespec} {res : ℤ} {s t : System} {e : Sqe}

theorem fileSynced_appends (ht : fileSynced now s = some t) :
    ∃ events, Appends s t .fsync [] events := by
  obtain ⟨heap, log, stats, hu, rfl⟩ := fileSynced_eq_some ht
  obtain ⟨events, hlog, hall⟩ := releaseList_log hu
  refine ⟨.fileSynced :: events, rfl, (List.append_nil _).symm, ?_, by simp, ?_⟩
  · exact hlog.trans (List.append_assoc _ _ _)
  · refine List.forall_mem_cons.mpr ⟨rfl, fun x hx => ?_⟩
    obtain ⟨op, p, cb, rfl⟩ := hall x hx
    rfl

theorem backgroundTracing_appends (ht : backgroundTracing now s = some t) :
    ∃ new events, Appends s t (.timeout .tracing) new events := by
  obtain ⟨items, hlog⟩ := traced_log now s
  obtain ⟨cbuf, traceDone, log, htr⟩ := traced_eq now s
  have hitems : ∀ x ∈ items.map Event.itemTraced, x.recordedBy (.timeout .tracing) = true := by
    simp [Event.recordedBy]
  rw [htr] at hlog
  rcases backgroundTracing_eq_some ht with ⟨-, rfl⟩ | ⟨-, -, rfl⟩ | ⟨-, -, -, rfl⟩ |
    ⟨-, -, -, rfl⟩
  · rw [htr]
    exact ⟨[.timeout .tracing], _, rfl, rfl, hlog, by simp [Sqe.owner], hitems⟩
  · rw [htr]
    exact ⟨[.dumpWrite _ _, .timeout .tracing], _, rfl, List.append_assoc _ _ _, hlog,
      by simp [Sqe.owner], hitems⟩
  · exact ⟨[], [], rfl, (List.append_nil _).symm, (List.append_nil _).symm, by simp, by simp⟩
  · exact ⟨[.dumpWrite _ _], [], rfl, rfl, (List.append_nil _).symm, by simp [Sqe.owner],
      by simp⟩

theorem callback_appends (ht : callback B now res s e = some t) :
    ∃ new events, Appends s t e new events := by
  cases e with
  | pageWrite op off =>
      obtain ⟨o, heap, writeList, stats, -, -, rfl, -⟩ := pageWritten_eq_some ht
      exact ⟨[], _, rfl, (List.append_nil _).symm, rfl, by simp,
        by simp [Event.recordedBy, Sqe.isPageWrite]⟩
  | pageRead op off =>
      obtain rfl := Option.some.inj ht
      exact ⟨[], _, rfl, (List.append_nil _).symm, rfl, by simp,
        by simp [Event.recordedBy, Sqe.isPageRead]⟩
  | fsync =>
      obtain ⟨events, h⟩ := fileSynced_appends ht
      exact ⟨[], events, h⟩
  | dumpWrite len off | dumpFsync =>
      simp only [callback] at ht
      split at ht
      · obtain ⟨-, rfl⟩ := tracingWrited_eq_some ht
        exact ⟨[.dumpFsync], [], rfl, rfl, (List.append_nil _).symm, by simp [Sqe.owner],
          by simp⟩
      · obtain rfl := tracingSynced_eq_some ht
        exact ⟨[], [], rfl, (List.append_nil _).symm, (List.append_nil _).symm, by simp, by simp⟩
  | timeout job =>
      cases job with
      | writer =>
          obtain ⟨-, rfl⟩ := backgroundWriter_eq_some ht
          refine ⟨_, _, rfl, List.append_assoc _ _ _, rfl, fun x hx => ?_, ?_⟩
          · rcases List.mem_append.mp hx with hx | hx
            · obtain ⟨k, -, rfl⟩ := List.mem_map.mp hx
              rfl
            · exact owner_resent _ _ _ x hx
          · simp [writeEvent, Event.recordedBy]
      | reader =>
          obtain ⟨-, rfl⟩ := backgroundReader_eq_some ht
          refine ⟨_, _, rfl, List.append_assoc _ _ _, rfl, fun x hx => ?_, ?_⟩
          · rcases List.mem_append.mp hx with hx | hx
            · obtain ⟨k, -, rfl⟩ := List.mem_map.mp hx
              rfl
            · exact owner_resent _ _ _ x hx
          · simp [readEvent, Event.recordedBy]
      | flusher =>
          obtain ⟨u, hu, rfl⟩ := backgroundFlusher_eq_some ht
          rcases submitFsync_eq_some hu with ⟨-, rfl⟩ | ⟨-, rfl⟩
          · refine ⟨.fsync :: resent B s.flusherJob.pageId .flusher, _, rfl,
              List.append_assoc _ _ _, rfl, ?_, by simp [Event.recordedBy]⟩
            exact List.forall_mem_cons.mpr ⟨rfl, owner_resent _ _ _⟩
          · exact ⟨_, [], rfl, rfl, (List.append_nil _).symm, owner_resent _ _ _, by simp⟩
      | tracing => exact backgroundTracing_appends ht
      | status =>
          obtain ⟨stats, rfl⟩ := backgroundStatus_eq_some ht
          exact ⟨[.timeout .status], [], rfl, rfl, (List.append_nil _).symm, by simp [Sqe.owner],
            by simp⟩

/-- A count over submissions of one job does not grow in a callback of another. -/
theorem Appends.countP_foreign {new : List Sqe} {events : List Event} {job : Job}
    {p : Sqe → Bool} (h : Appends (s.taken e) t e new events) (he : e ∈ s.kernel)
    (hjob : e.owner ≠ job) (hp : ∀ x, p x = true → x.owner = job) :
    t.outstanding.countP p = s.outstanding.countP p := by
  have hnew : new.countP p = 0 := by
    refine List.countP_eq_zero.mpr fun x hx hpx => hjob ?_
    exact (h.owner x hx).symm.trans (hp x hpx)
  have hpe : p e = false := by
    by_contra hpe
    exact hjob (hp e (Bool.not_eq_false _ ▸ hpe))
  have := System.countP_balance he h.kernel h.sq p
  rw [hnew, hpe] at this
  simpa using this

/-- What was not outstanding before a callback is of the completed job. -/
theorem Appends.mem_outstanding {new : List Sqe} {events : List Event} {x : Sqe}
    (h : Appends (s.taken e) t e new events) (hx : x ∈ t.outstanding) :
    x ∈ s.outstanding ∨ x ∈ new := by
  rw [System.outstanding, h.kernel, h.sq, ← List.append_assoc] at hx
  rcases List.mem_append.mp hx with hx | hx
  · refine .inl ((List.mem_append.mp hx).elim (fun hk => ?_) fun hq => ?_)
    · exact List.mem_append_left _ (List.mem_of_mem_erase hk)
    · exact List.mem_append_right _ hq
  · exact .inr hx

/-- Events of another kind than the completed operation's are not added. -/
theorem Appends.filterMap_log {β : Type*} {new : List Sqe} {events : List Event}
    {f : Event → Option β} (h : Appends s t e new events)
    (hf : ∀ x, Event.recordedBy e x = true → f x = none) :
    t.log.filterMap f = s.log.filterMap f := by
  rw [h.log, List.filterMap_append,
    List.filterMap_eq_nil_iff.mpr fun x hx => hf x (h.recorded x hx), List.append_nil]

end

end IoScheduler
