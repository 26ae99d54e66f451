import IoScheduler.CbufCounters
import IoScheduler.SchedulerReuse
import IoScheduler.SchedulerOwners

/-!
# The trace dumps

Trace items are numbered in the order they are recorded. The head of the ring
passes the items of a dump when its write completes, `trace_synced` only when its
fsync does; the next dump is prepared after both, so it starts where the last one
ended, in the ring and in the file.
-/
namespace IoScheduler
open Machine Transition

def Event.itemTraced? : Event → Option TracingItem
  | .itemTraced item => some item
  | _ => none

/-- The trace items recorded so far. -/
def System.recorded (s : System) : ℕ := (s.log.filterMap Event.itemTraced?).length

def Sqe.dumpWrite? : Sqe → Option (ℕ × ℕ)
  | .dumpWrite len offset => some (len, offset)
  | _ => none

/-- The dump write a label completes. -/
def Act.dumpWrite? : Act → Option (ℕ × ℕ)
  | .cqe e _ _ => e.dumpWrite?
  | _ => none

/-- The length and the offset of every dump of a run, the one in flight last. -/
def dumps (as : List Act) (s : System) : List (ℕ × ℕ) :=
  as.filterMap Act.dumpWrite? ++ s.outstanding.filterMap Sqe.dumpWrite?

/-- The dumps of consecutive ranges of item numbers, the first of them starting at
`h`, each at the bytes of its range. File offsets have 64 bits. -/
def dumpsFrom : ℕ → List ℕ → List (ℕ × ℕ)
  | _, [] => []
  | h, n :: ns => (n * sizeofTracingItem, u64 (h * sizeofTracingItem)) :: dumpsFrom (h + n) ns

theorem dumpsFrom_append (h : ℕ) (ns ms : List ℕ) :
    dumpsFrom h (ns ++ ms) = dumpsFrom h ns ++ dumpsFrom (h + ns.sum) ms := by
  induction ns generalizing h with
  | nil => rfl
  | cons n ns ih =>
      rw [List.cons_append, dumpsFrom, dumpsFrom, ih, List.sum_cons, Nat.add_assoc,
        List.cons_append]

/-- Every dump the state has outstanding is `e`. -/
def OnlyDump (s : System) (e : Sqe) : Prop :=
  ∀ x ∈ s.outstanding, x.slot? = some .dump → x = e

/-- Where the dump operation stands when `N` items are recorded and the dumps of the
first `H` are written. -/
inductive DumpAt (N H : ℕ) (s : System) : Prop
  | idle : s.tracingJob.dumpOp.inflight = 0 →
      s.tracingJob.traceSynced = u64 (H * sizeofTracingItem) → DumpAt N H s
  | writing (n : ℕ) : 0 < n → H + n ≤ N →
      s.tracingJob.dumpOp = ⟨.tracingWrited, n * sizeofTracingItem, n, 1⟩ →
      s.tracingJob.traceSynced = u64 (H * sizeofTracingItem) →
      OnlyDump s (.dumpWrite (n * sizeofTracingItem) (u64 (H * sizeofTracingItem))) →
      DumpAt N H s
  | syncing (h n : ℕ) : h + n = H →
      s.tracingJob.dumpOp = ⟨.tracingSynced, n * sizeofTracingItem, n, 1⟩ →
      s.tracingJob.traceSynced = u64 (h * sizeofTracingItem) → OnlyDump s .dumpFsync →
      DumpAt N H s

/-- `items` are the sizes of the dumps whose write has completed. -/
structure Dumped (items : List ℕ) (s : System) : Prop where
  pos : ∀ n ∈ items, 0 < n
  ring : Counters tracingBufLen s.recorded items.sum s.tracingJob.cbuf
  done : s.tracingJob.traceDone = u64 s.recorded
  dump : DumpAt s.recorded items.sum s

theorem dumped_mainStart (start last : Timespec) : Dumped [] (mainStart start last) := by
  rw [mainStart_eq]
  exact ⟨by simp, counters_cbufInit _ _, rfl, .idle rfl rfl⟩

section
variable {B : ℕ} {now : Timespec} {res : ℤ} {s t : System} {e : Sqe} {items : List ℕ}

theorem OnlyDump.of_subset (h : OnlyDump s e)
    (hout : ∀ x ∈ t.outstanding, x.slot? = some .dump → x ∈ s.outstanding) : OnlyDump t e :=
  fun x hx hslot => h x (hout x hx hslot) hslot

/-- What does not touch the tracer keeps its place. -/
theorem Dumped.frame (h : Dumped items s) (hjob : t.tracingJob = s.tracingJob)
    (hrec : t.recorded = s.recorded)
    (hout : ∀ x ∈ t.outstanding, x.slot? = some .dump → x ∈ s.outstanding) :
    Dumped items t := by
  refine ⟨h.pos, ?_, ?_, ?_⟩
  · rw [hjob, hrec]
    exact h.ring
  · rw [hjob, hrec]
    exact h.done
  · rw [hrec]
    rcases h.dump with ⟨hidle, hsynced⟩ | ⟨n, hpos, hle, hop, hsynced, honly⟩ |
      ⟨k, n, hsum, hop, hsynced, honly⟩
    · exact .idle (hjob ▸ hidle) (hjob ▸ hsynced)
    · exact .writing n hpos hle (hjob ▸ hop) (hjob ▸ hsynced) (honly.of_subset hout)
    · exact .syncing k n hsum (hjob ▸ hop) (hjob ▸ hsynced) (honly.of_subset hout)

theorem Dumped.taken (h : Dumped items s) : Dumped items (s.taken e) :=
  h.frame rfl rfl fun _ hx _ => System.mem_outstanding_of_taken hx

/-- Preparing the timer of the tracer keeps its place. -/
theorem Dumped.resend (h : Dumped items s) (job : Job) :
    Dumped items { s with sq := s.sq ++ [.timeout job] } := by
  refine h.frame rfl rfl fun x hx hslot => ?_
  rw [System.outstanding, ← List.append_assoc, List.mem_append, List.mem_singleton] at hx
  rcases hx with hx | rfl
  · exact hx
  · cases hslot

/-- An item is recorded when the ring has room and the page jobs are not done. -/
theorem traced_recorded (now : Timespec) (s : System) :
    (cbufFreeCount s.tracingJob.cbuf ≠ 0 ∧ (traced now s).recorded = s.recorded + 1 ∧
      (traced now s).tracingJob.cbuf = cbufAdvanceTail s.tracingJob.cbuf 1 ∧
      (traced now s).tracingJob.traceDone = u64 (s.tracingJob.traceDone + 1)) ∨
    traced now s = s := by
  unfold traced
  split_ifs with h
  · refine .inl ⟨h.1, ?_, rfl, rfl⟩
    simp [System.recorded, traceItem, Event.itemTraced?]
  · exact .inr rfl

theorem Dumped.traced (h : Dumped items s) (now : Timespec) : Dumped items (traced now s) := by
  rcases traced_recorded now s with ⟨hfree, hrec, hcbuf, hdone⟩ | htr
  · obtain ⟨hk, hq⟩ := traced_flags now s
    have hout : (IoScheduler.traced now s).outstanding = s.outstanding := by
      rw [System.outstanding, hk, hq, System.outstanding]
    have hop := traced_dumpOp now s
    have hsync : (IoScheduler.traced now s).tracingJob.traceSynced = s.tracingJob.traceSynced := by
      obtain ⟨cbuf, traceDone, log, htr⟩ := traced_eq now s
      rw [htr]
    refine ⟨h.pos, ?_, ?_, ?_⟩
    · rw [hrec, hcbuf]
      exact h.ring.step (a := .advanceTail 1) (by decide) (Nat.pos_of_ne_zero hfree) rfl
    · rw [hrec, hdone, h.done]
      simp only [u64]
      omega
    · rw [hrec]
      rcases h.dump with ⟨hidle, hsynced⟩ | ⟨n, hpos, hle, hd, hsynced, honly⟩ |
        ⟨k, n, hsum, hd, hsynced, honly⟩
      · exact .idle (hop ▸ hidle) (hsync.trans hsynced)
      · exact .writing n hpos (by omega) (hop.trans hd) (hsync.trans hsynced)
          (honly.of_subset fun x hx _ => hout ▸ hx)
      · exact .syncing k n hsum (hop.trans hd) (hsync.trans hsynced)
          (honly.of_subset fun x hx _ => hout ▸ hx)
  · rw [htr]
    exact h

/-- A dump of everything in the ring, prepared with none outstanding. -/
theorem Dumped.dumpStarted (h : Dumped items s) (hidle : s.tracingJob.dumpOp.inflight = 0)
    (hused : cbufUsedCount s.tracingJob.cbuf ≠ 0)
    (hnone : ∀ x ∈ s.outstanding, x.slot? ≠ some .dump) : Dumped items (dumpStarted s) := by
  have hcount := h.ring.used (by decide)
  have hroom := h.ring.room
  have hle := h.ring.head_le
  have hlen : u32 (cbufUsedCount s.tracingJob.cbuf * sizeofTracingItem) =
      cbufUsedCount s.tracingJob.cbuf * sizeofTracingItem := by
    refine u32_of_lt ?_
    rw [hcount]
    simp only [tracingBufLen, sizeofTracingItem] at hroom ⊢
    omega
  have hsynced : s.tracingJob.traceSynced = u64 (items.sum * sizeofTracingItem) := by
    rcases h.dump with ⟨-, hsynced⟩ | ⟨n, -, -, hop, -⟩ | ⟨k, n, -, hop, -⟩
    · exact hsynced
    · rw [hop] at hidle
      cases hidle
    · rw [hop] at hidle
      cases hidle
  refine ⟨h.pos, h.ring, h.done, ?_⟩
  refine .writing (cbufUsedCount s.tracingJob.cbuf) (Nat.pos_of_ne_zero hused) ?_ ?_ hsynced ?_
  · change items.sum + cbufUsedCount s.tracingJob.cbuf ≤ s.recorded
    omega
  · simp only [IoScheduler.dumpStarted, hlen]
  · intro x hx hslot
    simp only [System.outstanding, IoScheduler.dumpStarted, hlen, hsynced, ← List.append_assoc,
      List.mem_append, List.mem_singleton] at hx
    rcases hx with hx | rfl
    · exact absurd hslot (hnone x (List.mem_append.mpr hx))
    · rfl

theorem Dumped.tick (h : Dumped items s) (hslots : Slots s)
    (ht : backgroundTracing now (s.taken (.timeout .tracing)) = some t) : Dumped items t := by
  have hs : Dumped items (s.taken (.timeout .tracing)) := h.taken
  have htr := hs.traced now
  have hnone : s.tracingJob.dumpOp.inflight = 0 →
      ∀ x ∈ (s.taken (.timeout .tracing)).outstanding, x.slot? ≠ some .dump :=
    fun hidle x hx => System.slot_ne_of_free (hslots.dump.trans hidle)
      (System.mem_outstanding_of_taken hx)
  obtain ⟨hk, hq⟩ := traced_flags now (s.taken (.timeout .tracing))
  rcases backgroundTracing_eq_some ht with ⟨-, rfl⟩ | ⟨hidle, hused, rfl⟩ | ⟨-, -, -, rfl⟩ |
    ⟨-, hidle, hused, rfl⟩
  · exact htr.resend .tracing
  · refine (htr.dumpStarted ((traced_dumpOp _ _).symm ▸ hidle) hused fun x hx => ?_).resend _
    rw [System.outstanding, hk, hq] at hx
    exact hnone hidle x hx
  · exact hs
  · exact hs.dumpStarted hidle hused (hnone hidle)

/-- The write of a dump in flight completes. -/
theorem Dumped.writed {n : ℕ} (h : Dumped items s) (hslots : Slots s) (he : e ∈ s.kernel)
    (hslot : e.slot? = some .dump) (hpos : 0 < n) (hle : items.sum + n ≤ s.recorded)
    (hop : s.tracingJob.dumpOp = ⟨.tracingWrited, n * sizeofTracingItem, n, 1⟩)
    (hsynced : s.tracingJob.traceSynced = u64 (items.sum * sizeofTracingItem))
    (ht : tracingWrited res (s.taken e) = some t) : Dumped (items ++ [n]) t := by
  obtain ⟨-, rfl⟩ := tracingWrited_eq_some ht
  have hsum : (items ++ [n]).sum = items.sum + n := by simp
  have hused := h.ring.used (by decide)
  refine ⟨?_, ?_, h.done, ?_⟩
  · simpa [or_imp, forall_and] using ⟨h.pos, hpos⟩
  · rw [hsum]
    have hitems : (s.taken e).tracingJob.dumpOp.items = n := congrArg TracingDumpOp.items hop
    simp only [hitems]
    refine h.ring.step (a := .advanceHead n) (by decide) ?_ rfl
    change n ≤ cbufUsedCount s.tracingJob.cbuf
    omega
  · rw [hsum]
    refine .syncing items.sum n rfl ?_ hsynced fun x hx hx' => ?_
    · change { s.tracingJob.dumpOp with callback := .tracingSynced } = _
      rw [hop]
    · rw [System.outstanding, ← List.append_assoc, List.mem_append, List.mem_singleton] at hx
      exact hx.resolve_left fun hold =>
        System.slot_ne_of_free (hslots.taken_free he hslot) hold hx'

/-- The fsync of a dump in flight completes. -/
theorem Dumped.synced {h' n : ℕ} (h : Dumped items s) (hsum : h' + n = items.sum)
    (hop : s.tracingJob.dumpOp = ⟨.tracingSynced, n * sizeofTracingItem, n, 1⟩)
    (hsynced : s.tracingJob.traceSynced = u64 (h' * sizeofTracingItem))
    (ht : tracingSynced (s.taken e) = some t) : Dumped items t := by
  obtain rfl := tracingSynced_eq_some ht
  refine ⟨h.pos, h.ring, h.done, .idle rfl ?_⟩
  change u64 (s.tracingJob.traceSynced + s.tracingJob.dumpOp.toWrite) = _
  rw [hsynced, hop, ← hsum, Nat.add_mul]
  simp only [u64]
  omega

/-- The two completions of the dump operation. -/
theorem Dumped.completion (h : Dumped items s) (hslots : Slots s) (he : e ∈ s.kernel)
    (hslot : e.slot? = some .dump) (ht : callback B now res (s.taken e) e = some t) :
    (∃ n, 0 < n ∧ items.sum + n ≤ s.recorded ∧
      s.tracingJob.dumpOp = ⟨.tracingWrited, n * sizeofTracingItem, n, 1⟩ ∧
      s.tracingJob.traceSynced = u64 (items.sum * sizeofTracingItem) ∧
      e = .dumpWrite (n * sizeofTracingItem) (u64 (items.sum * sizeofTracingItem)) ∧
      tracingWrited res (s.taken e) = some t) ∨
    (∃ k n, k + n = items.sum ∧
      s.tracingJob.dumpOp = ⟨.tracingSynced, n * sizeofTracingItem, n, 1⟩ ∧
      s.tracingJob.traceSynced = u64 (k * sizeofTracingItem) ∧ e = .dumpFsync ∧
      tracingSynced (s.taken e) = some t) := by
  have hmem : e ∈ s.outstanding := List.mem_append_left _ he
  rcases h.dump with ⟨hidle, -⟩ | ⟨n, hpos, hle, hop, hsynced, honly⟩ |
    ⟨k, n, hsum, hop, hsynced, honly⟩
  · have := hslots.dump_inflight he hslot
    omega
  · obtain rfl := honly e hmem hslot
    simp only [callback, System.taken, hop] at ht
    exact .inl ⟨n, hpos, hle, hop, hsynced, rfl, ht⟩
  · obtain rfl := honly e hmem hslot
    simp only [callback, System.taken, hop] at ht
    exact .inr ⟨k, n, hsum, hop, hsynced, rfl, ht⟩

theorem Dumped.step {a : Act} (h : Dumped items s) (hslots : Slots s) (hok : Successful s a)
    (hs : IoScheduler.step B s a = some t) :
    (a.dumpWrite? = none ∧ Dumped items t) ∨
    ∃ n, a.dumpWrite? = some (n * sizeofTracingItem, u64 (items.sum * sizeofTracingItem)) ∧
      Dumped (items ++ [n]) t := by
  cases a with
  | submit =>
      obtain ⟨-, rfl⟩ := step_submit hs
      refine .inl ⟨rfl, h.frame rfl rfl fun x hx _ => ?_⟩
      simpa [System.outstanding] using hx
  | tickEnd =>
      obtain ⟨-, rfl⟩ := step_tickEnd hs
      exact .inl ⟨rfl, h.frame rfl rfl fun x hx _ => hx⟩
  | cqe e res now =>
      obtain ⟨-, he, ht⟩ := step_cqe hok hs
      by_cases htimer : e = .timeout .tracing
      · subst htimer
        exact .inl ⟨rfl, h.tick hslots ht⟩
      by_cases hslot : e.slot? = some .dump
      · rcases h.completion hslots he hslot ht with ⟨n, hpos, hle, hop, hsynced, rfl, ht⟩ |
          ⟨k, n, hsum, hop, hsynced, rfl, ht⟩
        · exact .inr ⟨n, rfl, h.writed hslots he hslot hpos hle hop hsynced ht⟩
        · exact .inl ⟨rfl, h.synced hsum hop hsynced ht⟩
      · obtain ⟨new, events, happ⟩ := callback_appends ht
        have hne : e.owner ≠ .tracing := by
          cases e with
          | timeout job => exact fun hj : job = .tracing => htimer (hj ▸ rfl)
          | dumpWrite len off | dumpFsync => exact absurd rfl hslot
          | _ => exact Job.noConfusion
        refine .inl ⟨by cases e <;> first | rfl | exact absurd rfl hslot, h.frame ?_ ?_ ?_⟩
        · refine (callback_tracingFrame he (fun hj => htimer ?_) hslot ht).tracingJob
          cases e <;> simp_all [Sqe.slot?]
        · refine congrArg List.length (happ.filterMap_log fun x hx => ?_)
          cases x with
          | itemTraced item => exact absurd (beq_iff_eq.mp hx) htimer
          | _ => rfl
        · intro x hx hx'
          refine (happ.mem_outstanding hx).resolve_right fun hnew => hne ?_
          rw [← happ.owner x hnew]
          cases x <;> simp_all [Sqe.slot?, Sqe.owner]

/-- Only a tick that finds room records an item. -/
theorem recorded_step {a : Act} (hok : Successful s a) (hs : IoScheduler.step B s a = some t)
    (hne : t.recorded ≠ s.recorded) :
    t.recorded = s.recorded + 1 ∧ cbufFreeCount s.tracingJob.cbuf ≠ 0 := by
  have hrec : ∀ new, t.log = s.log ++ new → (∀ x ∈ new, x.itemTraced? = none) → False := by
    intro new hlog hnew
    refine hne ?_
    rw [System.recorded, hlog, List.filterMap_append, List.filterMap_eq_nil_iff.mpr hnew,
      List.append_nil, System.recorded]
  cases a with
  | submit =>
      obtain ⟨-, rfl⟩ := step_submit hs
      exact (hne rfl).elim
  | tickEnd =>
      obtain ⟨-, rfl⟩ := step_tickEnd hs
      exact (hne rfl).elim
  | cqe e res now =>
      obtain ⟨-, he, ht⟩ := step_cqe hok hs
      by_cases htimer : e = .timeout .tracing
      · subst htimer
        have hlog : t.recorded = (traced now (s.taken (.timeout .tracing))).recorded ∨
            t = s.taken (.timeout .tracing) ∨ t = dumpStarted (s.taken (.timeout .tracing)) := by
          rcases backgroundTracing_eq_some ht with ⟨-, rfl⟩ | ⟨-, -, rfl⟩ | ⟨-, -, -, rfl⟩ |
            ⟨-, -, -, rfl⟩
          · exact .inl rfl
          · exact .inl rfl
          · exact .inr (.inl rfl)
          · exact .inr (.inr rfl)
        rcases hlog with hlog | rfl | rfl
        · rcases traced_recorded now (s.taken (.timeout .tracing)) with ⟨hfree, hone, -⟩ | hsame
          · exact ⟨hlog.trans hone, hfree⟩
          · rw [hsame] at hlog
            exact (hne hlog).elim
        · exact (hne rfl).elim
        · exact (hne rfl).elim
      · obtain ⟨new, events, happ⟩ := callback_appends ht
        refine (hrec events happ.log fun x hx => ?_).elim
        cases x with
        | itemTraced item => exact absurd (beq_iff_eq.mp (happ.recorded _ hx)) htimer
        | _ => rfl

/-- What a dump covers is fixed until it is synced. -/
theorem dump_fixed {a : Act} (hok : Successful s a) (hs : IoScheduler.step B s a = some t)
    (hbusy : s.tracingJob.dumpOp.inflight ≠ 0) :
    t.tracingJob.dumpOp.items = s.tracingJob.dumpOp.items ∧
      t.tracingJob.dumpOp.toWrite = s.tracingJob.dumpOp.toWrite := by
  rcases tracing_cases hok hs with ⟨hf, -⟩ | ⟨res, now, rfl, he, ht⟩ | ⟨e, res, -, -, -, ht | ht⟩
  · rw [hf.tracingJob]
    exact ⟨rfl, rfl⟩
  · rcases backgroundTracing_eq_some ht with ⟨-, rfl⟩ | ⟨hidle, -⟩ | ⟨-, hidle, -⟩ |
      ⟨-, hidle, -⟩
    · exact ⟨congrArg TracingDumpOp.items (traced_dumpOp now _),
        congrArg TracingDumpOp.toWrite (traced_dumpOp now _)⟩
    all_goals exact absurd hidle hbusy
  · obtain ⟨-, rfl⟩ := tracingWrited_eq_some ht
    exact ⟨rfl, rfl⟩
  · obtain rfl := tracingSynced_eq_some ht
    exact ⟨rfl, rfl⟩

theorem filterMap_eq_singleton {α β : Type*} {f : α → Option β} {p : α → Bool} {l : List α}
    {a : α} {b : β} (hcount : l.countP p = 1) (honly : ∀ x ∈ l, p x = true → x = a)
    (hf : f a = some b) (hp : ∀ x, p x = false → f x = none) : l.filterMap f = [b] := by
  obtain ⟨x, hx⟩ := List.length_eq_one_iff.mp (List.countP_eq_length_filter.symm.trans hcount)
  have hmem : x ∈ l.filter p := hx ▸ List.mem_singleton_self x
  obtain rfl := honly x (List.mem_filter.mp hmem).1 (List.mem_filter.mp hmem).2
  have hfilter : (l.filter p).filterMap f = l.filterMap f := by
    rw [List.filterMap_filter]
    refine List.filterMap_congr fun y _ => ?_
    cases hy : p y
    · exact (hp y hy).symm
    · rfl
  rw [← hfilter, hx, List.filterMap_cons_some hf, List.filterMap_nil]

/-- At most one dump write is outstanding, of the items from the head on. -/
theorem Dumped.outstanding (h : Dumped items s) (hslots : Slots s) :
    s.outstanding.filterMap Sqe.dumpWrite? = [] ∨
    ∃ n, 0 < n ∧ items.sum + n ≤ s.recorded ∧
      s.tracingJob.dumpOp = ⟨.tracingWrited, n * sizeofTracingItem, n, 1⟩ ∧
      s.outstanding.filterMap Sqe.dumpWrite? =
        [(n * sizeofTracingItem, u64 (items.sum * sizeofTracingItem))] := by
  have hslot : ∀ x ∈ s.outstanding, ∀ y, x.dumpWrite? = some y → x.slot? = some .dump := by
    intro x _ y hy
    cases x <;> first | rfl | cases hy
  rcases h.dump with ⟨hidle, -⟩ | ⟨n, hpos, hle, hop, -, honly⟩ | ⟨k, n, -, -, -, honly⟩
  · refine .inl (List.filterMap_eq_nil_iff.mpr fun x hx => ?_)
    refine Option.eq_none_iff_forall_ne_some.mpr fun y hy => ?_
    exact System.slot_ne_of_free (hslots.dump.trans hidle) hx (hslot x hx y hy)
  · refine .inr ⟨n, hpos, hle, hop, ?_⟩
    refine filterMap_eq_singleton (p := Sqe.inSlot .dump)
      (a := .dumpWrite (n * sizeofTracingItem) (u64 (items.sum * sizeofTracingItem))) ?_
      (fun x hx hx' => ?_) rfl fun x hx => ?_
    · exact hslots.dump.trans (congrArg TracingDumpOp.inflight hop)
    · exact honly x hx (of_decide_eq_true hx')
    · refine Option.eq_none_iff_forall_ne_some.mpr fun y hy => ?_
      have hno : x.slot? ≠ some .dump := of_decide_eq_false hx
      cases x <;> first | exact hno rfl | cases hy
  · refine .inl (List.filterMap_eq_nil_iff.mpr fun x hx => ?_)
    refine Option.eq_none_iff_forall_ne_some.mpr fun y hy => ?_
    rw [honly x hx (hslot x hx y hy)] at hy
    cases hy

end

theorem dumped_of_run {B : ℕ} {t₀ t₁ : Timespec} {as : List Act} {s : System}
    (h : Run (step B) Successful (mainStart t₀ t₁) as s) :
    ∃ items, as.filterMap Act.dumpWrite? = dumpsFrom 0 items ∧ Dumped items s := by
  induction h with
  | nil => exact ⟨[], rfl, dumped_mainStart t₀ t₁⟩
  | snoc hr hok hs ih =>
      obtain ⟨items, hdumps, hd⟩ := ih
      rcases hd.step (Reach.slots ⟨_, hr⟩) hok hs with ⟨hnone, hd'⟩ | ⟨n, hsome, hd'⟩
      · refine ⟨items, ?_, hd'⟩
        rw [List.filterMap_append, hdumps, List.filterMap_cons_none hnone, List.filterMap_nil,
          List.append_nil]
      · refine ⟨items ++ [n], ?_, hd'⟩
        rw [List.filterMap_append, hdumps, List.filterMap_cons_some hsome, List.filterMap_nil,
          dumpsFrom_append, Nat.zero_add]
        rfl

/-- The dumps of a run are those of consecutive ranges of item numbers from 0 on:
`written` are the sizes of the ranges written, `pending` is the range in flight, if
any. The head of the ring stands behind the items written. -/
theorem dumps_consecutive {B : ℕ} {t₀ t₁ : Timespec} {as : List Act} {s : System}
    (h : Run (step B) Successful (mainStart t₀ t₁) as s) :
    ∃ written pending : List ℕ, pending.length ≤ 1 ∧
      dumps as s = dumpsFrom 0 (written ++ pending) ∧
      as.filterMap Act.dumpWrite? = dumpsFrom 0 written ∧
      (∀ n ∈ written ++ pending, 0 < n) ∧ (written ++ pending).sum ≤ s.recorded ∧
      (∀ n ∈ pending, s.tracingJob.dumpOp.items = n ∧
        s.tracingJob.dumpOp.toWrite = n * sizeofTracingItem) ∧
      s.tracingJob.cbuf.head = u32 written.sum ∧ s.tracingJob.cbuf.tail = u32 s.recorded ∧
      ∀ a t, Successful s a → step B s a = some t →
        (s.tracingJob.dumpOp.inflight ≠ 0 →
          t.tracingJob.dumpOp.items = s.tracingJob.dumpOp.items ∧
          t.tracingJob.dumpOp.toWrite = s.tracingJob.dumpOp.toWrite) ∧
        (t.recorded ≠ s.recorded → t.recorded = s.recorded + 1 ∧
          s.recorded - written.sum < s.tracingJob.cbuf.len) := by
  obtain ⟨items, hdumps, hd⟩ := dumped_of_run h
  have hring := hd.ring
  have hsteps : ∀ a t, Successful s a → step B s a = some t →
      (s.tracingJob.dumpOp.inflight ≠ 0 →
        t.tracingJob.dumpOp.items = s.tracingJob.dumpOp.items ∧
        t.tracingJob.dumpOp.toWrite = s.tracingJob.dumpOp.toWrite) ∧
      (t.recorded ≠ s.recorded → t.recorded = s.recorded + 1 ∧
        s.recorded - items.sum < s.tracingJob.cbuf.len) := by
    refine fun a t hok hs => ⟨dump_fixed hok hs, fun hne => ?_⟩
    obtain ⟨hone, hfree⟩ := recorded_step hok hs hne
    rw [hring.free (by decide)] at hfree
    refine ⟨hone, ?_⟩
    rw [hring.len_eq]
    omega
  rcases hd.outstanding (Reach.slots ⟨as, h⟩) with hnone | ⟨n, hpos, hle, hop, hone⟩
  · refine ⟨items, [], by simp, ?_, hdumps, ?_, ?_, by simp, hring.head, hring.tail, hsteps⟩
    · rw [dumps, hnone, hdumps, List.append_nil, List.append_nil]
    · simpa using hd.pos
    · simpa using hring.head_le
  · refine ⟨items, [n], le_rfl, ?_, hdumps, ?_, ?_, ?_, hring.head, hring.tail, hsteps⟩
    · rw [dumps, hone, hdumps, dumpsFrom_append, Nat.zero_add]
      rfl
    · simpa [or_imp, forall_and] using ⟨hd.pos, hpos⟩
    · simpa using hle
    · simp [hop]

/-- Sixty-four items recorded, the first thirty-two of them synced, the others in
flight. -/
theorem dumps_consecutive_second_dump :
    ∃ as s, Run (step bytesToWrite) Successful (mainStart ⟨0, 0⟩ ⟨0, 0⟩) as s ∧
      s.recorded = 64 ∧ s.outstanding.filterMap Sqe.dumpWrite? = [(1280, 1280)] ∧
      ∃ written pending, dumps as s = dumpsFrom 0 (written ++ pending) ∧ pending.length ≤ 1 := by
  obtain ⟨s, ⟨as, hs⟩, hp⟩ : ∃ s, Reachable (step bytesToWrite) Successful
      (mainStart ⟨0, 0⟩ ⟨0, 0⟩) s ∧
      decide (s.recorded = 64 ∧ s.outstanding.filterMap Sqe.dumpWrite? = [(1280, 1280)]) = true :=
    exists_of_execute
      ((List.replicate 32 [Act.submit, .cqe (.timeout .tracing) (-62) ⟨0, 0⟩, .tickEnd]).flatten ++
        [.submit, .cqe (.dumpWrite 1280 0) 1280 ⟨0, 0⟩, .tickEnd, .submit,
          .cqe .dumpFsync 0 ⟨0, 0⟩, .tickEnd] ++
        (List.replicate 32
          [Act.submit, .cqe (.timeout .tracing) (-62) ⟨0, 0⟩, .tickEnd]).flatten) _
      (by decide +kernel)
  obtain ⟨hrec, hout⟩ := of_decide_eq_true hp
  obtain ⟨written, pending, hlen, hdumps, -⟩ := dumps_consecutive hs
  exact ⟨as, s, hs, hrec, hout, written, pending, hdumps, hlen⟩

end IoScheduler
