import IoScheduler.SchedulerInflight

/-!
# The write pipeline

With writes completing in submission order the blocks of the page writes form
three consecutive ranges of addresses: `[0, F)` released by `file_synced`,
`[F, C)` linked into the write list, `[C, brk)` in flight. Every counter of the
writer and of the flusher is one of these three numbers, wrapped to 32 bits.
-/
namespace IoScheduler
open Machine Transition

def Event.writeSubmitted? : Event → Option (ℕ × ℕ)
  | .writeSubmitted op pageId => some (op, pageId)
  | _ => none

def Event.pageWritten? : Event → Option (ℕ × ℕ)
  | .pageWritten op pageId => some (op, pageId)
  | _ => none

def Event.released? : Event → Option (ℕ × ℕ)
  | .released op pageId _ => some (op, pageId)
  | _ => none

def Event.readSubmitted? : Event → Option ℕ
  | .readSubmitted pageId => some pageId
  | _ => none

/-- The writes numbered below `n`, each with its 32-bit page id. -/
def pagesBelow (n : ℕ) : List (ℕ × ℕ) := (List.range n).map fun k => (k, u32 k)

theorem pagesBelow_succ (n : ℕ) : pagesBelow (n + 1) = pagesBelow n ++ [(n, u32 n)] := by
  simp [pagesBelow, List.range_succ]

theorem pagesBelow_add (n m : ℕ) :
    pagesBelow (n + m) = pagesBelow n ++ (List.range m).map fun k => (n + k, u32 (n + k)) := by
  simp [pagesBelow, List.range_add, Function.comp_def]

theorem length_pagesBelow (n : ℕ) : (pagesBelow n).length = n := by simp [pagesBelow]

/-- The link from block `p` of a list that ends before block `C`. -/
def nextBelow (C p : ℕ) : Option ℕ := if p + 1 < C then some (p + 1) else none

/-- The write list over the blocks `[F, C)`. -/
def listBetween (F C : ℕ) : PageWriteNode :=
  if F < C then ⟨some F, some (C - 1)⟩ else ⟨none, none⟩

structure Pipeline (F C : ℕ) (s : System) : Prop where
  released_le : F ≤ C
  written_le : C ≤ s.brk
  inFlight : s.outstanding.filterMap Sqe.writeOp? = List.range' C (s.brk - C)
  list : s.flusherJob.writeList = listBetween F C
  live : ∀ p, F ≤ p → p < s.brk →
    ∃ issued, s.heap p = some ⟨u32 p, none, nextBelow C p, issued⟩
  check : s.pageIdCheckOrder = u32 C
  writerPage : s.writerJob.pageId = u32 s.brk
  flusherPage : s.flusherJob.pageId = u32 F
  noFlush : s.writerJob.writtenNoFlush = u32 (C - F)
  submitted : s.log.filterMap Event.writeSubmitted? = pagesBelow s.brk
  written : s.log.filterMap Event.pageWritten? = pagesBelow C
  released : s.log.filterMap Event.released? = pagesBelow F

/-- Removing the first element a partial map is defined on removes the first
element of the image. -/
theorem filterMap_erase_head {α β : Type*} [DecidableEq α] {f : α → Option β} {l : List α}
    {a : α} {b : β} (ha : a ∈ l) (hf : f a = some b) (hb : (l.filterMap f).head? = some b)
    (hnd : (l.filterMap f).Nodup) : (l.erase a).filterMap f = (l.filterMap f).tail := by
  induction l with
  | nil => cases ha
  | cons x l ih =>
      by_cases hx : x = a
      · subst hx
        simp [hf]
      · have hal : a ∈ l := (List.mem_cons.mp ha).resolve_left (Ne.symm hx)
        rw [List.erase_cons_tail (by simpa using hx)]
        cases hfx : f x with
        | none =>
            rw [List.filterMap_cons_none hfx] at hb hnd ⊢
            rw [List.filterMap_cons_none hfx]
            exact ih hal hb hnd
        | some c =>
            rw [List.filterMap_cons_some hfx] at hb hnd
            obtain rfl : c = b := by simpa using hb
            exact absurd (List.mem_filterMap.mpr ⟨a, hal, hf⟩) (List.nodup_cons.mp hnd).1

theorem filterMap_writeOp_taken {s : System} {e : Sqe} (he : e ∈ s.kernel)
    (hw : e.writeOp? = none) :
    (s.taken e).outstanding.filterMap Sqe.writeOp? = s.outstanding.filterMap Sqe.writeOp? := by
  rw [System.taken_outstanding he]
  have hmem : e ∈ s.outstanding := List.mem_append_left _ he
  generalize s.outstanding = l at hmem ⊢
  induction l with
  | nil => cases hmem
  | cons x l ih =>
      by_cases hx : x = e
      · subst hx
        simp [hw]
      · have hel := (List.mem_cons.mp hmem).resolve_left (Ne.symm hx)
        rw [List.erase_cons_tail (by simpa using hx), List.filterMap_cons, List.filterMap_cons,
          ih hel]

/-- What the other callbacks leave alone. -/
theorem Pipeline.of_eq {F C : ℕ} {s t : System} (h : Pipeline F C s)
    (hout : t.outstanding.filterMap Sqe.writeOp? = s.outstanding.filterMap Sqe.writeOp?)
    (hlist : t.flusherJob.writeList = s.flusherJob.writeList) (hheap : t.heap = s.heap)
    (hbrk : t.brk = s.brk) (hcheck : t.pageIdCheckOrder = s.pageIdCheckOrder)
    (hwriter : t.writerJob = s.writerJob) (hpage : t.flusherJob.pageId = s.flusherJob.pageId)
    (hlog : ∃ new, t.log = s.log ++ new ∧ new.filterMap Event.writeSubmitted? = [] ∧
      new.filterMap Event.pageWritten? = [] ∧ new.filterMap Event.released? = []) :
    Pipeline F C t := by
  obtain ⟨new, hnew, h₁, h₂, h₃⟩ := hlog
  refine ⟨h.released_le, hbrk ▸ h.written_le, ?_, hlist ▸ h.list, ?_, hcheck ▸ h.check, ?_,
    hpage ▸ h.flusherPage, hwriter ▸ h.noFlush, ?_, ?_, ?_⟩
  · rw [hout, hbrk, h.inFlight]
  · rw [hbrk, hheap]
    exact h.live
  · rw [hwriter, hbrk]
    exact h.writerPage
  · rw [hnew, List.filterMap_append, h₁, List.append_nil, hbrk, h.submitted]
  · rw [hnew, List.filterMap_append, h₂, List.append_nil, h.written]
  · rw [hnew, List.filterMap_append, h₃, List.append_nil, h.released]

theorem pipeline_mainStart (start last : Timespec) : Pipeline 0 0 (mainStart start last) := by
  rw [mainStart_eq]
  constructor <;> first | rfl | (intro p _ hp; exact absurd hp (Nat.not_lt_zero p))

theorem Pipeline.taken {F C : ℕ} {s : System} {e : Sqe} (h : Pipeline F C s)
    (he : e ∈ s.kernel) (hw : e.writeOp? = none) : Pipeline F C (s.taken e) :=
  h.of_eq (filterMap_writeOp_taken he hw) rfl rfl rfl rfl rfl rfl
    ⟨[], (List.append_nil _).symm, rfl, rfl, rfl⟩

/-- Preparing anything but a page write keeps the pipeline. -/
theorem Pipeline.of_append {F C : ℕ} {s t : System} (new : List Sqe) (events : List Event)
    (h : Pipeline F C s) (hk : t.kernel = s.kernel) (hq : t.sq = s.sq ++ new)
    (hnew : new.filterMap Sqe.writeOp? = [])
    (hlist : t.flusherJob.writeList = s.flusherJob.writeList) (hheap : t.heap = s.heap)
    (hbrk : t.brk = s.brk) (hcheck : t.pageIdCheckOrder = s.pageIdCheckOrder)
    (hwriter : t.writerJob = s.writerJob) (hpage : t.flusherJob.pageId = s.flusherJob.pageId)
    (hlog : t.log = s.log ++ events) (h₁ : events.filterMap Event.writeSubmitted? = [])
    (h₂ : events.filterMap Event.pageWritten? = [])
    (h₃ : events.filterMap Event.released? = []) : Pipeline F C t := by
  refine h.of_eq ?_ hlist hheap hbrk hcheck hwriter hpage ⟨events, hlog, h₁, h₂, h₃⟩
  rw [System.outstanding, hk, hq, ← List.append_assoc, List.filterMap_append, hnew,
    List.append_nil]
  rfl

/-- The write that completes in order is the first block not yet written. -/
theorem Pipeline.next_eq {F C : ℕ} {s : System} {op off : ℕ} (h : Pipeline F C s)
    (he : .pageWrite op off ∈ s.kernel)
    (horder : (s.kernel.filterMap Sqe.writeOp?).head? = some op) :
    op = C ∧ C < s.brk ∧
      (s.taken (.pageWrite op off)).outstanding.filterMap Sqe.writeOp? =
        List.range' (C + 1) (s.brk - (C + 1)) := by
  have hhead : (s.outstanding.filterMap Sqe.writeOp?).head? = some op := by
    rw [System.outstanding, List.filterMap_append, List.head?_append, horder]
    rfl
  have hlt : C < s.brk := by
    by_contra hn
    rw [h.inFlight, Nat.sub_eq_zero_of_le (by omega)] at hhead
    cases hhead
  obtain ⟨n, hn⟩ : ∃ n, s.brk - C = n + 1 := ⟨s.brk - C - 1, by omega⟩
  have hC : op = C := by
    rw [h.inFlight, hn, List.range'_succ] at hhead
    exact (Option.some.inj hhead).symm
  refine ⟨hC, hlt, ?_⟩
  have hnd : (s.outstanding.filterMap Sqe.writeOp?).Nodup := by
    rw [h.inFlight]
    exact List.nodup_range'
  have hmem : Sqe.pageWrite op off ∈ s.outstanding := List.mem_append_left s.sq he
  have hsome : Sqe.writeOp? (.pageWrite op off) = some op := rfl
  rw [System.taken_outstanding he, filterMap_erase_head hmem hsome hhead hnd, h.inFlight, hn,
    List.range'_succ, List.tail_cons]
  congr 1
  omega

/-- Linking the next block behind the last one gives the longer list. -/
theorem Pipeline.linked {F C : ℕ} {s : System} {heap : ℕ → Option OpPageWrite}
    {writeList : PageWriteNode} (h : Pipeline F C s)
    (hlist : (s.flusherJob.writeList.tail = none ∧ heap = s.heap ∧
        writeList = ⟨some C, some C⟩) ∨
      ∃ first last o, s.flusherJob.writeList = ⟨some first, some last⟩ ∧
        s.heap last = some o ∧
        heap = Function.update s.heap last (some { o with next := some C }) ∧
        writeList = ⟨some first, some C⟩) :
    writeList = listBetween F (C + 1) ∧
      ∀ p, F ≤ p → p < s.brk →
        ∃ issued, heap p = some ⟨u32 p, none, nextBelow (C + 1) p, issued⟩ := by
  have hle := h.released_le
  rcases hlist with ⟨hnone, rfl, rfl⟩ | ⟨first, last, o, hfirst, ho, rfl, rfl⟩
  · have hF : F = C := by
      by_contra hne
      simp [h.list, listBetween, show F < C by omega] at hnone
    refine ⟨by simp [listBetween, hF], fun p hp hp' => ?_⟩
    obtain ⟨issued, hi⟩ := h.live p hp hp'
    refine ⟨issued, hi.trans ?_⟩
    simp [nextBelow, show ¬ p + 1 < C by omega, show ¬ p < C by omega]
  · have hF : F < C := by
      by_contra hne
      simp [h.list, listBetween, hne] at hfirst
    simp only [h.list, listBetween, hF, if_true, PageWriteNode.mk.injEq, Option.some.injEq]
      at hfirst
    obtain ⟨rfl, rfl⟩ := hfirst
    refine ⟨by simp [listBetween, show F < C + 1 by omega], fun p hp hp' => ?_⟩
    obtain ⟨issued, hi⟩ := h.live p hp hp'
    by_cases hlast : p = C - 1
    · subst hlast
      obtain rfl := Option.some.inj (ho.symm.trans hi)
      refine ⟨issued, ?_⟩
      simp [nextBelow, show C - 1 + 1 = C by omega]
    · refine ⟨issued, ?_⟩
      rw [Function.update_of_ne hlast, hi]
      simp [nextBelow, show p + 1 < C ↔ p < C by omega]

/-- `page_written` moves the boundary between written and in flight by one. -/
theorem Pipeline.pageWritten {F C : ℕ} {s t : System} {now : Timespec} {op off : ℕ}
    (h : Pipeline F C s) (he : .pageWrite op off ∈ s.kernel)
    (horder : (s.kernel.filterMap Sqe.writeOp?).head? = some op)
    (ht : pageWritten now op (s.taken (.pageWrite op off)) = some t) :
    Pipeline F (C + 1) t := by
  obtain ⟨rfl, hlt, hout⟩ := h.next_eq he horder
  obtain ⟨o, heap, writeList, stats, -, hpage, rfl, hlist⟩ := pageWritten_eq_some ht
  obtain ⟨hl, hlive⟩ := h.linked hlist
  have hw : o.pageId = u32 op := hpage.trans h.check
  constructor
  case released_le => exact Nat.le_succ_of_le h.released_le
  case written_le => exact hlt
  case inFlight => exact hout
  case list => exact hl
  case live => exact hlive
  case check => exact (congrArg (fun n => u32 (n + 1)) h.check).trans (u32_add op 1)
  case writerPage => exact h.writerPage
  case flusherPage => exact h.flusherPage
  case noFlush =>
    have hsub : u32 (s.writerJob.writtenNoFlush + 1) = u32 (op + 1 - F) := by
      rw [h.noFlush, u32_add, Nat.sub_add_comm h.released_le]
    exact hsub
  case submitted =>
    rw [List.filterMap_append]
    exact (List.append_nil _).trans h.submitted
  case written =>
    rw [List.filterMap_append, pagesBelow_succ, ← h.written, hw]
    rfl
  case released =>
    rw [List.filterMap_append]
    exact (List.append_nil _).trans h.released

theorem listBetween_tail (F C : ℕ) :
    (listBetween F C).tail = if F < C then some F else none := by
  unfold listBetween
  split_ifs <;> rfl

theorem nextBelow_eq (F C : ℕ) : nextBelow C F = (listBetween (F + 1) C).tail :=
  (listBetween_tail (F + 1) C).symm

/-- The loop of `file_synced` frees the linked blocks in order. -/
theorem releaseList_chain {F C fuel : ℕ} {s : System} (hle : F ≤ C) (hfuel : C - F ≤ fuel)
    (hlive : ∀ p, F ≤ p → p < C →
      ∃ issued, s.heap p = some ⟨u32 p, none, nextBelow C p, issued⟩) :
    releaseList fuel (listBetween F C).tail s = some { s with
      heap := fun p => if F ≤ p ∧ p < C then none else s.heap p
      log := s.log ++ (List.range' F (C - F)).map fun p => .released p (u32 p) none } := by
  induction fuel generalizing F s with
  | zero =>
      obtain rfl : F = C := by omega
      have hheap : (fun p => if F ≤ p ∧ p < F then none else s.heap p) = s.heap := by
        funext p
        rw [if_neg (by omega)]
      simp [releaseList, listBetween, hheap]
  | succ fuel ih =>
      rcases Nat.eq_or_lt_of_le hle with rfl | hlt
      · have hheap : (fun p => if F ≤ p ∧ p < F then none else s.heap p) = s.heap := by
          funext p
          rw [if_neg (by omega)]
        simp [releaseList, listBetween, hheap]
      · obtain ⟨issued, hF⟩ := hlive F le_rfl hlt
        have hlive' : ∀ p, F + 1 ≤ p → p < C → ∃ issued,
            Function.update s.heap F none p = some ⟨u32 p, none, nextBelow C p, issued⟩ := by
          intro p hp hp'
          rw [Function.update_of_ne (by omega)]
          exact hlive p (by omega) hp'
        have hrange : List.range' F (C - F) = F :: List.range' (F + 1) (C - (F + 1)) := by
          rw [← List.range'_succ]
          congr 1
          omega
        have hheap : (fun p => if F + 1 ≤ p ∧ p < C then none else
            Function.update s.heap F none p) =
              fun p => if F ≤ p ∧ p < C then none else s.heap p := by
          funext p
          by_cases hp : p = F
          · subst hp
            simp [hlt]
          · rw [Function.update_of_ne hp]
            have : F + 1 ≤ p ↔ F ≤ p := by omega
            simp only [this]
        rw [listBetween_tail, if_pos hlt, releaseList, hF, Option.bind_eq_bind, Option.bind_some,
          nextBelow_eq, ih (by omega) (by omega) (by exact hlive'), hrange]
        simp only [hheap, List.map_cons, List.append_assoc, List.singleton_append]

/-- `file_synced` releases every block written so far. -/
theorem Pipeline.fileSynced {F C : ℕ} {s t : System} {now : Timespec}
    (h : Pipeline F C s) (ht : fileSynced now s = some t) :
    Pipeline C C t ∧ t.log = s.log ++ Event.fileSynced ::
      (List.range' F (C - F)).map fun p => .released p (u32 p) none := by
  obtain ⟨heap, log, stats, hu, rfl⟩ := fileSynced_eq_some ht
  have hbrk := h.written_le
  have hle := h.released_le
  have hlive : ∀ p, F ≤ p → p < C →
      ∃ issued, s.heap p = some ⟨u32 p, none, nextBelow C p, issued⟩ :=
    fun p hp hp' => h.live p hp (by omega)
  rw [h.list, releaseList_chain hle (by omega) (by exact hlive)] at hu
  simp only [Option.some.injEq, System.mk.injEq, true_and] at hu
  obtain ⟨rfl, rfl⟩ := hu
  refine ⟨?_, by simp⟩
  constructor
  case released_le => exact le_rfl
  case written_le => exact hbrk
  case inFlight => exact h.inFlight
  case list => simp [listBetween]
  case live =>
    intro p hp hp'
    obtain ⟨issued, hi⟩ := h.live p (by omega) hp'
    exact ⟨issued, (if_neg (by omega)).trans hi⟩
  case check => exact h.check
  case writerPage => exact h.writerPage
  case flusherPage =>
    have hsum : u32 (s.flusherJob.pageId + s.writerJob.writtenNoFlush) = u32 C := by
      rw [h.flusherPage, h.noFlush, u32_add, u32_add_right]
      congr 1
      omega
    exact hsum
  case noFlush => simp
  case submitted =>
    simpa [List.filterMap_cons, List.filterMap_map, Function.comp_def,
      Event.writeSubmitted?] using h.submitted
  case written =>
    simpa [List.filterMap_cons, List.filterMap_map, Function.comp_def,
      Event.pageWritten?] using h.written
  case released =>
    have hC : C = F + (C - F) := by omega
    rw [hC, pagesBelow_add, ← h.released]
    simp [List.filterMap_cons, List.filterMap_map, Function.comp_def, Event.released?,
      List.range'_eq_map_range]

/-- The writer's batch extends the range in flight. -/
theorem Pipeline.backgroundWriter {F C B : ℕ} {s t : System} {now : Timespec}
    (h : Pipeline F C s) (ht : backgroundWriter B now s = some t) : Pipeline F C t := by
  obtain ⟨-, rfl⟩ := backgroundWriter_eq_some ht
  generalize adaptBatch s.writerJob.inflight s.writerJob.batchSize = b
  have hbrk := h.written_le
  constructor
  case released_le => exact h.released_le
  case written_le => exact hbrk.trans (Nat.le_add_right _ _)
  case inFlight =>
    have hresent : ∀ pageId, (resent B pageId .writer).filterMap Sqe.writeOp? = [] := by
      intro pageId
      unfold resent
      split_ifs <;> rfl
    have hnew : ((List.range b).map (writeSqe s.writerJob.pageId s.brk)).filterMap
        Sqe.writeOp? = List.range' s.brk b := by
      simp [List.filterMap_map, Function.comp_def, writeSqe, Sqe.writeOp?,
        List.range'_eq_map_range]
    have hold := h.inFlight
    simp only [System.outstanding, List.filterMap_append] at hold ⊢
    rw [hnew, hresent, List.append_nil, ← List.append_assoc, hold]
    have hsplit : List.range' C (s.brk - C) ++ List.range' (C + (s.brk - C)) b =
        List.range' C (s.brk - C + b) := List.range'_append_1
    rw [show C + (s.brk - C) = s.brk by omega, show s.brk - C + b = s.brk + b - C by omega]
      at hsplit
    exact hsplit
  case list => exact h.list
  case live =>
    intro p hp hp'
    simp only [heapWithWrites]
    split_ifs with hnew
    · refine ⟨now, ?_⟩
      rw [h.writerPage, u32_add, show s.brk + (p - s.brk) = p by omega]
      simp [nextBelow, show ¬ p + 1 < C by omega]
    · exact h.live p hp (by simp only at hp'; omega)
  case check => exact h.check
  case writerPage =>
    have hsum : u32 (s.writerJob.pageId + b) = u32 (s.brk + b) := by rw [h.writerPage, u32_add]
    exact hsum
  case flusherPage => exact h.flusherPage
  case noFlush => exact h.noFlush
  case submitted =>
    rw [List.filterMap_append, h.submitted, pagesBelow_add]
    congr 1
    simp [List.filterMap_map, Function.comp_def, writeEvent, Event.writeSubmitted?,
      h.writerPage, u32_add]
  case written =>
    rw [List.filterMap_append, h.written]
    simp [List.filterMap_map, Function.comp_def, writeEvent, Event.pageWritten?]
  case released =>
    rw [List.filterMap_append, h.released]
    simp [List.filterMap_map, Function.comp_def, writeEvent, Event.released?]

/-! ## Whole runs -/

/-- A step of the tracer, of the status line or of the loop itself: the page
jobs, their blocks and their operations are as they were. -/
structure Quiet (s t : System) : Prop where
  writerJob : t.writerJob = s.writerJob
  readerJob : t.readerJob = s.readerJob
  flusherJob : t.flusherJob = s.flusherJob
  heap : t.heap = s.heap
  brk : t.brk = s.brk
  check : t.pageIdCheckOrder = s.pageIdCheckOrder
  inFlight : t.outstanding.filterMap Sqe.writeOp? = s.outstanding.filterMap Sqe.writeOp?
  log : ∃ items : List TracingItem, t.log = s.log ++ items.map .itemTraced

theorem Quiet.filterMap_log {β : Type*} {s t : System} (h : Quiet s t) {f : Event → Option β}
    (hf : ∀ item, f (.itemTraced item) = none) : t.log.filterMap f = s.log.filterMap f := by
  obtain ⟨items, hlog⟩ := h.log
  have hitems : (items.map Event.itemTraced).filterMap f = [] := by
    rw [List.filterMap_map, List.filterMap_eq_nil_iff]
    exact fun item _ => hf item
  rw [hlog, List.filterMap_append, hitems, List.append_nil]

theorem filterMap_writeOp_append {s t : System} {e : Sqe} {new : List Sqe} (he : e ∈ s.kernel)
    (hw : e.writeOp? = none) (hk : t.kernel = (s.taken e).kernel) (hq : t.sq = s.sq ++ new)
    (hnew : ∀ x ∈ new, x.writeOp? = none) :
    t.outstanding.filterMap Sqe.writeOp? = s.outstanding.filterMap Sqe.writeOp? := by
  have hout : t.outstanding = (s.taken e).outstanding ++ new := by
    simp only [System.outstanding, hk, hq, System.taken, List.append_assoc]
  rw [hout, List.filterMap_append, filterMap_writeOp_taken he hw,
    List.filterMap_eq_nil_iff.mpr hnew, List.append_nil]

theorem backgroundTracing_quiet {now : Timespec} {s t : System}
    (he : .timeout .tracing ∈ s.kernel)
    (ht : backgroundTracing now (s.taken (.timeout .tracing)) = some t) : Quiet s t := by
  have hlog : ∃ items : List TracingItem, (traced now (s.taken (.timeout .tracing))).log =
      s.log ++ items.map .itemTraced := by
    unfold traced
    split_ifs
    · exact ⟨[_], rfl⟩
    · exact ⟨[], (List.append_nil _).symm⟩
  have hnil : ∃ items : List TracingItem, s.log = s.log ++ items.map .itemTraced :=
    ⟨[], (List.append_nil _).symm⟩
  obtain ⟨cbuf, traceDone, log, htr⟩ := traced_eq now (s.taken (.timeout .tracing))
  rw [htr] at hlog
  rcases backgroundTracing_eq_some ht with ⟨-, rfl⟩ | ⟨-, -, rfl⟩ | ⟨-, -, -, rfl⟩ |
    ⟨-, -, -, rfl⟩
  · rw [htr]
    exact ⟨rfl, rfl, rfl, rfl, rfl, rfl,
      filterMap_writeOp_append he rfl rfl rfl (by simp [Sqe.writeOp?]), hlog⟩
  · rw [htr]
    exact ⟨rfl, rfl, rfl, rfl, rfl, rfl,
      filterMap_writeOp_append he rfl rfl (List.append_assoc _ _ _) (by simp [Sqe.writeOp?]), hlog⟩
  · exact ⟨rfl, rfl, rfl, rfl, rfl, rfl, filterMap_writeOp_taken he rfl, hnil⟩
  · exact ⟨rfl, rfl, rfl, rfl, rfl, rfl,
      filterMap_writeOp_append he rfl rfl rfl (by simp [Sqe.writeOp?]), hnil⟩

theorem backgroundStatus_quiet {now : Timespec} {s t : System} (he : .timeout .status ∈ s.kernel)
    (ht : backgroundStatus now (s.taken (.timeout .status)) = some t) : Quiet s t := by
  obtain ⟨stats, rfl⟩ := backgroundStatus_eq_some ht
  exact ⟨rfl, rfl, rfl, rfl, rfl, rfl,
    filterMap_writeOp_append he rfl rfl rfl (by simp [Sqe.writeOp?]),
    [], (List.append_nil _).symm⟩

theorem dump_quiet {B : ℕ} {now : Timespec} {res : ℤ} {s t : System} {e : Sqe}
    (he : e ∈ s.kernel) (hslot : e = .dumpFsync ∨ ∃ len off, e = .dumpWrite len off)
    (ht : callback B now res (s.taken e) e = some t) : Quiet s t := by
  have hw : e.writeOp? = none := by
    rcases hslot with rfl | ⟨len, off, rfl⟩ <;> rfl
  have hdump : tracingWrited res (s.taken e) = some t ∨ tracingSynced (s.taken e) = some t := by
    rcases hslot with rfl | ⟨len, off, rfl⟩ <;> simp only [callback] at ht <;> split at ht
    all_goals first | exact .inl ht | exact .inr ht
  rcases hdump with ht | ht
  · obtain ⟨-, rfl⟩ := tracingWrited_eq_some ht
    exact ⟨rfl, rfl, rfl, rfl, rfl, rfl,
      filterMap_writeOp_append he hw rfl rfl (by simp [Sqe.writeOp?]),
      [], (List.append_nil _).symm⟩
  · obtain rfl := tracingSynced_eq_some ht
    exact ⟨rfl, rfl, rfl, rfl, rfl, rfl, filterMap_writeOp_taken he hw,
      [], (List.append_nil _).symm⟩

/-- What one step of a run in order can do to the pages. -/
theorem step_cases {B : ℕ} {s t : System} {a : Act} (hok : Successful s a)
    (hs : step B s a = some t) :
    Quiet s t ∨
    (∃ now, .timeout .writer ∈ s.kernel ∧
      backgroundWriter B now (s.taken (.timeout .writer)) = some t) ∨
    (∃ now, .timeout .reader ∈ s.kernel ∧
      backgroundReader B now (s.taken (.timeout .reader)) = some t) ∨
    (∃ now, .timeout .flusher ∈ s.kernel ∧
      backgroundFlusher B now (s.taken (.timeout .flusher)) = some t) ∨
    (∃ op off res now, a = .cqe (.pageWrite op off) res now ∧ .pageWrite op off ∈ s.kernel ∧
      pageWritten now op (s.taken (.pageWrite op off)) = some t) ∨
    (∃ op off now, .pageRead op off ∈ s.kernel ∧
      pageRead now op (s.taken (.pageRead op off)) = some t) ∨
    (∃ res now, a = .cqe .fsync res now ∧ .fsync ∈ s.kernel ∧
      fileSynced now (s.taken .fsync) = some t) := by
  cases a with
  | submit =>
      obtain ⟨-, rfl⟩ := step_submit hs
      refine .inl ⟨rfl, rfl, rfl, rfl, rfl, rfl, ?_, [], (List.append_nil _).symm⟩
      simp [System.outstanding]
  | tickEnd =>
      obtain ⟨-, rfl⟩ := step_tickEnd hs
      exact .inl ⟨rfl, rfl, rfl, rfl, rfl, rfl, rfl, [], (List.append_nil _).symm⟩
  | cqe e res now =>
      obtain ⟨-, he, ht⟩ := step_cqe hok hs
      cases e with
      | pageWrite op off => exact .inr (.inr (.inr (.inr (.inl ⟨op, off, res, now, rfl, he, ht⟩))))
      | pageRead op off => exact .inr (.inr (.inr (.inr (.inr (.inl ⟨op, off, now, he, ht⟩)))))
      | fsync => exact .inr (.inr (.inr (.inr (.inr (.inr ⟨res, now, rfl, he, ht⟩)))))
      | dumpWrite len off => exact .inl (dump_quiet he (.inr ⟨len, off, rfl⟩) ht)
      | dumpFsync => exact .inl (dump_quiet he (.inl rfl) ht)
      | timeout job =>
          cases job with
          | writer => exact .inr (.inl ⟨now, he, ht⟩)
          | reader => exact .inr (.inr (.inl ⟨now, he, ht⟩))
          | flusher => exact .inr (.inr (.inr (.inl ⟨now, he, ht⟩)))
          | tracing => exact .inl (backgroundTracing_quiet he ht)
          | status => exact .inl (backgroundStatus_quiet he ht)

section
variable {B F C : ℕ} {now : Timespec} {s t : System}

theorem Pipeline.quiet (h : Pipeline F C s) (hq : Quiet s t) : Pipeline F C t := by
  refine h.of_eq hq.inFlight (by rw [hq.flusherJob]) hq.heap hq.brk hq.check hq.writerJob
    (by rw [hq.flusherJob]) ?_
  obtain ⟨items, hlog⟩ := hq.log
  refine ⟨_, hlog, ?_, ?_, ?_⟩ <;> rw [List.filterMap_map, List.filterMap_eq_nil_iff] <;>
    exact fun _ _ => rfl

theorem filterMap_writeOp_resent (B pageId : ℕ) (job : Job) :
    (resent B pageId job).filterMap Sqe.writeOp? = [] := by
  unfold resent
  split_ifs <;> rfl

theorem Pipeline.backgroundReader (h : Pipeline F C s)
    (ht : backgroundReader B now s = some t) : Pipeline F C t := by
  obtain ⟨-, rfl⟩ := backgroundReader_eq_some ht
  refine h.of_append _ _ rfl (List.append_assoc _ _ _) ?_ rfl rfl rfl rfl rfl rfl rfl ?_ ?_ ?_
  · rw [List.filterMap_append, filterMap_writeOp_resent, List.append_nil, List.filterMap_map,
      List.filterMap_eq_nil_iff]
    exact fun _ _ => rfl
  all_goals
    rw [List.filterMap_map, List.filterMap_eq_nil_iff]
    exact fun _ _ => rfl

theorem Pipeline.backgroundFlusher (h : Pipeline F C s)
    (ht : backgroundFlusher B now s = some t) : Pipeline F C t := by
  obtain ⟨u, hu, rfl⟩ := backgroundFlusher_eq_some ht
  have hpu : Pipeline F C u := by
    rcases submitFsync_eq_some hu with ⟨-, rfl⟩ | ⟨-, rfl⟩
    · exact h.of_append [.fsync] [.fsyncSubmitted] rfl rfl rfl rfl rfl rfl rfl rfl rfl rfl rfl
        rfl rfl
    · exact h
  exact hpu.of_append _ [] rfl rfl (filterMap_writeOp_resent _ _ _) rfl rfl rfl rfl rfl rfl
    (List.append_nil _).symm rfl rfl rfl

theorem Pipeline.pageRead {op : OpPageRead} (h : Pipeline F C s)
    (ht : pageRead now op s = some t) : Pipeline F C t := by
  obtain rfl := Option.some.inj ht
  exact h.of_append [] [.pageRead op.pageId] rfl (List.append_nil _).symm rfl rfl rfl rfl rfl rfl
    rfl rfl rfl rfl rfl

theorem Pipeline.step {a : Act} (h : Pipeline F C s) (hok : Successful s a)
    (horder : WritesInOrder s a) (hs : step B s a = some t) : ∃ F' C', Pipeline F' C' t := by
  rcases step_cases hok hs with hq | ⟨now, he, ht⟩ | ⟨now, he, ht⟩ | ⟨now, he, ht⟩ |
    ⟨op, off, res, now, rfl, he, ht⟩ | ⟨op, off, now, he, ht⟩ | ⟨res, now, rfl, he, ht⟩
  · exact ⟨F, C, h.quiet hq⟩
  · exact ⟨F, C, (h.taken he rfl).backgroundWriter ht⟩
  · exact ⟨F, C, (h.taken he rfl).backgroundReader ht⟩
  · exact ⟨F, C, (h.taken he rfl).backgroundFlusher ht⟩
  · exact ⟨F, C + 1, h.pageWritten he horder ht⟩
  · exact ⟨F, C, (h.taken he rfl).pageRead ht⟩
  · exact ⟨C, C, ((h.taken he rfl).fileSynced ht).1⟩

end

theorem ReachInOrder.reach {B : ℕ} {t₀ t₁ : Timespec} {s : System}
    (h : ReachInOrder B t₀ t₁ s) : Reach B t₀ t₁ s := h.mono fun _ _ hc => hc.1

theorem ReachInOrder.pipeline {B : ℕ} {t₀ t₁ : Timespec} {s : System}
    (h : ReachInOrder B t₀ t₁ s) : ∃ F C, Pipeline F C s := by
  refine Reachable.invariant (I := fun s => ∃ F C, Pipeline F C s) h
    ⟨0, 0, pipeline_mainStart t₀ t₁⟩ ?_
  rintro s a t ⟨F, C, hi⟩ hc hs
  exact hi.step hc.1 hc.2 hs

end IoScheduler
