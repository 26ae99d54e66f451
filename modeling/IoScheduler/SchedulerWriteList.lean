import IoScheduler.SchedulerReads
import IoScheduler.SchedulerOwners

/-!
# The list of completed writes

`page_written` asserts that pages complete in the order of their ids, so with the
configured target every run that completes without failing completes its writes
in submission order. The write list is then the chain of the blocks between the
last page released and the last page written, and `file_synced` alone takes
blocks from it, each once.
-/
namespace IoScheduler
open Machine Transition History

/-- A chain of live blocks along `next`, ending in `NULL`. -/
inductive WriteChain (heap : ℕ → Option OpPageWrite) : Option ℕ → List ℕ → Prop
  | nil : WriteChain heap none []
  | cons {op : ℕ} {o : OpPageWrite} {ops : List ℕ} : heap op = some o →
      WriteChain heap o.next ops → WriteChain heap (some op) (op :: ops)

/-- A block is released by `file_synced`, in a round of its loop, after its
`page_written`. -/
def ReleasedByFlush (past : List Event) (e : Event) : Prop :=
  ∀ op pageId callback, e = .released op pageId callback →
    .pageWritten op pageId ∈ past ∧
      ∃ before after, past = before ++ .fileSynced :: after ∧
        ∀ x ∈ after, x.released?.isSome = true

theorem writeChain_range {heap : ℕ → Option OpPageWrite} {F C : ℕ} (hle : F ≤ C)
    (hlive : ∀ p, F ≤ p → p < C →
      ∃ issued, heap p = some ⟨u32 p, none, nextBelow C p, issued⟩) :
    WriteChain heap (listBetween F C).tail (List.range' F (C - F)) := by
  induction h : C - F generalizing F with
  | zero =>
      rw [listBetween_tail, if_neg (by omega)]
      exact .nil
  | succ n ih =>
      obtain ⟨issued, hF⟩ := hlive F le_rfl (by omega)
      rw [listBetween_tail, if_pos (by omega), List.range'_succ]
      refine .cons hF ?_
      rw [nextBelow_eq]
      exact ih (by omega) (fun p hp hp' => hlive p (by omega) hp') (by omega)

theorem listBetween_head (F C : ℕ) :
    (listBetween F C).head = (List.range' F (C - F)).getLast? := by
  unfold listBetween
  split_ifs with h
  · obtain ⟨n, hn⟩ : ∃ n, C - F = n + 1 := ⟨C - F - 1, by omega⟩
    rw [hn, List.range'_concat, List.getLast?_concat]
    simp only [Option.some.injEq]
    omega
  · rw [show C - F = 0 by omega]
    rfl

theorem map_fst_pagesBelow (n : ℕ) : (pagesBelow n).map Prod.fst = List.range n := by
  simp [pagesBelow, Function.comp_def]

section
variable {B F C : ℕ} {s t : System}

/-- The assertion on the page ids lets only the oldest write in flight through. -/
theorem Pipeline.inOrder {a : Act} (h : Pipeline F C s) (hbrk : s.brk < 2 ^ 32)
    (hok : Successful s a) (hs : IoScheduler.step B s a = some t) : WritesInOrder s a := by
  cases a with
  | submit => exact trivial
  | tickEnd => exact trivial
  | cqe e res now =>
      cases e with
      | pageWrite op off =>
          obtain ⟨-, he, ht⟩ := step_cqe hok hs
          obtain ⟨o, heap, writeList, stats, ho, hpage, -, -⟩ := pageWritten_eq_some ht
          have hmem : op ∈ s.kernel.filterMap Sqe.writeOp? :=
            List.mem_filterMap.mpr ⟨_, he, rfl⟩
          have hflight := h.inFlight
          rw [System.outstanding, List.filterMap_append] at hflight
          have hrange : op ∈ List.range' C (s.brk - C) :=
            hflight ▸ List.mem_append_left _ hmem
          obtain ⟨hC, hlt⟩ := List.mem_range'_1.mp hrange
          obtain ⟨issued, hlive⟩ := h.live op (h.released_le.trans hC) (by omega)
          obtain rfl := Option.some.inj ((show s.heap op = some o from ho).symm.trans hlive)
          have hop : op = C := by
            have hcheck : u32 op = u32 C := hpage.trans h.check
            rwa [u32_of_lt (by omega), u32_of_lt (by omega)] at hcheck
          change (s.kernel.filterMap Sqe.writeOp?).head? = some op
          cases hk : s.kernel.filterMap Sqe.writeOp? with
          | nil => rw [hk] at hmem; cases hmem
          | cons x l =>
              obtain ⟨n, hn⟩ : ∃ n, s.brk - C = n + 1 := ⟨s.brk - C - 1, by omega⟩
              rw [hk, hn, List.range'_succ, List.cons_append, List.cons.injEq] at hflight
              rw [List.head?_cons, hflight.1, hop]
      | _ => exact trivial

/-- What a step releases is justified by the log before it. -/
theorem justified_released_step {a : Act} (h : Pipeline F C s) (hok : Successful s a)
    (hj : Justified ReleasedByFlush s.log) (hs : step B s a = some t) :
    Justified ReleasedByFlush t.log := by
  have hfree : ∀ new, t.log = s.log ++ new → (∀ x ∈ new, x.released? = none) →
      Justified ReleasedByFlush t.log := by
    intro new hlog hnew
    rw [hlog]
    refine hj.append_free fun past x hx op pageId callback he => ?_
    have := hnew x hx
    rw [he] at this
    cases this
  cases a with
  | submit =>
      obtain ⟨-, rfl⟩ := step_submit hs
      exact hj
  | tickEnd =>
      obtain ⟨-, rfl⟩ := step_tickEnd hs
      exact hj
  | cqe e res now =>
      obtain ⟨-, he, ht⟩ := step_cqe hok hs
      by_cases hfsync : e = .fsync
      · subst hfsync
        rw [((h.taken he rfl).fileSynced ht).2]
        refine justified_append.mpr ⟨hj, fun mid x hx op pageId callback hxe => ?_⟩
        subst hxe
        cases mid with
        | nil => simp at hx
        | cons y rest =>
            rw [List.cons_append, List.cons_prefix_cons] at hx
            obtain ⟨rfl, hx⟩ := hx
            have hmem : ∀ z ∈ rest ++ [.released op pageId callback],
                ∃ p ∈ List.range' F (C - F), .released p (u32 p) none = z :=
              fun z hz => List.mem_map.mp (hx.subset hz)
            obtain ⟨p, hp, hpe⟩ := hmem (.released op pageId callback) (by simp)
            cases hpe
            refine ⟨List.mem_append_left _ (h.written_mem ?_), s.log, rest, rfl, fun z hz => ?_⟩
            · have := List.mem_range'_1.mp hp
              omega
            · obtain ⟨q, -, rfl⟩ := hmem z (List.mem_append_left _ hz)
              rfl
      · obtain ⟨new, events, happ⟩ := callback_appends ht
        refine hfree events happ.log fun x hx => ?_
        have hrec := happ.recorded x hx
        cases x <;> simp_all [Event.recordedBy, Event.released?]

end

/-- With the configured target the assertion of `page_written` orders every run. -/
theorem Reach.inOrder {t₀ t₁ : Timespec} {s : System} (h : Reach bytesToWrite t₀ t₁ s) :
    ReachInOrder bytesToWrite t₀ t₁ s := by
  obtain ⟨as, h⟩ := h
  induction h with
  | nil => exact .start
  | snoc hr hok hs ih =>
      obtain ⟨F, C, R, hu⟩ := ReachInOrder.unwrapped (by decide) (by decide) ih
      exact Reachable.next ih
        ⟨hok, hu.pipeline.inOrder (hu.brk_lt_pow (by decide)) hok hs⟩ hs

theorem Reach.justified_released {t₀ t₁ : Timespec} {s : System}
    (h : Reach bytesToWrite t₀ t₁ s) : Justified ReleasedByFlush s.log := by
  refine Reachable.invariant_reachable (I := fun s => Justified ReleasedByFlush s.log) h ?_ ?_
  · rw [mainStart_eq]
    exact Justified.nil
  · intro s a t hr hj hok hs
    obtain ⟨F, C, hp⟩ := (Reach.inOrder hr).pipeline
    exact justified_released_step hp hok hj hs

/-- The write list in every reachable state: the chain of the writes completed and
not yet released, in the order of their completion; and each block is freed once,
by `file_synced`, after its `page_written`, out of flight and out of the list. -/
theorem write_list_exact {t₀ t₁ : Timespec} {s : System} (h : Reach bytesToWrite t₀ t₁ s) :
    ∃ ops, WriteChain s.heap s.flusherJob.writeList.tail ops ∧ ops.Nodup ∧
      s.flusherJob.writeList.head = ops.getLast? ∧
      (s.log.filterMap Event.pageWritten?).map Prod.fst =
        (s.log.filterMap Event.released?).map Prod.fst ++ ops ∧
      s.writerJob.writtenNoFlush = ops.length ∧
      ((s.log.filterMap Event.released?).map Prod.fst).Nodup ∧
      (∀ op ∈ (s.log.filterMap Event.released?).map Prod.fst,
        op ∉ s.outstanding.filterMap Sqe.writeOp? ∧ op ∉ ops) ∧
      (∀ op, (op ∈ s.outstanding.filterMap Sqe.writeOp? ∨ op ∈ ops) →
        (s.heap op).isSome = true) ∧
      Justified ReleasedByFlush s.log := by
  obtain ⟨F, C, R, hu⟩ := ReachInOrder.unwrapped (by decide) (by decide) h.inOrder
  have hp := hu.pipeline
  have hle := hp.released_le
  have hC := hp.written_le
  have hbrk := hu.brk_lt_pow (by decide)
  rw [hp.list, hp.written, hp.released, hp.noFlush, hp.inFlight, map_fst_pagesBelow,
    map_fst_pagesBelow]
  refine ⟨List.range' F (C - F), writeChain_range hle fun p hp₁ hp₂ => hp.live p hp₁ (by omega),
    List.nodup_range', listBetween_head F C, ?_, ?_, List.nodup_range, ?_, ?_,
    h.justified_released⟩
  · have happend : List.range' 0 F ++ List.range' (0 + F) (C - F) = List.range' 0 (F + (C - F)) :=
      List.range'_append_1
    rw [List.range_eq_range', List.range_eq_range', ← Nat.add_sub_cancel' hle, ← happend,
      Nat.zero_add, Nat.add_sub_cancel' hle]
  · rw [List.length_range', u32_of_lt (by omega)]
  · intro op hop
    simp only [List.mem_range, List.mem_range'_1] at hop ⊢
    omega
  · intro op hop
    simp only [List.mem_range'_1] at hop
    obtain ⟨issued, hlive⟩ := hp.live op (by omega) (by omega)
    rw [hlive]
    rfl

/-- Three writes completed, the first of them released by an fsync. -/
theorem write_list_exact_two_linked :
    ∃ s ops, Reach bytesToWrite ⟨0, 0⟩ ⟨0, 0⟩ s ∧
      WriteChain s.heap s.flusherJob.writeList.tail ops ∧ ops.length = 2 ∧
      s.writerJob.writtenNoFlush = 2 := by
  obtain ⟨s, hs, hp⟩ : ∃ s, Reach bytesToWrite ⟨0, 0⟩ ⟨0, 0⟩ s ∧
      decide (s.writerJob.writtenNoFlush = 2) = true :=
    exists_of_execute
      [.submit, .cqe (.timeout .writer) (-62) ⟨0, 0⟩, .tickEnd, .submit,
        .cqe (.pageWrite 0 0) 65536 ⟨0, 0⟩, .cqe (.timeout .writer) (-62) ⟨0, 0⟩,
        .cqe (.timeout .flusher) (-62) ⟨0, 0⟩, .tickEnd, .submit, .cqe .fsync 0 ⟨0, 0⟩,
        .cqe (.pageWrite 1 65536) 65536 ⟨0, 0⟩, .cqe (.pageWrite 2 131072) 65536 ⟨0, 0⟩] _
      (by decide +kernel)
  obtain ⟨ops, hchain, -, -, -, hlen, -⟩ := write_list_exact hs
  have hflush : s.writerJob.writtenNoFlush = 2 := of_decide_eq_true hp
  exact ⟨s, ops, hs, hchain, hlen ▸ hflush, hflush⟩

end IoScheduler
