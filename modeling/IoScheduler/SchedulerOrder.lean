import IoScheduler.SchedulerWriteList
import IoScheduler.SchedulerLastDump

/-!
# The order of the write completions

Nothing in a submission makes the kernel complete the page writes in the order
in which they were submitted, but `page_written` asserts that it did. The
assertion holds for exactly one write in flight, the oldest, and as long as it
holds the page id of the flusher is the end of a prefix of written pages.
-/
namespace IoScheduler
open Machine Transition History

/-- The completion of a page write passes the assertions of `page_written`. -/
def PassesAssertions (s : System) (op off : ℕ) : Prop :=
  ∀ now, (pageWritten now op (s.taken (.pageWrite op off))).isSome = true

variable {F C op off : ℕ} {s : System} {t₀ t₁ : Timespec}

theorem Pipeline.mem_inFlight (h : Pipeline F C s) (he : .pageWrite op off ∈ s.outstanding) :
    C ≤ op ∧ op < s.brk := by
  have hmem : op ∈ s.outstanding.filterMap Sqe.writeOp? := List.mem_filterMap.mpr ⟨_, he, rfl⟩
  rw [h.inFlight, List.mem_range'_1] at hmem
  have hle := h.written_le
  omega

/-- The oldest write the kernel holds is the first block not yet written. -/
theorem Pipeline.oldest_iff (h : Pipeline F C s) (he : .pageWrite op off ∈ s.kernel) :
    (s.kernel.filterMap Sqe.writeOp?).head? = some op ↔ op = C := by
  have hmem : op ∈ s.kernel.filterMap Sqe.writeOp? := List.mem_filterMap.mpr ⟨_, he, rfl⟩
  have hflight := h.inFlight
  rw [System.outstanding, List.filterMap_append] at hflight
  cases hk : s.kernel.filterMap Sqe.writeOp? with
  | nil =>
      rw [hk] at hmem
      cases hmem
  | cons x l =>
      obtain ⟨hC, hlt⟩ := h.mem_inFlight (List.mem_append_left _ he)
      obtain ⟨n, hn⟩ : ∃ n, s.brk - C = n + 1 := ⟨s.brk - C - 1, by omega⟩
      rw [hk, hn, List.range'_succ, List.cons_append, List.cons.injEq] at hflight
      rw [List.head?_cons, Option.some.injEq, hflight.1]
      exact eq_comm

theorem Pipeline.passes_iff (h : Pipeline F C s) (hbrk : s.brk < 2 ^ 32)
    (he : .pageWrite op off ∈ s.kernel) : PassesAssertions s op off ↔ op = C := by
  obtain ⟨hC, hlt⟩ := h.mem_inFlight (List.mem_append_left _ he)
  constructor
  · intro hpass
    obtain ⟨t, ht⟩ := Option.isSome_iff_exists.mp (hpass ⟨0, 0⟩)
    obtain ⟨o, heap, writeList, stats, ho, hpage, -, -⟩ := pageWritten_eq_some ht
    obtain ⟨issued, hlive⟩ := h.live op (h.released_le.trans hC) hlt
    obtain rfl := Option.some.inj ((show s.heap op = some o from ho).symm.trans hlive)
    have hcheck : u32 op = u32 C := hpage.trans h.check
    rwa [u32_of_lt (by omega), u32_of_lt (by omega)] at hcheck
  · rintro rfl now
    obtain ⟨t, ht⟩ := pageWritten_isSome now h hlt (.pageWrite op off)
    rw [ht]
    rfl

/-- In every run the writes in flight that pass the assertion of `page_written`
are the ones that complete in submission order; and every page below the page id
of the flusher has been written, no write of it is in flight, and it is read only
after that. -/
theorem completion_order_iff (h : Reach bytesToWrite t₀ t₁ s) :
    (∀ op off res now, .pageWrite op off ∈ s.kernel →
      (PassesAssertions s op off ↔ WritesInOrder s (.cqe (.pageWrite op off) res now))) ∧
    (∀ p < s.flusherJob.pageId, (∃ op, .pageWritten op p ∈ s.log) ∧
      ∀ op off o, .pageWrite op off ∈ s.outstanding → s.heap op = some o → o.pageId ≠ p) ∧
    Justified ReadAfterWrite s.log := by
  obtain ⟨F, C, R, hu⟩ := ReachInOrder.unwrapped (by decide) (by decide) h.inOrder
  have hp := hu.pipeline
  have hle := hp.released_le
  have hC := hp.written_le
  have hbrk := hu.brk_lt_pow (by decide)
  refine ⟨fun op off res now he => ?_, fun p hlt => ?_, hu.justified⟩
  · exact (hp.passes_iff hbrk he).trans (hp.oldest_iff he).symm
  · have hF : p < F := by rwa [hp.flusherPage, u32_of_lt (by omega)] at hlt
    refine ⟨⟨p, ?_⟩, fun op off o he ho => ?_⟩
    · have hmem := hp.written_mem (hF.trans_le hle)
      rwa [u32_of_lt (by omega)] at hmem
    · obtain ⟨hop, hlt⟩ := hp.mem_inFlight he
      obtain ⟨issued, hlive⟩ := hp.live op (hle.trans hop) hlt
      obtain rfl := Option.some.inj (ho.symm.trans hlive)
      simp only [u32_of_lt (show op < 2 ^ 32 by omega)]
      omega

/-- Three writes, the second of which may complete and the third may not. -/
theorem completion_order_iff_three_writes :
    ∃ s, Reach bytesToWrite ⟨0, 0⟩ ⟨0, 0⟩ s ∧ PassesAssertions s 1 65536 ∧
      ¬ PassesAssertions s 2 131072 := by
  obtain ⟨s, hs, hp⟩ : ∃ s, Reach bytesToWrite ⟨0, 0⟩ ⟨0, 0⟩ s ∧
      decide (s.kernel.filterMap Sqe.writeOp? = [1, 2] ∧ .pageWrite 1 65536 ∈ s.kernel ∧
        .pageWrite 2 131072 ∈ s.kernel) = true :=
    exists_of_execute
      [.submit, .cqe (.timeout .writer) (-62) ⟨0, 0⟩, .tickEnd, .submit,
        .cqe (.pageWrite 0 0) 65536 ⟨0, 0⟩, .cqe (.timeout .writer) (-62) ⟨0, 0⟩, .tickEnd,
        .submit] _ (by decide +kernel)
  obtain ⟨hops, h₁, h₂⟩ := of_decide_eq_true hp
  obtain ⟨hiff, -, -⟩ := completion_order_iff hs
  refine ⟨s, hs, (hiff 1 65536 0 ⟨0, 0⟩ h₁).mpr ?_, fun hpass => ?_⟩
  · change (s.kernel.filterMap Sqe.writeOp?).head? = some 1
    rw [hops]
    rfl
  · have horder := (hiff 2 131072 0 ⟨0, 0⟩ h₂).mp hpass
    change (s.kernel.filterMap Sqe.writeOp?).head? = some 2 at horder
    rw [hops] at horder
    cases horder

/-- The kernel may complete page 2 before page 1, and then the assertion fails. -/
theorem completed_out_of_order :
    ∃ s, Reach bytesToWrite ⟨0, 0⟩ ⟨0, 0⟩ s ∧ s.phase = .reap ∧
      .pageWrite 2 131072 ∈ s.kernel ∧ (s.heap 2).map OpPageWrite.pageId = some 2 ∧
      s.pageIdCheckOrder = 1 ∧
      (step bytesToWrite s (.cqe (.pageWrite 2 131072) 65536 ⟨0, 0⟩)).isNone = true := by
  obtain ⟨s, hs, hp⟩ : ∃ s, Reach bytesToWrite ⟨0, 0⟩ ⟨0, 0⟩ s ∧
      decide (s.phase = .reap ∧ .pageWrite 2 131072 ∈ s.kernel ∧
        (s.heap 2).map OpPageWrite.pageId = some 2 ∧ s.pageIdCheckOrder = 1 ∧
        (step bytesToWrite s (.cqe (.pageWrite 2 131072) 65536 ⟨0, 0⟩)).isNone = true) = true :=
    exists_of_execute
      [.submit, .cqe (.timeout .writer) (-62) ⟨0, 0⟩, .tickEnd, .submit,
        .cqe (.pageWrite 0 0) 65536 ⟨0, 0⟩, .cqe (.timeout .writer) (-62) ⟨0, 0⟩, .tickEnd,
        .submit] _ (by decide +kernel)
  exact ⟨s, hs, of_decide_eq_true hp⟩

end IoScheduler
