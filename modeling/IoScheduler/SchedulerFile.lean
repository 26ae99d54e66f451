import IoScheduler.SchedulerRefinement

/-!
# The bytes of the pages

`page_read` compares the first bytes of the read buffer with the write buffer. Here the
file and the one read buffer all reads share stand beside the loop: between submission
and completion the kernel moves some bytes of a write into the file, or of a read into
the buffer, whenever it likes and in any order. `page_written` does not look at the
number of bytes a write reports; the runs below assume that it is at least `m`.
-/
namespace IoScheduler
open Machine Transition

/-- `write_buf`, which nothing changes; `read_buf` begins the same. -/
def writeBuf (i : ℕ) : UInt8 := if i = 0 then 97 else 0

/-- `stored op` is how many bytes of operation `op` are in the file. -/
structure Storage where
  system : System
  file : ℕ → UInt8
  readBuf : ℕ → UInt8
  stored : ℕ → ℕ

inductive StorageAct where
  | loop (a : Act)
  | store (op offset n : ℕ)
  | load (op : OpPageRead) (offset n : ℕ)

namespace Storage

/-- `memcmp(write_buf, op->buf, 8) == 0`. -/
def readCheck (d : Storage) : Bool := (List.range 8).all fun i => d.readBuf i == writeBuf i

/-- The assertion of `page_read` that the loop's own model leaves out. -/
def failsReadCheck (d : Storage) : Act → Bool
  | .cqe (.pageRead _ _) res _ => decide (0 ≤ res) && !d.readCheck
  | _ => false

/-- `n` bytes of the write buffer go to the file. -/
def put (d : Storage) (op offset n : ℕ) : Storage :=
  { d with
    file := fun i => if offset ≤ i ∧ i < offset + n then writeBuf (i - offset) else d.file i
    stored := Function.update d.stored op n }

/-- `n` bytes of the file go to the read buffer. -/
def get (d : Storage) (offset n : ℕ) : Storage :=
  { d with readBuf := fun i => if i < n then d.file (offset + i) else d.readBuf i }

def step (B : ℕ) (d : Storage) : StorageAct → Option Storage
  | .loop a =>
      if d.failsReadCheck a then none
      else (IoScheduler.step B d.system a).map fun system => { d with system }
  | .store op offset n =>
      if .pageWrite op offset ∈ d.system.kernel ∧ n ≤ bufSize then some (d.put op offset n)
      else none
  | .load op offset n =>
      if .pageRead op offset ∈ d.system.kernel ∧ n ≤ bufSize then some (d.get offset n) else none

def start (t₀ t₁ : Timespec) (file : ℕ → UInt8) : Storage :=
  ⟨mainStart t₀ t₁, file, writeBuf, fun _ => 0⟩

/-- Page writes complete in order and report what is in the file, at least `m` bytes. -/
def Stores (m : ℕ) (d : Storage) : StorageAct → Prop
  | .loop (.cqe (.pageWrite op offset) res now) =>
      InOrder d.system (.cqe (.pageWrite op offset) res now) ∧ res = d.stored op ∧ m ≤ d.stored op
  | .loop a => InOrder d.system a
  | _ => True

instance (m : ℕ) (d : Storage) : ∀ a, Decidable (Stores m d a)
  | .store _ _ _ | .load _ _ _ => isTrue trivial
  | .loop (.cqe (.pageWrite _ _) _ _) => inferInstanceAs (Decidable (_ ∧ _ ∧ _))
  | .loop .submit | .loop .tickEnd | .loop (.cqe (.pageRead _ _) _ _)
  | .loop (.cqe .fsync _ _) | .loop (.cqe (.dumpWrite _ _) _ _) | .loop (.cqe .dumpFsync _ _)
  | .loop (.cqe (.timeout _) _ _) => inferInstanceAs (Decidable (InOrder d.system _))

end Storage

section
variable {B m n op offset : ℕ} {now : Timespec} {res : ℤ} {s t : System} {a : Act} {e x : Sqe}

/-! ## Offsets -/

/-- The offset of a page operation is that of its page. -/
def Addressed : Sqe → Prop
  | .pageWrite op offset => offset = bufSize * op
  | .pageRead op offset => offset = bufSize * op.pageId
  | _ => True

theorem offset_of_page (p : ℕ) : u64 (bufSize * u32 p) = bufSize * u32 p := by
  have hlt := u32_lt p
  exact u64_of_lt (by unfold bufSize; omega)

theorem addressed_of_owner (hw : e.owner ≠ .writer) (hr : e.owner ≠ .reader) : Addressed e := by
  cases e with
  | pageWrite op offset => exact absurd rfl hw
  | pageRead op offset => exact absurd rfl hr
  | _ => trivial

theorem addressed_resent {pageId : ℕ} {job : Job} (hx : x ∈ resent B pageId job) :
    Addressed x := by
  unfold resent at hx
  split_ifs at hx
  · obtain rfl := List.mem_singleton.mp hx
    trivial
  · cases hx

theorem Working.addressed_new (h : Working B s) (k : Working B t) (he : e ∈ s.kernel)
    (ht : callback B now res (s.taken e) e = some t) (hx : x ∈ t.sq) : x ∈ s.sq ∨ Addressed x := by
  obtain ⟨new, events, happ⟩ := callback_appends ht
  have hforeign : e.owner ≠ .writer → e.owner ≠ .reader → x ∈ s.sq ∨ Addressed x := fun hw hr => by
    rw [happ.sq] at hx
    refine (List.mem_append.mp hx).imp_right fun hnew => ?_
    have howner := happ.owner x hnew
    exact addressed_of_owner (howner ▸ hw) (howner ▸ hr)
  cases e with
  | pageWrite op off =>
      obtain ⟨o, heap, writeList, stats, -, -, rfl, -⟩ := pageWritten_eq_some ht
      exact .inl hx
  | pageRead op off =>
      obtain rfl := Option.some.inj ht
      exact .inl hx
  | fsync | dumpWrite | dumpFsync => exact hforeign Job.noConfusion Job.noConfusion
  | timeout job =>
      cases job with
      | flusher | tracing | status => exact hforeign Job.noConfusion Job.noConfusion
      | writer =>
          obtain ⟨b, rfl, hlt, -⟩ := h.pages_writer k he ht
          obtain ⟨-, rfl⟩ := backgroundWriter_eq_some ht
          rcases List.mem_append.mp hx with hx | hx
          · refine (List.mem_append.mp hx).imp_right fun hx => ?_
            obtain ⟨i, hi, rfl⟩ := List.mem_map.mp hx
            have hi := List.mem_range.mp hi
            have hpage : u32 (s.writerJob.pageId + i) = s.brk + i := by
              rw [← h.submitted]
              exact u32_of_lt ((Nat.add_lt_add_left hi _).trans hlt)
            exact (offset_of_page _).trans (congrArg (bufSize * ·) hpage)
          · exact .inr (addressed_resent hx)
      | reader =>
          obtain ⟨-, rfl⟩ := backgroundReader_eq_some ht
          rcases List.mem_append.mp hx with hx | hx
          · refine (List.mem_append.mp hx).imp_right fun hx => ?_
            obtain ⟨i, -, rfl⟩ := List.mem_map.mp hx
            exact offset_of_page _
          · exact .inr (addressed_resent hx)

theorem Working.addressed_step (h : Working B s) (k : Working B t) (hok : InOrder s a)
    (hs : IoScheduler.step B s a = some t) (ha : ∀ x ∈ s.outstanding, Addressed x) :
    ∀ x ∈ t.outstanding, Addressed x := by
  cases a with
  | submit =>
      obtain ⟨-, rfl⟩ := step_submit hs
      simpa [System.outstanding] using ha
  | tickEnd =>
      obtain ⟨-, rfl⟩ := step_tickEnd hs
      exact ha
  | cqe e res now =>
      obtain ⟨-, he, ht⟩ := step_cqe hok.1 hs
      obtain ⟨new, events, happ⟩ := callback_appends ht
      intro x hx
      rcases List.mem_append.mp hx with hx | hx
      · rw [happ.kernel] at hx
        exact ha x (List.mem_append_left _ (List.mem_of_mem_erase hx))
      · rcases h.addressed_new k he ht hx with hx | hx
        · exact ha x (List.mem_append_right _ hx)
        · exact hx

/-- Which write completes, if any. -/
theorem Working.check_step (h : Working B s) (hok : InOrder s a)
    (hs : IoScheduler.step B s a = some t) :
    t.pageIdCheckOrder = s.pageIdCheckOrder ∨
    ∃ offset res now, a = .cqe (.pageWrite s.pageIdCheckOrder offset) res now ∧
      t.pageIdCheckOrder = s.pageIdCheckOrder + 1 := by
  rcases step_cases hok.1 hs with hq | ⟨now, he, ht⟩ | ⟨now, he, ht⟩ | ⟨now, he, ht⟩ |
    ⟨op, off, res, now, rfl, he, ht⟩ | ⟨op, off, now, he, ht⟩ | ⟨res, now, rfl, he, ht⟩
  · exact .inl hq.check
  · obtain ⟨-, rfl⟩ := backgroundWriter_eq_some ht
    exact .inl rfl
  · obtain ⟨-, rfl⟩ := backgroundReader_eq_some ht
    exact .inl rfl
  · obtain ⟨u, hu, rfl⟩ := backgroundFlusher_eq_some ht
    rcases submitFsync_eq_some hu with ⟨-, rfl⟩ | ⟨-, rfl⟩
    · exact .inl rfl
    · exact .inl rfl
  · obtain ⟨hop, -, -⟩ := h.unwrapped.pipeline.next_eq he hok.2
    obtain ⟨-, hpages⟩ := h.pages_written he hok.2 ht
    exact .inr ⟨off, res, now, by rw [hop], congrArg Pages.written hpages⟩
  · obtain rfl := Option.some.inj ht
    exact .inl rfl
  · obtain ⟨heap, log, stats, -, rfl⟩ := fileSynced_eq_some ht
    exact .inl rfl

theorem mem_reading {op : OpPageRead} (he : .pageRead op offset ∈ s.outstanding) :
    op.pageId ∈ s.reading :=
  Multiset.mem_coe.mpr (List.mem_filterMap.mpr ⟨_, he, rfl⟩)

end

/-! ## The file -/

namespace Storage

/-- What is stored of a write is in the file at its page, completed writes have `m`
bytes there, and the read buffer holds what it began with. -/
structure Holds (m : ℕ) (d : Storage) : Prop where
  stored_le : ∀ op, d.stored op ≤ bufSize
  stored : ∀ op, ∀ i < d.stored op, d.file (bufSize * op + i) = writeBuf i
  written : ∀ p < d.system.pageIdCheckOrder, m ≤ d.stored p
  readBuf : ∀ i < 8, d.readBuf i = writeBuf i

section
variable {B m n : ℕ} {t₀ t₁ : Timespec} {d d' : Storage} {a : Act}

theorem readCheck_iff : d.readCheck = true ↔ ∀ i < 8, d.readBuf i = writeBuf i := by
  simp [readCheck]

theorem Stores.inOrder (h : Stores m d (.loop a)) : InOrder d.system a := by
  cases a with
  | submit | tickEnd => exact h
  | cqe e res now =>
      cases e with
      | pageWrite => exact h.1
      | _ => exact h

theorem Holds.loop {system : System} (h : Holds m d) (hw : Working B d.system)
    (hok : Stores m d (.loop a)) (hs : IoScheduler.step B d.system a = some system) :
    Holds m { d with system } := by
  refine ⟨h.stored_le, h.stored, fun p hp => ?_, h.readBuf⟩
  rcases hw.check_step hok.inOrder hs with hsame | ⟨offset, res, now, rfl, hnext⟩
  · exact h.written p (hsame ▸ hp)
  · have hp : p < system.pageIdCheckOrder := hp
    rw [hnext] at hp
    rcases Nat.lt_succ_iff_lt_or_eq.mp hp with hlt | rfl
    · exact h.written p hlt
    · exact hok.2.2

/-- Two pages do not overlap. -/
theorem page_of_byte {p q i n : ℕ} (hi : i < bufSize) (hn : n ≤ bufSize)
    (hle : bufSize * q ≤ bufSize * p + i) (hlt : bufSize * p + i < bufSize * q + n) : p = q := by
  unfold bufSize at *
  omega

theorem Holds.put {op offset : ℕ} (h : Holds m d) (hw : Working B d.system)
    (haddr : ∀ x ∈ d.system.outstanding, Addressed x)
    (he : .pageWrite op offset ∈ d.system.kernel) (hn : n ≤ bufSize) :
    Holds m (d.put op offset n) := by
  have hmem : .pageWrite op offset ∈ d.system.outstanding := List.mem_append_left _ he
  obtain rfl : offset = bufSize * op := haddr _ hmem
  have hself : (d.put op (bufSize * op) n).stored op = n := by simp [Storage.put]
  have hother : ∀ p ≠ op, (d.put op (bufSize * op) n).stored p = d.stored p := fun p hp => by
    simp [Storage.put, hp]
  have hnew : d.system.pageIdCheckOrder ≤ op := by
    have hrange : op ∈ d.system.outstanding.filterMap Sqe.writeOp? :=
      List.mem_filterMap.mpr ⟨_, hmem, rfl⟩
    rw [hw.unwrapped.pipeline.inFlight] at hrange
    exact (List.mem_range'_1.mp hrange).1
  refine ⟨fun p => ?_, fun p i hi => ?_, fun p hp => ?_, h.readBuf⟩
  · by_cases hp : p = op
    · rw [hp, hself]
      exact hn
    · rw [hother p hp]
      exact h.stored_le p
  · by_cases hp : p = op
    · rw [hp, hself] at hi
      rw [hp]
      refine (if_pos ⟨Nat.le_add_right _ i, Nat.add_lt_add_left hi _⟩).trans ?_
      rw [Nat.add_sub_cancel_left]
    · rw [hother p hp] at hi
      refine (if_neg fun hin => hp ?_).trans (h.stored p i hi)
      exact page_of_byte (hi.trans_le (h.stored_le p)) hn hin.1 hin.2
  · rw [hother p (Nat.ne_of_lt (Nat.lt_of_lt_of_le hp hnew))]
    exact h.written p hp

theorem Holds.get {op : OpPageRead} {offset : ℕ} (h : Holds m d) (hm : 8 ≤ m)
    (hsound : d.system.flow.Sound) (haddr : ∀ x ∈ d.system.outstanding, Addressed x)
    (he : .pageRead op offset ∈ d.system.kernel) : Holds m (d.get offset n) := by
  have hmem : .pageRead op offset ∈ d.system.outstanding := List.mem_append_left _ he
  obtain rfl : offset = bufSize * op.pageId := haddr _ hmem
  have hwritten : op.pageId < d.system.pageIdCheckOrder :=
    (hsound.reading_lt _ (mem_reading hmem)).trans_le
      (hsound.requested_le.trans (hsound.released_le.trans hsound.synced_le))
  refine ⟨h.stored_le, h.stored, h.written, fun i hi => ?_⟩
  unfold Storage.get
  dsimp only
  split_ifs
  · have hbytes := h.written _ hwritten
    exact h.stored _ i (by omega)
  · exact h.readBuf i hi

/-- What every state reached has. -/
structure Sure (B m : ℕ) (t₀ t₁ : Timespec) (d : Storage) : Prop where
  reached : ReachInOrder B t₀ t₁ d.system
  addressed : ∀ x ∈ d.system.outstanding, Addressed x
  holds : Holds m d

theorem Sure.start (m : ℕ) (file : ℕ → UInt8) : Sure B m t₀ t₁ (start t₀ t₁ file) := by
  refine ⟨.start, fun x hx => ?_, fun _ => Nat.zero_le _, fun _ _ hi => ?_, fun _ hp => ?_,
    fun _ _ => rfl⟩
  · rw [Storage.start, mainStart_eq] at hx
    simp only [System.outstanding, initialised, List.nil_append] at hx
    simp only [List.mem_cons, List.not_mem_nil, or_false] at hx
    rcases hx with rfl | rfl | rfl | rfl | rfl <;> trivial
  · exact absurd hi (Nat.not_lt_zero _)
  · exact absurd hp (Nat.not_lt_zero _)

theorem Sure.step {a : StorageAct} (hpos : 0 < B) (hB : B + entries * bufSize ≤ 2 ^ 48)
    (hm : 8 ≤ m) (h : Sure B m t₀ t₁ d) (hok : Stores m d a) (hs : step B d a = some d') :
    Sure B m t₀ t₁ d' := by
  have hw : Working B d.system := h.reached.working hpos hB
  cases a with
  | loop a =>
      simp only [Storage.step] at hs
      split_ifs at hs
      obtain ⟨system, hstep, rfl⟩ := Option.map_eq_some_iff.mp hs
      have hreach : ReachInOrder B t₀ t₁ system := h.reached.next hok.inOrder hstep
      exact ⟨hreach, hw.addressed_step (hreach.working hpos hB) hok.inOrder hstep h.addressed,
        h.holds.loop hw hok hstep⟩
  | store op offset n =>
      obtain ⟨⟨he, hn⟩, rfl⟩ := Option.ite_some_none_eq_some.mp hs
      exact ⟨h.reached, h.addressed, h.holds.put hw h.addressed he hn⟩
  | load op offset n =>
      obtain ⟨⟨he, -⟩, rfl⟩ := Option.ite_some_none_eq_some.mp hs
      have hsound := (h.reached.flow hpos hB).sound
      exact ⟨h.reached, h.addressed, h.holds.get hm hsound h.addressed he⟩

end

end Storage

/-- If page writes complete in order and with at least `m ≥ 8` bytes in the file, the check
of `page_read` never fails, whatever the file held and however much the reads deliver;
and the first `m` bytes of every page written are those of the write buffer. -/
theorem read_check_passes {B m : ℕ} {t₀ t₁ : Timespec} {file : ℕ → UInt8} {d : Storage}
    (hpos : 0 < B) (hB : B + entries * bufSize ≤ 2 ^ 48) (hm : 8 ≤ m)
    (h : Reachable (Storage.step B) (Storage.Stores m) (Storage.start t₀ t₁ file) d) :
    (∀ a, d.failsReadCheck a = false) ∧
    ∀ p < d.system.pageIdCheckOrder, ∀ i < m, d.file (bufSize * p + i) = writeBuf i := by
  have hsure : Storage.Sure B m t₀ t₁ d :=
    h.invariant (.start m file) fun _ _ _ hi hok hs => hi.step hpos hB hm hok hs
  constructor
  · intro a
    have hcheck := Storage.readCheck_iff.mpr hsure.holds.readBuf
    unfold Storage.failsReadCheck
    split
    · rw [hcheck, Bool.not_true, Bool.and_false]
    · rfl
  · intro p hp i hi
    exact hsure.holds.stored p i (hi.trans_le (hsure.holds.written p hp))

theorem read_check_passes_one_page : ∃ d, Reachable (Storage.step bufSize) (Storage.Stores 8)
    (Storage.start ⟨0, 0⟩ ⟨0, 0⟩ fun _ => 255) d ∧ d.file 0 = 97 ∧
    d.failsReadCheck (.cqe (.pageRead ⟨0, ⟨0, 0⟩⟩ 0) 65536 ⟨0, 0⟩) = false := by
  obtain ⟨d, hd, hp⟩ : ∃ d, Reachable (Storage.step bufSize) (Storage.Stores 8)
      (Storage.start ⟨0, 0⟩ ⟨0, 0⟩ fun _ => 255) d ∧
        decide (d.system.pageIdCheckOrder = 1) = true :=
    exists_of_execute
      ([.loop .submit, .loop (.cqe (.timeout .writer) (-62) ⟨0, 0⟩), .loop .tickEnd,
        .loop .submit, .store 0 0 65536, .loop (.cqe (.pageWrite 0 0) 65536 ⟨0, 0⟩),
        .loop (.cqe (.timeout .flusher) (-62) ⟨0, 0⟩), .loop .tickEnd, .loop .submit,
        .loop (.cqe .fsync 0 ⟨0, 0⟩), .loop (.cqe (.timeout .reader) (-62) ⟨0, 0⟩),
        .loop .tickEnd, .loop .submit, .load ⟨0, ⟨0, 0⟩⟩ 0 65536]) _ (by decide +kernel)
  obtain ⟨hcheck, hfile⟩ := read_check_passes (by decide) (by decide) le_rfl hd
  have hone : d.system.pageIdCheckOrder = 1 := of_decide_eq_true hp
  exact ⟨d, hd, hfile 0 (by omega) 0 (by decide), hcheck _⟩

/-- A write that stored nothing is taken for done, and the read of its page fails. -/
example : ((execute (Storage.step bufSize) (Storage.Stores 0)
    (Storage.start ⟨0, 0⟩ ⟨0, 0⟩ fun _ => 255)
    [.loop .submit, .loop (.cqe (.timeout .writer) (-62) ⟨0, 0⟩), .loop .tickEnd,
      .loop .submit, .loop (.cqe (.pageWrite 0 0) 0 ⟨0, 0⟩),
      .loop (.cqe (.timeout .flusher) (-62) ⟨0, 0⟩), .loop .tickEnd, .loop .submit,
      .loop (.cqe .fsync 0 ⟨0, 0⟩), .loop (.cqe (.timeout .reader) (-62) ⟨0, 0⟩),
      .loop .tickEnd, .loop .submit, .load ⟨0, ⟨0, 0⟩⟩ 0 65536]).any fun d =>
    d.failsReadCheck (.cqe (.pageRead ⟨0, ⟨0, 0⟩⟩ 0) 65536 ⟨0, 0⟩)) = true := by
  decide +kernel

end IoScheduler
