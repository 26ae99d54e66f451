import IoScheduler.BtreeLevels
import IoScheduler.BtreeTall

/-!
# The depth of the tree

The descent writes every page it visits to `breadcrumbs[16]` and never compares
how many there are with 16. The root's level is the number of times the root has
split, and a descent goes down one level a page, so there is room for the pages
as long as the root has split at most 15 times. A run of ascending keys of 984
bytes splits the root 16 times within the pages that a machine can hold.
-/
namespace IoScheduler
open Machine Bytes SearchTree Transition

variable {t t' : Btree} {k : ℕ} {key : List UInt8} {path : List ℕ} {level : ℕ → ℕ}
  {memory : ℕ → Node}

/-- A call, and how often the root has been replaced. -/
def countedStep (s : Btree × ℕ) (a : List UInt8 × List UInt8) : Option (Btree × ℕ) :=
  (insertStep s.1 a).map fun t => (t, if t.root = s.1.root then s.2 else s.2 + 1)

theorem Leveled.visits (h : Leveled t level) (hv : t.Visits key path) :
    ∃ p above, path = p :: above ∧ 0 < p ∧ p < t.brk ∧ level p + above.length = level t.root := by
  induction hv with
  | root => exact ⟨t.root, [], rfl, h.root.1, h.root.2, rfl⟩
  | child hv hleaf hs hchild ih =>
      obtain ⟨p, above, heq, hpos, hlt, hlevel⟩ := ih
      obtain ⟨rfl, rfl⟩ := List.cons.inj heq
      obtain ⟨hqpos, hqlt, hdown⟩ := (h.page _ hpos hlt).childAt hleaf hchild
      refine ⟨_, _, rfl, hqpos, hqlt, ?_⟩
      rw [List.length_cons]
      omega

/-- The root is as many levels up as it has been replaced. -/
theorem leveled_of_counted
    (h : Reachable countedStep (fun _ a => SizesFit a) (btreeInit memory, 0) (t, k))
    (hu : Undisturbed t) : ∃ level, Leveled t level ∧ level t.root = k := by
  have hinv : Undisturbed (t, k).1 →
      ∃ level, Leveled (t, k).1 level ∧ level (t, k).1.root = (t, k).2 := by
    apply Reachable.invariant (I := fun s : Btree × ℕ => Undisturbed s.1 →
      ∃ level, Leveled s.1 level ∧ level s.1.root = s.2) h
    · intro _
      exact ⟨_, btreeInit_leveled, rfl⟩
    · intro s a s' ih _ hs hu'
      obtain ⟨t', hstep, rfl⟩ := Option.map_eq_some_iff.mp hs
      obtain ⟨level, hl, hroot⟩ := ih ((insertStep_follows hstep).undisturbed hu')
      obtain ⟨level', hl', hcase⟩ := insertStep_levels hstep hl hu'
      refine ⟨level', hl', ?_⟩
      dsimp only
      rcases hcase with ⟨hsame, hlevel⟩ | ⟨hne, hlevel⟩
      · rw [if_pos hsame, hlevel, hroot]
      · rw [if_neg hne, hlevel, hroot]
  exact hinv hu

theorem visits_fit_breadcrumbs
    (h : Reachable countedStep (fun _ a => SizesFit a) (btreeInit memory, 0) (t, k))
    (hu : Undisturbed t) (hk : k ≤ 15) (hv : t.Visits key path) : path.length ≤ 16 := by
  obtain ⟨level, hl, hroot⟩ := leveled_of_counted h hu
  obtain ⟨p, above, rfl, -, -, hlevel⟩ := hl.visits hv
  rw [List.length_cons]
  omega

/-- After seven inserts the root has split once, and a new key is looked for in
two pages. -/
theorem visits_fit_breadcrumbs_seven : ∃ (t : Btree) (path : List ℕ),
    t.Visits [9] path ∧ path = [4, 3] ∧ path.length ≤ 16 := by
  obtain ⟨⟨t, k⟩, hr, hp⟩ := exists_of_execute
    ([1, 2, 3, 4, 5, 6, 7].map fun k => ([k], List.replicate 983 k))
    (fun s : Btree × ℕ => decide (s.1.root = 3 ∧ s.2 = 1 ∧ Undisturbed s.1 ∧
      (s.1.node 3).leaf = false ∧ nodeBinSearch (s.1.node 3) [9] = .ok (false, 2) ∧
        childAt (s.1.node 3) 2 = .ok 4))
    (by decide +kernel : ((execute countedStep (fun _ a => SizesFit a)
      (btreeInit fun _ => zeroPage, 0) _).any _) = true)
  obtain ⟨hroot, hk, hu, hleaf, hs, hchild⟩ := of_decide_eq_true hp
  dsimp only at hroot hk
  subst hk
  have hv : t.Visits [9] [4, 3] := by
    apply Btree.Visits.child _ hleaf hs hchild
    rw [← hroot]
    exact .root
  exact ⟨t, [4, 3], hv, rfl, visits_fit_breadcrumbs hr hu (by decide) hv⟩

/-! ## Deeper than the breadcrumbs -/

/-- The big-endian bytes of a number, filled up to 984 bytes. -/
def tallKey (i : ℕ) : List UInt8 :=
  .ofNat (i / 2 ^ 24) :: .ofNat (i / 2 ^ 16) :: .ofNat (i / 2 ^ 8) :: .ofNat i ::
    List.replicate 980 0

def tallValue : List UInt8 := List.replicate 1000 0

theorem length_tallKey {i : ℕ} : (tallKey i).length = 984 := by
  simp only [tallKey, List.length_cons, List.length_replicate]

theorem tallKey_lt {i : ℕ} (h : i + 1 < 2 ^ 32) : (⟨tallKey i⟩ : Key) < ⟨tallKey (i + 1)⟩ := by
  rw [Key.lt_iff, tallKey, tallKey]
  simp only [rank_cons_lt, UInt8.lt_iff_toNat_lt, ← UInt8.toNat_inj, UInt8.toNat_ofNat',
    lt_self_iff_false, and_false, or_false]
  omega

theorem Climb.visits {bottom : ℕ} {up : List (ℕ × List Key)} (h : Climb t bottom up t.root)
    (hkey : key.length < 2 ^ 31) (hlt : ∀ b ∈ up, ∀ x ∈ b.2, x < ⟨key⟩) :
    t.Visits key (bottom :: up.map Prod.fst) := by
  induction up generalizing bottom with
  | nil =>
      rw [show bottom = t.root from h]
      exact .root
  | cons b up ih =>
      obtain ⟨pid, ks⟩ := b
      obtain ⟨hb, hup⟩ := h
      obtain ⟨hs, hchild⟩ := hb.step hkey (hlt _ List.mem_cons_self)
      exact .child (ih hup fun b hb => hlt b (List.mem_cons_of_mem _ hb)) hb.leaf hs hchild

/-- The run of ascending inserts goes on until the tree is 16 levels high. -/
theorem exists_tall (n : ℕ) (hn : n + 2 < 2 ^ 32) : ∃ as t x l up,
    Run insertStep (fun _ a => SizesFit a) (btreeInit fun _ => zeroPage) as t ∧
      as.length ≤ n + 2 ∧ 2 ≤ as.length ∧ Tall t x ⟨tallKey (as.length - 1)⟩ l up ∧
      t.brk ≤ 2 + 17 * as.length ∧
      (as.length = n + 2 ∧ weight (up.map Prod.snd) = n ∨ 16 ≤ up.length) := by
  have hfit : ∀ i, SizesFit (tallKey i, tallValue) := fun i => by
    refine ⟨?_, ?_⟩
    · rw [length_tallKey]
      norm_num
    · rw [tallValue, List.length_replicate]
      norm_num
  have hvalue : tallValue.length = 1000 := List.length_replicate
  induction n with
  | zero =>
      have hstart : LastLeaf (btreeInit fun _ => zeroPage) [] 1 [] := by
        have hpage : Fresh ((btreeInit fun _ => zeroPage).node 1) true := nodeInit_fresh
        exact ⟨⟨Nat.one_pos, Nat.lt_succ_self 1⟩, hpage.leaf, hpage.packed, rfl,
          List.nodup_singleton _⟩
      have hless : (⟨tallKey 0⟩ : Key) < ⟨tallKey 1⟩ := tallKey_lt (by norm_num)
      obtain ⟨t₁, hins₁, h₁, hbrk₁⟩ := hstart.insert_root (Nat.zero_le _)
        (length_tallKey : (tallKey 0).length = 984) hvalue fun x hx =>
          absurd hx List.not_mem_nil
      obtain ⟨t₂, hins₂, h₂, hbrk₂⟩ := h₁.insert_root le_rfl
        (length_tallKey : (tallKey 1).length = 984) hvalue fun x hx => by
          obtain rfl := List.mem_singleton.mp hx
          exact hless
      have hbrk : t₂.brk = 2 := hbrk₂.trans hbrk₁
      have hempty : Run insertStep (fun _ a => SizesFit a) (btreeInit fun _ => zeroPage) []
        (btreeInit fun _ => zeroPage) := .nil
      refine ⟨[] ++ [(tallKey 0, tallValue)] ++ [(tallKey 1, tallValue)], t₂, ⟨tallKey 0⟩, 1, [],
        (hempty.snoc (hfit 0) hins₁).snoc (hfit 1) hins₂, le_rfl, le_rfl,
        ⟨h₂, List.pairwise_singleton _ _, hless⟩, ?_, .inl ⟨rfl, rfl⟩⟩
      rw [hbrk]
      exact Nat.le_add_right _ _
  | succ n ih =>
      obtain ⟨as, t, x, l, up, hrun, hle, hge, htall, hbrk, hcase⟩ := ih (by omega)
      rcases Nat.lt_or_ge 15 up.length with hhigh | hup
      · exact ⟨as, t, x, l, up, hrun, by omega, hge, htall, hbrk, .inr hhigh⟩
      · obtain ⟨hlen, hweight⟩ := hcase.resolve_right (by omega)
        have hprev : as.length = as.length - 1 + 1 := by omega
        have hlt : (⟨tallKey (as.length - 1)⟩ : Key) < ⟨tallKey as.length⟩ := by
          conv_rhs => rw [hprev]
          exact tallKey_lt (by omega)
        obtain ⟨t', l', up', hins, htall', hbrk', hweight'⟩ :=
          htall.insert length_tallKey hvalue hlt hup (by omega)
        refine ⟨as ++ [(tallKey as.length, tallValue)], t', ⟨tallKey (as.length - 1)⟩, l', up',
          hrun.snoc (hfit _) hins, ?_, ?_, ?_, ?_, ?_⟩
        · rw [List.length_append, List.length_singleton]
          omega
        · rw [List.length_append, List.length_singleton]
          omega
        · rw [List.length_append, List.length_singleton, Nat.add_sub_cancel]
          exact htall'
        · rw [List.length_append, List.length_singleton]
          omega
        · rw [List.length_append, List.length_singleton]
          exact .inl ⟨by omega, by omega⟩

/-- Fewer than 2 ^ 32 inserts of ascending keys make a descent visit 17 pages. -/
theorem breadcrumbs_overrun : ∃ as t key path, as.length < 2 ^ 32 ∧
    Run insertStep (fun _ a => SizesFit a) (btreeInit fun _ => zeroPage) as t ∧
      t.Visits key path ∧ 16 < path.length := by
  obtain ⟨as, t, x, l, up, hrun, hle, hge, htall, -, hcase⟩ := exists_tall (2 ^ 25) (by norm_num)
  have hclimb := htall.last.climb
  have hhigh : 16 ≤ up.length := by
    rcases hcase with ⟨-, hweight⟩ | hhigh
    · by_contra hlow
      have hcells : ∀ ks ∈ up.map Prod.snd, ks.length ≤ 4 := by
        intro ks hks
        obtain ⟨b, hb, rfl⟩ := List.mem_map.mp hks
        exact hclimb.cells b hb
      have hbound := weight_le hcells
      have hpow : 3 ^ (up.map Prod.snd).length ≤ 3 ^ 15 := by
        apply Nat.pow_le_pow_right (by norm_num)
        rw [List.length_map]
        omega
      rw [hweight] at hbound
      norm_num at hbound hpow
      omega
    · exact hhigh
  have hprev : as.length = as.length - 1 + 1 := by omega
  have hlt : (⟨tallKey (as.length - 1)⟩ : Key) < ⟨tallKey as.length⟩ := by
    conv_rhs => rw [hprev]
    exact tallKey_lt (by omega)
  refine ⟨as, t, tallKey as.length, l :: up.map Prod.fst, by omega, hrun,
    hclimb.visits (by rw [length_tallKey]; norm_num) fun b hb z hz => ?_, ?_⟩
  · refine (htall.keys_lt z ?_).trans hlt
    exact List.mem_flatten.mpr ⟨b.2, List.mem_map_of_mem (List.mem_reverse.mpr hb), hz⟩
  · rw [List.length_cons, List.length_map]
    omega

end IoScheduler
