import Mathlib

/-!
# Search trees over pages

A page is a leaf with entries or a branch whose cells pair a separator with the
child left of it, and one more child on the right. A map from names to pages
and a root name a tree once a depth is given. `Ordered` says that the subtree
keeps its keys in a set that the separators above cut out; a focus follows one
key down to a page, and its context is the rest of the tree, into which any
other subtree for the same set of keys can be put. Keys, values and names are
of any type.
-/
namespace IoScheduler.SearchTree

variable {K V P : Type*}

inductive Page (K V P : Type*)
  | leaf (entries : List (K × V))
  | branch (cells : List (K × P)) (last : P)

def kids (last : P) (cells : List (K × P)) : List P := cells.map Prod.snd ++ [last]

def Page.children : Page K V P → List P
  | .leaf _ => []
  | .branch cells last => kids last cells

def Page.entries : Page K V P → List (K × V)
  | .leaf es => es
  | .branch _ _ => []

def Page.seps : Page K V P → List K
  | .leaf _ => []
  | .branch cells _ => cells.map Prod.fst

section
variable (f : P → Page K V P)

/-- The leaf entries of a subtree in order. -/
def entries : ℕ → P → List (K × V)
  | 0, p => (f p).entries
  | d + 1, p => (f p).children.flatMap (entries d)

/-- The pages of a subtree, the upper ones first. -/
def pids : ℕ → P → List P
  | 0, p => [p]
  | d + 1, p => p :: (f p).children.flatMap (pids d)

def separators : ℕ → P → List K
  | 0, _ => []
  | d + 1, p => (f p).seps ++ (f p).children.flatMap (separators d)

end

variable {f g : P → Page K V P} {d e : ℕ} {p q r x last : P} {cells L R : List (K × P)}

theorem mem_pids_self : p ∈ pids f d p := by
  cases d with
  | zero => exact List.mem_singleton_self p
  | succ d => exact List.mem_cons_self

theorem pids_child_subset (h : x ∈ (f p).children) : pids f d x ⊆ pids f (d + 1) p := fun _ hy =>
  List.mem_cons_of_mem p (List.mem_flatMap.mpr ⟨x, h, hy⟩)

theorem flatMap_congr {α β : Type*} {F G : α → List β} {l : List α} (h : ∀ x ∈ l, F x = G x) :
    l.flatMap F = l.flatMap G := by
  rw [List.flatMap, List.flatMap, List.map_congr_left h]

/-- A subtree reads the same in two stores that agree on its pages. -/
theorem pids_congr (h : ∀ x ∈ pids f d p, g x = f x) : pids g d p = pids f d p := by
  induction d generalizing p with
  | zero => rfl
  | succ d ih =>
      have hp : g p = f p := h p mem_pids_self
      rw [pids, pids, hp, flatMap_congr fun x hx => ih fun y hy => h y (pids_child_subset hx hy)]

theorem separators_child_subset (h : x ∈ (f p).children) :
    separators f d x ⊆ separators f (d + 1) p := fun _ hy =>
  List.mem_append_right _ (List.mem_flatMap.mpr ⟨x, h, hy⟩)

theorem entries_congr (h : ∀ x ∈ pids f d p, g x = f x) : entries g d p = entries f d p := by
  induction d generalizing p with
  | zero => rw [entries, entries, h p mem_pids_self]
  | succ d ih =>
      have hp : g p = f p := h p mem_pids_self
      rw [entries, entries, hp,
        flatMap_congr fun x hx => ih fun y hy => h y (pids_child_subset hx hy)]

theorem separators_congr (h : ∀ x ∈ pids f d p, g x = f x) :
    separators g d p = separators f d p := by
  induction d generalizing p with
  | zero => rfl
  | succ d ih =>
      have hp : g p = f p := h p mem_pids_self
      rw [separators, separators, hp,
        flatMap_congr fun x hx => ih fun y hy => h y (pids_child_subset hx hy)]

/-- A bound on the entries and the children of a page bounds the entries of a subtree. -/
theorem length_entries_le {b : ℕ} (hentries : ∀ x ∈ pids f d p, (f x).entries.length ≤ b)
    (hchildren : ∀ x ∈ pids f d p, (f x).children.length ≤ b) :
    (entries f d p).length ≤ b ^ (d + 1) := by
  induction d generalizing p with
  | zero =>
      rw [Nat.zero_add, pow_one]
      exact hentries p mem_pids_self
  | succ d ih =>
      have hbelow : ∀ m ∈ (f p).children.map fun c => (entries f d c).length, m ≤ b ^ (d + 1) := by
        intro m hm
        obtain ⟨c, hc, rfl⟩ := List.mem_map.mp hm
        exact ih (fun x hx => hentries x (pids_child_subset hc hx))
          fun x hx => hchildren x (pids_child_subset hc hx)
      have hsum := List.sum_le_card_nsmul _ _ hbelow
      rw [List.length_map, smul_eq_mul] at hsum
      rw [entries, List.length_flatMap, pow_succ']
      exact hsum.trans (Nat.mul_le_mul_right _ (hchildren p mem_pids_self))

/-! ## Order -/

section
variable [LinearOrder K]

/-- What the cells of a branch say about their children: each takes the part
of the set between the separators next to it. -/
def Cells (Q : P → Set K → Prop) (last : P) : List (K × P) → Set K → Prop
  | [], I => Q last I
  | (k, c) :: cs, I => k ∈ I ∧ Q c (I ∩ Set.Iio k) ∧ Cells Q last cs (I ∩ Set.Ici k)

def Ordered (f : P → Page K V P) : ℕ → P → Set K → Prop
  | 0, p, I => ∃ es, f p = .leaf es ∧ (es.map Prod.fst).Pairwise (· < ·) ∧ ∀ x ∈ es, x.1 ∈ I
  | d + 1, p, I => ∃ cells last, f p = .branch cells last ∧
      (cells.map Prod.fst).Pairwise (· < ·) ∧ Cells (Ordered f d) last cells I

variable {Q Q' : P → Set K → Prop} {I J : Set K} {key sep : K} {value : V}

theorem Cells.mono (h : Cells Q last cells I) (hQ : ∀ x ∈ kids last cells, ∀ J, Q x J → Q' x J) :
    Cells Q' last cells I := by
  induction cells generalizing I with
  | nil => exact hQ last (List.mem_singleton_self last) I h
  | cons c cs ih =>
      refine ⟨h.1, hQ c.2 List.mem_cons_self _ h.2.1, ih h.2.2 fun x hx => hQ x ?_⟩
      exact List.mem_cons_of_mem _ hx

theorem Cells.mem {c : P} (h : Cells Q last cells I) (hc : c ∈ kids last cells) :
    ∃ J, J ⊆ I ∧ Q c J := by
  induction cells generalizing I with
  | nil =>
      rw [List.mem_singleton.mp hc]
      exact ⟨I, subset_rfl, h⟩
  | cons x cs ih =>
      rcases List.mem_cons.mp hc with rfl | hc
      · exact ⟨_, Set.inter_subset_left, h.2.1⟩
      · obtain ⟨J, hJ, hQ⟩ := ih h.2.2 hc
        exact ⟨J, hJ.trans Set.inter_subset_left, hQ⟩

theorem Cells.sep_mem {c : K × P} (h : Cells Q last cells I) (hc : c ∈ cells) : c.1 ∈ I := by
  induction cells generalizing I with
  | nil => cases hc
  | cons x cs ih =>
      rcases List.mem_cons.mp hc with rfl | hc
      · exact h.1
      · exact (ih h.2.2 hc).1

/-- A child lies between the separators next to it. -/
theorem Cells.between {c : P} {i : ℕ} (h : Cells Q last cells I)
    (hsort : (cells.map Prod.fst).Pairwise (· < ·)) (hi : (kids last cells)[i]? = some c) :
    ∃ J, J ⊆ I ∧ Q c J ∧ (∀ k ∈ (cells.map Prod.fst).take i, ∀ x ∈ J, k ≤ x) ∧
      ∀ k ∈ (cells.map Prod.fst).drop i, ∀ x ∈ J, x < k := by
  induction cells generalizing I i with
  | nil =>
      obtain ⟨hlt, rfl⟩ := List.getElem?_eq_some_iff.mp hi
      obtain rfl : i = 0 := Nat.lt_one_iff.mp hlt
      exact ⟨I, subset_rfl, h, fun k hk => absurd hk List.not_mem_nil,
        fun k hk => absurd hk List.not_mem_nil⟩
  | cons cell cells ih =>
      obtain ⟨-, hfirst, hrest⟩ := h
      obtain ⟨habove, hsort⟩ := List.pairwise_cons.mp hsort
      cases i with
      | zero =>
          obtain rfl := Option.some.inj hi
          refine ⟨_, Set.inter_subset_left, hfirst, fun k hk => absurd hk List.not_mem_nil,
            fun k hk x hx => ?_⟩
          rcases List.mem_cons.mp hk with rfl | hk
          · exact hx.2
          · exact lt_trans hx.2 (habove k hk)
      | succ i =>
          obtain ⟨J, hJ, hQ, hleft, hright⟩ := ih hrest hsort hi
          refine ⟨J, hJ.trans Set.inter_subset_left, hQ, fun k hk x hx => ?_, hright⟩
          rcases List.mem_cons.mp hk with rfl | hk
          · exact (hJ hx).2
          · exact hleft k hk x hx

theorem Ordered.congr (h : Ordered f d p I) (hg : ∀ x ∈ pids f d p, g x = f x) :
    Ordered g d p I := by
  induction d generalizing p I with
  | zero =>
      obtain ⟨es, hp, hes⟩ := h
      exact ⟨es, (hg p mem_pids_self).trans hp, hes⟩
  | succ d ih =>
      obtain ⟨cells, last, hp, hsort, hcells⟩ := h
      refine ⟨cells, last, (hg p mem_pids_self).trans hp, hsort, hcells.mono fun x hx J hJ => ?_⟩
      have hchild : x ∈ (f p).children := by rwa [hp]
      exact ih hJ fun y hy => hg y (pids_child_subset hchild hy)

/-- The separators of an ordered subtree are those of its pages. -/
theorem Ordered.mem_separators (h : Ordered f d p I) :
    sep ∈ separators f d p ↔ ∃ x ∈ pids f d p, sep ∈ (f x).seps := by
  induction d generalizing p I with
  | zero =>
      obtain ⟨es, hp, -⟩ := h
      simp [separators, pids, hp, Page.seps]
  | succ d ih =>
      obtain ⟨cells, last, hp, -, hcells⟩ := h
      have hchild : ∀ c ∈ (f p).children,
          (sep ∈ separators f d c ↔ ∃ x ∈ pids f d c, sep ∈ (f x).seps) := by
        intro c hc
        rw [hp] at hc
        obtain ⟨J, -, hJ⟩ := hcells.mem hc
        exact ih hJ
      rw [separators, pids, List.mem_append, List.exists_mem_cons_iff, List.mem_flatMap]
      refine or_congr Iff.rfl ⟨?_, ?_⟩
      · rintro ⟨c, hc, hsep⟩
        obtain ⟨x, hx, hxs⟩ := (hchild c hc).mp hsep
        exact ⟨x, List.mem_flatMap.mpr ⟨c, hc, hx⟩, hxs⟩
      · rintro ⟨x, hx, hxs⟩
        obtain ⟨c, hc, hx⟩ := List.mem_flatMap.mp hx
        exact ⟨c, hc, (hchild c hc).mpr ⟨x, hx, hxs⟩⟩

/-- The children of the pages of a subtree are pages of it. -/
theorem Ordered.mem_pids_child (h : Ordered f d p I) (hx : x ∈ pids f d p)
    (hq : q ∈ (f x).children) : q ∈ pids f d p := by
  induction d generalizing p I with
  | zero =>
      obtain ⟨es, hp, -⟩ := h
      obtain rfl := List.mem_singleton.mp hx
      rw [hp] at hq
      cases hq
  | succ d ih =>
      obtain ⟨cells, last, hp, -, hcells⟩ := h
      rcases List.mem_cons.mp hx with rfl | hx
      · exact pids_child_subset hq mem_pids_self
      · obtain ⟨c, hc, hx⟩ := List.mem_flatMap.mp hx
        have hkid : c ∈ kids last cells := by rwa [hp] at hc
        obtain ⟨J, -, hsub⟩ := hcells.mem hkid
        exact pids_child_subset hc (ih hsub hx)

theorem Ordered.mem_entries {y : K × V} (h : Ordered f d p I) :
    y ∈ entries f d p ↔ ∃ x ∈ pids f d p, y ∈ (f x).entries := by
  induction d generalizing p I with
  | zero => simp only [entries, pids, List.mem_singleton, exists_eq_left]
  | succ d ih =>
      obtain ⟨cells, last, hp, -, hcells⟩ := h
      have hchild : ∀ c ∈ (f p).children,
          (y ∈ entries f d c ↔ ∃ x ∈ pids f d c, y ∈ (f x).entries) := by
        intro c hc
        rw [hp] at hc
        obtain ⟨J, -, hJ⟩ := hcells.mem hc
        exact ih hJ
      have hown : y ∉ (f p).entries := by
        rw [hp]
        exact List.not_mem_nil
      rw [entries, pids, List.exists_mem_cons_iff, List.mem_flatMap]
      constructor
      · rintro ⟨c, hc, hy⟩
        obtain ⟨x, hx, hyx⟩ := (hchild c hc).mp hy
        exact .inr ⟨x, List.mem_flatMap.mpr ⟨c, hc, hx⟩, hyx⟩
      · rintro (hy | ⟨x, hx, hyx⟩)
        · exact absurd hy hown
        · obtain ⟨c, hc, hx⟩ := List.mem_flatMap.mp hx
          exact ⟨c, hc, (hchild c hc).mpr ⟨x, hx, hyx⟩⟩

/-- The entries and the separators of each page of an ordered subtree increase. -/
theorem Ordered.page_sorted (h : Ordered f d p I) (hx : x ∈ pids f d p) :
    ((f x).entries.map Prod.fst).Pairwise (· < ·) ∧ (f x).seps.Pairwise (· < ·) := by
  induction d generalizing p I with
  | zero =>
      obtain ⟨es, hp, hsort, -⟩ := h
      obtain rfl := List.mem_singleton.mp hx
      rw [hp]
      exact ⟨hsort, List.Pairwise.nil⟩
  | succ d ih =>
      obtain ⟨cells, last, hp, hsort, hcells⟩ := h
      rcases List.mem_cons.mp hx with rfl | hx
      · rw [hp]
        exact ⟨List.Pairwise.nil, hsort⟩
      · obtain ⟨c, hc, hx⟩ := List.mem_flatMap.mp hx
        have hkid : c ∈ kids last cells := by rwa [hp] at hc
        obtain ⟨J, -, hsub⟩ := hcells.mem hkid
        exact ih hsub hx

/-- The entries of an ordered subtree are strictly increasing and in its set. -/
theorem Ordered.sorted (h : Ordered f d p I) :
    ((entries f d p).map Prod.fst).Pairwise (· < ·) ∧ ∀ x ∈ entries f d p, x.1 ∈ I := by
  induction d generalizing p I with
  | zero =>
      obtain ⟨es, hp, hsort, hmem⟩ := h
      rw [entries, hp]
      exact ⟨hsort, hmem⟩
  | succ d ih =>
      obtain ⟨cells, last, hp, -, hcells⟩ := h
      rw [entries, hp]
      clear hp
      induction cells generalizing I with
      | nil =>
          simp only [Page.children, kids, List.map_nil, List.nil_append, List.flatMap_singleton]
          exact ih hcells
      | cons c cs ihc =>
          obtain ⟨hk, hleft, hright⟩ := hcells
          have hl := ih hleft
          have hr := ihc hright
          simp only [Page.children, kids, List.map_cons, List.cons_append,
            List.flatMap_cons] at hr ⊢
          refine ⟨?_, fun x hx => ?_⟩
          · rw [List.map_append]
            refine List.pairwise_append.mpr ⟨hl.1, hr.1, fun a ha b hb => ?_⟩
            obtain ⟨x, hx, rfl⟩ := List.mem_map.mp ha
            obtain ⟨y, hy, rfl⟩ := List.mem_map.mp hb
            exact (hl.2 x hx).2.trans_le (hr.2 y hy).2
          · rcases List.mem_append.mp hx with hx | hx
            · exact (hl.2 x hx).1
            · exact (hr.2 x hx).1

end

/-! ## The child a key belongs to -/

/-- The child right of the separators not above a key, `R` being the cells
above it, and the children further right. -/
def first (last : P) : List (K × P) → P
  | [] => last
  | c :: _ => c.2

def rest (last : P) : List (K × P) → List P
  | [] => []
  | _ :: R => kids last R

theorem kids_append : kids last (L ++ R) = L.map Prod.snd ++ first last R :: rest last R := by
  unfold kids
  rw [List.map_append, List.append_assoc]
  cases R <;> rfl

/-- Where a child splits in two: its pointer goes to the right half `r`. -/
def redirect (r last : P) : List (K × P) → List (K × P) × P
  | [] => ([], r)
  | (k, _) :: R => ((k, r) :: R, last)

theorem kids_redirect : kids (redirect r last R).2 (redirect r last R).1 = r :: rest last R := by
  cases R <;> rfl

theorem map_fst_redirect : (redirect r last R).1.map Prod.fst = R.map Prod.fst := by
  cases R <;> rfl

theorem first_redirect : first (redirect r last R).2 (redirect r last R).1 = r := by
  cases R <;> rfl

/-- The pages of the children on both sides of a hole. -/
def siblings (f : P → Page K V P) (d : ℕ) (last : P) (L R : List (K × P)) : List P :=
  (L.map Prod.snd).flatMap (pids f d) ++ (rest last R).flatMap (pids f d)

theorem mem_siblings {y : P} (hx : x ∈ L.map Prod.snd ++ rest last R) (hy : y ∈ pids f d x) :
    y ∈ siblings f d last L R := by
  rw [siblings, ← List.flatMap_append]
  exact List.mem_flatMap.mpr ⟨x, hx, hy⟩

section
variable [LinearOrder K] {Q : P → Set K → Prop} {I J : Set K} {key sep : K} {value : V}

/-- What an ordered branch knows of the child a key belongs to: the child can
be exchanged, or split at a separator of its own set, when the other children
keep what they are known for. -/
structure Hole (Q : P → Set K → Prop) (last : P) (L R : List (K × P)) (I J : Set K) : Prop where
  subset : J ⊆ I
  left : ∀ x ∈ L, J ⊆ Set.Ici x.1
  right : ∀ x ∈ R, J ⊆ Set.Iio x.1
  child : Q (first last R) J
  fill : ∀ Q' : P → Set K → Prop,
    (∀ x ∈ L.map Prod.snd ++ rest last R, ∀ J, Q x J → Q' x J) → Q' (first last R) J →
      Cells Q' last (L ++ R) I
  split : ∀ (Q' : P → Set K → Prop) (sep : K) (r : P),
    (∀ x ∈ L.map Prod.snd ++ rest last R, ∀ J, Q x J → Q' x J) → sep ∈ J →
      Q' (first last R) (J ∩ Set.Iio sep) → Q' r (J ∩ Set.Ici sep) →
        Cells Q' (redirect r last R).2 (L ++ (sep, first last R) :: (redirect r last R).1) I

theorem Cells.hole_nil (h : Cells Q last R I) (hkey : key ∈ I) (hR : ∀ x ∈ R, key < x.1) :
    ∃ J, key ∈ J ∧ Hole Q last [] R I J := by
  cases R with
  | nil =>
      exact ⟨I, hkey, subset_rfl, by simp, by simp, h, fun Q' _ hc => hc,
        fun Q' sep r _ hs hl hr => ⟨hs, hl, hr⟩⟩
  | cons c R =>
      obtain ⟨k, c⟩ := c
      obtain ⟨hk, hc, htail⟩ := h
      refine ⟨I ∩ Set.Iio k, ⟨hkey, hR _ List.mem_cons_self⟩, Set.inter_subset_left, by simp,
        fun x hx y hy => ?_, hc, fun Q' hother hc' => ?_, fun Q' sep r hother hs hl hr => ?_⟩
      · rcases List.mem_cons.mp hx with rfl | hx
        · exact hy.2
        · exact hy.2.trans_le (htail.sep_mem hx).2
      · exact ⟨hk, hc', htail.mono fun x hx => hother x hx⟩
      · have hlow : I ∩ Set.Iio k ∩ Set.Iio sep = I ∩ Set.Iio sep := by
          ext y
          simp only [Set.mem_inter_iff, Set.mem_Iio]
          exact ⟨fun h => ⟨h.1.1, h.2⟩, fun h => ⟨⟨h.1, h.2.trans hs.2⟩, h.2⟩⟩
        have hhigh : I ∩ Set.Ici sep ∩ Set.Ici k = I ∩ Set.Ici k := by
          ext y
          simp only [Set.mem_inter_iff, Set.mem_Ici]
          exact ⟨fun h => ⟨h.1.1, h.2⟩, fun h => ⟨⟨h.1, hs.2.le.trans h.2⟩, h.2⟩⟩
        refine ⟨hs.1, hlow ▸ hl, ⟨hk, hs.2.le⟩, ?_, ?_⟩
        · rwa [Set.inter_right_comm]
        · rw [hhigh]
          exact htail.mono fun x hx => hother x hx

theorem Cells.hole (h : Cells Q last (L ++ R) I) (hkey : key ∈ I) (hL : ∀ x ∈ L, x.1 ≤ key)
    (hR : ∀ x ∈ R, key < x.1) : ∃ J, key ∈ J ∧ Hole Q last L R I J := by
  induction L generalizing I with
  | nil => exact h.hole_nil hkey hR
  | cons c L ih =>
      obtain ⟨k, c⟩ := c
      obtain ⟨hk, hc, htail⟩ := h
      obtain ⟨J, hJ, hole⟩ := ih htail ⟨hkey, hL _ List.mem_cons_self⟩
        fun x hx => hL x (List.mem_cons_of_mem _ hx)
      refine ⟨J, hJ, hole.subset.trans Set.inter_subset_left, fun x hx => ?_, hole.right,
        hole.child, fun Q' hother hc' => ?_, fun Q' sep r hother hs hl hr => ?_⟩
      · rcases List.mem_cons.mp hx with rfl | hx
        · exact hole.subset.trans Set.inter_subset_right
        · exact hole.left x hx
      · exact ⟨hk, hother c List.mem_cons_self _ hc,
          hole.fill Q' (fun x hx => hother x (List.mem_cons_of_mem _ hx)) hc'⟩
      · exact ⟨hk, hother c List.mem_cons_self _ hc,
          hole.split Q' sep r (fun x hx => hother x (List.mem_cons_of_mem _ hx)) hs hl hr⟩

/-! ## Contexts -/

/-- The subtree of depth `e` at `q` in the subtree of depth `d` at `p`: it has
the keys of `J`, the pages before and after it are `A` and `B`, the entries `C`
and `D`, and a store that agrees on the other pages may hold any other subtree
for `J` there. A store that does, and has a tree at `p`, has one at `q`. -/
structure Context (f : P → Page K V P) (d : ℕ) (p : P) (I : Set K) (e : ℕ) (q : P) (J : Set K)
    (A B : List P) (C D : List (K × V)) : Prop where
  ordered : Ordered f e q J
  pids_eq : pids f d p = A ++ (pids f e q ++ B)
  entries_eq : entries f d p = C ++ (entries f e q ++ D)
  fill : ∀ g, (∀ x ∈ A ++ B, g x = f x) → Ordered g e q J →
    Ordered g d p I ∧ pids g d p = A ++ (pids g e q ++ B) ∧
      entries g d p = C ++ (entries g e q ++ D)
  reach : ∀ g, (∀ x ∈ A ++ B, g x = f x) → ∀ d' I', Ordered g d' p I' →
    ∃ e' J', Ordered g e' q J' ∧ pids g e' q ⊆ pids g d' p

variable {A B A' B' : List P} {C D C' D' : List (K × V)} {d' : ℕ} {I' : Set K}

theorem Context.here (h : Ordered f d p I) : Context f d p I d p I [] [] [] [] where
  ordered := h
  pids_eq := by rw [List.append_nil, List.nil_append]
  entries_eq := by rw [List.append_nil, List.nil_append]
  fill g _ hg := by simpa only [List.append_nil, List.nil_append, and_self, and_true] using hg
  reach _ _ d' I' h := ⟨d', I', h, List.Subset.refl _⟩

theorem Context.trans {e' : ℕ} {r : P} {J' : Set K} (h : Context f d p I e q J A B C D)
    (k : Context f e q J e' r J' A' B' C' D') :
    Context f d p I e' r J' (A ++ A') (B' ++ B) (C ++ C') (D' ++ D) where
  ordered := k.ordered
  pids_eq := by rw [h.pids_eq, k.pids_eq]; simp only [List.append_assoc]
  entries_eq := by rw [h.entries_eq, k.entries_eq]; simp only [List.append_assoc]
  fill g hg hr := by
    have hinner := k.fill g (fun x hx => hg x (by simp only [List.mem_append] at hx ⊢; tauto)) hr
    have houter := h.fill g (fun x hx => hg x (by simp only [List.mem_append] at hx ⊢; tauto))
      hinner.1
    refine ⟨houter.1, ?_, ?_⟩
    · rw [houter.2.1, hinner.2.1]
      simp only [List.append_assoc]
    · rw [houter.2.2, hinner.2.2]
      simp only [List.append_assoc]
  reach g hg d' I' hp := by
    obtain ⟨e₁, J₁, hq, hsub⟩ :=
      h.reach g (fun x hx => hg x (by simp only [List.mem_append] at hx ⊢; tauto)) d' I' hp
    obtain ⟨e₂, J₂, hr, hsub'⟩ :=
      k.reach g (fun x hx => hg x (by simp only [List.mem_append] at hx ⊢; tauto)) e₁ J₁ hq
    exact ⟨e₂, J₂, hr, List.Subset.trans hsub' hsub⟩

/-- A store with another ordered tree below a branch goes on to each child. -/
theorem Ordered.child (h : Ordered g d' p I') (hp : g p = .branch cells last)
    (hx : x ∈ kids last cells) :
    ∃ e' J', Ordered g e' x J' ∧ pids g e' x ⊆ pids g d' p := by
  cases d' with
  | zero =>
      obtain ⟨es, hes, -⟩ := h
      rw [hp] at hes
      cases hes
  | succ d' =>
      obtain ⟨cells', last', hp', -, hcells⟩ := h
      obtain ⟨rfl, rfl⟩ := Page.branch.inj (hp.symm.trans hp')
      obtain ⟨J', -, hJ'⟩ := hcells.mem hx
      refine ⟨d', J', hJ', pids_child_subset ?_⟩
      rw [hp]
      exact hx

theorem Ordered.branch (h : Ordered f (d + 1) p I) (hp : f p = .branch cells last) :
    (cells.map Prod.fst).Pairwise (· < ·) ∧ Cells (Ordered f d) last cells I := by
  obtain ⟨cells', last', hp', hsort, hcells⟩ := h
  obtain ⟨rfl, rfl⟩ := Page.branch.inj (hp.symm.trans hp')
  exact ⟨hsort, hcells⟩

/-- One step of a context: a branch around the child a key belongs to. -/
theorem Hole.context (hole : Hole (Ordered f d) last L R I J) (hp : f p = .branch (L ++ R) last)
    (hsort : ((L ++ R).map Prod.fst).Pairwise (· < ·)) :
    Context f (d + 1) p I d (first last R) J (p :: (L.map Prod.snd).flatMap (pids f d))
      ((rest last R).flatMap (pids f d)) ((L.map Prod.snd).flatMap (entries f d))
      ((rest last R).flatMap (entries f d)) where
  ordered := hole.child
  pids_eq := by
    rw [pids, hp, Page.children, kids_append, List.flatMap_append, List.flatMap_cons,
      List.cons_append]
  entries_eq := by
    rw [entries, hp, Page.children, kids_append, List.flatMap_append, List.flatMap_cons]
  fill g hg hq := by
    have hgp : g p = .branch (L ++ R) last := (hg p List.mem_cons_self).trans hp
    have hother : ∀ x ∈ L.map Prod.snd ++ rest last R, ∀ y ∈ pids f d x, g y = f y :=
      fun x hx y hy => hg y (List.mem_cons_of_mem _ (mem_siblings hx hy))
    have hl : ∀ x ∈ L.map Prod.snd, ∀ y ∈ pids f d x, g y = f y := fun x hx =>
      hother x (List.mem_append_left _ hx)
    have hr : ∀ x ∈ rest last R, ∀ y ∈ pids f d x, g y = f y := fun x hx =>
      hother x (List.mem_append_right _ hx)
    refine ⟨⟨L ++ R, last, hgp, hsort, ?_⟩, ?_, ?_⟩
    · exact hole.fill _ (fun x hx J hJ => hJ.congr (hother x hx)) hq
    · rw [pids, hgp, Page.children, kids_append, List.flatMap_append, List.flatMap_cons,
        List.cons_append, flatMap_congr fun x hx => pids_congr (hl x hx),
        flatMap_congr fun x hx => pids_congr (hr x hx)]
    · rw [entries, hgp, Page.children, kids_append, List.flatMap_append, List.flatMap_cons,
        flatMap_congr fun x hx => entries_congr (hl x hx),
        flatMap_congr fun x hx => entries_congr (hr x hx)]
  reach g hg d' I' hd := by
    have hgp : g p = .branch (L ++ R) last := (hg p List.mem_cons_self).trans hp
    refine hd.child hgp ?_
    rw [kids_append]
    exact List.mem_append_right _ List.mem_cons_self

/-- A branch whose child splits at a separator takes the separator with the left
half, and the pointer that led to the child leads to the right half. -/
theorem Hole.split_child (hole : Hole (Ordered f d) last L R I J)
    (hsort : ((L ++ R).map Prod.fst).Pairwise (· < ·))
    (hg : ∀ x ∈ siblings f d last L R, g x = f x)
    (hgp : g p =
      .branch (L ++ (sep, first last R) :: (redirect r last R).1) (redirect r last R).2)
    (hsep : sep ∈ J) (hlow : ∃ y ∈ J, y < sep)
    (hleft : Ordered g d (first last R) (J ∩ Set.Iio sep))
    (hright : Ordered g d r (J ∩ Set.Ici sep)) :
    Ordered g (d + 1) p I ∧
      pids g (d + 1) p = p :: (L.map Prod.snd).flatMap (pids f d) ++
        (pids g d (first last R) ++ pids g d r ++ (rest last R).flatMap (pids f d)) ∧
      entries g (d + 1) p = (L.map Prod.snd).flatMap (entries f d) ++
        (entries g d (first last R) ++ entries g d r ++ (rest last R).flatMap (entries f d)) := by
  have hother : ∀ x ∈ L.map Prod.snd ++ rest last R, ∀ y ∈ pids f d x, g y = f y :=
    fun x hx y hy => hg y (mem_siblings hx hy)
  have hl : ∀ x ∈ L.map Prod.snd, ∀ y ∈ pids f d x, g y = f y := fun x hx =>
    hother x (List.mem_append_left _ hx)
  have hr : ∀ x ∈ rest last R, ∀ y ∈ pids f d x, g y = f y := fun x hx =>
    hother x (List.mem_append_right _ hx)
  obtain ⟨y, hy, hlt⟩ := hlow
  have hchildren : (g p).children =
      L.map Prod.snd ++ first last R :: r :: rest last R := by
    rw [hgp, Page.children, ← kids_redirect (r := r)]
    simp only [kids, List.map_append, List.map_cons, List.append_assoc, List.cons_append]
  refine ⟨⟨_, _, hgp, ?_, ?_⟩, ?_, ?_⟩
  · rw [List.map_append, List.pairwise_append] at hsort ⊢
    rw [List.map_cons, map_fst_redirect, List.pairwise_cons]
    refine ⟨hsort.1, ⟨fun b hb => ?_, hsort.2.1⟩, fun a ha b hb => ?_⟩
    · obtain ⟨x, hx, rfl⟩ := List.mem_map.mp hb
      exact hole.right x hx hsep
    · rcases List.mem_cons.mp hb with rfl | hb
      · obtain ⟨x, hx, rfl⟩ := List.mem_map.mp ha
        exact (hole.left x hx hy).trans_lt hlt
      · exact hsort.2.2 a ha b hb
  · exact hole.split _ _ _ (fun x hx J hJ => hJ.congr (hother x hx)) hsep hleft hright
  · rw [pids, hchildren, List.flatMap_append, List.flatMap_cons, List.flatMap_cons,
      flatMap_congr fun x hx => pids_congr (hl x hx),
      flatMap_congr fun x hx => pids_congr (hr x hx), List.append_assoc, List.cons_append]
  · rw [entries, hchildren, List.flatMap_append, List.flatMap_cons, List.flatMap_cons,
      flatMap_congr fun x hx => entries_congr (hl x hx),
      flatMap_congr fun x hx => entries_congr (hr x hx), List.append_assoc]

/-- Following a key from the subtree of depth `d` at `p` to depth `e` ends at `q`. -/
inductive Focus (f : P → Page K V P) (key : K) : ℕ → P → ℕ → P → Prop
  | here {d : ℕ} {p : P} : Focus f key d p d p
  | child {d e : ℕ} {p q last : P} {L R : List (K × P)} : f p = .branch (L ++ R) last →
      (∀ x ∈ L, x.1 ≤ key) → (∀ x ∈ R, key < x.1) → Focus f key d (first last R) e q →
        Focus f key (d + 1) p e q

theorem Focus.context (h : Focus f key d p e q) (hp : Ordered f d p I) (hkey : key ∈ I) :
    ∃ J A B C D, key ∈ J ∧ Context f d p I e q J A B C D := by
  induction h generalizing I with
  | here => exact ⟨I, [], [], [], [], hkey, .here hp⟩
  | child hpage hL hR _ ih =>
      obtain ⟨hsort, hcells⟩ := hp.branch hpage
      obtain ⟨J, hJ, hole⟩ := hcells.hole hkey hL hR
      obtain ⟨J', A', B', C', D', hJ', hinner⟩ := ih hole.child hJ
      exact ⟨J', _, _, _, _, hJ', (hole.context hpage hsort).trans hinner⟩

theorem Focus.trans {e' : ℕ} {r : P} (h : Focus f key d p e q) (k : Focus f key e q e' r) :
    Focus f key d p e' r := by
  induction h with
  | here => exact k
  | child hpage hL hR _ ih => exact .child hpage hL hR (ih k)

theorem Focus.separators_subset (h : Focus f key d p e q) :
    separators f e q ⊆ separators f d p := by
  induction h with
  | here => exact List.Subset.refl _
  | child hpage _ _ _ ih =>
      refine List.Subset.trans ih (separators_child_subset ?_)
      rw [hpage, Page.children, kids_append]
      exact List.mem_append_right _ List.mem_cons_self

theorem Focus.mem_pids (h : Focus f key d p e q) : q ∈ pids f d p := by
  induction h with
  | here => exact mem_pids_self
  | child hpage _ _ _ ih =>
      refine pids_child_subset ?_ ih
      rw [hpage, Page.children, kids_append]
      exact List.mem_append_right _ List.mem_cons_self

/-- A key has one place between the keys below it and those above it. -/
theorem place_unique {ks : List K} {i j : ℕ} (hi : i ≤ ks.length) (hj : j ≤ ks.length)
    (hil : ∀ x ∈ ks.take i, x < key) (hir : ∀ x ∈ ks.drop i, key < x)
    (hjl : ∀ x ∈ ks.take j, x < key) (hjr : ∀ x ∈ ks.drop j, key < x) : i = j := by
  have hle : ∀ i j, i ≤ ks.length → (∀ x ∈ ks.take i, x < key) → (∀ x ∈ ks.drop j, key < x) →
      i ≤ j := by
    intro i j hi hleft hright
    by_contra hlt
    have hj : j < ks.length := by omega
    have hbelow : ks[j] < key := hleft _ (List.mem_take_iff_getElem.mpr ⟨j, by omega, rfl⟩)
    have habove : key < ks[j] := hright _ (List.mem_drop_iff_getElem.mpr ⟨0, by omega, by simp⟩)
    exact absurd hbelow (not_lt.mpr habove.le)
  exact le_antisymm (hle i j hi hil hjr) (hle j i hj hjl hir)

theorem pairwise_insert {α : Type*} {r : α → α → Prop} {l₁ l₂ : List α} {x : α}
    (h : (l₁ ++ l₂).Pairwise r) (hleft : ∀ y ∈ l₁, r y x) (hright : ∀ y ∈ l₂, r x y) :
    (l₁ ++ x :: l₂).Pairwise r := by
  rw [List.pairwise_append] at h ⊢
  refine ⟨h.1, List.pairwise_cons.mpr ⟨hright, h.2.1⟩, fun a ha b hb => ?_⟩
  rcases List.mem_cons.mp hb with rfl | hb
  · exact hleft a ha
  · exact h.2.2 a ha b hb

/-- A leaf that gains an entry at its sorted place stays ordered. -/
theorem Ordered.insert_leaf {es₁ es₂ : List (K × V)} (h : Ordered f 0 q J)
    (hf : f q = .leaf (es₁ ++ es₂)) (hg : g q = .leaf (es₁ ++ (key, value) :: es₂)) (hkey : key ∈ J)
    (hleft : ∀ x ∈ es₁, x.1 < key) (hright : ∀ x ∈ es₂, key < x.1) : Ordered g 0 q J := by
  obtain ⟨es, hes, hsort, hmem⟩ := h
  obtain rfl := Page.leaf.inj (hf.symm.trans hes)
  refine ⟨_, hg, ?_, fun x hx => ?_⟩
  · rw [List.map_append] at hsort ⊢
    refine pairwise_insert hsort (fun y hy => ?_) fun y hy => ?_
    · obtain ⟨x, hx, rfl⟩ := List.mem_map.mp hy
      exact hleft x hx
    · obtain ⟨x, hx, rfl⟩ := List.mem_map.mp hy
      exact hright x hx
  · rcases List.mem_append.mp hx with hx | hx
    · exact hmem x (List.mem_append_left _ hx)
    · rcases List.mem_cons.mp hx with rfl | hx
      · exact hkey
      · exact hmem x (List.mem_append_right _ hx)

/-! ## A leaf that splits -/

/-- Another subtree for the same keys leaves a context what it was. -/
theorem Context.refill (h : Context f d p I e q J A B C D) (hg : ∀ x ∈ A ++ B, g x = f x)
    (hq : Ordered g e q J) : Context g d p I e q J A B C D where
  ordered := hq
  pids_eq := (h.fill g hg hq).2.1
  entries_eq := (h.fill g hg hq).2.2
  fill g' hg' hq' := h.fill g' (fun x hx => (hg' x hx).trans (hg x hx)) hq'
  reach g' hg' := h.reach g' fun x hx => (hg' x hx).trans (hg x hx)

theorem Context.pids_subset (h : Context f d p I e q J A B C D) : pids f e q ⊆ pids f d p := by
  rw [h.pids_eq]
  exact fun x hx => List.mem_append_right _ (List.mem_append_left _ hx)

theorem Context.mem_pids (h : Context f d p I e q J A B C D) : q ∈ pids f d p :=
  h.pids_subset mem_pids_self

/-- The pages around a subtree are not pages of it. -/
theorem Context.outside (h : Context f d p I e q J A B C D) (hnodup : (pids f d p).Nodup) {y : P}
    (hx : x ∈ A ++ B) (hy : y ∈ pids f e q) : x ≠ y := by
  rw [h.pids_eq, List.nodup_append] at hnodup
  obtain ⟨-, hrest, hA⟩ := hnodup
  rw [List.nodup_append] at hrest
  rcases List.mem_append.mp hx with hx | hx
  · exact hA x hx y (List.mem_append_left _ hy)
  · exact (hrest.2.2 y hy x hx).symm

/-- Next to a separator the half of the key's side holds the key. -/
theorem Ordered.half {c : P} (h : Ordered g (d + 1) q J) (hkey : key ∈ J) (hne : key ≠ sep)
    (hg : g q = .branch (L ++ (sep, c) :: R) last) (hL : ∀ x ∈ L, x.1 ≤ key)
    (hR : ∀ x ∈ R, key < x.1) : ∃ J' A B C D, key ∈ J' ∧
      Context g (d + 1) q J d (if sep < key then first last R else c) J' A B C D := by
  obtain ⟨hsort, hcells⟩ := h.branch hg
  by_cases hlt : sep < key
  · have hleft : ∀ x ∈ L ++ [(sep, c)], x.1 ≤ key := by
      intro x hx
      rcases List.mem_append.mp hx with hx | hx
      · exact hL x hx
      · rw [List.mem_singleton.mp hx]
        exact hlt.le
    have hsplit : L ++ (sep, c) :: R = (L ++ [(sep, c)]) ++ R := by
      rw [List.append_assoc, List.singleton_append]
    rw [hsplit] at hg hsort hcells
    obtain ⟨J', hJ', hole⟩ := hcells.hole hkey hleft hR
    rw [if_pos hlt]
    exact ⟨J', _, _, _, _, hJ', hole.context hg hsort⟩
  · have hright : ∀ x ∈ (sep, c) :: R, key < x.1 :=
      List.forall_mem_cons.mpr ⟨lt_of_le_of_ne (not_lt.mp hlt) hne, hR⟩
    obtain ⟨J', hJ', hole⟩ := hcells.hole hkey hL hright
    rw [if_neg hlt]
    exact ⟨J', _, _, _, _, hJ', hole.context hg hsort⟩

/-- The entries of a leaf cut in two, `sep` being the first key on the right. -/
structure CutAt (es₁ es₂ : List (K × V)) (sep : K) : Prop where
  left : es₁ ≠ []
  right : (es₂.map Prod.fst).head? = some sep

variable {es es₁ es₂ : List (K × V)}

/-- The separator of an ordered leaf is one of its keys and not the first. -/
theorem Ordered.separator (h : Ordered f 0 q J) (hf : f q = .leaf (es₁ ++ es₂))
    (hcut : CutAt es₁ es₂ sep) : sep ∈ J ∧ ∃ y ∈ J, y < sep := by
  obtain ⟨es, hes, hsort, hmem⟩ := h
  obtain rfl := Page.leaf.inj (hf.symm.trans hes)
  rw [List.map_append, List.pairwise_append] at hsort
  obtain ⟨-, -, hacross⟩ := hsort
  obtain ⟨y, ys, rfl⟩ := List.exists_cons_of_ne_nil hcut.left
  cases es₂ with
  | nil => cases hcut.right
  | cons z zs =>
      obtain rfl : z.1 = sep := Option.some.inj hcut.right
      refine ⟨hmem z (List.mem_append_right _ List.mem_cons_self), y.1,
        hmem y (List.mem_append_left _ List.mem_cons_self), ?_⟩
      exact hacross y.1 List.mem_cons_self z.1 List.mem_cons_self

/-- The halves of an ordered leaf are ordered on the two sides of the separator. -/
theorem Ordered.cut (h : Ordered f 0 q J) (hf : f q = .leaf (es₁ ++ es₂))
    (hcut : CutAt es₁ es₂ sep) (hgq : g q = .leaf es₁) (hgr : g r = .leaf es₂) :
    sep ∈ J ∧ (∃ y ∈ J, y < sep) ∧ Ordered g 0 q (J ∩ Set.Iio sep) ∧
      Ordered g 0 r (J ∩ Set.Ici sep) := by
  obtain ⟨hsep, hlow⟩ := h.separator hf hcut
  obtain ⟨es, hes, hsort, hmem⟩ := h
  obtain rfl := Page.leaf.inj (hf.symm.trans hes)
  rw [List.map_append, List.pairwise_append] at hsort
  obtain ⟨hsort₁, hsort₂, hacross⟩ := hsort
  cases es₂ with
  | nil => cases hcut.right
  | cons z zs =>
      obtain rfl : z.1 = sep := Option.some.inj hcut.right
      refine ⟨hsep, hlow, ⟨_, hgq, hsort₁, fun x hx => ?_⟩, ⟨_, hgr, hsort₂, fun x hx => ?_⟩⟩
      · exact ⟨hmem x (List.mem_append_left _ hx),
          hacross x.1 (List.mem_map_of_mem hx) z.1 List.mem_cons_self⟩
      · refine ⟨hmem x (List.mem_append_right _ hx), ?_⟩
        rcases List.mem_cons.mp hx with rfl | hx
        · exact le_rfl
        · exact ((List.pairwise_cons.mp hsort₂).1 x.1 (List.mem_map_of_mem hx)).le

/-- A leaf splits under its parent: the parent keeps its place in the tree, the
entries stay what they were, and the new leaf is the only new page. -/
theorem Context.split_leaf (h : Context f d p I 1 q J A B C D) (hnodup : (pids f d p).Nodup)
    (hf : f q = .branch (L ++ R) last) (hkey : key ∈ J) (hL : ∀ x ∈ L, x.1 ≤ key)
    (hR : ∀ x ∈ R, key < x.1) (hc : f (first last R) = .leaf (es₁ ++ es₂))
    (hcut : CutAt es₁ es₂ sep) (hg : ∀ x ∈ pids f d p, x ≠ q → x ≠ first last R → g x = f x)
    (hgq : g q =
      .branch (L ++ (sep, first last R) :: (redirect r last R).1) (redirect r last R).2)
    (hgc : g (first last R) = .leaf es₁) (hgr : g r = .leaf es₂) :
    Context g d p I 1 q J A B C D ∧ Ordered g d p I ∧ entries g d p = entries f d p ∧
      (pids g d p).Perm (r :: pids f d p) := by
  obtain ⟨hsort, hcells⟩ := h.ordered.branch hf
  obtain ⟨J', -, hole⟩ := hcells.hole hkey hL hR
  have hinner := hole.context hf hsort
  have hleaf : Ordered f 0 (first last R) J' := hole.child
  have hpq : pids f 1 q = q :: (L.map Prod.snd).flatMap (pids f 0) ++
      (pids f 0 (first last R) ++ (rest last R).flatMap (pids f 0)) := hinner.pids_eq
  have heq : entries f 1 q = (L.map Prod.snd).flatMap (entries f 0) ++
      (entries f 0 (first last R) ++ (rest last R).flatMap (entries f 0)) := hinner.entries_eq
  have hqmem : q ∈ pids f 1 q := mem_pids_self
  have hcmem : first last R ∈ pids f 1 q := by
    rw [hpq]
    exact List.mem_append_right _ (List.mem_append_left _ mem_pids_self)
  have hsub : pids f 1 q ⊆ pids f d p := by
    rw [h.pids_eq]
    exact fun x hx => List.mem_append_right _ (List.mem_append_left _ hx)
  have hnodupq : (pids f 1 q).Nodup := by
    rw [h.pids_eq] at hnodup
    exact (List.nodup_append.mp (List.nodup_append.mp hnodup).2.1).1
  -- nothing else of the tree is written
  have houtside : ∀ x ∈ A ++ B, g x = f x := by
    intro x hx
    refine hg x ?_ (h.outside hnodup hx hqmem) (h.outside hnodup hx hcmem)
    rw [h.pids_eq]
    simp only [List.mem_append] at hx ⊢
    tauto
  have hsiblings : ∀ x ∈ siblings f 0 last L R, g x = f x := by
    intro x hx
    have hmem : x ∈ (L.map Prod.snd).flatMap (pids f 0) ++ (rest last R).flatMap (pids f 0) := hx
    have hxq : x ∈ pids f 1 q := by
      rw [hpq]
      simp only [List.mem_append, List.mem_cons] at hmem ⊢
      tauto
    refine hg x (hsub hxq) ?_ ?_
    · rintro rfl
      rw [hpq, List.cons_append, List.nodup_cons] at hnodupq
      refine hnodupq.1 ?_
      simp only [List.mem_append] at hmem ⊢
      tauto
    · refine hinner.outside hnodupq ?_ mem_pids_self
      simp only [List.mem_append, List.mem_cons] at hmem ⊢
      tauto
  obtain ⟨hsep, hlow, hleft, hright⟩ := hleaf.cut hc hcut hgc hgr
  obtain ⟨hordered, hpids, hentries⟩ :=
    hole.split_child hsort hsiblings hgq hsep hlow hleft hright
  obtain ⟨htop, hpidsTop, hentriesTop⟩ := h.fill g houtside hordered
  refine ⟨h.refill houtside hordered, htop, ?_, ?_⟩
  · have hhalves : entries g 0 (first last R) ++ entries g 0 r = entries f 0 (first last R) := by
      rw [entries, entries, entries, hgc, hgr, hc]
      rfl
    rw [hentriesTop, hentries, hhalves, h.entries_eq, heq]
  · rw [hpidsTop, hpids, h.pids_eq, hpq]
    have hmiddle : A ++ (q :: (L.map Prod.snd).flatMap (pids f 0) ++
        (pids g 0 (first last R) ++ pids g 0 r ++ (rest last R).flatMap (pids f 0)) ++ B) =
        (A ++ q :: (L.map Prod.snd).flatMap (pids f 0) ++ [first last R]) ++
          r :: ((rest last R).flatMap (pids f 0) ++ B) := by
      simp only [pids, List.append_assoc, List.cons_append, List.nil_append]
    rw [hmiddle]
    refine List.perm_middle.trans (.of_eq ?_)
    simp only [pids, List.append_assoc, List.cons_append, List.nil_append]

/-- A leaf that is a tree of its own splits under a new root. -/
theorem Ordered.split_root (h : Ordered f 0 p I) (hf : f p = .leaf (es₁ ++ es₂))
    (hcut : CutAt es₁ es₂ sep) (hgp : g p = .leaf es₁) (hgr : g r = .leaf es₂)
    (hgq : g q = .branch [(sep, p)] r) : Ordered g 1 q I ∧ entries g 1 q = entries f 0 p ∧
      pids g 1 q = [q, p, r] := by
  obtain ⟨hsep, -, hleft, hright⟩ := h.cut hf hcut hgp hgr
  refine ⟨⟨_, _, hgq, List.pairwise_singleton _ _, hsep, hleft, hright⟩, ?_, ?_⟩
  · have hchildren : (g q).children = [p, r] := by rw [hgq]; rfl
    have hsplit : entries g 1 q = (g q).children.flatMap (entries g 0) := rfl
    rw [hsplit, hchildren, List.flatMap_cons, List.flatMap_singleton, entries, entries, entries,
      hgp, hgr, hf]
    rfl
  · rw [pids, hgq]
    rfl

/-- A leaf of the tree gains an entry at its sorted place. -/
theorem Context.insert_leaf (h : Context f d p I 0 q J A B C D) (hnodup : (pids f d p).Nodup)
    (hf : f q = .leaf (es₁ ++ es₂)) (hg : ∀ x ∈ pids f d p, x ≠ q → g x = f x)
    (hgq : g q = .leaf (es₁ ++ (key, value) :: es₂)) (hkey : key ∈ J)
    (hleft : ∀ x ∈ es₁, x.1 < key) (hright : ∀ x ∈ es₂, key < x.1) :
    Ordered g d p I ∧ pids g d p = pids f d p ∧
      entries f d p = (C ++ es₁) ++ (es₂ ++ D) ∧
        entries g d p = (C ++ es₁) ++ (key, value) :: (es₂ ++ D) := by
  have houtside : ∀ x ∈ A ++ B, g x = f x := by
    intro x hx
    refine hg x ?_ (h.outside hnodup hx mem_pids_self)
    rw [h.pids_eq]
    simp only [List.mem_append] at hx ⊢
    tauto
  have hleaf : Ordered g 0 q J := h.ordered.insert_leaf hf hgq hkey hleft hright
  obtain ⟨hordered, hpids, hentries⟩ := h.fill g houtside hleaf
  refine ⟨hordered, ?_, ?_, ?_⟩
  · rw [hpids, h.pids_eq]
    rfl
  · rw [h.entries_eq, entries, hf]
    simp only [Page.entries, List.append_assoc]
  · rw [hentries, entries, hgq]
    simp only [Page.entries, List.append_assoc, List.cons_append]

end
end IoScheduler.SearchTree
