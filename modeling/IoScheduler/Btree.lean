import IoScheduler.Node
import IoScheduler.Transition

/-!
# The insert path of the tree

`btree_insert` goes down to a leaf and keeps the pages it visits in
`breadcrumbs[16]`. When the leaf is full it plans, from the leaf upwards, which
pages split, adds a root if the old one splits, and then writes from the top
down: each page is split first and then takes the separator of its child, which
is not split yet.

A page is named by its pid. `btree_node_alloc` hands out the pids in order, and
a page that was never handed out holds whatever memory held. `internalSplits`,
`wildPartition` and `emptyHalf` are ghost: the internal splits so far, whether
a slot past the end of a page was taken for the partition cell, and whether a
split left one of its halves without a cell.
-/
namespace IoScheduler
open Machine Bytes Transition

structure Btree where
  node : ℕ → Node
  brk : ℕ
  root : ℕ
  count : ℕ
  internalSplits : ℕ := 0
  wildPartition : Bool := false
  emptyHalf : Bool := false

def Btree.set (t : Btree) (pid : ℕ) (n : Node) : Btree :=
  { t with node := Function.update t.node pid n }

/-- Following a pointer that is null or was never handed out is a fault. -/
def Btree.deref (t : Btree) (pid : ℕ) : Except Failure Node :=
  if 0 < pid ∧ pid < t.brk then .ok (t.node pid) else .error .fault

def btreeNodeAlloc (t : Btree) : Option (Btree × ℕ) :=
  if t.brk < 2 ^ 64 then some ({ t with brk := t.brk + 1 }, t.brk) else none

/-- An allocation with the `ASSERT` and the `node_init` that follow each. -/
def newNode (t : Btree) (leaf root : Bool) : Except Failure (Btree × ℕ) :=
  match btreeNodeAlloc t with
  | none => .error .assertion
  | some (t, pid) => .ok (t.set pid (nodeInit (t.node pid) leaf root), pid)

/-- `memory` is what the pages hold before they are handed out. -/
def btreeInit (memory : ℕ → Node) : Btree :=
  { node := Function.update memory 1 (nodeInit (memory 1) true true), brk := 2, root := 1,
    count := 0 }

/-! ## The descent -/

def childAt (n : Node) (idx : ℕ) : Except Failure ℕ :=
  if idx < n.size then .ok (cellPid n (cellPtr n idx))
  else do
    assert (n.rightmostPid ≠ 0)
    .ok n.rightmostPid

/-- The pages visited, the leaf first; `none` when a separator equals the key
and the call returns 1. `room` is how many more `breadcrumbs` has place for. -/
def descend (t : Btree) (key : List UInt8) (room : ℕ) (above : List ℕ) (pid : ℕ) :
    Except Failure (Option (List ℕ)) := do
  let n ← t.deref pid
  if n.leaf then .ok (some (pid :: above))
  else do
    let (found, idx) ← nodeBinSearch n key
    if found then .ok none
    else do
      let child ← childAt n idx
      match room with
      | 0 => .error .fault
      | room + 1 => descend t key room (pid :: above) child

/-! ## Planning the splits -/

structure Crumb where
  node : ℕ
  newNode : ℕ
  fNode : ℕ
  partitionIdx : ℕ
  isFull : Bool

/-- The key of the cell a crumb's page splits at. -/
def partitionKey (t : Btree) (c : Crumb) : List UInt8 := keyAt (t.node c.node) c.partitionIdx

def notePartition (t : Btree) (pid partitionIdx : ℕ) : Btree :=
  { t with wildPartition := t.wildPartition || decide ((t.node pid).size ≤ partitionIdx) }

/-- A full page gets a fresh sibling, and the half that takes `key` is chosen. -/
def planSplit (t : Btree) (pid : ℕ) (leaf : Bool) (key : List UInt8) :
    Except Failure (Btree × Crumb) := do
  let partitionIdx := nodePartitionIdx (t.node pid)
  let (t, newNode) ← newNode t leaf false
  let fNode := if keyCompare (keyAt (t.node pid) partitionIdx) key < 0 then newNode else pid
  .ok (t, { node := pid, newNode, fNode, partitionIdx, isFull := true })

def planLeaf (t : Btree) (key value : List UInt8) (pid : ℕ) : Except Failure (Btree × Crumb) := do
  if ← nodeIsFull (t.node pid) key.length value.length then
    planSplit (notePartition t pid (nodePartitionIdx (t.node pid))) pid true key
  else .ok (t, { node := pid, newNode := 0, fNode := pid, partitionIdx := 0, isFull := false })

/-- The partition cell is looked up whether or not the page is full. -/
def planNode (t : Btree) (below : Crumb) (pid : ℕ) : Except Failure (Btree × Crumb) := do
  let partitionIdx := nodePartitionIdx (t.node pid)
  let t := notePartition t pid partitionIdx
  let key := partitionKey t below
  if ← nodeIsFull (t.node pid) key.length 0 then planSplit t pid false key
  else .ok (t, { node := pid, newNode := 0, fNode := pid, partitionIdx, isFull := false })

/-- The crumbs from the last one planned down to the leaf, given those below it
and the pages above, nearest first. -/
def planCrumbs (t : Btree) (c : Crumb) (below : List Crumb) :
    List ℕ → Except Failure (Btree × Crumb × List Crumb)
  | [] => .ok (t, c, below)
  | pid :: above =>
      if c.isFull then do
        let (t, parent) ← planNode t c pid
        planCrumbs t parent (c :: below) above
      else .ok (t, c, below)

/-! ## Writing them -/

def splitRoot (t : Btree) (c : Crumb) : Except Failure Btree := do
  let (t, pid) ← newNode t false true
  let key := partitionKey t c
  let (root, off) ← nodeGetFreeOffset (t.node pid) key.length 0
  assert (0 < off)
  let root ← nodeInsertInternalCell root off 0 key c.node
  let t := { t.set pid { root with rightmostPid := c.newNode } with root := pid }
  let t := t.set c.newNode { t.node c.newNode with parentPid := pid }
  .ok (t.set c.node { t.node c.node with parentPid := pid, root := false })

def splitLeaf (t : Btree) (c : Crumb) : Except Failure Btree := do
  let n := t.node c.node
  assert ((t.node c.newNode).leaf = true)
  let (old, new) ← leafNodeSplit n (t.node c.newNode) c.partitionIdx
  assert (n.size = u32 (old.size + new.size))
  .ok { (t.set c.node old).set c.newNode new with
    emptyHalf := t.emptyHalf || c.partitionIdx == 0 || decide (n.size ≤ c.partitionIdx) }

def splitInternal (t : Btree) (c : Crumb) : Except Failure Btree := do
  let n := t.node c.node
  assert ((t.node c.newNode).leaf = false)
  let (old, new) ← internalNodeSplit n (t.node c.newNode) c.partitionIdx
  assert (sub32 n.size 1 = u32 (old.size + new.size))
  .ok { (t.set c.node old).set c.newNode new with
    internalSplits := t.internalSplits + 1
    emptyHalf := t.emptyHalf || c.partitionIdx == 0 || decide (n.size ≤ c.partitionIdx + 1) }

def splitNode (t : Btree) (c : Crumb) : Except Failure Btree :=
  if c.isFull then do
    assert (c.partitionIdx ≤ (t.node c.node).size)
    if (t.node c.node).leaf then splitLeaf t c else splitInternal t c
  else .ok t

/-- The child pointer at the separator's place goes to the right half, and the
separator with the left half goes before it. -/
def linkChild (t : Btree) (c child : Crumb) : Except Failure Btree := do
  let key := partitionKey t child
  let f := t.node c.fNode
  let (_, idx) ← nodeBinSearch f key
  let f ← if idx < f.size then nodeSetPid f idx child.newNode
    else .ok { f with rightmostPid := child.newNode }
  let (f, off) ← nodeGetFreeOffset f key.length 0
  assert (0 < off)
  let f ← nodeInsertInternalCell f off idx key child.node
  .ok (t.set c.fNode f)

def writeDown (t : Btree) : List Crumb → Except Failure Btree
  | [] => .ok t
  | c :: below => do
      let t ← splitNode t c
      let t ← if (t.node c.node).leaf then .ok t
        else match below with
          | [] => .error .fault
          | child :: _ => linkChild t c child
      writeDown t below

/-- A full page at the top of the plan is the root: the plan goes on upwards
from every other full page. -/
def splitPath (t : Btree) (leaf : Crumb) (above : List ℕ) : Except Failure Btree := do
  let (t, top, below) ← planCrumbs t leaf [] above
  let t ← if top.isFull then splitRoot t top else .ok t
  writeDown t (top :: below)

def insertLeaf (t : Btree) (pid : ℕ) (key value : List UInt8) : Except Failure Btree := do
  let (n, off) ← nodeGetFreeOffset (t.node pid) key.length value.length
  assert (0 < off)
  let (_, idx) ← nodeBinSearch n key
  let n ← nodeInsertLeafCell n off idx key value
  .ok { t.set pid n with count := u32 (t.count + 1) }

/-- The return value, and the tree afterwards. -/
def btreeInsert (t : Btree) (key value : List UInt8) : Except Failure (ℕ × Btree) := do
  match ← descend t key 15 [] t.root with
  | none => .ok (1, t)
  | some [] => .error .fault
  | some (pid :: above) => do
      let (t, leaf) ← planLeaf t key value pid
      let t ← if leaf.isFull then splitPath t leaf above else .ok t
      .ok (0, ← insertLeaf t leaf.fNode key value)

/-- A call that fails no assertion, for a key and a value. -/
def insertStep (t : Btree) (a : List UInt8 × List UInt8) : Option Btree :=
  (btreeInsert t a.1 a.2).toOption.map Prod.snd

/-- The sizes a call can be given. -/
def SizesFit (a : List UInt8 × List UInt8) : Prop := a.1.length < 2 ^ 32 ∧ a.2.length < 2 ^ 32

instance {a : List UInt8 × List UInt8} : Decidable (SizesFit a) :=
  inferInstanceAs (Decidable (_ ∧ _))

/-- What the calls that fail no assertion make of an empty tree on memory of zeroes. -/
def Inserted (t : Btree) : Prop :=
  Reachable insertStep (fun _ a => SizesFit a) (btreeInit fun _ => zeroPage) t

theorem exists_inserted (as : List (List UInt8 × List UInt8)) (P : Btree → Prop) [DecidablePred P]
    (h : ((execute insertStep (fun _ a => SizesFit a) (btreeInit fun _ => zeroPage) as).any
      fun t => decide (P t)) = true) : ∃ t, Inserted t ∧ P t := by
  obtain ⟨t, ht, hp⟩ := exists_of_execute as _ h
  exact ⟨t, ht, of_decide_eq_true hp⟩

end IoScheduler
