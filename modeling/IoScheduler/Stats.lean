import IoScheduler.Machine

/-!
# Sliding-window buckets of the status line

A bucket is a ring of `len` intervals with the running sums of their values
and lengths. `idx` runs freely and is reduced at each access; the sums are
unsigned 64-bit words that `stats_bucket_move` adjusts by the evicted slot.
-/
namespace IoScheduler
open Machine

structure BucketItem where
  val : ℕ
  elapsed : ℕ
  deriving DecidableEq, Repr, Inhabited

structure Bucket where
  buf : List BucketItem
  accTime : ℕ
  accVal : ℕ
  len : ℕ
  idx : ℕ
  deriving DecidableEq, Repr

/-- `calloc` zeroes the items. -/
def statsBucketInit (len : ℕ) : Bucket :=
  { buf := List.replicate len ⟨0, 0⟩, accTime := 0, accVal := 0, len, idx := 0 }

def statsBucketAdd (b : Bucket) (val : ℕ) : Bucket :=
  let i := b.idx % b.len
  { b with
    accVal := u64 (b.accVal + val)
    buf := b.buf.modify i fun item => { item with val := u64 (item.val + val) } }

def statsBucketAddOne (b : Bucket) : Bucket := statsBucketAdd b 1

def statsBucketMove (b : Bucket) (elapsed : ℕ) : Bucket :=
  let idx := u32 (b.idx + 1)
  let nextIdx := idx % b.len
  let old := b.buf.getD nextIdx ⟨0, 0⟩
  { b with
    idx
    accVal := sub64 b.accVal old.val
    accTime := u64 (sub64 b.accTime old.elapsed + elapsed)
    buf := b.buf.set nextIdx ⟨0, elapsed⟩ }

end IoScheduler
