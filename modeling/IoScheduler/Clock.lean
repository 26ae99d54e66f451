import IoScheduler.Machine

/-!
# Timestamps and elapsed times

The scheduler reads the realtime clock into `struct timespec` and subtracts in
nanoseconds. `TIME_US`, `TIME_MS` and `TIME_S` convert their argument to an
unsigned 64-bit word at the innermost multiplication only, so a signed
difference of seconds is scaled by `10^6` before it is wrapped.
-/
namespace IoScheduler
open Machine

structure Timespec where
  tvSec : ℤ
  tvNsec : ℤ
  deriving DecidableEq, Repr

def timeUs (x : ℤ) : ℕ := u64 (toU64 x * 1000)

def timeMs (x : ℤ) : ℕ := timeUs (x * 1000)

def timeS (x : ℤ) : ℕ := timeMs (x * 1000)

/-- The expression `page_written`, `page_read`, `file_synced` and
`background_status` write out for the nanoseconds since `issued`. -/
def elapsedNs (now issued : Timespec) : ℕ :=
  u64 (timeS (now.tvSec - issued.tvSec) + toU64 (now.tvNsec - issued.tvNsec))

/-- `page_written`, `page_read` and `file_synced` divide by `TIME_US(1)`. -/
def elapsedUs (now issued : Timespec) : ℕ := elapsedNs now issued / timeUs 1

/-- `background_tracing` subtracts the start seconds outside `TIME_S`. -/
def elapsedTracing (now start : Timespec) : ℕ :=
  u64 (sub64 (timeS now.tvSec) (toU64 start.tvSec) + toU64 (now.tvNsec - start.tvNsec))

end IoScheduler
