import IoScheduler.Clock

/-!
# The elapsed times and the true difference

A signed difference of seconds may be scaled before or after it is wrapped, as
long as all of it is scaled: the wraps cancel and the difference of the two
timestamps in nanoseconds is left. `background_tracing` scales the seconds of
the present only.
-/
namespace IoScheduler
open Machine

/-- The true difference of two timestamps in nanoseconds. -/
def sinceNs (now issued : Timespec) : ℤ :=
  (now.tvSec - issued.tvSec) * 10 ^ 9 + (now.tvNsec - issued.tvNsec)

variable {now issued start : Timespec}

/-! ## Conversions modulo `2 ^ 64` -/

theorem toU64_modEq (x : ℤ) : (toU64 x : ℤ) ≡ x [ZMOD 2 ^ 64] := by
  rw [toU64, Int.toNat_of_nonneg (Int.emod_nonneg x (by norm_num))]
  exact Int.mod_modEq x _

theorem u64_modEq (x : ℕ) : (u64 x : ℤ) ≡ x [ZMOD 2 ^ 64] := by
  rw [u64, Int.natCast_mod]
  exact Int.mod_modEq _ _

theorem sub64_modEq (x y : ℕ) : (sub64 x y : ℤ) ≡ x - y [ZMOD 2 ^ 64] := by
  have hle : u64 y ≤ 2 ^ 64 := (u64_lt y).le
  have hwrap : ((2 ^ 64 : ℕ) - u64 y : ℤ) ≡ 0 - y [ZMOD 2 ^ 64] := by
    apply Int.ModEq.sub
    · rw [Nat.cast_pow]
      exact Int.modEq_zero_iff_dvd.mpr (dvd_refl _)
    · exact u64_modEq y
  rw [sub64]
  refine (u64_modEq _).trans ?_
  rw [Nat.cast_add, Nat.cast_sub hle]
  simpa [sub_eq_add_neg] using hwrap.add_left (x : ℤ)

theorem timeS_modEq (x : ℤ) : (timeS x : ℤ) ≡ x * 10 ^ 9 [ZMOD 2 ^ 64] := by
  rw [timeS, timeMs, timeUs]
  refine (u64_modEq _).trans ?_
  rw [Nat.cast_mul]
  calc (toU64 (x * 1000 * 1000) : ℤ) * (1000 : ℕ)
      ≡ x * 1000 * 1000 * (1000 : ℕ) [ZMOD 2 ^ 64] := (toU64_modEq _).mul_right _
    _ = x * 10 ^ 9 := by norm_num; ring

/-- Two numbers of one word with one remainder are equal. -/
theorem eq_of_modEq_word {x : ℕ} {y : ℤ} (h : (x : ℤ) ≡ y [ZMOD 2 ^ 64]) (hx : x < 2 ^ 64)
    (h₀ : 0 ≤ y) (hy : y < 2 ^ 64) : (x : ℤ) = y := by
  have hx' : (x : ℤ) < 2 ^ 64 := by exact_mod_cast hx
  have heq : (x : ℤ) % 2 ^ 64 = y % 2 ^ 64 := h
  rwa [Int.emod_eq_of_lt (Int.natCast_nonneg x) hx', Int.emod_eq_of_lt h₀ hy] at heq

/-! ## The five computations -/

theorem elapsedNs_eq (h₀ : 0 ≤ sinceNs now issued) (h : sinceNs now issued < 2 ^ 63) :
    (elapsedNs now issued : ℤ) = sinceNs now issued := by
  refine eq_of_modEq_word ?_ (u64_lt _) h₀ (by omega)
  refine (u64_modEq _).trans ?_
  rw [Nat.cast_add, sinceNs]
  exact (timeS_modEq _).add (toU64_modEq _)

theorem elapsedUs_eq (h₀ : 0 ≤ sinceNs now issued) (h : sinceNs now issued < 2 ^ 63) :
    (elapsedUs now issued : ℤ) = sinceNs now issued / 1000 := by
  have hone : timeUs 1 = 1000 := by decide
  rw [elapsedUs, hone, ← elapsedNs_eq h₀ h, Int.natCast_div]
  rfl

/-- The seconds of the start come in without their nine zeroes. -/
theorem elapsedTracing_modEq (now start : Timespec) : (elapsedTracing now start : ℤ) ≡
    sinceNs now start + start.tvSec * (10 ^ 9 - 1) [ZMOD 2 ^ 64] := by
  rw [elapsedTracing]
  refine (u64_modEq _).trans ?_
  rw [Nat.cast_add]
  have hsec : (sub64 (timeS now.tvSec) (toU64 start.tvSec) : ℤ) ≡
      now.tvSec * 10 ^ 9 - start.tvSec [ZMOD 2 ^ 64] :=
    (sub64_modEq _ _).trans ((timeS_modEq _).sub (toU64_modEq _))
  have hsplit : sinceNs now start + start.tvSec * (10 ^ 9 - 1) =
      now.tvSec * 10 ^ 9 - start.tvSec + (now.tvNsec - start.tvNsec) := by
    rw [sinceNs]
    ring
  rw [hsplit]
  exact hsec.add (toU64_modEq _)

/-- The five elapsed times agree with the true difference exactly when tracing
started in the second the clock counts from. -/
theorem elapsed_agree_iff (hlow : -2 ^ 63 ≤ issued.tvSec) (hhigh : issued.tvSec < 2 ^ 63)
    (h₀ : 0 ≤ sinceNs now issued) (h : sinceNs now issued < 2 ^ 63) :
    ((elapsedUs now issued : ℤ) = sinceNs now issued / 1000 ∧
      (elapsedNs now issued : ℤ) = sinceNs now issued ∧
      (elapsedTracing now issued : ℤ) = sinceNs now issued) ↔ issued.tvSec = 0 := by
  refine ⟨fun hagree => ?_, fun hzero => ⟨elapsedUs_eq h₀ h, elapsedNs_eq h₀ h, ?_⟩⟩
  · have hmod := elapsedTracing_modEq now issued
    rw [hagree.2.2] at hmod
    have hdvd : (2 ^ 64 : ℤ) ∣ issued.tvSec * (10 ^ 9 - 1) := by
      have hsub := hmod.dvd
      rwa [add_sub_cancel_left] at hsub
    -- the factor that is missing is odd
    have hcoprime : IsCoprime (2 ^ 64 : ℤ) (10 ^ 9 - 1) := by
      rw [Int.isCoprime_iff_gcd_eq_one]
      norm_num
    exact Int.eq_zero_of_abs_lt_dvd (hcoprime.dvd_of_dvd_mul_right hdvd)
      (abs_lt.mpr ⟨by linarith, by linarith⟩)
  · have hmod := elapsedTracing_modEq now issued
    have hnone : issued.tvSec * (10 ^ 9 - 1) = 0 := by rw [hzero, zero_mul]
    rw [hnone, add_zero] at hmod
    have hlt : elapsedTracing now issued < 2 ^ 64 := by
      rw [elapsedTracing]
      exact u64_lt _
    exact eq_of_modEq_word hmod hlt h₀ (by omega)

theorem elapsed_agree_iff_epoch : (elapsedTracing ⟨3, 5⟩ ⟨0, 500000000⟩ : ℤ) = 2500000005 :=
  ((@elapsed_agree_iff ⟨3, 5⟩ ⟨0, 500000000⟩ (by decide) (by decide)
    (by decide) (by decide)).mpr rfl).2.2

/-- Half a second after a start in the second second, tracing counts nearly one
and a half. -/
theorem tracing_counts_too_much : sinceNs ⟨1, 500000000⟩ ⟨1, 0⟩ = 500000000 ∧
    elapsedTracing ⟨1, 500000000⟩ ⟨1, 0⟩ = 1499999999 ∧
    (elapsedTracing ⟨1, 500000000⟩ ⟨1, 0⟩ : ℤ) ≠ sinceNs ⟨1, 500000000⟩ ⟨1, 0⟩ := by
  decide

end IoScheduler
