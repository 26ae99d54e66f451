import Mathlib

/-!
# Fixed-width unsigned arithmetic on natural numbers

A machine word is a natural number below its power of two. The three wraps
below are the conversions the C types `__u8`, `__u32` and `__u64` perform on
every store; the differences wrap the way unsigned subtraction does. Nothing
in this module knows which program uses it.
-/
namespace IoScheduler.Machine

def u8 (x : ℕ) : ℕ := x % 2 ^ 8

def u32 (x : ℕ) : ℕ := x % 2 ^ 32

def u64 (x : ℕ) : ℕ := x % 2 ^ 64

/-- Unsigned difference of two 8-bit words. -/
def sub8 (x y : ℕ) : ℕ := u8 (x + (2 ^ 8 - u8 y))

/-- Unsigned difference of two 32-bit words. -/
def sub32 (x y : ℕ) : ℕ := u32 (x + (2 ^ 32 - u32 y))

/-- Unsigned difference of two 64-bit words. -/
def sub64 (x y : ℕ) : ℕ := u64 (x + (2 ^ 64 - u64 y))

/-- Conversion of a signed value of any width to an unsigned 64-bit word. -/
def toU64 (x : ℤ) : ℕ := (x % 2 ^ 64).toNat

/-- Conversion of an unsigned 32-bit word to `int`. -/
def toInt32 (x : ℕ) : ℤ := if u32 x < 2 ^ 31 then (u32 x : ℤ) else (u32 x : ℤ) - 2 ^ 32

theorem u8_of_lt {x : ℕ} (h : x < 2 ^ 8) : u8 x = x := Nat.mod_eq_of_lt h

theorem u32_of_lt {x : ℕ} (h : x < 2 ^ 32) : u32 x = x := Nat.mod_eq_of_lt h

theorem u64_of_lt {x : ℕ} (h : x < 2 ^ 64) : u64 x = x := Nat.mod_eq_of_lt h

theorem u8_lt (x : ℕ) : u8 x < 2 ^ 8 := Nat.mod_lt _ (by norm_num)

theorem u32_lt (x : ℕ) : u32 x < 2 ^ 32 := Nat.mod_lt _ (by norm_num)

theorem u64_lt (x : ℕ) : u64 x < 2 ^ 64 := Nat.mod_lt _ (by norm_num)

theorem u32_le (x : ℕ) : u32 x ≤ x := Nat.mod_le _ _

@[simp] theorem u32_zero : u32 0 = 0 := rfl

@[simp] theorem u8_zero : u8 0 = 0 := rfl

@[simp] theorem u8_u8 (x : ℕ) : u8 (u8 x) = u8 x := Nat.mod_mod _ _

@[simp] theorem u32_u32 (x : ℕ) : u32 (u32 x) = u32 x := Nat.mod_mod _ _

/-- Reducing an argument first changes no wrapped sum. -/
theorem u8_add (x y : ℕ) : u8 (u8 x + y) = u8 (x + y) := by
  simp only [u8, Nat.mod_add_mod]

theorem u32_add (x y : ℕ) : u32 (u32 x + y) = u32 (x + y) := by
  simp only [u32, Nat.mod_add_mod]

theorem u32_add_right (x y : ℕ) : u32 (x + u32 y) = u32 (x + y) := by
  simp only [u32, Nat.add_mod_mod]

/-- Decrementing a wrapped positive counter is the wrap of the predecessor. -/
theorem sub8_one {x : ℕ} (h : 0 < x) : sub8 (u8 x) 1 = u8 (x - 1) := by
  simp only [sub8, u8]
  omega

theorem sub32_of_le {x y : ℕ} (hx : x < 2 ^ 32) (h : y ≤ x) : sub32 x y = x - y := by
  simp only [sub32, u32]
  omega

theorem sub32_of_lt {x y : ℕ} (hy : y < 2 ^ 32) (h : x < y) : sub32 x y = x + 2 ^ 32 - y := by
  simp only [sub32, u32]
  omega

theorem sub64_of_le {x y : ℕ} (hx : x < 2 ^ 64) (h : y ≤ x) : sub64 x y = x - y := by
  simp only [sub64, u64]
  omega

end IoScheduler.Machine
