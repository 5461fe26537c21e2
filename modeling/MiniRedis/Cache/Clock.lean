import Mathlib.Tactic.Linarith

/-!
# The clock of the cache

Time points of `std::chrono::steady_clock` are signed 64-bit counts of nanoseconds, and a ttl is a
signed 64-bit count of milliseconds. `now + ttl` converts the ttl to nanoseconds and then adds,
both in 64-bit arithmetic; `wrap64` stands for what happens past the limits.
-/
namespace MiniRedis

/-- `Clock::time_point`, in nanoseconds. -/
abbrev TimePoint := ℤ

/-- `std::chrono::milliseconds`. -/
abbrev Millis := ℤ

def nsPerMs : ℤ := 1000000

/-- Signed 64-bit wrap-around. -/
def wrap64 (x : ℤ) : ℤ := x.bmod (2 ^ 64)

/-- `now + ttl.value()`. -/
def expiryAt (now : TimePoint) (ttl : Millis) : TimePoint := wrap64 (now + wrap64 (ttl * nsPerMs))

theorem wrap64_le {x : ℤ} (h : -2 ^ 63 ≤ x) : wrap64 x ≤ x := by
  unfold wrap64
  rw [Int.bmod_def]
  split <;> omega

theorem neg_le_wrap64 (x : ℤ) : -2 ^ 63 ≤ wrap64 x := by
  unfold wrap64
  rw [Int.bmod_def]
  split <;> omega

theorem wrap64_lt (x : ℤ) : wrap64 x < 2 ^ 63 := by
  unfold wrap64
  rw [Int.bmod_def]
  split <;> omega

theorem wrap64_eq {x : ℤ} (hlow : -2 ^ 63 ≤ x) (hhigh : x < 2 ^ 63) : wrap64 x = x := by
  unfold wrap64
  rw [Int.bmod_def]
  split <;> omega

/-- A sum that is too large wraps around once. -/
theorem wrap64_of_le {x : ℤ} (hlow : 2 ^ 63 ≤ x) (hhigh : x < 2 ^ 64) : wrap64 x = x - 2 ^ 64 := by
  unfold wrap64
  rw [Int.bmod_def]
  split <;> omega

/-- The conversion of the ttl may wrap around: what counts is the sum. -/
theorem expiryAt_eq (now ttl : ℤ) : expiryAt now ttl = wrap64 (now + ttl * nsPerMs) :=
  Int.add_bmod_bmod

/-- A deadline never lies beyond the ttl, also if the arithmetic wraps around. -/
theorem expiryAt_le {now ttl : ℤ} (hnow : 0 ≤ now) (httl : 0 ≤ ttl) :
    expiryAt now ttl ≤ now + ttl * nsPerMs := by
  have hns : 0 ≤ ttl * nsPerMs := Int.mul_nonneg httl (by decide)
  have hlow := neg_le_wrap64 (ttl * nsPerMs)
  have hle : wrap64 (ttl * nsPerMs) ≤ ttl * nsPerMs := wrap64_le (by omega)
  have hsum : wrap64 (now + wrap64 (ttl * nsPerMs)) ≤ now + wrap64 (ttl * nsPerMs) :=
    wrap64_le (by omega)
  exact hsum.trans (Int.add_le_add_left hle now)

theorem tdiv_nsPerMs_lt {x : ℤ} (h : x < 2 ^ 63) : x.tdiv nsPerMs < 2 ^ 63 := by
  have hsign : Int.sign 1000000 = 1 := rfl
  rw [Int.tdiv_eq_ediv, nsPerMs, hsign]
  split <;> omega

end MiniRedis
