import Mathlib.Data.Nat.ModEq
import Mathlib.Tactic.Linarith

/-!
# Wrapping 64-bit counters

An atomic unsigned counter that is added to and subtracted from. Arithmetic is modulo `2 ^ 64`, so
a subtraction larger than the counter does not fail but borrows. Whether that has ever happened is
remembered beside the value: `borrowed` is instrumentation, nothing a program computes depends on
it.
-/

/-- A 64-bit counter and whether any subtraction from it ever borrowed. -/
structure WordCounter where
  value : ℕ
  borrowed : Bool
  deriving DecidableEq, Repr

namespace WordCounter

def modulus : ℕ := 2 ^ 64

def zero : WordCounter := ⟨0, false⟩

def fetchAdd (n : ℕ) (c : WordCounter) : WordCounter :=
  { c with value := (c.value + n) % modulus }

def fetchSub (n : ℕ) (c : WordCounter) : WordCounter :=
  { value := (c.value + (modulus - n % modulus)) % modulus,
    borrowed := c.borrowed || decide (c.value < n) }

/-- The counter reads `total`, as far as 64 bits can tell. -/
def Reads (c : WordCounter) (total : ℕ) : Prop := c.value = total % modulus

theorem reads_zero : zero.Reads 0 := rfl

theorem reads_fetchAdd {c : WordCounter} {total : ℕ} (h : c.Reads total) (n : ℕ) :
    (c.fetchAdd n).Reads (total + n) := by
  simp only [Reads, fetchAdd] at h ⊢
  rw [h, Nat.mod_add_mod]

theorem reads_fetchSub {c : WordCounter} {total n : ℕ} (h : c.Reads (total + n)) :
    (c.fetchSub n).Reads total := by
  simp only [Reads, fetchSub, modulus] at h ⊢
  omega

/-- A subtraction leaves the reading alone if and only if it takes nothing. -/
theorem reads_fetchSub_iff {c : WordCounter} {total n : ℕ} (h : c.Reads total) (hn : n < modulus) :
    (c.fetchSub n).Reads total ↔ n = 0 := by
  simp only [Reads, fetchSub, modulus] at h hn ⊢
  omega

/-- Adding a remainder is as good as adding the number. -/
theorem reads_fetchAdd_mod {c : WordCounter} {total : ℕ} (h : c.Reads total) (n : ℕ) :
    (c.fetchAdd (n % modulus)).Reads (total + n) := by
  have := reads_fetchAdd h (n % modulus)
  simp only [Reads] at this ⊢
  rw [this, Nat.add_mod_mod]

theorem reads_fetchSub_mod {c : WordCounter} {total n : ℕ} (h : c.Reads (total + n)) :
    (c.fetchSub (n % modulus)).Reads total := by
  apply reads_fetchSub
  simp only [Reads] at h ⊢
  rw [h, Nat.add_mod_mod]

/-- A subtraction of part of a total that fits in 64 bits does not borrow. -/
theorem borrowed_fetchSub {c : WordCounter} {total n : ℕ} (h : c.Reads (total + n))
    (hfit : total + n < modulus) : (c.fetchSub n).borrowed = c.borrowed := by
  have hle : ¬ c.value < n := by
    rw [h, Nat.mod_eq_of_lt hfit]
    omega
  simp [fetchSub, hle]

@[simp] theorem borrowed_fetchAdd (c : WordCounter) (n : ℕ) :
    (c.fetchAdd n).borrowed = c.borrowed := rfl

end WordCounter
