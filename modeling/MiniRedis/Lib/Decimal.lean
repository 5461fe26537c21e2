import Mathlib.Data.Nat.Digits.Lemmas

/-!
# Decimal notation

The digits of a number, most significant first, and the value of a list of digits. Reading back
what was written gives the same number.
-/
namespace Decimal

/-- The decimal digits of `n`, most significant first. -/
def digitsOf (n : ℕ) : List ℕ := if n = 0 then [0] else (Nat.digits 10 n).reverse

/-- The value of a list of digits. -/
def valueOf (ds : List ℕ) : ℕ := ds.foldl (fun acc d => 10 * acc + d) 0

theorem digitsOf_ne_nil (n : ℕ) : digitsOf n ≠ [] := by
  unfold digitsOf
  split
  · simp
  · next hn => simpa [Nat.digits_eq_nil_iff_eq_zero] using hn

theorem lt_of_mem_digitsOf {n d : ℕ} (hd : d ∈ digitsOf n) : d < 10 := by
  unfold digitsOf at hd
  split at hd
  · simp only [List.mem_singleton] at hd
    omega
  · exact Nat.digits_lt_base (by omega) (List.mem_reverse.mp hd)

/-- There are no leading zeros. -/
theorem digitsOf_cases (n : ℕ) : digitsOf n = [0] ∨ ∃ d ds, digitsOf n = d :: ds ∧ d ≠ 0 := by
  unfold digitsOf
  split
  · exact .inl rfl
  · next hn =>
    right
    have hne : Nat.digits 10 n ≠ [] := by simpa [Nat.digits_eq_nil_iff_eq_zero] using hn
    have hlast := Nat.getLast_digit_ne_zero 10 hn
    refine ⟨(Nat.digits 10 n).getLast hne, (Nat.digits 10 n).dropLast.reverse, ?_, hlast⟩
    have hcut := congrArg List.reverse (List.dropLast_append_getLast hne)
    rw [← hcut, List.reverse_append]
    rfl

/-- **What was written is read back.** -/
theorem valueOf_digitsOf (n : ℕ) : valueOf (digitsOf n) = n := by
  unfold valueOf digitsOf
  split
  · next hn => simp [hn]
  · have hfold := Nat.ofDigits_digits 10 n
    rw [Nat.ofDigits_eq_foldr] at hfold
    rw [List.foldl_reverse]
    simpa [Nat.add_comm] using hfold

end Decimal
