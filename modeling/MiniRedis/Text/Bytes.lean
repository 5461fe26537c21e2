import MiniRedis.Lib.Decimal
import MiniRedis.Lib.Splitting
import Mathlib.Data.List.TakeWhile

/-!
# Byte strings

`std::string` as a list of bytes, with the functions of the C and C++ libraries that the command
parser and the persistence code use, in the "C" locale.
-/
namespace MiniRedis

/-- `std::string` -/
abbrev Bytes := List UInt8

/-- The bytes of a literal. -/
def ascii (s : String) : Bytes := s.toList.map Char.toUInt8

/-- `'\n'` -/
def newline : UInt8 := 10

def isspace (b : UInt8) : Bool := b == 32 || (9 ≤ b && b ≤ 13)

def isdigit (b : UInt8) : Bool := 48 ≤ b && b ≤ 57

def toupper (b : UInt8) : UInt8 := if 97 ≤ b && b ≤ 122 then b - 32 else b

def tcpTrim (input : Bytes) : Bytes := Splitting.trim isspace input

def tcpUpper (value : Bytes) : Bytes := value.map toupper

def tcpSplitWs (input : Bytes) : List Bytes := Splitting.words isspace input

def digitByte (d : ℕ) : UInt8 := UInt8.ofNat (48 + d)

/-- `std::to_string` of a `long long`. -/
def toString (i : ℤ) : Bytes :=
  let digits := (Decimal.digitsOf i.natAbs).map digitByte
  if i < 0 then ascii "-" ++ digits else digits

/-- An optional sign: is the number negative, and how long is the sign? -/
def signOf : Bytes → Bool × ℕ
  | b :: _ => if b = 45 then (true, 1) else if b = 43 then (false, 1) else (false, 0)
  | [] => (false, 0)

/-- `std::stoll` in base ten: the number and the position of the first byte after it. There is none
if it throws, because there is no digit or the number is out of range. -/
def stoll (s : Bytes) : Option (ℤ × ℕ) :=
  let start := (s.takeWhile isspace).length
  let sign := signOf (s.drop start)
  let digits := (s.drop (start + sign.2)).takeWhile isdigit
  if digits.isEmpty then none
  else
    let n : ℤ := Decimal.valueOf (digits.map fun b => b.toNat - 48)
    let n := if sign.1 then -n else n
    if n < -2 ^ 63 ∨ 2 ^ 63 ≤ n then none else some (n, start + sign.2 + digits.length)

theorem stoll_lt {s : Bytes} {n : ℤ} {pos : ℕ} (h : stoll s = some (n, pos)) : n < 2 ^ 63 := by
  simp only [stoll] at h
  split at h
  · cases h
  · split at h <;> split at h
    all_goals first
      | cases h
        done
      | simp only [Option.some.injEq, Prod.mk.injEq] at h
        omega

/-! ## Reading back a written number -/

theorem toNat_digitByte {d : ℕ} (hd : d < 10) : (digitByte d).toNat = 48 + d := by
  simp only [digitByte, UInt8.toNat_ofNat']
  omega

theorem isdigit_digitByte {d : ℕ} (hd : d < 10) : isdigit (digitByte d) = true := by
  simp only [isdigit, Bool.and_eq_true, decide_eq_true_eq, UInt8.le_iff_toNat_le,
    toNat_digitByte hd]
  constructor
  · change 48 ≤ 48 + d
    omega
  · change 48 + d ≤ 57
    omega

theorem le_toNat_of_isdigit {b : UInt8} (h : isdigit b = true) : 48 ≤ b.toNat := by
  simp only [isdigit, Bool.and_eq_true, decide_eq_true_eq] at h
  exact UInt8.le_iff_toNat_le.mp h.1

theorem isspace_of_isdigit {b : UInt8} (h : isdigit b = true) : isspace b = false := by
  have hb := le_toNat_of_isdigit h
  have hne : b ≠ 32 := by
    rintro rfl
    exact absurd hb (by decide)
  have hlt : ¬ b ≤ 13 := by
    intro hle
    have : b.toNat ≤ 13 := UInt8.le_iff_toNat_le.mp hle
    omega
  simp [isspace, hne, hlt]

theorem signOf_of_isdigit {b : UInt8} (h : isdigit b = true) (l : Bytes) :
    signOf (b :: l) = (false, 0) := by
  have hb := le_toNat_of_isdigit h
  have hminus : b ≠ 45 := by
    rintro rfl
    exact absurd hb (by decide)
  have hplus : b ≠ 43 := by
    rintro rfl
    exact absurd hb (by decide)
  simp [signOf, hminus, hplus]

/-- The digits that `to_string` writes. -/
theorem isdigit_of_mem_toString {i : ℤ} (hi : 0 ≤ i) {b : UInt8} (hb : b ∈ toString i) :
    isdigit b = true := by
  simp only [toString, if_neg (not_lt.mpr hi)] at hb
  obtain ⟨d, hd, rfl⟩ := List.mem_map.mp hb
  exact isdigit_digitByte (Decimal.lt_of_mem_digitsOf hd)

theorem toString_ne_nil {i : ℤ} (hi : 0 ≤ i) : toString i ≠ [] := by
  simp only [toString, if_neg (not_lt.mpr hi), ne_eq, List.map_eq_nil_iff]
  exact Decimal.digitsOf_ne_nil _

theorem valueOf_toString {i : ℤ} (hi : 0 ≤ i) :
    (Decimal.valueOf ((toString i).map fun b => b.toNat - 48) : ℤ) = i := by
  have hmap : ((Decimal.digitsOf i.natAbs).map digitByte).map (fun b => b.toNat - 48)
      = Decimal.digitsOf i.natAbs := by
    rw [List.map_map]
    refine (List.map_congr_left fun d hd => ?_).trans (List.map_id _)
    simp only [Function.comp_apply, toNat_digitByte (Decimal.lt_of_mem_digitsOf hd), id]
    omega
  simp only [toString, if_neg (not_lt.mpr hi), hmap, Decimal.valueOf_digitsOf]
  exact Int.natAbs_of_nonneg hi

/-- A written number is digits, after a sign if it is negative. -/
theorem isspace_of_mem_toString {i : ℤ} {b : UInt8} (hb : b ∈ toString i) : isspace b = false := by
  by_cases hi : 0 ≤ i
  · exact isspace_of_isdigit (isdigit_of_mem_toString hi hb)
  · simp only [toString, if_pos (not_le.mp hi), List.mem_append] at hb
    cases hb with
    | inl hminus =>
        have : ∀ c ∈ ascii "-", isspace c = false := by decide +kernel
        exact this b hminus
    | inr hdigit =>
        obtain ⟨d, hd, rfl⟩ := List.mem_map.mp hdigit
        exact isspace_of_isdigit (isdigit_digitByte (Decimal.lt_of_mem_digitsOf hd))

/-- **`stoll` reads back what `to_string` wrote**, to its last byte. -/
theorem stoll_toString {i : ℤ} (hi : 0 ≤ i) (hlt : i < 2 ^ 63) :
    stoll (toString i) = some (i, (toString i).length) := by
  have hall : ∀ b ∈ toString i, isdigit b = true := fun b hb => isdigit_of_mem_toString hi hb
  have hvalue := valueOf_toString hi
  have hne := toString_ne_nil hi
  obtain ⟨b, l, hl⟩ := List.exists_cons_of_ne_nil hne
  have hb : isdigit b = true := hall b (by rw [hl]; exact List.mem_cons_self)
  have hspace : (toString i).takeWhile isspace = [] := by
    rw [hl, List.takeWhile_cons, isspace_of_isdigit hb]
    rfl
  have hsign : signOf (toString i) = (false, 0) := by rw [hl, signOf_of_isdigit hb]
  have hdigits : (toString i).takeWhile isdigit = toString i :=
    List.takeWhile_eq_self_iff.mpr hall
  have hempty : (toString i).isEmpty = false := by simpa using hne
  simp only [stoll, hspace, List.length_nil, List.drop_zero, hsign, Nat.add_zero, hdigits, hempty,
    Bool.false_eq_true, if_false, hvalue, Nat.zero_add]
  rw [if_neg]
  omega

end MiniRedis
