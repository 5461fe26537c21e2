import MiniRedis.Lib.Json
import MiniRedis.Text.Grammar

/-!
# Texts in UTF-8

The parser works on bytes and knows only ASCII whitespace. A line that is a text in UTF-8 is never cut
inside a character, so that its words, and with them what a command hands on, are texts as well.
-/
namespace MiniRedis

/-- A text in UTF-8 without control characters; tabs and line ends are allowed. -/
def IsText (b : Bytes) : Prop := ∃ s : List Char, Json.utf8 s = b ∧ ∀ c ∈ s, Json.Printable c

theorem IsText.append {b b' : Bytes} (h : IsText b) (h' : IsText b') : IsText (b ++ b') := by
  obtain ⟨s, rfl, hs⟩ := h
  obtain ⟨s', rfl, hs'⟩ := h'
  refine ⟨s ++ s', Json.utf8_append s s', fun c hc => ?_⟩
  cases List.mem_append.mp hc with
  | inl hc => exact hs c hc
  | inr hc => exact hs' c hc

theorem isText_nil : IsText [] := ⟨[], rfl, by simp⟩

theorem IsText.flatMap {α : Type} {l : List α} {f : α → Bytes} (h : ∀ a ∈ l, IsText (f a)) :
    IsText (l.flatMap f) := by
  induction l with
  | nil => exact isText_nil
  | cons a l ih =>
      obtain ⟨ha, hl⟩ := List.forall_mem_cons.mp h
      exact ha.append (ih hl)

/-- The bytes that are texts by themselves. -/
def plainByte (b : UInt8) : Bool := b == 9 || b == 10 || b == 13 || (32 ≤ b && b < 128)

theorem isText_singleton {b : UInt8} (h : plainByte b = true) : IsText [b] := by
  have hlt : b.toNat < 128 := by
    simp only [plainByte, Bool.or_eq_true, Bool.and_eq_true, beq_iff_eq, decide_eq_true_eq] at h
    rcases h with ((rfl | rfl) | rfl) | ⟨-, h⟩
    · decide
    · decide
    · decide
    · exact UInt8.lt_iff_toNat_lt.mp h
  have hvalid : b.toNat.isValidChar := .inl (by omega)
  have hnat : (Char.ofNat b.toNat).toNat = b.toNat := by
    rw [Char.ofNat, dif_pos hvalid]
    rfl
  refine ⟨[Char.ofNat b.toNat], ?_, ?_⟩
  · have hbyte : (Char.ofNat b.toNat).toUInt8 = b := by
      apply UInt8.toNat_inj.mp
      change (Char.ofNat b.toNat).toNat % 256 = b.toNat
      omega
    simp only [Json.utf8, List.flatMap_cons, List.flatMap_nil, List.append_nil]
    rw [Json.utf8EncodeChar_of_lt (by omega), hbyte]
  · simp only [List.mem_singleton, forall_eq, Json.Printable]
    simp only [plainByte, Bool.or_eq_true, Bool.and_eq_true, beq_iff_eq, decide_eq_true_eq] at h
    rcases h with ((rfl | rfl) | rfl) | ⟨h, -⟩
    · decide
    · decide
    · decide
    · left
      rw [hnat]
      exact UInt8.le_iff_toNat_le.mp h

theorem isText_of_plain {b : Bytes} (h : ∀ x ∈ b, plainByte x = true) : IsText b := by
  have hflat : b.flatMap (fun x => [x]) = b := by simp
  rw [← hflat]
  exact IsText.flatMap fun x hx => isText_singleton (h x hx)

theorem plainByte_of_isdigit {b : UInt8} (h : isdigit b = true) : plainByte b = true := by
  simp only [isdigit, Bool.and_eq_true, decide_eq_true_eq] at h
  have hlow : 32 ≤ b := le_trans (b := 48) (by decide) h.1
  have hhigh : b < 128 := lt_of_le_of_lt (b := 57) h.2 (by decide)
  simp [plainByte, hlow, hhigh]

theorem isText_toString (i : ℤ) : IsText (toString i) := by
  have hdigits : IsText ((Decimal.digitsOf i.natAbs).map digitByte) := by
    refine isText_of_plain fun b hb => ?_
    obtain ⟨d, hd, rfl⟩ := List.mem_map.mp hb
    exact plainByte_of_isdigit (isdigit_digitByte (Decimal.lt_of_mem_digitsOf hd))
  have hminus : IsText (ascii "-") := isText_of_plain (by decide +kernel)
  unfold toString
  dsimp only
  split
  · exact hminus.append hdigits
  · exact hdigits

/-! ## Words -/

/-- The characters that the parser skips. -/
def spaceChar (c : Char) : Bool := c.toNat < 128 && isspace c.toUInt8

/-- Whitespace is ASCII, and no byte of another character is. -/
theorem encodes_utf8 : Splitting.Encodes spaceChar isspace String.utf8EncodeChar := by
  refine ⟨fun c hc => ?_, fun c hc => ?_⟩
  · simp only [spaceChar, Bool.and_eq_true, decide_eq_true_eq] at hc
    exact ⟨c.toUInt8, Json.utf8EncodeChar_of_lt hc.1, hc.2⟩
  · by_cases hlt : c.toNat < 128
    · have hbyte : isspace c.toUInt8 = false := by simpa [spaceChar, hlt] using hc
      simp [Json.utf8EncodeChar_of_lt hlt, hbyte]
    · refine ⟨?_, fun b hb => ?_⟩
      · rw [← List.length_pos_iff, String.length_utf8EncodeChar]
        exact c.utf8Size_pos
      · have hhigh := Json.le_of_mem_utf8EncodeChar (not_lt.mp hlt) hb
        simp only [isspace]
        grind

/-- The words of a text are texts. -/
theorem IsText.of_mem_words {line word : Bytes} (h : IsText line) (hw : word ∈ tcpSplitWs line) :
    IsText word := by
  obtain ⟨s, rfl, hs⟩ := h
  rw [tcpSplitWs, Json.utf8, Splitting.words_flatMap encodes_utf8] at hw
  obtain ⟨v, hv, rfl⟩ := List.mem_map.mp hw
  refine ⟨v, rfl, fun c hc => hs c ?_⟩
  have hmem : c ∈ (Splitting.words spaceChar s).flatten := List.mem_flatten.mpr ⟨v, hv, hc⟩
  rw [Splitting.flatten_words] at hmem
  exact (List.mem_filter.mp hmem).1

/-- What a command of texts hands on are texts. -/
theorem Grammar.isText {ws : List Bytes} {cmd : ParsedTcpCommand} (h : Grammar ws cmd)
    (hws : ∀ w ∈ ws, IsText w) : IsText cmd.key ∧ IsText cmd.value := by
  have hnil := isText_nil
  cases h <;> simp_all

end MiniRedis
