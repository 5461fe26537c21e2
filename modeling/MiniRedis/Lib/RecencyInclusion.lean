import MiniRedis.Lib.RecencyList

/-!
# The inclusion property

Two recency lists with different bounds undergo the same operations. `Included m n xs ys` says that
the list `xs` with bound `m` is a part of the list `ys` with bound `n`, in the same order of use, and
that `ys` has no more entries in excess of `xs` than its bound has. Every operation keeps it: what
the larger list drops, the smaller one drops as well.
-/

namespace RecencyList
variable {κ β : Type}

structure Included (m n : ℕ) (xs ys : RecencyList κ β) : Prop where
  sublist : xs.entries.Sublist ys.entries
  slack : ys.card + m ≤ xs.card + n
  small : xs.card ≤ m
  large : ys.card ≤ n

/-- A filter drops at least as much from the larger list. -/
theorem length_filter_add_le {α : Type} {l₁ l₂ : List α} (h : l₁.Sublist l₂) (p : α → Bool) :
    (l₂.filter p).length + l₁.length ≤ (l₁.filter p).length + l₂.length := by
  have hdropped := h.countP_le (p := fun x => !p x)
  have h₁ := List.length_eq_countP_add_countP p (l := l₁)
  have h₂ := List.length_eq_countP_add_countP p (l := l₂)
  rw [← List.countP_eq_length_filter, ← List.countP_eq_length_filter]
  simp only [Bool.not_eq_true, Bool.decide_eq_false] at h₁ h₂
  omega

theorem dropLast_sublist {α : Type} {l₁ l₂ : List α} (h : l₁.Sublist l₂) :
    l₁.dropLast.Sublist l₂.dropLast := by
  have := h.reverse.tail.reverse
  simpa using this

theorem card_bound {cap : ℕ} {xs : RecencyList κ β} (h : xs.card ≤ cap + 1) :
    (bound cap xs).card = min cap xs.card := by
  by_cases hlt : cap < xs.card
  · rw [bound_of_lt hlt, AList.card_dropLast]
    omega
  · rw [bound_of_le (by omega)]
    omega

namespace Included
variable {m n : ℕ} {xs ys : RecencyList κ β}

theorem empty (h : m ≤ n) : Included m n (∅ : RecencyList κ β) ∅ := by
  refine ⟨List.Sublist.refl _, ?_, ?_, ?_⟩ <;> simp [h]

theorem filterEntries (h : Included m n xs ys) (p : κ → β → Bool) :
    Included m n (xs.filterEntries p) (ys.filterEntries p) := by
  have hcount := length_filter_add_le h.sublist fun x => p x.1 x.2
  have hslack := h.slack
  have hxs := AList.card_filterEntries_le p xs
  have hys := AList.card_filterEntries_le p ys
  refine ⟨h.sublist.filter _, ?_, hxs.trans h.small, hys.trans h.large⟩
  simp only [AList.card, AList.filterEntries] at hslack ⊢
  omega

variable [DecidableEq κ]

/-- What the smaller list has the larger one has. -/
theorem lookup (h : Included m n xs ys) {k : κ} {b : β} (hk : xs.lookup k = some b) :
    ys.lookup k = some b :=
  AList.mem_lookup_iff.mpr (h.sublist.subset (AList.mem_lookup_iff.mp hk))

theorem lookup_none (h : Included m n xs ys) {k : κ} (hk : ys.lookup k = none) :
    xs.lookup k = none := by
  cases hx : xs.lookup k with
  | none => rfl
  | some b => rw [h.lookup hx] at hk; cases hk

theorem erase (h : Included m n xs ys) (k : κ) : Included m n (xs.erase k) (ys.erase k) := by
  have hslack := h.slack
  have hx := AList.card_erase_le xs k
  have hy := AList.card_erase_le ys k
  refine ⟨h.sublist.eraseP, ?_, hx.trans h.small, hy.trans h.large⟩
  cases hk : xs.lookup k with
  | some b =>
      have hxe := AList.card_erase hk
      have hye := AList.card_erase (h.lookup hk)
      omega
  | none =>
      have hxe : xs.erase k = xs :=
        AList.ext (List.kerase_of_notMem_keys (AList.lookup_eq_none.mp hk))
      rw [hxe]
      omega

/-- The same write to both: the larger list drops an entry only if the smaller one does. -/
theorem put (h : Included m n xs ys) (k : κ) (b : β) :
    Included m n (RecencyList.put m k b xs) (RecencyList.put n k b ys) := by
  have hslack := h.slack
  have hsmall := h.small
  have hlarge := h.large
  have hsub : (xs.insert k b).entries.Sublist (ys.insert k b).entries := h.sublist.eraseP.cons_cons _
  have hcards : (xs.insert k b).card = xs.card ∧ (ys.insert k b).card = ys.card ∨
      (xs.insert k b).card = xs.card + 1 ∧ (ys.insert k b).card = ys.card ∨
      (xs.insert k b).card = xs.card + 1 ∧ (ys.insert k b).card = ys.card + 1 := by
    cases hy : ys.lookup k with
    | none =>
        exact .inr (.inr ⟨AList.card_insert_of_lookup_none (h.lookup_none hy) b,
          AList.card_insert_of_lookup_none hy b⟩)
    | some b' =>
        cases hx : xs.lookup k with
        | none => exact .inr (.inl ⟨AList.card_insert_of_lookup_none hx b,
            AList.card_insert_of_lookup hy b⟩)
        | some b'' => exact .inl ⟨AList.card_insert_of_lookup hx b, AList.card_insert_of_lookup hy b⟩
  refine ⟨?_, ?_, card_put_le m k b hsmall, card_put_le n k b hlarge⟩
  · unfold RecencyList.put bound
    split <;> split
    · exact dropLast_sublist hsub
    · exact (List.dropLast_sublist _).trans hsub
    · omega
    · exact hsub
  · rw [RecencyList.put, RecencyList.put, card_bound (by omega), card_bound (by omega)]
    omega

/-- A larger list that evicts for a new key has a full smaller one. -/
theorem full (h : Included m n xs ys) {k : κ} {b : β} (hover : n < (ys.insert k b).card) :
    m < (xs.insert k b).card := by
  have hslack := h.slack
  have hlarge := h.large
  cases hy : ys.lookup k with
  | none =>
      rw [AList.card_insert_of_lookup_none hy] at hover
      rw [AList.card_insert_of_lookup_none (h.lookup_none hy)]
      omega
  | some b' =>
      rw [AList.card_insert_of_lookup hy] at hover
      omega

/-- A use of a key that only the larger list has. -/
theorem touch_large (h : Included m n xs ys) {k : κ} (hk : xs.lookup k = none) :
    Included m n xs (RecencyList.touch k ys) := by
  refine ⟨?_, ?_, h.small, (card_touch k ys).trans_le h.large⟩
  · unfold RecencyList.touch
    split
    · have hxe : List.kerase k xs.entries = xs.entries :=
        List.kerase_of_notMem_keys (AList.lookup_eq_none.mp hk)
      exact List.Sublist.cons _ (hxe ▸ h.sublist.eraseP)
    · exact h.sublist
  · rw [card_touch]
    exact h.slack

theorem touch (h : Included m n xs ys) (k : κ) :
    Included m n (RecencyList.touch k xs) (RecencyList.touch k ys) := by
  cases hk : xs.lookup k with
  | none =>
      have hx : RecencyList.touch k xs = xs := by simp only [RecencyList.touch, hk]
      rw [hx]
      exact h.touch_large hk
  | some b =>
      have hx : RecencyList.touch k xs = xs.insert k b := by simp only [RecencyList.touch, hk]
      have hy : RecencyList.touch k ys = ys.insert k b := by
        simp only [RecencyList.touch, h.lookup hk]
      have hslack := h.slack
      refine ⟨?_, ?_, (card_touch k xs).trans_le h.small, (card_touch k ys).trans_le h.large⟩
      · rw [hx, hy]
        exact h.sublist.eraseP.cons_cons _
      · rw [card_touch, card_touch]
        exact hslack

/-- An erasure of a key that only the larger list has. -/
theorem erase_large (h : Included m n xs ys) {k : κ} (hk : xs.lookup k = none) :
    Included m n xs (ys.erase k) := by
  have hxe : xs.erase k = xs :=
    AList.ext (List.kerase_of_notMem_keys (AList.lookup_eq_none.mp hk))
  have := h.erase k
  rwa [hxe] at this

end Included
end RecencyList
