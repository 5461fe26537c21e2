import MiniRedis.Lib.RecencyList
import Mathlib.Data.Finset.Card

/-!
# The working set of a recency list

`Ahead k b used xs` says that `xs` holds `b` under `k` and that every key more recent than `k` is in
the set `used`. A use of another key adds that key to the set and nothing else does. While the set is
smaller than the bound of the list, `k` is not the entry that is dropped.
-/

namespace RecencyList
variable {κ β : Type}

/-- The entry of `k`, behind used keys only. -/
def Ahead (k : κ) (b : β) (used : Finset κ) (xs : RecencyList κ β) : Prop :=
  ∃ l₁ l₂, xs.entries = l₁ ++ ⟨k, b⟩ :: l₂ ∧ ∀ x ∈ l₁, x.1 ∈ used

namespace Ahead
variable {k : κ} {b : β} {used : Finset κ} {xs : RecencyList κ β}

theorem mono {used' : Finset κ} (h : Ahead k b used xs) (hused : used ⊆ used') :
    Ahead k b used' xs := by
  obtain ⟨l₁, l₂, hxs, hl₁⟩ := h
  exact ⟨l₁, l₂, hxs, fun x hx => hused (hl₁ x hx)⟩

/-- Fewer used keys than the bound leave room for `k`. -/
theorem bound (h : Ahead k b used xs) {cap : ℕ} (hfew : used.card < cap) :
    Ahead k b used (RecencyList.bound cap xs) := by
  obtain ⟨l₁, l₂, hxs, hl₁⟩ := h
  by_cases hover : cap < xs.card
  · rw [bound_of_lt hover]
    rcases List.eq_nil_or_concat l₂ with rfl | ⟨l, x, rfl⟩
    · -- `k` is the last entry: all the others are used keys, and there are too many of them
      have hnodup : (l₁.map Sigma.fst).Nodup := by
        have hkeys := xs.nodupKeys
        rw [hxs] at hkeys
        exact ((List.sublist_append_left _ _).map _).nodup hkeys
      have hlen : xs.card = l₁.length + 1 := by simp [AList.card, hxs]
      have hle : l₁.length ≤ used.card := by
        rw [← List.length_map (f := Sigma.fst), ← Multiset.coe_card]
        refine Finset.card_le_card (s := ⟨_, Multiset.coe_nodup.mpr hnodup⟩) ?_
        intro j hj
        obtain ⟨x, hx, rfl⟩ := List.mem_map.mp (Multiset.mem_coe.mp hj)
        exact hl₁ x hx
      omega
    · refine ⟨l₁, l, ?_, hl₁⟩
      change xs.entries.dropLast = _
      rw [hxs, List.concat_eq_append, ← List.cons_append, ← List.append_assoc, List.dropLast_concat]
  · rw [bound_of_le (Nat.le_of_not_lt hover)]
    exact ⟨l₁, l₂, hxs, hl₁⟩

theorem filterEntries (h : Ahead k b used xs) {p : κ → β → Bool} (hp : p k b = true) :
    Ahead k b used (xs.filterEntries p) := by
  obtain ⟨l₁, l₂, hxs, hl₁⟩ := h
  refine ⟨l₁.filter fun x => p x.1 x.2, l₂.filter fun x => p x.1 x.2, ?_, ?_⟩
  · change xs.entries.filter _ = _
    simp [hxs, hp]
  · intro x hx
    exact hl₁ x (List.mem_of_mem_filter hx)

variable [DecidableEq κ]

theorem lookup (h : Ahead k b used xs) : xs.lookup k = some b := by
  obtain ⟨l₁, l₂, hxs, -⟩ := h
  refine AList.mem_lookup_iff.mpr ?_
  rw [hxs]
  simp

/-- Who has just been written is behind nobody. -/
theorem insert_self (used : Finset κ) (k : κ) (b : β) (xs : RecencyList κ β) :
    Ahead k b used (xs.insert k b) :=
  ⟨[], (xs.erase k).entries, rfl, by simp⟩

theorem erase (h : Ahead k b used xs) {j : κ} (hj : j ≠ k) : Ahead k b used (xs.erase j) := by
  obtain ⟨l₁, l₂, hxs, hl₁⟩ := h
  have herase : (xs.erase j).entries = List.kerase j (l₁ ++ ⟨k, b⟩ :: l₂) := by rw [← hxs]; rfl
  by_cases hmem : j ∈ l₁.keys
  · refine ⟨List.kerase j l₁, l₂, herase.trans (List.kerase_append_left hmem), ?_⟩
    intro x hx
    exact hl₁ x ((List.kerase_sublist j l₁).subset hx)
  · refine ⟨l₁, List.kerase j l₂, ?_, hl₁⟩
    rw [herase, List.kerase_append_right hmem, List.kerase_cons_ne hj]

/-- A write under another key. -/
theorem insert (h : Ahead k b used xs) {j : κ} (hj : j ≠ k) (c : β) :
    Ahead k b (Insert.insert j used) (xs.insert j c) := by
  obtain ⟨l₁, l₂, hxs, hl₁⟩ := h.erase hj
  have hinsert : (xs.insert j c).entries = ⟨j, c⟩ :: (xs.erase j).entries := AList.entries_insert
  refine ⟨⟨j, c⟩ :: l₁, l₂, by rw [hinsert, hxs]; rfl, ?_⟩
  intro x hx
  rcases List.mem_cons.mp hx with rfl | hx
  · exact Finset.mem_insert_self ..
  · exact Finset.mem_insert_of_mem (hl₁ x hx)

/-- A use of another key. -/
theorem touch (h : Ahead k b used xs) {j : κ} (hj : j ≠ k) :
    Ahead k b (Insert.insert j used) (RecencyList.touch j xs) := by
  unfold RecencyList.touch
  split
  · exact h.insert hj _
  · exact h.mono (Finset.subset_insert j used)

theorem touch_self (h : Ahead k b used xs) : Ahead k b used (RecencyList.touch k xs) := by
  simp only [RecencyList.touch, h.lookup]
  exact insert_self used k b xs

end Ahead
end RecencyList
