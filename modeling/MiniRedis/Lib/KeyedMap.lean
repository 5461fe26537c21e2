import Mathlib.Data.List.AList
import Mathlib.Algebra.BigOperators.Group.List.Basic
import Mathlib.Algebra.Ring.Nat

/-!
# Counting over finite maps

Mathlib's `AList` is a finite map whose entries have an order. This file adds the facts an
accounting argument needs: how a weighted sum over the entries, and the number of entries, change
when one key is inserted, overwritten or erased; and the two ways of cutting a map down to a
sublist of its entries.
-/

namespace AList
variable {κ β γ : Type}

/-- The number of entries. -/
def card (s : AList (fun _ : κ => β)) : ℕ := s.entries.length

/-- The sum of the weights of all entries. -/
def total (f : κ → β → ℕ) (s : AList (fun _ : κ => β)) : ℕ :=
  (s.entries.map fun x => f x.1 x.2).sum

/-- The entries satisfying `p`, in the same order. -/
def filterEntries (p : κ → β → Bool) (s : AList (fun _ : κ => β)) : AList (fun _ : κ => β) where
  entries := s.entries.filter fun x => p x.1 x.2
  nodupKeys := s.nodupKeys.sublist List.filter_sublist

/-- The map without its last entry. -/
def dropLast (s : AList (fun _ : κ => β)) : AList (fun _ : κ => β) where
  entries := s.entries.dropLast
  nodupKeys := s.nodupKeys.sublist (List.dropLast_sublist _)

/-- Apply `f` to every value. -/
def mapValues (f : β → γ) (s : AList (fun _ : κ => β)) : AList (fun _ : κ => γ) where
  entries := s.entries.map fun x => ⟨x.1, f x.2⟩
  nodupKeys := by
    have h : (s.entries.map fun x => (⟨x.1, f x.2⟩ : Sigma fun _ : κ => γ)).keys
        = s.entries.keys := by
      simp [List.keys]
    rw [List.NodupKeys, h]
    exact s.nodupKeys

@[simp] theorem card_empty : (∅ : AList (fun _ : κ => β)).card = 0 := rfl
@[simp] theorem total_empty (f : κ → β → ℕ) : (∅ : AList (fun _ : κ => β)).total f = 0 := rfl

@[simp] theorem length_keys (s : AList (fun _ : κ => β)) : s.keys.length = s.card := by
  simp [keys, card, List.keys]

theorem eq_empty_of_card_le {s : AList (fun _ : κ => β)} (h : s.card ≤ 0) : s = ∅ :=
  AList.ext (List.eq_nil_of_length_eq_zero (Nat.le_zero.mp h))

theorem card_eq_total (s : AList (fun _ : κ => β)) : s.card = s.total fun _ _ => 1 := by
  rw [card, total, List.map_const', List.sum_replicate_nat, Nat.mul_one]

theorem total_add (f g : κ → β → ℕ) (s : AList (fun _ : κ => β)) :
    (s.total fun k b => f k b + g k b) = s.total f + s.total g := List.sum_map_add

theorem total_const (n : ℕ) (s : AList (fun _ : κ => β)) :
    (s.total fun _ _ => n) = s.card * n := by
  rw [total, List.map_const', List.sum_replicate_nat, card]

theorem card_dropLast (s : AList (fun _ : κ => β)) : s.dropLast.card = s.card - 1 := by
  simp [card, dropLast]

theorem card_filterEntries_le (p : κ → β → Bool) (s : AList (fun _ : κ => β)) :
    (s.filterEntries p).card ≤ s.card := List.length_filter_le _ _

theorem keys_dropLast (s : AList (fun _ : κ => β)) : s.dropLast.keys = s.keys.dropLast := by
  simp [keys, dropLast, List.keys, List.map_dropLast]

@[simp] theorem card_mapValues (f : β → γ) (s : AList (fun _ : κ => β)) :
    (s.mapValues f).card = s.card := by
  simp [card, mapValues]

variable [DecidableEq κ]

/-- A present key's entry among the others, which stay if it is erased. -/
theorem exists_entries_eq {s : AList (fun _ : κ => β)} {k : κ} {b : β} (h : s.lookup k = some b) :
    ∃ l₁ l₂, s.entries = l₁ ++ ⟨k, b⟩ :: l₂ ∧ (s.erase k).entries = l₁ ++ l₂ := by
  have hmem : (⟨k, b⟩ : Sigma fun _ : κ => β) ∈ s.entries := mem_lookup_iff.mp h
  obtain ⟨b', l₁, l₂, -, heq, herase⟩ := List.exists_of_kerase (List.mem_keys_of_mem hmem)
  have hb : b' = b := by
    have hmem' : (⟨k, b'⟩ : Sigma fun _ : κ => β) ∈ s.entries := by rw [heq]; simp
    exact s.nodupKeys.eq_of_mk_mem hmem' hmem
  subst hb
  exact ⟨l₁, l₂, heq, herase⟩

/-- A present key's entry, pulled to the front. -/
theorem entries_perm_cons_erase {s : AList (fun _ : κ => β)} {k : κ} {b : β}
    (h : s.lookup k = some b) : s.entries.Perm (⟨k, b⟩ :: (s.erase k).entries) := by
  obtain ⟨l₁, l₂, heq, herase⟩ := exists_entries_eq h
  rw [herase, heq]
  exact List.perm_middle

theorem total_erase {s : AList (fun _ : κ => β)} {k : κ} {b : β} (f : κ → β → ℕ)
    (h : s.lookup k = some b) : (s.erase k).total f + f k b = s.total f := by
  have hsum := ((entries_perm_cons_erase h).map fun x => f x.1 x.2).sum_eq
  simp only [List.map_cons, List.sum_cons] at hsum
  simp only [total]
  omega

theorem total_insert_of_lookup_none {s : AList (fun _ : κ => β)} {k : κ} (f : κ → β → ℕ)
    (h : s.lookup k = none) (b : β) : (s.insert k b).total f = s.total f + f k b := by
  simp only [total, entries_insert_of_notMem (lookup_eq_none.mp h), List.map_cons, List.sum_cons]
  omega

theorem total_insert_of_lookup {s : AList (fun _ : κ => β)} {k : κ} {b : β} (f : κ → β → ℕ)
    (h : s.lookup k = some b) (b' : β) :
    (s.insert k b').total f + f k b = s.total f + f k b' := by
  have hb := total_erase f h
  have hentries : (s.insert k b').entries = ⟨k, b'⟩ :: (s.erase k).entries := entries_insert
  simp only [total, hentries, List.map_cons, List.sum_cons] at hb ⊢
  omega

theorem card_erase {s : AList (fun _ : κ => β)} {k : κ} {b : β} (h : s.lookup k = some b) :
    (s.erase k).card + 1 = s.card := by
  rw [card_eq_total, card_eq_total, ← total_erase (fun _ _ => 1) h]

theorem card_erase_le (s : AList (fun _ : κ => β)) (k : κ) : (s.erase k).card ≤ s.card :=
  (List.kerase_sublist k s.entries).length_le

theorem lookup_of_lookup_erase {s : AList (fun _ : κ => β)} {k j : κ} {b : β}
    (h : (s.erase k).lookup j = some b) : j ≠ k ∧ s.lookup j = some b := by
  by_cases hj : j = k
  · subst hj
    simp at h
  · exact ⟨hj, by rwa [lookup_erase_ne hj] at h⟩

theorem lookup_of_lookup_insert {s : AList (fun _ : κ => β)} {k j : κ} {b c : β}
    (h : (s.insert k b).lookup j = some c) : (j = k ∧ c = b) ∨ (j ≠ k ∧ s.lookup j = some c) := by
  by_cases hj : j = k
  · subst hj
    rw [lookup_insert, Option.some.injEq] at h
    exact .inl ⟨rfl, h.symm⟩
  · exact .inr ⟨hj, by rwa [lookup_insert_ne hj] at h⟩

theorem card_insert_of_lookup_none {s : AList (fun _ : κ => β)} {k : κ}
    (h : s.lookup k = none) (b : β) : (s.insert k b).card = s.card + 1 := by
  rw [card_eq_total, card_eq_total, total_insert_of_lookup_none _ h]

theorem card_insert_of_lookup {s : AList (fun _ : κ => β)} {k : κ} {b : β}
    (h : s.lookup k = some b) (b' : β) : (s.insert k b').card = s.card := by
  have := total_insert_of_lookup (fun _ _ => 1) h b'
  rw [card_eq_total, card_eq_total]
  omega

theorem card_insert_le (s : AList (fun _ : κ => β)) (k : κ) (b : β) :
    (s.insert k b).card ≤ s.card + 1 := by
  cases h : s.lookup k with
  | some b' => rw [card_insert_of_lookup h]; omega
  | none => rw [card_insert_of_lookup_none h]

/-- Maps with the same lookups hold the same entries, up to their order. -/
theorem entries_perm_of_lookup {s t : AList (fun _ : κ => β)}
    (h : ∀ k, s.lookup k = t.lookup k) : s.entries.Perm t.entries := by
  apply List.lookup_ext s.nodupKeys t.nodupKeys
  intro k b
  change b ∈ s.lookup k ↔ b ∈ t.lookup k
  rw [h k]

theorem card_eq_of_lookup {s t : AList (fun _ : κ => β)} (h : ∀ k, s.lookup k = t.lookup k) :
    s.card = t.card := (entries_perm_of_lookup h).length_eq

theorem mem_keys_iff_lookup {s : AList (fun _ : κ => β)} {k : κ} :
    k ∈ s.keys ↔ ∃ b, s.lookup k = some b := by
  rw [← mem_keys, ← lookup_isSome, Option.isSome_iff_exists]

/-- A map is read back by looking up its keys in order. -/
theorem filterMap_lookup_keys (s : AList (fun _ : κ => β)) :
    s.keys.filterMap (fun k => (s.lookup k).map fun b => (⟨k, b⟩ : Sigma fun _ : κ => β))
      = s.entries := by
  have hentry : ∀ x ∈ s.entries,
      (s.lookup x.1).map (fun b => (⟨x.1, b⟩ : Sigma fun _ : κ => β)) = some x := by
    intro x hx
    rw [show s.lookup x.1 = some x.2 from mem_lookup_iff.mpr hx]
    rfl
  rw [keys, List.keys, List.filterMap_map]
  exact (List.filterMap_congr hentry).trans (List.filterMap_some ..)

theorem lookup_filterEntries (p : κ → β → Bool) (s : AList (fun _ : κ => β)) (k : κ) :
    (s.filterEntries p).lookup k = (s.lookup k).filter (p k) := by
  ext b
  have hmem : b ∈ (s.filterEntries p).lookup k ↔
      (⟨k, b⟩ : Sigma fun _ : κ => β) ∈ s.entries ∧ p k b = true := by
    rw [mem_lookup_iff]
    simp [filterEntries]
  rw [← Option.mem_def, hmem, ← mem_lookup_iff]
  simp [Option.filter_eq_some_iff]

theorem lookup_mapValues (f : β → γ) (s : AList (fun _ : κ => β)) (k : κ) :
    (s.mapValues f).lookup k = (s.lookup k).map f := by
  ext c
  rw [← Option.mem_def, mem_lookup_iff, Option.map_eq_some_iff]
  constructor
  · intro h
    obtain ⟨x, hx, heq⟩ := List.mem_map.mp h
    cases heq
    exact ⟨x.2, mem_lookup_iff.mpr hx, rfl⟩
  · rintro ⟨b, hb, rfl⟩
    exact List.mem_map.mpr ⟨⟨k, b⟩, mem_lookup_iff.mp hb, rfl⟩

theorem filterEntries_eq_self {p : κ → β → Bool} {s : AList (fun _ : κ => β)}
    (h : ∀ k b, s.lookup k = some b → p k b = true) : s.filterEntries p = s := by
  apply AList.ext
  apply List.filter_eq_self.mpr
  intro x hx
  exact h x.1 x.2 (mem_lookup_iff.mpr hx)

/-- Erasing an entry that the filter drops anyway. -/
theorem filterEntries_erase {p : κ → β → Bool} {s : AList (fun _ : κ => β)} {k : κ} {b : β}
    (h : s.lookup k = some b) (hp : p k b = false) :
    (s.erase k).filterEntries p = s.filterEntries p := by
  obtain ⟨l₁, l₂, heq, herase⟩ := exists_entries_eq h
  apply AList.ext
  change (s.erase k).entries.filter _ = s.entries.filter _
  rw [herase, heq]
  simp [List.filter_append, hp]

end AList
