import MiniRedis.Lib.KeyedMap

/-!
# Bounded recency lists

A recency list is a finite map whose entries stand in order of last use, most recent first. It is
what a least-recently-used cache means, with neither hash table nor linked list: a write puts its
entry at the front, and when the bound is then exceeded the entry at the back is dropped.

## Main definitions

* `put cap k b xs` writes `b` under `k` and restores the bound `cap`.
* `touch k xs` moves a present key to the front.
* `oldest?` is the key at the back.
-/

/-- A finite map with its entries in order of last use, most recent first. -/
abbrev RecencyList (κ β : Type) := AList (fun _ : κ => β)

namespace RecencyList
variable {κ β : Type}

/-- The least recently used key. -/
def oldest? (xs : RecencyList κ β) : Option κ := xs.keys.getLast?

/-- Drop the oldest entry of a list that exceeds the bound. -/
def bound (cap : ℕ) (xs : RecencyList κ β) : RecencyList κ β :=
  if cap < xs.card then xs.dropLast else xs

theorem bound_of_le {cap : ℕ} {xs : RecencyList κ β} (h : xs.card ≤ cap) : bound cap xs = xs :=
  if_neg (by omega)

theorem bound_of_lt {cap : ℕ} {xs : RecencyList κ β} (h : cap < xs.card) :
    bound cap xs = xs.dropLast := if_pos h

theorem oldest?_isSome {xs : RecencyList κ β} (h : 0 < xs.card) : ∃ k, oldest? xs = some k := by
  have hne : xs.keys ≠ [] := by
    intro hnil
    have := congrArg List.length hnil
    simp only [AList.length_keys, List.length_nil] at this
    omega
  exact ⟨_, List.getLast?_eq_some_getLast hne⟩

theorem oldest?_mem {xs : RecencyList κ β} {k : κ} (h : oldest? xs = some k) : k ∈ xs.keys :=
  List.mem_of_getLast? h

/-- The key at the front is not the oldest one, unless it is alone. -/
theorem oldest?_ne_front {xs : RecencyList κ β} {k z : κ} (hfront : xs.keys.head? = some k)
    (hz : oldest? xs = some z) (h : 1 < xs.card) : z ≠ k := by
  obtain ⟨l, hkeys⟩ := List.head?_eq_some_iff.mp hfront
  have hnodup := xs.keys_nodup
  have hlen := xs.length_keys
  rw [oldest?, hkeys] at hz
  rw [hkeys] at hnodup hlen
  rintro rfl
  cases l with
  | nil =>
      rw [List.length_singleton] at hlen
      omega
  | cons b l =>
      rw [List.getLast?_cons_cons] at hz
      exact (List.nodup_cons.mp hnodup).1 (List.mem_of_getLast? hz)

/-- The bound is restored at the cost of what stands at the back. -/
theorem entries_bound_append {cap : ℕ} {xs ys : RecencyList κ β}
    {us : List (Sigma fun _ : κ => β)} (hcard : ys.card ≤ cap + 1)
    (h : ys.entries = xs.entries ++ us) :
    ∃ us', (bound cap ys).entries = (bound cap xs).entries ++ us' ∧ us'.Sublist us := by
  have hlen : ys.card = xs.card + us.length := by
    rw [AList.card, h, List.length_append]
    rfl
  by_cases hnil : us = []
  · have heq : ys = xs := AList.ext (by rw [h, hnil, List.append_nil])
    exact ⟨[], by rw [heq, List.append_nil], List.nil_sublist us⟩
  · have hpos : 0 < us.length := List.length_pos_iff.mpr hnil
    have hxs : bound cap xs = xs := bound_of_le (by omega)
    by_cases hlt : cap < ys.card
    · refine ⟨us.dropLast, ?_, List.dropLast_sublist us⟩
      rw [bound_of_lt hlt, hxs]
      change ys.entries.dropLast = _
      rw [h, List.dropLast_append_of_ne_nil hnil]
    · refine ⟨us, ?_, .refl us⟩
      rw [bound_of_le (Nat.le_of_not_lt hlt), hxs, h]

variable [DecidableEq κ]

/-- Write `b` under `k` at the front, then drop the oldest entry if `cap` is exceeded. -/
def put (cap : ℕ) (k : κ) (b : β) (xs : RecencyList κ β) : RecencyList κ β :=
  bound cap (xs.insert k b)

/-- Move a present key to the front. -/
def touch (k : κ) (xs : RecencyList κ β) : RecencyList κ β :=
  match xs.lookup k with
  | some b => xs.insert k b
  | none => xs

/-- Dropping the last entry erases the oldest key. -/
theorem dropLast_eq_erase {xs : RecencyList κ β} {k : κ} (h : oldest? xs = some k) :
    xs.dropLast = xs.erase k := by
  obtain ⟨x, hx, rfl⟩ : ∃ x, xs.entries.getLast? = some x ∧ x.1 = k := by
    simpa [oldest?, AList.keys, List.keys, List.getLast?_map] using h
  have heq : xs.entries = xs.entries.dropLast ++ [x] := (List.dropLast_append_getLast? x hx).symm
  have hnodup : (xs.entries.dropLast ++ [x]).keys.Nodup := heq ▸ xs.nodupKeys
  have hnot : x.1 ∉ xs.entries.dropLast.keys := by
    rw [List.keys_append, List.nodup_append] at hnodup
    intro hmem
    exact hnodup.2.2 _ hmem _ (by simp) rfl
  apply AList.ext
  change xs.entries.dropLast = List.kerase x.1 xs.entries
  conv_rhs => rw [heq]
  rw [List.kerase_append_right hnot, List.kerase_cons_eq rfl, List.append_nil]

theorem lookup_touch (k j : κ) (xs : RecencyList κ β) : (touch k xs).lookup j = xs.lookup j := by
  unfold touch
  split
  · next b hb =>
    by_cases hj : j = k
    · subst hj
      rw [AList.lookup_insert, hb]
    · rw [AList.lookup_insert_ne hj]
  · rfl

theorem card_touch (k : κ) (xs : RecencyList κ β) : (touch k xs).card = xs.card :=
  AList.card_eq_of_lookup fun j => lookup_touch k j xs

theorem ne_of_oldest? {xs : RecencyList κ β} {k z : κ} (hz : oldest? xs = some z)
    (hk : xs.lookup k = none) : z ≠ k := by
  rintro rfl
  obtain ⟨b, hb⟩ := AList.mem_keys_iff_lookup.mp (oldest?_mem hz)
  rw [hk] at hb
  cases hb

/-- A new key at the front leaves the oldest one where it is. -/
theorem oldest?_insert {xs : RecencyList κ β} {k z : κ} (hz : oldest? xs = some z)
    (hk : xs.lookup k = none) (b : β) : oldest? (xs.insert k b) = some z := by
  have hnot : k ∉ xs.keys := AList.lookup_eq_none.mp hk
  simp only [oldest?, AList.keys_insert, List.erase_of_not_mem hnot]
  exact List.mem_getLast?_cons hz

theorem put_of_lookup {cap : ℕ} {k : κ} {b' : β} {xs : RecencyList κ β}
    (hk : xs.lookup k = some b') (hcard : xs.card ≤ cap) (b : β) :
    put cap k b xs = xs.insert k b :=
  bound_of_le (by rw [AList.card_insert_of_lookup hk]; exact hcard)

theorem put_of_room {cap : ℕ} {k : κ} {xs : RecencyList κ β} (hk : xs.lookup k = none)
    (hroom : xs.card < cap) (b : β) : put cap k b xs = xs.insert k b :=
  bound_of_le (by rw [AList.card_insert_of_lookup_none hk]; exact hroom)

theorem put_of_full {cap : ℕ} {k z : κ} {xs : RecencyList κ β} (hk : xs.lookup k = none)
    (hfull : xs.card = cap) (hz : oldest? xs = some z) (b : β) :
    put cap k b xs = (xs.insert k b).erase z := by
  have hover : cap < (xs.insert k b).card := by
    rw [AList.card_insert_of_lookup_none hk]
    omega
  rw [put, bound_of_lt hover, dropLast_eq_erase (oldest?_insert hz hk b)]

/-- Either nothing is dropped, or the list was full without `k` and its oldest key goes. -/
theorem put_cases (cap : ℕ) (k : κ) (b : β) {xs : RecencyList κ β} (hpos : 0 < cap)
    (hcard : xs.card ≤ cap) :
    put cap k b xs = xs.insert k b ∨
      ∃ z, oldest? xs = some z ∧ xs.lookup k = none ∧ xs.card = cap ∧ z ≠ k ∧
        put cap k b xs = (xs.insert k b).erase z := by
  cases hk : xs.lookup k with
  | some b' => exact .inl (put_of_lookup hk hcard b)
  | none =>
      by_cases hfull : xs.card = cap
      · have hne : 0 < xs.card := by omega
        obtain ⟨z, hz⟩ := oldest?_isSome hne
        exact .inr ⟨z, hz, rfl, hfull, ne_of_oldest? hz hk, put_of_full hk hfull hz b⟩
      · exact .inl (put_of_room hk (by omega) b)

theorem card_put_le (cap : ℕ) (k : κ) (b : β) {xs : RecencyList κ β} (hcard : xs.card ≤ cap) :
    (put cap k b xs).card ≤ cap := by
  have hins := AList.card_insert_le xs k b
  unfold put bound
  split
  · rw [AList.card_dropLast]; omega
  · omega

/-- A list whose bound is zero stays empty. -/
theorem put_zero {xs : RecencyList κ β} (hcard : xs.card ≤ 0) (k : κ) (b : β) :
    put 0 k b xs = xs := by
  rw [AList.eq_empty_of_card_le (card_put_le 0 k b hcard), AList.eq_empty_of_card_le hcard]

/-- The entry just written is found. -/
theorem lookup_put_self (cap : ℕ) (k : κ) (b : β) {xs : RecencyList κ β} (hpos : 0 < cap)
    (hcard : xs.card ≤ cap) : (put cap k b xs).lookup k = some b := by
  rcases put_cases cap k b hpos hcard with h | ⟨z, _, _, _, hz, h⟩
  · rw [h, AList.lookup_insert]
  · rw [h, AList.lookup_erase_ne hz.symm, AList.lookup_insert]

/-- Restoring the bound adds nothing. -/
theorem lookup_of_lookup_bound {cap : ℕ} {j : κ} {b : β} {xs : RecencyList κ β}
    (h : (bound cap xs).lookup j = some b) : xs.lookup j = some b := by
  by_cases hlt : cap < xs.card
  · have hne : 0 < xs.card := by omega
    obtain ⟨z, hz⟩ := oldest?_isSome hne
    rw [bound_of_lt hlt, dropLast_eq_erase hz] at h
    exact (AList.lookup_of_lookup_erase h).2
  · rwa [bound_of_le (by omega)] at h

/-- A write adds nothing but its own entry. -/
theorem lookup_put_of_ne {cap : ℕ} {k j : κ} {b b' : β} {xs : RecencyList κ β} (hj : j ≠ k)
    (h : (put cap k b xs).lookup j = some b') : xs.lookup j = some b' := by
  have := lookup_of_lookup_bound h
  rwa [AList.lookup_insert_ne hj] at this

theorem lookup_insert_congr {xs ys : RecencyList κ β} (h : ∀ j, xs.lookup j = ys.lookup j) (k : κ)
    (b : β) (j : κ) : (xs.insert k b).lookup j = (ys.insert k b).lookup j := by
  by_cases hj : j = k
  · rw [hj, AList.lookup_insert, AList.lookup_insert]
  · rw [AList.lookup_insert_ne hj, AList.lookup_insert_ne hj, h j]

theorem lookup_erase_congr {xs ys : RecencyList κ β} (h : ∀ j, xs.lookup j = ys.lookup j) (k j : κ) :
    (xs.erase k).lookup j = (ys.erase k).lookup j := by
  by_cases hj : j = k
  · rw [hj, AList.lookup_erase, AList.lookup_erase]
  · rw [AList.lookup_erase_ne hj, AList.lookup_erase_ne hj, h j]

/-- **Lists with the same entries in different orders** still have the same entries after a write
if and only if they drop the same key, in case they drop one. -/
theorem lookup_put_congr_iff {cap : ℕ} {xs ys : RecencyList κ β}
    (h : ∀ j, xs.lookup j = ys.lookup j) (hpos : 0 < cap) (hcard : xs.card ≤ cap) (k : κ) (b : β) :
    (∀ j, (put cap k b xs).lookup j = (put cap k b ys).lookup j) ↔
      (xs.lookup k = none → xs.card = cap → oldest? xs = oldest? ys) := by
  have hcard' : ys.card = xs.card := AList.card_eq_of_lookup fun j => (h j).symm
  have hins := lookup_insert_congr h k b
  cases hk : xs.lookup k with
  | some b' =>
      have hk' : ys.lookup k = some b' := (h k).symm.trans hk
      rw [put_of_lookup hk hcard, put_of_lookup hk' (by omega)]
      simpa using hins
  | none =>
      have hk' : ys.lookup k = none := (h k).symm.trans hk
      by_cases hfull : xs.card = cap
      · obtain ⟨z, hz⟩ := oldest?_isSome (by omega : 0 < xs.card)
        obtain ⟨y, hy⟩ := oldest?_isSome (by omega : 0 < ys.card)
        rw [put_of_full hk hfull hz, put_of_full hk' (by omega) hy, hz, hy]
        simp only [hfull, forall_const, Option.some.injEq]
        constructor
        · intro heq
          have hne := ne_of_oldest? hz hk
          obtain ⟨c, hc⟩ := AList.mem_keys_iff_lookup.mp (oldest?_mem hz)
          by_contra hzy
          have hgone := heq z
          rw [AList.lookup_erase, AList.lookup_erase_ne hzy, AList.lookup_insert_ne hne, ← h z,
            hc] at hgone
          cases hgone
        · rintro rfl
          exact lookup_erase_congr hins z
      · rw [put_of_room hk (by omega), put_of_room hk' (by omega)]
        simp only [hfull, false_implies, implies_true, iff_true]
        exact hins

end RecencyList
