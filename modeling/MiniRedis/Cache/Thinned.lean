import MiniRedis.Cache.Lists

/-!
# A cache from which expired entries are gone

An expired entry stays stored until somebody runs into it. `Thinned now xs ys` says that `ys` is the
recency list `xs` without some of the records that are expired at `now`, in any order. Calls keep
two lists related in that way, as long as nothing is evicted, and what is read off the live records
is the same for both.
-/
namespace MiniRedis
variable {Key Value : Type} [DecidableEq Key]

/-- What is missing from `ys` is expired, and nothing else is different. -/
def Thinned (now : TimePoint) (xs ys : RecencyList Key (Record Value)) : Prop :=
  ∀ k, ys.lookup k = xs.lookup k ∨
    ys.lookup k = none ∧ ∃ r, xs.lookup k = some r ∧ r.expired now = true

theorem Record.expired_mono {r : Record Value} {now later : TimePoint} (hle : now ≤ later)
    (h : r.expired now = true) : r.expired later = true := by
  unfold expired at h ⊢
  split at h
  · exact decide_eq_true ((of_decide_eq_true h).trans hle)
  · cases h

namespace Thinned
variable {now later : TimePoint} {xs ys zs : RecencyList Key (Record Value)} {k : Key}
  {r : Record Value}

theorem refl (xs : RecencyList Key (Record Value)) : Thinned now xs xs := fun _ => .inl rfl

theorem mono (h : Thinned now xs ys) (hle : now ≤ later) : Thinned later xs ys := by
  intro k
  rcases h k with heq | ⟨hnone, r, hr, hexp⟩
  · exact .inl heq
  · exact .inr ⟨hnone, r, hr, Record.expired_mono hle hexp⟩

/-- A live record is in both lists. -/
theorem lookup_live (h : Thinned now xs ys) (hk : xs.lookup k = some r)
    (hlive : r.expired now = false) : ys.lookup k = some r := by
  rcases h k with heq | ⟨-, r', hr', hexp⟩
  · exact heq.trans hk
  · cases hk.symm.trans hr'
    exact absurd (hexp.symm.trans hlive) (by simp)

theorem lookup_none (h : Thinned now xs ys) (hk : xs.lookup k = none) : ys.lookup k = none := by
  rcases h k with heq | ⟨hnone, -⟩
  · exact heq.trans hk
  · exact hnone

theorem insert (h : Thinned now xs ys) (k : Key) (r : Record Value) :
    Thinned now (xs.insert k r) (ys.insert k r) := by
  intro j
  by_cases hj : j = k
  · subst hj
    exact .inl (by rw [AList.lookup_insert, AList.lookup_insert])
  · rw [AList.lookup_insert_ne hj, AList.lookup_insert_ne hj]
    exact h j

theorem erase (h : Thinned now xs ys) (k : Key) : Thinned now (xs.erase k) (ys.erase k) := by
  intro j
  by_cases hj : j = k
  · subst hj
    exact .inl (by rw [AList.lookup_erase, AList.lookup_erase])
  · rw [AList.lookup_erase_ne hj, AList.lookup_erase_ne hj]
    exact h j

/-- Only the order changes. -/
theorem congr (h : Thinned now xs ys) {xs' ys' : RecencyList Key (Record Value)}
    (hx : ∀ k, xs'.lookup k = xs.lookup k) (hy : ∀ k, ys'.lookup k = ys.lookup k) :
    Thinned now xs' ys' := by
  intro k
  rw [hx, hy]
  exact h k

/-- A clean-up removes more of what is expired. -/
theorem live (h : Thinned now xs ys) : Thinned now xs (liveRecords now ys) := by
  intro k
  have hlook : (liveRecords now ys).lookup k = (ys.lookup k).filter fun r => !r.expired now :=
    AList.lookup_filterEntries _ ys k
  rcases h k with heq | ⟨hnone, hexp⟩
  · rw [hlook, heq]
    cases hk : xs.lookup k with
    | none => exact .inl rfl
    | some r =>
        cases hr : r.expired now with
        | true => exact .inr ⟨by simp [hr], r, rfl, hr⟩
        | false => exact .inl (by simp [hr])
  · exact .inr ⟨by rw [hlook, hnone]; rfl, hexp⟩

theorem lookup_liveRecords (h : Thinned now xs ys) (k : Key) :
    (liveRecords now ys).lookup k = (liveRecords now xs).lookup k := by
  simp only [liveRecords, AList.lookup_filterEntries]
  rcases h k with heq | ⟨hnone, r, hr, hexp⟩
  · rw [heq]
  · rw [hnone, hr]
    simp [Option.filter, hexp]

theorem card_le (h : Thinned now xs ys) : ys.card ≤ xs.card := by
  rw [← AList.length_keys, ← AList.length_keys]
  refine (List.subperm_of_subset ys.keys_nodup fun k hk => ?_).length_le
  obtain ⟨r, hr⟩ := AList.mem_keys_iff_lookup.mp hk
  rcases h k with heq | ⟨hnone, -⟩
  · exact AList.mem_keys_iff_lookup.mpr ⟨r, heq.symm.trans hr⟩
  · exact absurd (hnone.symm.trans hr) (by simp)

/-- A lookup leaves the lists related: what it erases is expired. -/
theorem lookedUp (h : Thinned now xs ys) (k : Key) :
    Thinned now (lookedUp now k xs) (lookedUp now k ys) := by
  have same : ∀ {zs : RecencyList Key (Record Value)}, zs.lookup k = none →
      ∀ j, (zs.erase k).lookup j = zs.lookup j := by
    intro zs hz j
    by_cases hj : j = k
    · subst hj
      rw [AList.lookup_erase, hz]
    · exact AList.lookup_erase_ne hj
  cases hx : xs.lookup k with
  | none =>
      have hy := h.lookup_none hx
      simpa only [MiniRedis.lookedUp, hx, hy] using h
  | some r =>
      cases hexp : r.expired now with
      | false =>
          have hy := h.lookup_live hx hexp
          simp only [MiniRedis.lookedUp, hx, hy, hexp, Bool.false_eq_true, if_false]
          exact h.congr (fun j => RecencyList.lookup_touch k j xs)
            (fun j => RecencyList.lookup_touch k j ys)
      | true =>
          have herase : ∀ j, (MiniRedis.lookedUp now k ys).lookup j = (ys.erase k).lookup j := by
            intro j
            rcases h k with heq | ⟨hnone, -⟩
            · simp only [MiniRedis.lookedUp, heq.trans hx, hexp, if_true]
            · simp only [MiniRedis.lookedUp, hnone, same hnone]
          simp only [MiniRedis.lookedUp, hx, hexp, if_true]
          exact (h.erase k).congr (fun _ => rfl) herase

/-- What is stored in a list that has room for it is stored in the thinner list as well. -/
theorem put (h : Thinned now xs ys) {cap : ℕ} (hroom : (xs.insert k r).card ≤ cap) :
    Thinned now (RecencyList.put cap k r xs) (RecencyList.put cap k r ys) := by
  have hins := h.insert k r
  have hx : RecencyList.put cap k r xs = xs.insert k r := RecencyList.bound_of_le hroom
  have hy : RecencyList.put cap k r ys = ys.insert k r :=
    RecencyList.bound_of_le (hins.card_le.trans hroom)
  rwa [hx, hy]

/-- Both lists have the same items in a snapshot. -/
theorem items_perm (h : Thinned now xs ys) :
    (ys.entries.filterMap fun x => x.2.item? now x.1).Perm
      (xs.entries.filterMap fun x => x.2.item? now x.1) := by
  have hlive : ∀ zs : RecencyList Key (Record Value),
      (zs.entries.filterMap fun x => x.2.item? now x.1) =
        (liveRecords now zs).entries.filterMap fun x => x.2.item? now x.1 := by
    intro zs
    rw [liveRecords, AList.filterEntries, List.filterMap_filter]
    refine List.filterMap_congr fun x _ => ?_
    cases hexp : x.2.expired now <;> simp [Record.item?, hexp]
  rw [hlive ys, hlive xs]
  exact (AList.entries_perm_of_lookup h.lookup_liveRecords).filterMap _

end Thinned
end MiniRedis
