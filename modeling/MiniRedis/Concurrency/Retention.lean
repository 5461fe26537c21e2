import MiniRedis.Concurrency.Linearization
import MiniRedis.Lib.WorkingSet

/-!
# What the threads keep in the cache

A record stays in the cache, whatever the interleaving, while fewer other keys of its shard than the
shard has room for have been written or found since it was last written or found itself: those are
the keys that can have come before it in the order of use. Lookups that find nothing, deletions,
clean-ups and the calls for the other shards do not count.
-/
namespace MiniRedis
variable {Key Value Exn : Type} [DecidableEq Key]

/-- The access writes the key or finds it. -/
def Access.Refreshes (k : Key) : Access Key Value → Prop
  | .set j _ _ _ _ | .get j _ (some _) => j = k
  | _ => False

/-- The access does not itself take the record `r` of `k` away: it writes and deletes other keys,
and its clock reading, where it purges what has expired, is one at which `r` is live. -/
def Access.Spares (P : CacheParams Key Value) (k : Key) (r : Record Value) :
    Access Key Value → Prop
  | .set j _ _ _ _ | .del j _ => j ≠ k
  | .get j now _ => j = k → r.expired now = false
  | .purge i now => i = shardForKey P k → r.expired now = false

/-- The key of `k`'s shard, other than `k`, that the access puts at the front. -/
def Access.uses (P : CacheParams Key Value) (k : Key) : Access Key Value → Finset Key
  | .set j _ _ _ _ | .get j _ (some _) =>
      if j ≠ k ∧ shardForKey P j = shardForKey P k then {j} else ∅
  | _ => ∅

/-- The other keys of `k`'s shard that are written or found. -/
def usedKeys (P : CacheParams Key Value) (k : Key) : List (Access Key Value) → Finset Key
  | [] => ∅
  | x :: l => x.uses P k ∪ usedKeys P k l

variable {P : CacheParams Key Value}

namespace System
variable {maxKeys : ℕ} {k : Key} {r : Record Value} {used : Finset Key} {xs ys : Store P}

omit [DecidableEq Key] in
/-- A shard that the access does not concern. -/
theorem ahead_update_of_ne {i : Fin P.numShards} (hi : shardForKey P k ≠ i)
    (zs : RecencyList Key (Record Value)) (h : RecencyList.Ahead k r used (xs (shardForKey P k))) :
    RecencyList.Ahead k r used (Function.update xs i zs (shardForKey P k)) := by
  rwa [Function.update_of_ne hi]

omit [DecidableEq Key] in
/-- A lookup in the list of the shard: another key that it finds has to count as used. -/
theorem ahead_lookedUp [DecidableEq Key] {zs : RecencyList Key (Record Value)} {j : Key}
    {now : TimePoint} (hspare : j = k → r.expired now = false)
    (hfound : j ≠ k → ((zs.lookup j).bind (Record.read now)).isSome → j ∈ used)
    (hahead : RecencyList.Ahead k r used zs) : RecencyList.Ahead k r used (lookedUp now j zs) := by
  cases hlookup : zs.lookup j with
  | none => simpa only [lookedUp, hlookup] using hahead
  | some r' =>
      cases hexp : r'.expired now with
      | true =>
          have hne : j ≠ k := by
            rintro rfl
            obtain rfl : r' = r := Option.some.inj (hlookup.symm.trans hahead.lookup)
            simp [hspare rfl] at hexp
          simpa only [lookedUp, hlookup, hexp, if_true] using hahead.erase hne
      | false =>
          simp only [lookedUp, hlookup, hexp, Bool.false_eq_true, if_false]
          by_cases hne : j = k
          · subst hne
            exact hahead.touch_self
          · have hj : j ∈ used := hfound hne (by simp [hlookup, Record.read, hexp])
            simpa [Finset.insert_eq_of_mem hj] using hahead.touch hne

/-- One access: the record stays, behind the keys used before and the one used now. -/
theorem ahead_access {x : Access Key Value} (h : Sequential P maxKeys xs x ys)
    (hspare : x.Spares P k r)
    (hfew : (used ∪ x.uses P k).card < capacityOf P maxKeys (shardForKey P k))
    (hahead : RecencyList.Ahead k r used (xs (shardForKey P k))) :
    RecencyList.Ahead k r (used ∪ x.uses P k) (ys (shardForKey P k)) := by
  have hsub : used ⊆ used ∪ x.uses P k := Finset.subset_union_left
  have hmore := hahead.mono hsub
  cases h with
  | set j v ttl now =>
      by_cases hj : shardForKey P k = shardForKey P j
      · have huses (ok : Bool) :
            used ∪ (Access.set j v ttl now ok).uses P k = Insert.insert j used := by
          simp [Access.uses, hj, show j ≠ k from hspare]
        rw [hj, Function.update_self, ← hj]
        rw [huses] at hfew ⊢
        exact (hahead.insert hspare _).bound hfew
      · exact ahead_update_of_ne hj _ hmore
  | get j now =>
      by_cases hj : shardForKey P k = shardForKey P j
      · rw [hj] at hmore ⊢
        rw [Function.update_self]
        refine ahead_lookedUp hspare ?_ hmore
        intro hne hfound
        obtain ⟨v, hv⟩ := Option.isSome_iff_exists.mp hfound
        simp [Access.uses, hj, hv, hne]
      · exact ahead_update_of_ne hj _ hmore
  | del j =>
      by_cases hj : shardForKey P k = shardForKey P j
      · rw [hj, Function.update_self, ← hj]
        exact hmore.erase hspare
      · exact ahead_update_of_ne hj _ hmore
  | purge i now =>
      by_cases hi : shardForKey P k = i
      · subst hi
        rw [Function.update_self]
        exact hmore.filterEntries (by simp [show r.expired now = false from hspare rfl])
      · exact ahead_update_of_ne hi _ hmore

/-- Who has just been written or found is behind nobody. -/
theorem ahead_of_refreshes {x : Access Key Value} (h : Sequential P maxKeys xs x ys)
    (hx : x.Refreshes k) (hpos : 0 < capacityOf P maxKeys (shardForKey P k)) :
    ∃ r, RecencyList.Ahead k r ∅ (ys (shardForKey P k)) := by
  cases h with
  | set j v ttl now =>
      obtain rfl : j = k := hx
      rw [Function.update_self]
      exact ⟨_, (RecencyList.Ahead.insert_self ∅ j _ _).bound (by simpa using hpos)⟩
  | get j now =>
      cases hlookup : (xs (shardForKey P j)).lookup j with
      | none =>
          rw [hlookup] at hx
          exact absurd hx id
      | some r =>
          cases hexp : r.expired now with
          | true =>
              rw [hlookup, Option.bind_some, Record.read, if_pos hexp] at hx
              exact absurd hx id
          | false =>
              rw [hlookup, Option.bind_some, Record.read, hexp, if_neg Bool.false_ne_true] at hx
              obtain rfl : j = k := hx
              refine ⟨r, ?_⟩
              rw [Function.update_self]
              simp only [lookedUp, hlookup, hexp, Bool.false_eq_true, if_false, RecencyList.touch]
              exact RecencyList.Ahead.insert_self ∅ j r _
  | del j => exact absurd hx id
  | purge i now => exact absurd hx id

/-- A run of accesses. -/
theorem ahead_run {l : List (Access Key Value)}
    (h : Transition.Run (Sequential P maxKeys) xs l ys) (hspare : ∀ x ∈ l, x.Spares P k r)
    (hfew : (used ∪ usedKeys P k l).card < capacityOf P maxKeys (shardForKey P k))
    (hahead : RecencyList.Ahead k r used (xs (shardForKey P k))) :
    RecencyList.Ahead k r (used ∪ usedKeys P k l) (ys (shardForKey P k)) := by
  induction h generalizing used with
  | nil xs => simpa [usedKeys] using hahead
  | @cons xs zs ys x l hstep hrest ih =>
      obtain ⟨hx, hl⟩ := List.forall_mem_cons.mp hspare
      rw [usedKeys, ← Finset.union_assoc] at hfew ⊢
      have hsub : used ∪ x.uses P k ⊆ used ∪ x.uses P k ∪ usedKeys P k l :=
        Finset.subset_union_left
      have hle := Finset.card_le_card hsub
      exact ih hl hfew (ahead_access hstep hx (by omega) hahead)

/-- **The working set stays in the cache.** In any run, take a step that writes a key or finds it, and
what is stored under the key then. It is still there if since then nobody has written or deleted the
key, nobody who purges has read the clock at its deadline or later, and fewer other keys of its shard
have been written or found than the shard has room for. -/
theorem retained {now : TimePoint} {as₁ as₂ : List (Action Key Value Exn)}
    {a : Action Key Value Exn} {s₁ s₂ s : System P Exn}
    (h₁ : Transition.exec step as₁ (init P Exn maxKeys now) = some s₁) (ha : Step s₁ a s₂)
    (h₂ : Transition.exec step as₂ s₂ = some s) {t : ℕ} {x : Access Key Value}
    (hlast : s₁.access a s₂ = [(t, x)]) (hx : x.Refreshes k) {e : Entry Value}
    (he : s₂.entry k = some e) (hspare : ∀ y ∈ accesses as₂ s₂, y.2.Spares P k e.record)
    (hfew : (usedKeys P k ((accesses as₂ s₂).map Prod.snd)).card
      < capacityOf P maxKeys (shardForKey P k)) :
    ∃ e', s.entry k = some e' ∧ e'.record = e.record := by
  have hsound := (reachable_of_exec h₁).inFlightSound.wellFormed
  obtain ⟨xs, R₁⟩ := hsound.rep
  obtain ⟨ys, hstep, R₂, hkeys⟩ := accounts_step ha R₁ hsound.maxKeys_eq
  obtain ⟨zs, hrun, R, -⟩ := accounts_exec h₂ R₂ hkeys
  -- the step has put the key in front of its shard
  have hfront : ∃ r, RecencyList.Ahead k r ∅ (ys (shardForKey P k)) := by
    rw [hlast] at hstep
    cases hstep with
    | cons hstep hnil =>
        cases hnil
        exact ahead_of_refreshes hstep hx (Nat.zero_lt_of_lt hfew)
  obtain ⟨r, hahead⟩ := hfront
  obtain ⟨e₀, he₀, rfl⟩ := (R₂.holds (shardForKey P k)).exists_entry hahead.lookup
  obtain rfl : e₀ = e := Option.some.inj (he₀.symm.trans he)
  have hend := ahead_run hrun (List.forall_mem_map.mpr hspare) (by simpa using hfew) hahead
  exact (R.holds (shardForKey P k)).exists_entry hend.lookup

/-- Two keys of one shard that has room for both, and a lookup of the first. -/
private def readBetween : List (Action ℕ ℕ Unit) :=
  [.call 0 (.set 1 5 none), .run 0, .call 1 (.set 3 7 (some 1)), .run 1, .call 2 (.get 1), .run 2,
    .run 2]

/-- A third key of the shard, which evicts the second. -/
private def thirdKey : List (Action ℕ ℕ Unit) := [.call 3 (.set 5 9 none), .run 3]

theorem retained_thirdKey :
    ∃ s₁ s : System CacheParams.twoShards Unit,
      Transition.exec step thirdKey s₁ = some s ∧ s₁.entry 3 ≠ none ∧ s.entry 3 = none ∧
        ∃ e, s.entry 1 = some e ∧ e.record = storedRecord 5 none 0 := by
  let s₀ := init CacheParams.twoShards Unit 4 0
  let s₁ := (Transition.exec step readBetween s₀).get (by decide)
  have h₁ : Transition.exec step readBetween s₀ = some s₁ := (Option.some_get _).symm
  let s₂ := (step (.run 2) s₁).get (by decide)
  have ha : Step s₁ (.run 2) s₂ := (Option.some_get _).symm
  let s := (Transition.exec step thirdKey s₂).get (by decide)
  have h₂ : Transition.exec step thirdKey s₂ = some s := (Option.some_get _).symm
  have hlast : s₁.access (.run 2) s₂ = [(2, .get 1 0 (some 5))] := by decide
  have hlater : accesses thirdKey s₂ = [(3, .set 5 9 none 0 true)] := by decide
  let e := (s₂.entry 1).get (by decide)
  have he : s₂.entry 1 = some e := (Option.some_get _).symm
  have hspare : ∀ y ∈ accesses thirdKey s₂, y.2.Spares CacheParams.twoShards 1 e.record := by
    rw [hlater]
    simp [Access.Spares]
  have hrecord : e.record = storedRecord 5 none 0 := by decide
  have hkept := retained h₁ ha h₂ hlast rfl he hspare (by rw [hlater]; decide)
  rw [hrecord] at hkept
  exact ⟨s₂, s, h₂, by decide, by decide, hkept⟩

end System
end MiniRedis
