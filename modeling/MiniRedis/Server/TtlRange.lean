import MiniRedis.Cache.Lists
import MiniRedis.Persistence.Log

/-!
# Which ttls are honoured

Both front ends accept a ttl of up to `2 ^ 63 - 1` milliseconds, and the cache converts it to
nanoseconds and adds it to the clock in 64 bits. A deadline that fits is exact, and then the value
is there until it. One that does not fit wraps around and lies in the past of what was asked for.
-/
namespace MiniRedis

/-! ## What is accepted -/

/-- What `parse_ttl_ms` throws. -/
inductive TtlError
  /-- The exception of `std::stoll`. -/
  | stoll
  | runtimeError (what : Bytes)
  deriving DecidableEq, Repr

/-- `parse_ttl_ms`, given the parameter `ttl_ms` of the request if it has one. -/
def parseTtlMs : Option Bytes → Except TtlError (Option Millis)
  | none => .ok none
  | some raw =>
      match stoll raw with
      | none => .error .stoll
      | some (ttlMs, pos) =>
          if pos ≠ raw.length ∨ ttlMs < 0 then
            .error (.runtimeError (ascii "ttl_ms must be a non-negative integer"))
          else .ok (some ttlMs)

/-- One of the front ends passes the ttl on. -/
def Accepted (ttl : Millis) : Prop :=
  (∃ line, (parseTcpCommand line).type = .set ∧ (parseTcpCommand line).ttlMs = some ttl) ∨
    ∃ raw, parseTtlMs (some raw) = .ok (some ttl)

theorem range_of_parseTtlMs {raw : Bytes} {ttl : ℤ} (h : parseTtlMs (some raw) = .ok (some ttl)) :
    0 ≤ ttl ∧ ttl < 2 ^ 63 := by
  simp only [parseTtlMs] at h
  split at h
  · cases h
  · next n pos hread =>
    split at h
    · cases h
    · next hok =>
      cases h
      have hlt := stoll_lt hread
      omega

/-- **The range that is accepted.** -/
theorem accepted_iff {ttl : ℤ} : Accepted ttl ↔ 0 ≤ ttl ∧ ttl < 2 ^ 63 := by
  constructor
  · rintro (⟨line, hset, httl⟩ | ⟨raw, hraw⟩)
    · exact (storable_of_set hset).2.2 ttl httl
    · exact range_of_parseTtlMs hraw
  · rintro ⟨hlow, hhigh⟩
    have hk : Storable (ascii "k") := by decide +kernel
    have hrange : ∀ d ∈ some ttl, 0 ≤ d ∧ d < 2 ^ 63 := by
      rintro d ⟨⟩
      exact ⟨hlow, hhigh⟩
    have hparse := parseTcpCommand_setLine hk hk hrange
    exact .inl ⟨_, by rw [hparse], by rw [hparse]⟩

/-! ## What a call leaves of a record -/

section Calls
variable {Key Value : Type} [DecidableEq Key] {P : CacheParams Key Value}

/-- The call neither overwrites the key, nor deletes it, nor evicts it. -/
def Spares (key : Key) (c : ShardedCache P) (x : TimePoint × CacheOp Key Value) : Prop :=
  match x.2 with
  | .set k _ _ => k ≠ key ∧ ((c.call x.1 x.2).2.shards (shardForKey P key)).map.lookup key ≠ none
  | .del k => k ≠ key
  | _ => True

/-- Calls by time `t`, each of which spares the key. -/
def Sparing (key : Key) (t : TimePoint) (c : ShardedCache P) (x : TimePoint × CacheOp Key Value)
    (c' : ShardedCache P) : Prop :=
  x.1 ≤ t ∧ Spares key c x ∧ c' = (c.call x.1 x.2).2

/-- A call at the reading of the clock it comes with. -/
def ShardedCache.callAt (x : TimePoint × CacheOp Key Value) (c : ShardedCache P) :
    CacheResult Value × ShardedCache P := c.call x.1 x.2

/-- A cache that calls lead to. -/
def CalledFrom (P : CacheParams Key Value) (maxKeys : ℕ) (c : ShardedCache P) : Prop :=
  ∃ calls, c = Transition.final ShardedCache.callAt calls (ShardedCache.construct P maxKeys)

namespace LruCache
variable {a : LruCache (Fin P.numShards) Key Value} {key : Key} {r : Record Value}
  {cap : Fin P.numShards → ℕ}

theorem lookup_lists_update {i : Fin P.numShards} {ys : RecencyList Key (Record Value)}
    (hr : (a.lists (shardForKey P key)).lookup key = some r)
    (h : (a.lists i).lookup key = some r → ys.lookup key = some r) :
    (Function.update a.lists i ys (shardForKey P key)).lookup key = some r := by
  by_cases hi : shardForKey P key = i
  · subst hi
    rw [Function.update_self]
    exact h hr
  · rwa [Function.update_of_ne hi]

/-- **A live record stays** through a call that does not overwrite, delete or evict its key. -/
theorem lookup_call (hr : (a.lists (shardForKey P key)).lookup key = some r) {now : TimePoint}
    (hlive : r.expired now = false) {op : CacheOp Key Value}
    (hset : ∀ k v ttl, op = .set k v ttl → k ≠ key ∧
      ((a.call cap now op).2.lists (shardForKey P key)).lookup key ≠ none)
    (hdel : ∀ k, op = .del k → k ≠ key) :
    ((a.call cap now op).2.lists (shardForKey P key)).lookup key = some r := by
  cases op with
  | set k v ttl =>
      obtain ⟨hk, hkept⟩ := hset k v ttl rfl
      obtain ⟨q, hq⟩ := Option.ne_none_iff_exists'.mp hkept
      simp only [call, set] at hq ⊢
      split at hq
      · next hzero => rwa [if_pos hzero]
      · next hpos =>
        rw [if_neg hpos]
        refine hq.trans ?_
        dsimp only at hq
        by_cases hi : shardForKey P key = shardForKey P k
        · rw [← hi, Function.update_self] at hq
          exact (RecencyList.lookup_put_of_ne hk.symm hq).symm.trans hr
        · rw [Function.update_of_ne hi] at hq
          exact hq.symm.trans hr
  | get k =>
      simp only [call, get]
      split
      · exact hr
      · next q hq =>
        split
        · next hexp =>
          refine lookup_lists_update hr fun hkey => ?_
          have hne : key ≠ k := by
            rintro rfl
            cases hq.symm.trans hkey
            exact absurd hexp (by simp [hlive])
          rwa [AList.lookup_erase_ne hne]
        · exact lookup_lists_update hr fun hkey => by rwa [RecencyList.lookup_touch]
  | del k =>
      have hne := (hdel k rfl).symm
      simp only [call, del]
      split
      · exact hr
      · exact lookup_lists_update hr fun hkey => by rwa [AList.lookup_erase_ne hne]
  | cleanupExpired =>
      change (liveRecords now (a.lists (shardForKey P key))).lookup key = some r
      rw [liveRecords, AList.lookup_filterEntries, hr]
      simp [hlive]

end LruCache

/-- Sparing calls keep a record whose deadline lies ahead. -/
theorem lookup_of_sparing {key : Key} {t : TimePoint} {c c' : ShardedCache P}
    {calls : List (TimePoint × CacheOp Key Value)} (hrun : Transition.Run (Sparing key t) c calls c')
    {r : Record Value} (hlive : ∀ u ≤ t, r.expired u = false)
    (h : ∃ a, Sim c a ∧ (a.lists (shardForKey P key)).lookup key = some r) :
    ∃ a, Sim c' a ∧ (a.lists (shardForKey P key)).lookup key = some r := by
  refine hrun.invariant (P := fun d => ∃ a, Sim d a ∧
    (a.lists (shardForKey P key)).lookup key = some r) ?_ h
  rintro d ⟨now, op⟩ d' ⟨hnow, hspares, rfl⟩ ⟨a, hsim, hr⟩
  obtain ⟨-, hsim'⟩ := hsim.call now op
  refine ⟨_, hsim', LruCache.lookup_call hr (hlive now hnow) ?_ ?_⟩
  · rintro k v ttl rfl
    refine ⟨hspares.1, ?_⟩
    rw [← (hsim'.rep.holds _).records key]
    simpa using hspares.2
  · rintro k rfl
    exact hspares

theorem CalledFrom.sim {maxKeys : ℕ} {c : ShardedCache P} (h : CalledFrom P maxKeys c) :
    ∃ a, Sim c a := by
  obtain ⟨calls, rfl⟩ := h
  have hinit : ∃ a, Sim (ShardedCache.construct P maxKeys) a :=
    ⟨LruCache.empty, ShardedCache.Rep.construct maxKeys, rfl⟩
  generalize ShardedCache.construct P maxKeys = c at hinit
  induction calls generalizing c with
  | nil => exact hinit
  | cons x calls ih =>
      obtain ⟨a, hsim⟩ := hinit
      exact ih _ ⟨_, (hsim.call x.1 x.2).2⟩

end Calls

/-! ## What is honoured -/

/-- A time point that the clock can show. -/
def Representable (t : ℤ) : Prop := -2 ^ 63 ≤ t ∧ t < 2 ^ 63

/-- A ttl given at `now` is honoured: its deadline is not too early, a value stored with it is
returned until then unless a call overwrites, deletes or evicts its key, and no shorter ttl has a
later deadline. -/
structure Honoured {Key Value : Type} [DecidableEq Key] (P : CacheParams Key Value) (now : TimePoint)
    (ttl : Millis) : Prop where
  deadline : now + ttl * nsPerMs ≤ expiryAt now ttl
  returned : ∀ maxKeys c, CalledFrom P maxKeys c → ∀ key value,
    (c.set key value (some ttl) now).1 = true → ∀ t, Representable t → now ≤ t →
      t < now + ttl * nsPerMs → ∀ calls c',
        Transition.Run (Sparing key t) (c.set key value (some ttl) now).2 calls c' →
          (c'.get key t).1 = some value
  monotone : ∀ ttl' : ℤ, 0 ≤ ttl' → ttl' ≤ ttl → expiryAt now ttl' ≤ expiryAt now ttl

/-- **A ttl is honoured if and only if its deadline fits the clock.** -/
theorem honoured_iff {Key Value : Type} [DecidableEq Key] (P : CacheParams Key Value)
    {now : ℤ} (hnow : Representable now) {ttl : ℤ} (httl : Accepted ttl) :
    Honoured P now ttl ↔ now + ttl * nsPerMs < 2 ^ 63 := by
  have hpos := (accepted_iff.mp httl).1
  constructor
  · intro h
    have hlt := wrap64_lt (now + ttl * nsPerMs)
    rw [← expiryAt_eq] at hlt
    exact h.deadline.trans_lt hlt
  · intro hfits
    have hexact : ∀ ttl' : ℤ, 0 ≤ ttl' → ttl' ≤ ttl → expiryAt now ttl' = now + ttl' * nsPerMs := by
      intro ttl' hpos' hle
      rw [expiryAt_eq]
      have hlow := hnow.1
      unfold nsPerMs at hfits ⊢
      exact wrap64_eq (by omega) (by omega)
    refine ⟨(hexact ttl hpos le_rfl).ge, ?_, ?_⟩
    · intro maxKeys c hc key value hok t _ _ ht calls c' hrun
      obtain ⟨a, hsim⟩ := hc.sim
      have hcap : capacityOf P c.maxKeys (shardForKey P key) ≠ 0 := by
        rw [hsim.rep.set_ok key value] at hok
        simpa using hok
      have hstored : ((a.set (shardForKey P) (Sim.cap c) key value (some ttl) now).2.lists
          (shardForKey P key)).lookup key = some (storedRecord value (some ttl) now) := by
        simp only [LruCache.set, Sim.cap, if_neg hcap, Function.update_self]
        exact RecencyList.lookup_put_self _ key _ (Nat.pos_of_ne_zero hcap)
          (hsim.rep.card_le_capacityOf _)
      have hlive : ∀ u : ℤ, u ≤ t → (storedRecord value (some ttl) now).expired u = false := by
        intro u hu
        simp only [storedRecord, Record.expired, Option.map_some, hexact ttl hpos le_rfl,
          decide_eq_false_iff_not]
        exact not_le.mpr (hu.trans_lt ht)
      obtain ⟨a', hsim', hr⟩ := lookup_of_sparing hrun hlive
        ⟨_, (hsim.set key value (some ttl) now).2, hstored⟩
      rw [hsim'.rep.get_eq, hr]
      simp only [Option.bind_some, Record.read, hlive t le_rfl, Bool.false_eq_true, if_false]
      rfl
    · intro ttl' hpos' hle
      rw [hexact ttl' hpos' hle, hexact ttl hpos le_rfl]
      exact Int.add_le_add_left (Int.mul_le_mul_of_nonneg_right hle (by decide)) now

/-- A second, on a clock that was started some hours ago. -/
theorem honoured_iff_second : Honoured CacheParams.twoShards 10000000000000 1000 :=
  (honoured_iff _ (by unfold Representable; omega) (accepted_iff.mpr (by omega))).mpr (by decide)

/-- The largest ttl makes the value expire a millisecond before it is set. -/
theorem largest_ttl_expired :
    ¬ ∀ now ttl, Representable now → Accepted ttl → Honoured CacheParams.twoShards now ttl := by
  intro h
  have hdeadline := (h 0 (2 ^ 63 - 1) (by unfold Representable; omega)
    (accepted_iff.mpr (by omega))).deadline
  have hwrapped : expiryAt 0 (2 ^ 63 - 1) = -1000000 := by decide
  rw [hwrapped] at hdeadline
  exact absurd hdeadline (by decide)

end MiniRedis
