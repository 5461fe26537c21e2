import MiniRedis.Cache.ShardedCache
import MiniRedis.Lib.Transition

/-!
# The edits a critical section is made of

Whatever a thread does while it holds a shard's mutex is a run of the seven edits below, each with
its cause. An invariant of the cache is proved edit by edit; the critical sections inherit it, and
so do all interleavings of them.

An edit relates a locked shard and the recency list it represents with the shard and the list that
it leaves.
-/
namespace MiniRedis
variable {Key Value : Type}

/-- Why a shard is edited. -/
inductive Cause (Key Value : Type)
  /-- Recency and statistics. -/
  | upkeep
  /-- The map of loads in flight. -/
  | flight
  | store (key : Key) (value : Value) (ttl : Option Millis) (now : TimePoint)
  | delete (key : Key)
  | expire (now : TimePoint)

/-- A locked shard with the recency list it represents. -/
abbrev Viewed (Key Value : Type) := Locked Key Value × RecencyList Key (Record Value)

variable [DecidableEq Key] (P : CacheParams Key Value)

inductive Edit : Viewed Key Value → Cause Key Value → Viewed Key Value → Prop
  | count {s xs} (f : Counters → Counters) (hf : ∀ c, (f c).memoryBytes = c.memoryBytes) :
      Edit (s, xs) .upkeep (s.count f, xs)
  | touch {s xs} {k : Key} {e : Entry Value} (he : s.shard.map.lookup k = some e) :
      Edit (s, xs) .upkeep (s.touchLruLocked k e, RecencyList.touch k xs)
  | flight {s xs} (m : AList (fun _ : Key => RecordId)) :
      Edit (s, xs) .flight ({ s with shard := { s.shard with inflight := m } }, xs)
  | delete {s xs} {k : Key} {e : Entry Value} (he : s.shard.map.lookup k = some e) :
      Edit (s, xs) (.delete k) (s.eraseEntryLocked k e, xs.erase k)
  | expire {s xs} {k : Key} {e : Entry Value} {now : TimePoint}
      (he : s.shard.map.lookup k = some e) (hexp : isExpired e now = true) :
      Edit (s, xs) (.expire now) (s.expireLocked k e, xs.erase k)
  | overwrite {s xs} {k : Key} {e : Entry Value} (he : s.shard.map.lookup k = some e) (v : Value)
      (ttl : Option Millis) (now : TimePoint) :
      Edit (s, xs) (.store k v ttl now)
        (s.overwriteLocked P k v ttl now e, xs.insert k (storedRecord v ttl now))
  | insert {s xs} {k : Key} (hk : s.shard.map.lookup k = none) (hroom : xs.card < s.shard.capacity)
      (v : Value) (ttl : Option Millis) (now : TimePoint) :
      Edit (s, xs) (.store k v ttl now)
        (s.insertLocked P k v ttl now, xs.insert k (storedRecord v ttl now))
  /-- A new key takes the place of the oldest one. -/
  | replace {s xs} {k z : Key} {f : Entry Value} (hk : s.shard.map.lookup k = none)
      (hfull : xs.card = s.shard.capacity) (hz : s.shard.map.lookup z = some f) (hzk : z ≠ k)
      (v : Value) (ttl : Option Millis) (now : TimePoint) :
      Edit (s, xs) (.store k v ttl now)
        (((s.insertLocked P k v ttl now).eraseEntryLocked z f).count Counters.evicted,
          (xs.insert k (storedRecord v ttl now)).erase z)

/-- A run of edits for allowed causes. -/
def Edits (allowed : Cause Key Value → Prop) (p q : Viewed Key Value) : Prop :=
  ∃ cs, Transition.Run (fun p c q => allowed c ∧ Edit P p c q) p cs q

/-- The keys a cause writes to or deletes belong to shard `i`. -/
def Cause.Home (i : Fin P.numShards) : Cause Key Value → Prop
  | .store k _ _ _ => shardForKey P k = i
  | .delete k => shardForKey P k = i
  | _ => True

namespace Edits
variable {P} {allowed : Cause Key Value → Prop} {p q r : Viewed Key Value}

theorem refl (p : Viewed Key Value) : Edits P allowed p p := ⟨[], .nil p⟩

theorem one {c : Cause Key Value} (hc : allowed c) (h : Edit P p c q) : Edits P allowed p q :=
  ⟨[c], .cons ⟨hc, h⟩ (.nil q)⟩

theorem trans (h : Edits P allowed p q) (h' : Edits P allowed q r) : Edits P allowed p r := by
  obtain ⟨cs, h⟩ := h
  obtain ⟨ds, h'⟩ := h'
  exact ⟨cs ++ ds, h.append h'⟩

theorem invariant {I : Viewed Key Value → Prop}
    (hstep : ∀ p c q, allowed c → Edit P p c q → I p → I q) (h : Edits P allowed p q) (hp : I p) :
    I q := by
  obtain ⟨cs, h⟩ := h
  exact h.invariant (fun p c q hpq => hstep p c q hpq.1 hpq.2) hp

theorem mono {allowed' : Cause Key Value → Prop} (hall : ∀ c, allowed c → allowed' c)
    (h : Edits P allowed p q) : Edits P allowed' p q := by
  obtain ⟨cs, h⟩ := h
  exact ⟨cs, h.mono fun p c q hpq => ⟨hall c hpq.1, hpq.2⟩⟩

end Edits

/-! ## What every edit keeps -/

/-- A locked shard `i` of a cache for `maxKeys` keys, with the list it represents. -/
structure Viewed.Ok (maxKeys : ℕ) (i : Fin P.numShards) (p : Viewed Key Value) : Prop where
  holds : p.1.shard.Holds P p.2
  capacity : p.1.shard.capacity = capacityOf P maxKeys i
  fits : ListFits P maxKeys i p.2

namespace Edit
variable {P} {p q : Viewed Key Value} {c : Cause Key Value}

theorem capacity_eq (h : Edit P p c q) : q.1.shard.capacity = p.1.shard.capacity := by
  cases h <;> rfl

theorem inflight_eq (h : Edit P p c q) (hc : c ≠ .flight) :
    q.1.shard.inflight = p.1.shard.inflight := by
  cases h with
  | flight m => exact absurd rfl hc
  | _ => rfl

theorem holds (h : Edit P p c q) (H : p.1.shard.Holds P p.2) : q.1.shard.Holds P q.2 := by
  cases h with
  | count f hf => exact H
  | touch he => exact Locked.holds_touch H he
  | flight m => exact H.congr rfl rfl
  | delete he => exact Locked.holds_erase H he
  | expire he hexp => exact Locked.holds_expire H he
  | overwrite he v ttl now => exact Locked.holds_overwrite H he v ttl now
  | insert hk hroom v ttl now => exact Locked.holds_insert H hk v ttl now
  | @replace s xs k z f hk hfull hz hzk v ttl now =>
      have hz' : (s.insertLocked P k v ttl now).shard.map.lookup z = some f :=
        (AList.lookup_insert_ne hzk).trans hz
      exact Locked.holds_evicted (Locked.holds_insert H hk v ttl now) hz'

/-- An edit keeps a shard within its capacity and its keys where they belong. -/
theorem fits {maxKeys : ℕ} {i : Fin P.numShards} (h : Edit P p c q) (hc : c.Home P i)
    (H : p.1.shard.Holds P p.2) (hcap : p.1.shard.capacity = capacityOf P maxKeys i)
    (F : ListFits P maxKeys i p.2) : ListFits P maxKeys i q.2 := by
  cases h with
  | count f hf => exact F
  | @touch _ _ k _ he => exact F.touch k
  | flight m => exact F
  | @delete _ _ k _ he => exact F.erase k
  | @expire _ _ k _ _ he hexp => exact F.erase k
  | @overwrite s xs k e he v ttl now =>
      have hput := RecencyList.put_of_lookup (H.lookup_some he) F.bounded (storedRecord v ttl now)
      exact hput ▸ F.put hc _
  | @insert s xs k hk hroom v ttl now =>
      have hput := RecencyList.put_of_room (H.lookup_none hk) (hcap ▸ hroom)
        (storedRecord v ttl now)
      exact hput ▸ F.put hc _
  | @replace s xs k z f hk hfull hz hzk v ttl now =>
      have hlook : (xs.insert k (storedRecord v ttl now)).lookup z = some f.record :=
        (AList.lookup_insert_ne hzk).trans (H.lookup_some hz)
      refine ⟨?_, ?_⟩
      · have hins : (xs.insert k (storedRecord v ttl now)).card = xs.card + 1 :=
          AList.card_insert_of_lookup_none (H.lookup_none hk) _
        have her := AList.card_erase hlook
        have hbound : xs.card ≤ capacityOf P maxKeys i := F.bounded
        change ((xs.insert k _).erase z).card ≤ _
        change xs.card = s.shard.capacity at hfull
        omega
      · intro j r hj
        by_cases hjk : j = k
        · rw [hjk]
          exact hc
        · have hj' := (AList.lookup_of_lookup_erase hj).2
          rw [AList.lookup_insert_ne hjk] at hj'
          exact F.home j r hj'

theorem ok {maxKeys : ℕ} {i : Fin P.numShards} (h : Edit P p c q) (hc : c.Home P i)
    (hp : p.Ok P maxKeys i) : q.Ok P maxKeys i :=
  ⟨h.holds hp.holds, h.capacity_eq.trans hp.capacity, h.fits hc hp.holds hp.capacity hp.fits⟩

/-- An edit that does not store `j` adds no record of `j` and changes none. -/
theorem record_of_lookup (h : Edit P p c q) {j : Key} (hc : ∀ v ttl now, c ≠ .store j v ttl now)
    {e' : Entry Value} (he' : q.1.shard.map.lookup j = some e') :
    ∃ e, p.1.shard.map.lookup j = some e ∧ e'.record = e.record := by
  have stored : ∀ {k : Key} {v : Value} {ttl : Option Millis} {now : TimePoint},
      c = .store k v ttl now → j ≠ k := by
    rintro k v ttl now hcause rfl
    exact hc v ttl now hcause
  cases h with
  | count f hf => exact ⟨e', he', rfl⟩
  | flight m => exact ⟨e', he', rfl⟩
  | @touch s xs k e he =>
      rcases AList.lookup_of_lookup_insert he' with ⟨rfl, rfl⟩ | ⟨-, he'⟩
      · exact ⟨e, he, rfl⟩
      · exact ⟨e', he', rfl⟩
  | delete he => exact ⟨e', (AList.lookup_of_lookup_erase he').2, rfl⟩
  | expire he hexp => exact ⟨e', (AList.lookup_of_lookup_erase he').2, rfl⟩
  | overwrite he v ttl now =>
      exact ⟨e', (AList.lookup_insert_ne (stored rfl)).symm.trans he', rfl⟩
  | insert hk hroom v ttl now =>
      exact ⟨e', (AList.lookup_insert_ne (stored rfl)).symm.trans he', rfl⟩
  | replace hk hfull hz hzk v ttl now =>
      have hins := (AList.lookup_of_lookup_erase he').2
      exact ⟨e', (AList.lookup_insert_ne (stored rfl)).symm.trans hins, rfl⟩

/-- Who stores a key leaves it stored. -/
theorem lookup_stored {k : Key} {v : Value} {ttl : Option Millis} {now : TimePoint}
    (h : Edit P p (.store k v ttl now) q) :
    ∃ e, q.1.shard.map.lookup k = some e ∧ e.record = storedRecord v ttl now := by
  have stored : ∀ (m : AList fun _ : Key => Entry Value) (pos bytes : ℕ),
      ∃ e, (m.insert k ⟨v, ttl.isSome, (ttl.map (expiryAt now)).getD 0, pos, bytes⟩).lookup k
        = some e ∧ e.record = storedRecord v ttl now :=
    fun m pos bytes => ⟨_, AList.lookup_insert .., Locked.record_stored ..⟩
  cases h with
  | overwrite he => exact stored _ _ _
  | insert hk hroom => exact stored _ _ _
  | @replace s xs k z f hk hfull hz hzk =>
      obtain ⟨e, he, hrecord⟩ := stored s.shard.map _ _
      exact ⟨e, (AList.lookup_erase_ne hzk.symm).trans he, hrecord⟩

/-- A key stays stored unless it is deleted, something is stored, or its deadline has passed. -/
theorem lookup_kept (h : Edit P p c q) {k : Key} {e : Entry Value}
    (he : p.1.shard.map.lookup k = some e) (hdel : c ≠ .delete k)
    (hstore : ∀ k v ttl now, c ≠ .store k v ttl now)
    (hlive : ∀ now, c = .expire now → isExpired e now = false) :
    ∃ e', q.1.shard.map.lookup k = some e' ∧ e'.record = e.record := by
  cases h with
  | count f hf => exact ⟨e, he, rfl⟩
  | flight m => exact ⟨e, he, rfl⟩
  | @touch s xs j f hf =>
      change ∃ e', (s.shard.map.insert j _).lookup k = some e' ∧ _
      by_cases hkj : k = j
      · subst hkj
        cases hf.symm.trans he
        exact ⟨_, AList.lookup_insert .., rfl⟩
      · exact ⟨e, (AList.lookup_insert_ne hkj).trans he, rfl⟩
  | @delete s xs j f hf =>
      have hkj : k ≠ j := fun h => hdel (by rw [h])
      exact ⟨e, (AList.lookup_erase_ne hkj).trans he, rfl⟩
  | @expire s xs j f now hf hexp =>
      have hkj : k ≠ j := by
        rintro rfl
        cases hf.symm.trans he
        exact absurd hexp (by simp [hlive now rfl])
      exact ⟨e, (AList.lookup_erase_ne hkj).trans he, rfl⟩
  | @overwrite s xs j f hf v ttl now => exact absurd rfl (hstore j v ttl now)
  | @insert s xs j hj hroom v ttl now => exact absurd rfl (hstore j v ttl now)
  | @replace s xs j z f hj hfull hz hzk v ttl now => exact absurd rfl (hstore j v ttl now)

end Edit

/-! ## Critical sections are runs of edits -/

namespace Locked
variable {P} {s : Locked Key Value} {xs : RecencyList Key (Record Value)}

/-- An entry is touched and the access is counted. -/
theorem edits_hit {k : Key} {e : Entry Value} (he : s.shard.map.lookup k = some e)
    {allowed : Cause Key Value → Prop} (hall : allowed .upkeep) :
    Edits P allowed (s, xs) ((s.touchLruLocked k e).count Counters.hit, RecencyList.touch k xs) :=
  (Edits.one hall (.touch he)).trans (.one hall (.count _ fun _ => rfl))

theorem edits_miss {allowed : Cause Key Value → Prop} (hall : allowed .upkeep) :
    Edits P allowed (s, xs) (s.count Counters.miss, xs) :=
  .one hall (.count _ fun _ => rfl)

/-- A `set` is refused for want of capacity, or is one edit. -/
theorem edit_setImpl (H : s.shard.Holds P xs) (hcard : xs.card ≤ s.shard.capacity) (k : Key)
    (v : Value) (ttl : Option Millis) (now : TimePoint) :
    (s.shard.capacity = 0 ∧ s.setImpl P k v ttl now = (false, s)) ∨
      (0 < s.shard.capacity ∧
        ∃ ys, Edit P (s, xs) (.store k v ttl now) ((s.setImpl P k v ttl now).2, ys)) := by
  rcases setImpl_cases H hcard k v ttl now with ⟨hcap, heq⟩ | ⟨hpos, e, he, heq⟩ |
    ⟨hk, hroom, heq⟩ | ⟨hk, hpos, hfull, z, f, -, hzk, hf, heq⟩
  · exact .inl ⟨hcap, heq⟩
  · exact .inr ⟨hpos, _, by rw [heq]; exact .overwrite he v ttl now⟩
  · exact .inr ⟨Nat.zero_lt_of_lt hroom, _, by rw [heq]; exact .insert hk hroom v ttl now⟩
  · exact .inr ⟨hpos, _, by rw [heq]; exact .replace hk hfull hf hzk v ttl now⟩

theorem edits_setImpl (H : s.shard.Holds P xs) (hcard : xs.card ≤ s.shard.capacity) (k : Key)
    (v : Value) (ttl : Option Millis) (now : TimePoint) :
    ∃ ys, Edits P (· = .store k v ttl now) (s, xs) ((s.setImpl P k v ttl now).2, ys) := by
  rcases edit_setImpl H hcard k v ttl now with ⟨-, heq⟩ | ⟨-, ys, hedit⟩
  · rw [heq]
    exact ⟨xs, .refl _⟩
  · exact ⟨ys, .one rfl hedit⟩

theorem edits_cleanup (H : s.shard.Holds P xs) (now : TimePoint) :
    ∃ ys, Edits P (· = .expire now) (s, xs) (s.cleanupLocked now, ys) := by
  refine (holds_cleanup now (fun t => ∃ ys, Edits P (· = .expire now) (s, xs) (t, ys)) ?_ H
    ⟨xs, .refl _⟩).1
  rintro t - k e - he hexp ⟨ys, hedits⟩
  exact ⟨_, hedits.trans (.one rfl (.expire he hexp))⟩

end Locked
end MiniRedis
