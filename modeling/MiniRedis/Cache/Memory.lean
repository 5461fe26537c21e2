import MiniRedis.Cache.Edit

/-!
# The memory counter

Every edit moves `memory_bytes_` by what it does to the sum of the entry sizes. The counter
therefore reads that sum modulo `2 ^ 64`, and a subtraction borrows only if the sum no longer fits.
While a new entry stands beside the one it is about to push out, the sum is larger than before and
after: `Viewed.peak` is what has to fit.
-/
namespace MiniRedis
variable {Key Value : Type} (P : CacheParams Key Value)

/-- The size of an entry, as a number. -/
def CacheParams.entryBytes (k : Key) (v : Value) : ℕ :=
  P.sizeofEntry + P.keySizer k + P.valueSizer v

/-- The sum of the sizes of a shard's entries. -/
def Shard.bytes (sh : Shard Key Value) : ℕ := sh.map.total fun k e => P.entryBytes k e.value

theorem CacheParams.estimateEntryBytes_eq (k : Key) (v : Value) :
    P.estimateEntryBytes k v = P.entryBytes k v % WordCounter.modulus := rfl

variable [DecidableEq Key]

/-- The largest sum of entry sizes while an edit of cause `c` is made. -/
def Viewed.peak (c : Cause Key Value) (p : Viewed Key Value) : ℕ :=
  match c with
  | .store k v _ _ =>
      match p.1.shard.map.lookup k with
      | none => p.1.shard.bytes P + P.entryBytes k v
      | some _ => p.1.shard.bytes P
  | _ => p.1.shard.bytes P

variable {P}

namespace Locked
variable {s : Locked Key Value} {xs : RecencyList Key (Record Value)} {k : Key} {e : Entry Value}

theorem bytes_erase (he : s.shard.map.lookup k = some e) :
    (s.eraseEntryLocked k e).shard.bytes P + P.entryBytes k e.value = s.shard.bytes P :=
  AList.total_erase (fun k (e : Entry Value) => P.entryBytes k e.value) he

theorem bytes_erase_add (he : s.shard.map.lookup k = some e) (rest : ℕ) :
    (s.eraseEntryLocked k e).shard.bytes P + rest + P.entryBytes k e.value
      = s.shard.bytes P + rest := by
  rw [← bytes_erase he]
  omega

theorem bytes_touch (he : s.shard.map.lookup k = some e) (e' : Entry Value) :
    (s.touchLruLocked k e').shard.bytes P + P.entryBytes k e.value
      = s.shard.bytes P + P.entryBytes k e'.value :=
  AList.total_insert_of_lookup (fun k (e : Entry Value) => P.entryBytes k e.value) he _

theorem bytes_insert (hk : s.shard.map.lookup k = none) (v : Value) (ttl : Option Millis)
    (now : TimePoint) :
    (s.insertLocked P k v ttl now).shard.bytes P = s.shard.bytes P + P.entryBytes k v :=
  AList.total_insert_of_lookup_none (fun k (e : Entry Value) => P.entryBytes k e.value) hk _

/-- Erasing an entry subtracts its size. -/
theorem reads_erase (H : s.shard.Holds P xs) (he : s.shard.map.lookup k = some e) {rest : ℕ}
    (hr : s.counters.memoryBytes.Reads (s.shard.bytes P + rest)) :
    (s.eraseEntryLocked k e).counters.memoryBytes.Reads
      ((s.eraseEntryLocked k e).shard.bytes P + rest) := by
  have hsum := bytes_erase_add (P := P) he rest
  change (s.counters.memoryBytes.fetchSub e.bytes).Reads _
  rw [H.bytes k e he, P.estimateEntryBytes_eq]
  exact WordCounter.reads_fetchSub_mod (hsum ▸ hr)

/-- Erasing an entry from a sum that fits does not borrow. -/
theorem borrowed_erase (H : s.shard.Holds P xs) (he : s.shard.map.lookup k = some e) {rest : ℕ}
    (hr : s.counters.memoryBytes.Reads (s.shard.bytes P + rest))
    (hfit : s.shard.bytes P + rest < WordCounter.modulus) :
    (s.eraseEntryLocked k e).counters.memoryBytes.borrowed = s.counters.memoryBytes.borrowed := by
  have hsum := bytes_erase_add (P := P) he rest
  change (s.counters.memoryBytes.fetchSub e.bytes).borrowed = _
  have hsize : P.entryBytes k e.value < WordCounter.modulus := by omega
  rw [H.bytes k e he, P.estimateEntryBytes_eq, Nat.mod_eq_of_lt hsize]
  exact WordCounter.borrowed_fetchSub (hsum ▸ hr) (by omega)

theorem reads_overwrite (H : s.shard.Holds P xs) (he : s.shard.map.lookup k = some e) {rest : ℕ}
    (hr : s.counters.memoryBytes.Reads (s.shard.bytes P + rest)) (v : Value)
    (ttl : Option Millis) (now : TimePoint) :
    (s.overwriteLocked P k v ttl now e).counters.memoryBytes.Reads
      ((s.overwriteLocked P k v ttl now e).shard.bytes P + rest) := by
  have hold := bytes_erase (P := P) he
  have hnew : (s.overwriteLocked P k v ttl now e).shard.bytes P + P.entryBytes k e.value
      = s.shard.bytes P + P.entryBytes k v := bytes_touch (P := P) he _
  have hsub : (s.eraseEntryLocked k e).shard.bytes P + rest + P.entryBytes k v
      = (s.overwriteLocked P k v ttl now e).shard.bytes P + rest := by omega
  -- the counter loses the old size, then gains the new one
  rw [← hsub]
  exact WordCounter.reads_fetchAdd_mod (reads_erase H he hr) _

theorem reads_insert (hk : s.shard.map.lookup k = none) {rest : ℕ}
    (hr : s.counters.memoryBytes.Reads (s.shard.bytes P + rest)) (v : Value)
    (ttl : Option Millis) (now : TimePoint) :
    (s.insertLocked P k v ttl now).counters.memoryBytes.Reads
      ((s.insertLocked P k v ttl now).shard.bytes P + rest) := by
  rw [bytes_insert hk, Nat.add_right_comm]
  exact WordCounter.reads_fetchAdd_mod hr _

end Locked

namespace Edit
variable {p q : Viewed Key Value} {c : Cause Key Value}

/-- **The counter follows the sum** of the entry sizes, `rest` being the other shards' sum. -/
theorem reads (h : Edit P p c q) (H : p.1.shard.Holds P p.2) {rest : ℕ}
    (hr : p.1.counters.memoryBytes.Reads (p.1.shard.bytes P + rest)) :
    q.1.counters.memoryBytes.Reads (q.1.shard.bytes P + rest) := by
  cases h with
  | @count s xs f hf =>
      change (f s.counters).memoryBytes.Reads _
      rw [hf]
      exact hr
  | @touch s xs k e he =>
      have hsame : (s.touchLruLocked k e).shard.bytes P = s.shard.bytes P :=
        Nat.add_right_cancel (Locked.bytes_touch (P := P) he e)
      change s.counters.memoryBytes.Reads ((s.touchLruLocked k e).shard.bytes P + rest)
      rw [hsame]
      exact hr
  | flight m => exact hr
  | delete he => exact Locked.reads_erase H he hr
  | expire he hexp => exact Locked.reads_erase H he hr
  | overwrite he v ttl now => exact Locked.reads_overwrite H he hr v ttl now
  | insert hk hroom v ttl now => exact Locked.reads_insert hk hr v ttl now
  | @replace s xs k z f hk hfull hz hzk v ttl now =>
      have hz' : (s.insertLocked P k v ttl now).shard.map.lookup z = some f :=
        (AList.lookup_insert_ne hzk).trans hz
      exact Locked.reads_erase (Locked.holds_insert H hk v ttl now) hz'
        (Locked.reads_insert hk hr v ttl now)

/-- **No subtraction borrows** while the sum fits in 64 bits. -/
theorem borrowed_eq (h : Edit P p c q) (H : p.1.shard.Holds P p.2) {rest : ℕ}
    (hr : p.1.counters.memoryBytes.Reads (p.1.shard.bytes P + rest))
    (hfit : p.peak P c + rest < WordCounter.modulus) :
    q.1.counters.memoryBytes.borrowed = p.1.counters.memoryBytes.borrowed := by
  cases h with
  | @count s xs f hf =>
      change (f s.counters).memoryBytes.borrowed = _
      rw [hf]
  | touch he => rfl
  | flight m => rfl
  | delete he => exact Locked.borrowed_erase H he hr hfit
  | expire he hexp => exact Locked.borrowed_erase H he hr hfit
  | @overwrite s xs k e he v ttl now =>
      simp only [Viewed.peak, he] at hfit
      exact Locked.borrowed_erase H he hr hfit
  | insert hk hroom v ttl now => rfl
  | @replace s xs k z f hk hfull hz hzk v ttl now =>
      simp only [Viewed.peak, hk] at hfit
      have hz' : (s.insertLocked P k v ttl now).shard.map.lookup z = some f :=
        (AList.lookup_insert_ne hzk).trans hz
      exact Locked.borrowed_erase (Locked.holds_insert H hk v ttl now) hz'
        (Locked.reads_insert hk hr v ttl now) (by rwa [Locked.bytes_insert hk])

/-- Only stores make the sum grow. -/
theorem bytes_le (h : Edit P p c q) (hc : ∀ k v ttl now, c ≠ .store k v ttl now) :
    q.1.shard.bytes P ≤ p.1.shard.bytes P := by
  cases h with
  | count f hf => exact le_rfl
  | @touch s xs k e he => exact (Nat.add_right_cancel (Locked.bytes_touch (P := P) he e)).le
  | flight m => exact le_rfl
  | delete he => exact Nat.le_of_add_right_le (Locked.bytes_erase (P := P) he).le
  | expire he hexp => exact Nat.le_of_add_right_le (Locked.bytes_erase (P := P) he).le
  | @overwrite s xs k e he v ttl now => exact absurd rfl (hc k v ttl now)
  | @insert s xs k hk hroom v ttl now => exact absurd rfl (hc k v ttl now)
  | @replace s xs k z f hk hfull hz hzk v ttl now => exact absurd rfl (hc k v ttl now)

theorem peak_eq (hc : ∀ k v ttl now, c ≠ .store k v ttl now) : p.peak P c = p.1.shard.bytes P := by
  cases c with
  | store k v ttl now => exact absurd rfl (hc k v ttl now)
  | _ => rfl

end Edit

/-- Edits other than stores do not borrow from a sum that fits. -/
theorem Edits.borrowed_eq {allowed : Cause Key Value → Prop} {p q : Viewed Key Value}
    (h : Edits P allowed p q) (hall : ∀ k v ttl now, ¬ allowed (.store k v ttl now))
    (H : p.1.shard.Holds P p.2) {rest : ℕ}
    (hr : p.1.counters.memoryBytes.Reads (p.1.shard.bytes P + rest))
    (hfit : p.1.shard.bytes P + rest < WordCounter.modulus) :
    q.1.counters.memoryBytes.borrowed = p.1.counters.memoryBytes.borrowed := by
  let I (q : Viewed Key Value) : Prop :=
    q.1.shard.Holds P q.2 ∧ q.1.counters.memoryBytes.Reads (q.1.shard.bytes P + rest) ∧
      q.1.shard.bytes P + rest < WordCounter.modulus ∧
      q.1.counters.memoryBytes.borrowed = p.1.counters.memoryBytes.borrowed
  have hstep : ∀ p c q, allowed c → Edit P p c q → I p → I q := by
    rintro p c q hc hedit ⟨H, hr, hfit, hb⟩
    have hstore : ∀ k v ttl now, c ≠ .store k v ttl now := by
      rintro k v ttl now rfl
      exact hall k v ttl now hc
    have hle := hedit.bytes_le hstore
    refine ⟨hedit.holds H, hedit.reads H hr, by omega, ?_⟩
    rw [hedit.borrowed_eq H hr (by rwa [Edit.peak_eq hstore]), hb]
  exact (h.invariant hstep ⟨H, hr, hfit, rfl⟩).2.2.2

theorem Edits.reads {allowed : Cause Key Value → Prop} {p q : Viewed Key Value}
    (h : Edits P allowed p q) (H : p.1.shard.Holds P p.2) {rest : ℕ}
    (hr : p.1.counters.memoryBytes.Reads (p.1.shard.bytes P + rest)) :
    q.1.counters.memoryBytes.Reads (q.1.shard.bytes P + rest) := by
  have hstep : ∀ p c q, allowed c → Edit P p c q →
      (p.1.shard.Holds P p.2 ∧ p.1.counters.memoryBytes.Reads (p.1.shard.bytes P + rest)) →
      q.1.shard.Holds P q.2 ∧ q.1.counters.memoryBytes.Reads (q.1.shard.bytes P + rest) :=
    fun p c q _ hedit hp => ⟨hedit.holds hp.1, hedit.reads hp.1 hp.2⟩
  exact (h.invariant hstep ⟨H, hr⟩).2

end MiniRedis
