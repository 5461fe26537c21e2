import MiniRedis.Cache.Lists
import MiniRedis.Concurrency.Loads

/-!
# The cache is linearizable

Each call uses the store at definite moments: a `set` and a `del` once, under the exclusive lock; a
`get` once, in whichever of its two sections it is decided; `get_or_compute` for each of its two
lookups and for the value it has loaded; a clean-up once for each shard. `Access` is such a use with
what the code answered. The accesses of any run, in the order in which they take place, are what one
thread could have done with the abstract store (`Sequential`), and those that a call makes between
its start and its return are the ones it is made for (`Serves`). A `get_or_compute` that has missed
returns what a loader has delivered: its own, or that of the call whose load it has joined.
-/
namespace MiniRedis
variable {Key Value Exn : Type}

/-- A use of the store, with the clock reading the code works with and its answer. -/
inductive Access (Key Value : Type)
  | set (key : Key) (value : Value) (ttl : Option Millis) (now : TimePoint) (ok : Bool)
  | get (key : Key) (now : TimePoint) (found : Option Value)
  | del (key : Key) (ok : Bool)
  /-- A shard's turn in `cleanup_expired`. -/
  | purge (shard : ℕ) (now : TimePoint)
  deriving DecidableEq

/-- The clock reading. -/
def Access.reading : Access Key Value → Option TimePoint
  | .set _ _ _ now _ => some now
  | .get _ now _ => some now
  | .del .. => none
  | .purge _ now => some now

/-- How a thread that goes from one place to another has used the store, with what it has learnt. -/
def Pc.access (clock : TimePoint) : Pc Key Value Exn → Pc Key Value Exn → List (Access Key Value)
  | .getShared .., .getExclusive .. => []
  | .getShared _ k now, _ => [.get k now none]
  | .getExclusive _ k now, .done (.got found) _ => [.get k now found]
  | .getExclusive _ k now, .done (.computed (.ok v)) _ => [.get k now (some v)]
  | .getExclusive _ k now, _ => [.get k now none]
  | .set k v ttl, .done (.stored ok) _ => [.set k v ttl clock ok]
  | .del k, .done (.deleted ok) _ => [.del k ok]
  | .recheck k _, .done (.computed (.ok v)) _ => [.get k clock (some v)]
  | .recheck k _, _ => [.get k clock none]
  | .loaded k ttl _ v, .stored _ _ _ ok => [.set k v ttl clock ok]
  | .cleanup now i, .cleanup _ _ => [.purge i now]
  | _, _ => []

variable (P : CacheParams Key Value)

/-- The abstract store: what each shard holds, in order of use. -/
abbrev Store := Fin P.numShards → RecencyList Key (Record Value)

variable [DecidableEq Key]

/-- One thread uses the abstract store of a cache for `maxKeys` keys. -/
inductive Sequential (maxKeys : ℕ) : Store P → Access Key Value → Store P → Prop
  | set (xs : Store P) (k v ttl now) :
      Sequential maxKeys xs
        (.set k v ttl now (decide (capacityOf P maxKeys (shardForKey P k) ≠ 0)))
        (Function.update xs (shardForKey P k)
          (RecencyList.put (capacityOf P maxKeys (shardForKey P k)) k (storedRecord v ttl now)
            (xs (shardForKey P k))))
  | get (xs : Store P) (k now) :
      Sequential maxKeys xs
        (.get k now (((xs (shardForKey P k)).lookup k).bind (Record.read now)))
        (Function.update xs (shardForKey P k) (lookedUp now k (xs (shardForKey P k))))
  | del (xs : Store P) (k) :
      Sequential maxKeys xs (.del k ((xs (shardForKey P k)).lookup k).isSome)
        (Function.update xs (shardForKey P k) ((xs (shardForKey P k)).erase k))
  | purge (xs : Store P) (i : Fin P.numShards) (now) :
      Sequential maxKeys xs (.purge i now) (Function.update xs i (liveRecords now (xs i)))

variable {P}

/-- The accesses a call makes, what its loader delivers, and what it returns from which load. The
loads that a call can join are `shared`. -/
inductive Serves (P : CacheParams Key Value) (shared : Delivery Key Value Exn → Prop) :
    Call Key Value → List (Access Key Value) → List (Delivery Key Value Exn) →
      Result Value Exn → Option (Load Key) → Prop
  | get (k now found source) : Serves P shared (.get k) [.get k now found] [] (.got found) source
  | set (k v ttl now ok) : Serves P shared (.set k v ttl) [.set k v ttl now ok] [] (.stored ok) none
  | del (k ok) : Serves P shared (.del k) [.del k ok] [] (.deleted ok) none
  | hit (k ttl now v source) :
      Serves P shared (.getOrCompute k ttl) [.get k now (some v)] [] (.computed (.ok v)) source
  /-- The key has been stored since the first lookup. -/
  | lateHit (k ttl now now' v source) :
      Serves P shared (.getOrCompute k ttl) [.get k now none, .get k now' (some v)] []
        (.computed (.ok v)) source
  /-- The call has loaded the value that it returns. -/
  | loaded (k ttl now now' now'' v ok r) :
      Serves P shared (.getOrCompute k ttl)
        [.get k now none, .get k now' none, .set k v ttl now'' ok] [⟨(k, r), .ok v⟩]
        (.computed (.ok v)) (some (k, r))
  /-- The call's loader has thrown what the call throws. -/
  | threw (k ttl now now' exn r) :
      Serves P shared (.getOrCompute k ttl) [.get k now none, .get k now' none]
        [⟨(k, r), .error exn⟩] (.computed (.error exn)) (some (k, r))
  /-- Another call has loaded the key. -/
  | joined (k ttl now now' r out) (h : shared ⟨(k, r), out⟩) :
      Serves P shared (.getOrCompute k ttl) [.get k now none, .get k now' none] []
        (.computed out) (some (k, r))
  | cleaned (now) :
      Serves P shared .cleanupExpired ((List.range P.numShards).map fun i => .purge i now) []
        .cleaned none
  | counted (n) : Serves P shared .activeKeyCount [] [] (.counted n) none

namespace System

/-- The accesses of a step, with the thread that makes them. -/
def access (s : System P Exn) (a : Action Key Value Exn) (s' : System P Exn) :
    List (ℕ × Access Key Value) :=
  match a.thread with
  | some t => ((s.threads t).access s.clock (s'.threads t)).map fun x => (t, x)
  | none => []

/-- The accesses of a run, in the order in which they take place. -/
def accesses (as : List (Action Key Value Exn)) (s : System P Exn) : List (ℕ × Access Key Value) :=
  Transition.collect step access as s

/-! ## Accesses are sequential -/

/-- `get` on the locked shard, by what it finds. -/
theorem get_of_none {s : System P Exn} {k : Key} (hk : s.entry k = none) (now : TimePoint) :
    s.cache.get k now = (none, (s.release k ((s.held k).count Counters.miss)).cache) := by
  rw [ShardedCache.get_eq_withLock]
  exact ShardedCache.withLock_eq (Locked.getExclusiveLocked_of_none hk)

theorem get_of_expired {s : System P Exn} {k : Key} {e : Entry Value} (he : s.entry k = some e)
    {now : TimePoint} (hexp : isExpired e now = true) :
    s.cache.get k now =
      (none, (s.release k (((s.held k).expireLocked k e).count Counters.miss)).cache) := by
  rw [ShardedCache.get_eq_withLock]
  exact ShardedCache.withLock_eq (Locked.getExclusiveLocked_of_expired he hexp)

theorem get_of_live {s : System P Exn} {k : Key} {e : Entry Value} (he : s.entry k = some e)
    {now : TimePoint} (hlive : isExpired e now = false) :
    s.cache.get k now =
      (some e.value, (s.release k (((s.held k).touchLruLocked k e).count Counters.hit)).cache) := by
  rw [ShardedCache.get_eq_withLock]
  exact ShardedCache.withLock_eq (Locked.getExclusiveLocked_of_live he hlive)

/-- What a shard represents does not depend on the counters and the loads in flight. -/
theorem rep_unlock_congr {c : ShardedCache P} {i : Fin P.numShards} {l l' : Locked Key Value}
    {ys : Store P} (R : (c.unlock i l).Rep ys) (hmap : l'.shard.map = l.shard.map)
    (hlru : l'.shard.lru = l.shard.lru) (hcap : l'.shard.capacity = l.shard.capacity) :
    (c.unlock i l').Rep ys := by
  refine ⟨fun j => ?_, fun j => ?_, R.fits⟩
  · have H := R.holds j
    by_cases hj : j = i
    · subst hj
      simp only [ShardedCache.shards_unlock, Function.update_self] at H ⊢
      exact H.congr hmap hlru
    · simpa [hj] using H
  · have hc := R.capacity j
    by_cases hj : j = i
    · subst hj
      simp only [ShardedCache.shards_unlock, Function.update_self] at hc ⊢
      exact hcap.trans hc
    · simpa [hj] using hc

variable {maxKeys : ℕ} {s s₁ : System P Exn} {pc pc' : Pc Key Value Exn} {xs : Store P}

/-- From `xs` the accesses lead to what the cache represents. -/
def Accounts (maxKeys : ℕ) (xs : Store P) (l : List (Access Key Value)) (c : ShardedCache P) :
    Prop :=
  ∃ ys, Transition.Run (Sequential P maxKeys) xs l ys ∧ c.Rep ys ∧ c.maxKeys = maxKeys

theorem accounts_get (R : s.cache.Rep xs) (hkeys : s.cache.maxKeys = maxKeys) {k : Key}
    {now : TimePoint} {found : Option Value} {k' : Key} {l : Locked Key Value}
    (h : s.cache.get k now = (found, (s.release k' l).cache)) :
    Accounts maxKeys xs [.get k now found] (s.release k' l).cache := by
  have hfound := R.get_eq k now
  have hrep := R.get k now
  rw [h] at hfound hrep
  obtain rfl : found = _ := hfound
  exact ⟨_, .cons (.get xs k now) (.nil _), hrep, hkeys⟩

/-- A lookup that purges the key and counts nothing. -/
theorem accounts_purged (R : s.cache.Rep xs) (hkeys : s.cache.maxKeys = maxKeys) {k : Key}
    {l : Locked Key Value} (hl : s.Purged k s.clock l) (m : AList fun _ : Key => RecordId) :
    Accounts maxKeys xs [.get k s.clock none]
      (s.release k { l with shard := { l.shard with inflight := m } }).cache := by
  rcases hl with ⟨hk, rfl⟩ | ⟨e, he, hexp, rfl⟩
  · obtain ⟨ys, hrun, R', hkeys'⟩ := accounts_get R hkeys (get_of_none hk s.clock)
    exact ⟨ys, hrun, rep_unlock_congr R' rfl rfl rfl, hkeys'⟩
  · obtain ⟨ys, hrun, R', hkeys'⟩ := accounts_get R hkeys (get_of_expired he hexp)
    exact ⟨ys, hrun, rep_unlock_congr R' rfl rfl rfl, hkeys'⟩

theorem accounts_store (R : s.cache.Rep xs) (hkeys : s.cache.maxKeys = maxKeys) (k : Key)
    (v : Value) (ttl : Option Millis) (record : Option RecordId) :
    Accounts maxKeys xs [.set k v ttl s.clock (s.store k v ttl record).1]
      (s.store k v ttl record).2.cache := by
  subst hkeys
  have hok : (s.store k v ttl record).1 = _ := R.set_ok k v ttl s.clock
  rw [hok]
  exact ⟨_, .cons (.set xs k v ttl s.clock) (.nil _), R.set k v ttl s.clock, rfl⟩

/-- **Each move is what its accesses are.** -/
theorem Move.accounts (h : Move s pc s₁ pc') (R : s.cache.Rep xs)
    (hkeys : s.cache.maxKeys = maxKeys) :
    Accounts maxKeys xs (pc.access s.clock pc') s₁.cache := by
  have unused : ∀ {t : System P Exn}, t.cache = s.cache → Accounts maxKeys xs [] t.cache :=
    fun hcache => ⟨xs, .nil xs, hcache ▸ R, hcache ▸ hkeys⟩
  cases h with
  | call c => cases c <;> exact unused rfl
  | sharedMiss caller k now hk => cases caller <;> exact accounts_get R hkeys (get_of_none hk now)
  | exclusiveMiss caller k now hk =>
      cases caller <;> exact accounts_get R hkeys (get_of_none hk now)
  | exclusiveExpired caller k now e he hexp =>
      cases caller <;> exact accounts_get R hkeys (get_of_expired he hexp)
  | exclusiveHit caller k now e he hlive =>
      cases caller <;> exact accounts_get R hkeys (get_of_live he hlive)
  | set k v ttl => exact accounts_store R hkeys k v ttl none
  | loaded k ttl r v => exact accounts_store R hkeys k v ttl (some r)
  | delAbsent k hk =>
      have hd : s.cache.del k = (false, s.cache) :=
        ShardedCache.withLock_of_eq (Locked.delLocked_of_none hk)
      have hok := R.del_ok k
      have hrep := R.del k
      rw [hd] at hok hrep
      obtain hok : false = _ := hok
      refine ⟨_, .cons ?_ (.nil _), hrep, hkeys⟩
      rw [hok]
      exact .del xs k
  | delPresent k e he =>
      have hd : s.cache.del k =
          (true, (s.release k ((s.held k).eraseEntryLocked k e)).cache) :=
        ShardedCache.withLock_eq (Locked.delLocked_of_some he)
      have hok := R.del_ok k
      have hrep := R.del k
      rw [hd] at hok hrep
      obtain hok : true = _ := hok
      refine ⟨_, .cons ?_ (.nil _), hrep, hkeys⟩
      rw [hok]
      exact .del xs k
  | recheckHit k ttl e he hlive => exact accounts_get R hkeys (get_of_live he hlive)
  | recheckJoin k ttl l r hl hr => exact accounts_purged R hkeys hl l.shard.inflight
  | recheckOwn k ttl l hl hfree => exact accounts_purged R hkeys hl _
  | unregister k r out =>
      refine ⟨xs, .nil xs, ?_, hkeys⟩
      have R' : (s.cache.unlock (shardForKey P k) (s.held k)).Rep xs := by
        rwa [held, ShardedCache.unlock_locked]
      exact rep_unlock_congr R' rfl rfl rfl
  | cleanup now i hi =>
      exact ⟨_, .cons (.purge xs ⟨i, hi⟩ now) (.nil _), R.cleanupShard now ⟨i, hi⟩, hkeys⟩
  | complete k r out hpc hopen =>
      cases pc <;> cases hpc <;> exact unused rfl
  | broken k r out out' hpc hdone =>
      cases pc <;> cases hpc <;> exact unused rfl
  | _ => exact unused rfl

/-! ## A call makes the accesses it is made for -/

end System

/-- The call that runs `get`. -/
def Caller.call (key : Key) : Caller → Call Key Value
  | .client => .get key
  | .compute ttl => .getOrCompute key ttl

/-- Both lookups of a `get_or_compute` have missed. -/
def MissedTwice (k : Key) (l : List (Access Key Value)) : Prop :=
  ∃ now now', l = [.get k now none, .get k now' none]

/-- Where a thread can be in a call, after which accesses and with what delivered by its loader. It
waits for records that were in flight, `flown`. -/
def Pc.Underway (P : CacheParams Key Value) (flown : Load Key → Prop)
    (shared : Delivery Key Value Exn → Prop) (c : Call Key Value) (l : List (Access Key Value))
    (own : List (Delivery Key Value Exn)) : Pc Key Value Exn → Prop
  | .idle | .broken => True
  | .getSample caller k | .getShared caller k _ | .getExclusive caller k _ =>
      c = caller.call k ∧ l = [] ∧ own = []
  | .set k v ttl => c = .set k v ttl ∧ l = [] ∧ own = []
  | .del k => c = .del k ∧ l = [] ∧ own = []
  | .recheck k ttl => c = .getOrCompute k ttl ∧ (∃ now, l = [.get k now none]) ∧ own = []
  | .registered k ttl _ | .loading k ttl _ => c = .getOrCompute k ttl ∧ MissedTwice k l ∧ own = []
  | .loaded k ttl r v => c = .getOrCompute k ttl ∧ MissedTwice k l ∧ own = [⟨(k, r), .ok v⟩]
  | .stored k r v ok =>
      ∃ ttl now l', c = .getOrCompute k ttl ∧ MissedTwice k l' ∧ l = l' ++ [.set k v ttl now ok] ∧
        own = [⟨(k, r), .ok v⟩]
  | .threw k r exn =>
      ∃ ttl, c = .getOrCompute k ttl ∧ MissedTwice k l ∧ own = [⟨(k, r), .error exn⟩]
  | .waiting k r => ∃ ttl, c = .getOrCompute k ttl ∧ MissedTwice k l ∧ own = [] ∧ flown (k, r)
  | .completed k r out => Serves P shared c l own (.computed out) (some (k, r))
  | .cleanupSample => c = .cleanupExpired ∧ l = [] ∧ own = []
  | .cleanup now i =>
      c = .cleanupExpired ∧ i ≤ P.numShards ∧ (l = (List.range i).map fun i => .purge i now) ∧
        own = []
  | .countSample | .count .. => c = .activeKeyCount ∧ l = [] ∧ own = []
  | .done result source => Serves P shared c l own result source

namespace System
variable {maxKeys : ℕ} {s s₁ : System P Exn} {pc pc' : Pc Key Value Exn} {flown : Load Key → Prop}
  {shared : Delivery Key Value Exn → Prop}

/-- A move of a thread that has begun its call. A clean-up is not over before the last shard, and
what a promise holds is shared. -/
theorem Move.underway (h : Move s pc s₁ pc') {c : Call Key Value} {l : List (Access Key Value)}
    {own : List (Delivery Key Value Exn)} (hpc : pc ≠ .idle)
    (hlast : ∀ now i, pc = .cleanup now i → pc' = .done .cleaned none → P.numShards ≤ i)
    (hflown : ∀ k r, s.flight k = some r → flown (k, r))
    (hshared : ∀ k r out, pc = .waiting k r → flown (k, r) → s.promises r = some out →
      shared ⟨(k, r), out⟩) (hl : pc.Underway P flown shared c l own) :
    pc'.Underway P flown shared c (l ++ pc.access s.clock pc') (own ++ pc.delivery pc') := by
  cases h with
  | call c' => exact absurd rfl hpc
  | sharedMiss caller k now hk | exclusiveMiss caller k now hk
  | exclusiveExpired caller k now e he hexp =>
      obtain ⟨rfl, rfl, rfl⟩ := hl
      cases caller with
      | client => exact .get k now none none
      | compute ttl => exact ⟨rfl, ⟨now, rfl⟩, rfl⟩
  | exclusiveHit caller k now e he hlive =>
      obtain ⟨rfl, rfl, rfl⟩ := hl
      cases caller with
      | client => exact .get k now (some e.value) (s.source k)
      | compute ttl => exact .hit k ttl now e.value (s.source k)
  | set k v ttl =>
      obtain ⟨rfl, rfl, rfl⟩ := hl
      exact .set ..
  | delAbsent k hk | delPresent k e he =>
      obtain ⟨rfl, rfl, rfl⟩ := hl
      exact .del ..
  | recheckHit k ttl e he hlive =>
      obtain ⟨rfl, ⟨now, rfl⟩, rfl⟩ := hl
      exact .lateHit ..
  | recheckJoin k ttl l' r hl' hr =>
      obtain ⟨rfl, ⟨now, rfl⟩, rfl⟩ := hl
      exact ⟨ttl, rfl, ⟨now, s.clock, rfl⟩, rfl, hflown k r hr⟩
  | recheckOwn k ttl l' hl' hfree =>
      obtain ⟨rfl, ⟨now, rfl⟩, rfl⟩ := hl
      exact ⟨rfl, ⟨now, s.clock, rfl⟩, rfl⟩
  | loaded k ttl r v =>
      obtain ⟨rfl, hmissed, rfl⟩ := hl
      exact ⟨ttl, s.clock, l, rfl, hmissed, rfl, rfl⟩
  | complete k r out hpending hopen =>
      cases pc with
      | stored k' r' v ok =>
          cases hpending
          obtain ⟨ttl, now, l', rfl, ⟨now', now'', rfl⟩, rfl, rfl⟩ := hl
          exact .loaded ..
      | threw k' r' exn =>
          cases hpending
          obtain ⟨ttl, rfl, ⟨now, now', rfl⟩, rfl⟩ := hl
          exact .threw ..
      | _ => cases hpending
  | broken k r out out' hpending hdone => trivial
  | unregister k r out => simpa [Pc.Underway, Pc.access, Pc.delivery] using hl
  | wake k r out hout =>
      obtain ⟨ttl, rfl, ⟨now, now', rfl⟩, rfl, hk⟩ := hl
      exact .joined k ttl now now' r out (hshared k r out rfl hk hout)
  | cleanup now i hi =>
      obtain ⟨rfl, -, rfl, rfl⟩ := hl
      refine ⟨rfl, hi, ?_, rfl⟩
      rw [List.range_succ, List.map_append]
      rfl
  | cleanupDone now i =>
      obtain ⟨rfl, hi, rfl, rfl⟩ := hl
      obtain rfl : i = P.numShards := Nat.le_antisymm hi (hlast now i rfl rfl)
      simpa [Pc.Underway, Pc.access, Pc.delivery] using Serves.cleaned now
  | countDone now i total =>
      obtain ⟨rfl, rfl, rfl⟩ := hl
      exact .counted total
  | leave result source => trivial
  | cleanupSample =>
      obtain ⟨rfl, rfl, rfl⟩ := hl
      exact ⟨rfl, Nat.zero_le _, rfl, rfl⟩
  | getSample caller k | sharedFound caller k now | load k ttl r | countSample
  | count now i total hi => simpa [Pc.Underway, Pc.access, Pc.delivery] using hl
  | loaderReturn k ttl r v =>
      obtain ⟨rfl, hmissed, rfl⟩ := hl
      exact ⟨rfl, by simpa [Pc.access] using hmissed, rfl⟩
  | loaderThrow k ttl r exn =>
      obtain ⟨rfl, hmissed, rfl⟩ := hl
      exact ⟨ttl, rfl, by simpa [Pc.access] using hmissed, rfl⟩

/-- Thread `t` does not start another call. -/
def NoCall (t : ℕ) (a : Action Key Value Exn) : Prop := ∀ c, a ≠ .call t c

omit [DecidableEq Key] in
/-- The accesses of one step, thread by thread. -/
theorem ofThread_access (s s' : System P Exn) (a : Action Key Value Exn) (t : ℕ) :
    ofThread t (s.access a s') =
      if a.thread = some t then (s.threads t).access s.clock (s'.threads t) else [] := by
  unfold access
  cases a.thread with
  | none => rfl
  | some u =>
      rw [ofThread_tagged]
      by_cases hu : u = t <;> simp [hu]

omit [DecidableEq Key] in
/-- What one step delivers, thread by thread. -/
theorem ofThread_delivery (s s' : System P Exn) (a : Action Key Value Exn) (t : ℕ) :
    ofThread t (s.delivery a s') =
      if a.thread = some t then (s.threads t).delivery (s'.threads t) else [] := by
  unfold delivery
  cases a.thread with
  | none => rfl
  | some u =>
      rw [ofThread_tagged]
      by_cases hu : u = t <;> simp [hu]

/-- A thread that steps without starting a call has started one. -/
theorem ne_idle_of_step {s s' : System P Exn} {a : Action Key Value Exn} (h : Step s a s') {t : ℕ}
    (ha : a.thread = some t) (hcall : NoCall t a) : s.threads t ≠ .idle := by
  intro hidle
  cases a with
  | tick now => cases ha
  | call u c =>
      cases ha
      exact hcall c rfl
  | run u | loaderReturn u v | loaderThrow u exn =>
      cases ha
      simp [Step, step, runThread, hidle] at h

theorem last_of_step {s s' : System P Exn} {a : Action Key Value Exn} (h : Step s a s') {t : ℕ}
    (ha : a.thread = some t) {now : TimePoint} {i : ℕ} (hpc : s.threads t = .cleanup now i)
    (hpc' : s'.threads t = .done .cleaned none) : P.numShards ≤ i := by
  by_contra hi
  cases a with
  | tick now => cases ha
  | run u =>
      cases ha
      simp only [Step, step, runThread, hpc, Nat.not_le.mp hi, dif_pos, Option.some.injEq] at h
      rw [← h, threads_self_setPc] at hpc'
      cases hpc'
  | call u c | loaderReturn u v | loaderThrow u exn =>
      cases ha
      simp [Step, step, hpc] at h

/-- A step of any thread, seen from a call of thread `t`. -/
theorem underway_step {s s' : System P Exn} {a : Action Key Value Exn} (h : Step s a s') {t : ℕ}
    (hcall : NoCall t a) (hflown : ∀ k r, s.flight k = some r → flown (k, r))
    (hshared : ∀ k r out, s.threads t = .waiting k r → flown (k, r) → s.promises r = some out →
      shared ⟨(k, r), out⟩) {c : Call Key Value} {l : List (Access Key Value)}
    {own : List (Delivery Key Value Exn)}
    (hl : (s.threads t).Underway P flown shared c l own) :
    (s'.threads t).Underway P flown shared c (l ++ ofThread t (s.access a s'))
      (own ++ ofThread t (s.delivery a s')) := by
  rw [ofThread_access, ofThread_delivery]
  by_cases ha : a.thread = some t
  · rw [if_pos ha, if_pos ha]
    have hidle := ne_idle_of_step h ha hcall
    have hlast : ∀ now i, s.threads t = .cleanup now i → s'.threads t = .done .cleaned none →
        P.numShards ≤ i := fun now i => last_of_step h ha
    rcases step_cases h with ⟨now, rfl, -, -⟩ | ⟨u, s₁, pc', hu, hmove, rfl⟩
    · cases ha
    · obtain rfl : u = t := Option.some.inj (hu.symm.trans ha)
      rw [threads_self_setPc] at hlast ⊢
      exact hmove.underway hidle hlast hflown hshared hl
  · rw [if_neg ha, if_neg ha, List.append_nil, List.append_nil, threads_of_other h ha]
    exact hl

/-- A call's accesses and what its loader delivers, up to any point of the run. -/
theorem underway_exec {s s' : System P Exn} {as : List (Action Key Value Exn)}
    (h : Transition.exec step as s = some s') (hs : s.InFlightSound maxKeys) {t : ℕ}
    (hcall : ∀ a ∈ as, NoCall t a) {made : List (ℕ × Delivery Key Value Exn)}
    (D : s.Delivered made)
    (hflown : ∀ x ∈ Transition.visited step as s, ∀ k r, x.flight k = some r → flown (k, r))
    (hshared : ∀ u, u ≠ t → ∀ d, (u, d) ∈ made ++ deliveries as s → flown d.load → shared d)
    {c : Call Key Value} {l : List (Access Key Value)} {own : List (Delivery Key Value Exn)}
    (hl : (s.threads t).Underway P flown shared c l own) :
    (s'.threads t).Underway P flown shared c (l ++ ofThread t (accesses as s))
      (own ++ ofThread t (deliveries as s)) := by
  induction as generalizing s made l own with
  | nil =>
      cases h
      simpa [accesses, deliveries, Transition.collect, ofThread] using hl
  | cons a as ih =>
      obtain ⟨ha, has⟩ := List.forall_mem_cons.mp hcall
      obtain ⟨u, hu, hrest⟩ := Option.bind_eq_some_iff.mp h
      have hdeliveries : deliveries (a :: as) s = s.delivery a u ++ deliveries as u := by
        rw [deliveries, Transition.collect_cons hu, deliveries]
      simp only [Transition.visited, hu, List.forall_mem_cons] at hflown
      rw [hdeliveries, ← List.append_assoc] at hshared
      have hwake : ∀ k r out, s.threads t = .waiting k r → flown (k, r) →
          s.promises r = some out → shared ⟨(k, r), out⟩ := by
        intro k r out ht hk hout
        obtain ⟨w, hw, hmade⟩ := D.published hs ht hout
        exact hshared w hw ⟨(k, r), out⟩
          (List.mem_append_left _ (List.mem_append_left _ hmade)) hk
      have hlater := ih hrest (hs.step hu) has (D.step hu hs) hflown.2 hshared
        (underway_step hu ha hflown.1 hwake hl)
      rw [accesses, Transition.collect_cons hu, hdeliveries]
      simpa [ofThread_append, accesses, List.append_assoc] using hlater

/-! ## The clock readings of a call -/

/-- Since `start` thread `t` has read the clock, if it has, and time has not run backwards. -/
structure Timely (start : TimePoint) (t : ℕ) (s : System P Exn) : Prop where
  clock : start ≤ s.clock
  sample : ∀ now, (s.threads t).sample = some now → start ≤ now ∧ now ≤ s.clock

theorem Move.reading (h : Move s pc s₁ pc') {x : Access Key Value}
    (hx : x ∈ pc.access s.clock pc') {now : TimePoint} (hnow : x.reading = some now) :
    now = s.clock ∨ pc.sample = some now := by
  cases h with
  | call c => cases c <;> simp [Pc.access] at hx
  | sharedMiss caller k now' hk | exclusiveMiss caller k now' hk
  | exclusiveExpired caller k now' e he hexp | exclusiveHit caller k now' e he hlive =>
      cases caller <;> simp [Pc.access, Caller.missed, Caller.found] at hx <;> subst hx <;>
        exact .inr hnow
  | set k v ttl | loaded k ttl r v | recheckHit k ttl e he hlive | recheckJoin k ttl l r hl hr
  | recheckOwn k ttl l hl hfree =>
      simp only [Pc.access, List.mem_singleton] at hx
      subst hx
      exact .inl (Option.some.inj hnow).symm
  | cleanup now' i hi =>
      simp only [Pc.access, List.mem_singleton] at hx
      subst hx
      exact .inr hnow
  | delAbsent k hk | delPresent k e he =>
      simp only [Pc.access, List.mem_singleton] at hx
      subst hx
      cases hnow
  | complete k r out hpending hopen | broken k r out out' hpending hdone =>
      cases pc <;> simp [Pc.pending] at hpending <;> simp [Pc.access] at hx
  | _ => simp [Pc.access] at hx

/-- A step of any thread: the readings of thread `t` since the start of its call. -/
theorem Timely.step {s s' : System P Exn} {a : Action Key Value Exn} (h : Step s a s') {t : ℕ}
    {start : TimePoint} (T : Timely start t s) :
    Timely start t s' ∧ s.clock ≤ s'.clock ∧ ∀ x ∈ ofThread t (s.access a s'), ∀ now,
      x.reading = some now → start ≤ now ∧ now ≤ s'.clock := by
  obtain ⟨hclock, hsample⟩ := T
  rw [ofThread_access]
  rcases step_cases h with ⟨now, rfl, hle, rfl⟩ | ⟨u, s₁, pc', hu, hmove, rfl⟩
  · refine ⟨⟨hclock.trans hle, ?_⟩, hle, by simp [Action.thread]⟩
    intro now' hnow'
    exact ⟨(hsample now' hnow').1, (hsample now' hnow').2.trans hle⟩
  · have hkept : (s₁.setPc u pc').clock = s.clock := hmove.clock_eq
    rw [hkept]
    by_cases htu : t = u
    · subst htu
      rw [if_pos hu, threads_self_setPc]
      refine ⟨⟨hkept.symm ▸ hclock, ?_⟩, le_rfl, ?_⟩
      · intro now hnow
        rw [threads_self_setPc] at hnow
        rw [hkept]
        rcases hmove.sample_eq hnow with rfl | hold
        · exact ⟨hclock, le_rfl⟩
        · exact hsample now hold
      · intro x hx now hnow
        rcases hmove.reading hx hnow with rfl | hold
        · exact ⟨hclock, le_rfl⟩
        · exact hsample now hold
    · have hother : (s₁.setPc u pc').threads t = s.threads t := by
        rw [threads_setPc, hmove.threads_eq, if_neg htu]
      have hthread : a.thread ≠ some t := by
        rw [hu]
        exact fun heq => htu (Option.some.inj heq).symm
      rw [if_neg hthread]
      refine ⟨⟨hkept.symm ▸ hclock, ?_⟩, le_rfl, by simp⟩
      intro now hnow
      rw [hother] at hnow
      rw [hkept]
      exact hsample now hnow

theorem Timely.exec {s s' : System P Exn} {as : List (Action Key Value Exn)}
    (h : Transition.exec System.step as s = some s') {t : ℕ} {start : TimePoint}
    (T : Timely start t s) :
    s.clock ≤ s'.clock ∧ ∀ x ∈ ofThread t (accesses as s), ∀ now, x.reading = some now →
      start ≤ now ∧ now ≤ s'.clock := by
  induction as generalizing s with
  | nil =>
      cases h
      simp [accesses, Transition.collect, ofThread]
  | cons a as ih =>
      obtain ⟨u, hu, hrest⟩ := Option.bind_eq_some_iff.mp h
      obtain ⟨T', hle, hstep⟩ := T.step hu
      obtain ⟨hle', hrun⟩ := ih hrest T'
      refine ⟨hle.trans hle', ?_⟩
      intro x hx now hnow
      rw [accesses, Transition.collect_cons hu, ofThread, List.filter_append, List.map_append,
        List.mem_append] at hx
      rcases hx with hx | hx
      · obtain ⟨hlow, hhigh⟩ := hstep x hx now hnow
        exact ⟨hlow, hhigh.trans hle'⟩
      · exact hrun x hx now hnow

/-! ## The runs of the system -/

/-- A step of any thread is what its accesses are. -/
theorem accounts_step {s s' : System P Exn} {a : Action Key Value Exn} (h : Step s a s')
    {xs : Store P} (R : s.cache.Rep xs) (hkeys : s.cache.maxKeys = maxKeys) :
    Accounts maxKeys xs ((s.access a s').map Prod.snd) s'.cache := by
  rcases step_cases h with ⟨now, rfl, -, rfl⟩ | ⟨t, s₁, pc', ht, hmove, rfl⟩
  · exact ⟨xs, .nil xs, R, hkeys⟩
  · have hl := hmove.accounts R hkeys
    simpa [access, ht, Function.comp_def] using hl

/-- A run from a state that represents `xs` is what its accesses are. -/
theorem accounts_exec {s s' : System P Exn} {as : List (Action Key Value Exn)}
    (h : Transition.exec step as s = some s') {xs : Store P} (R : s.cache.Rep xs)
    (hkeys : s.cache.maxKeys = maxKeys) :
    Accounts maxKeys xs ((accesses as s).map Prod.snd) s'.cache := by
  let Q (s : System P Exn) (xs : Store P) : Prop := s.cache.Rep xs ∧ s.cache.maxKeys = maxKeys
  have hstep : ∀ a ∈ as, ∀ (s s' : System P Exn) (xs : Store P), Q s xs → step a s = some s' →
      ∃ ys, Transition.Run (Sequential P maxKeys) xs ((access s a s').map Prod.snd) ys ∧
        Q s' ys := by
    intro a _ s s' xs hQ hs'
    exact accounts_step hs' hQ.1 hQ.2
  rw [accesses, Transition.map_collect]
  exact Transition.run_collect hstep ⟨R, hkeys⟩ h

/-- A call has begun: it has not used the store yet, and no loader. -/
theorem called {s s' : System P Exn} {t : ℕ} {c : Call Key Value} (h : Step s (.call t c) s') :
    s.access (.call t c) s' = [] ∧ s.delivery (.call t c) s' = [] ∧
      (s'.threads t).Underway P flown shared c [] [] ∧ Timely s.clock t s' := by
  have hpc := threads_of_call h
  simp only [Step, step] at h
  split at h
  · next hidle =>
    obtain rfl := Option.some.inj h
    refine ⟨by simp [access, Action.thread, Pc.access, hidle],
      by simp [delivery, Action.thread, Pc.delivery, hidle], ?_, le_rfl, ?_⟩
    · rw [hpc]
      cases c <;> exact ⟨rfl, rfl, rfl⟩
    · rw [hpc]
      cases c <;> simp [Call.start, Pc.sample]
  · cases h

/-- The record of a load was in flight in one of these states. -/
def Flown (states : List (System P Exn)) (load : Load Key) : Prop :=
  ∃ x ∈ states, x.flight load.1 = some load.2

/-- What a call of thread `t` can have joined: a load that another thread has made and that was in
flight in one of the states of the call. -/
def Shared (t : ℕ) (made : List (ℕ × Delivery Key Value Exn)) (states : List (System P Exn))
    (d : Delivery Key Value Exn) : Prop :=
  (∃ u, u ≠ t ∧ (u, d) ∈ made) ∧ Flown states d.load

/-- **The cache is linearizable.** Take any run. Its accesses, in the order in which they take place,
are a run of the abstract store from empty lists to what the cache holds at the end: each answers
what one thread would have been answered. No load is made twice. And each call that has returned has
made exactly the accesses it is made for, all of them between its start and its return and with
clock readings from that time, and returns what they have answered, what its own loader has
delivered in that time, or what the loader of another thread has delivered for a record that was in
flight in that time. -/
theorem linearizable {now : TimePoint} {as : List (Action Key Value Exn)} {s : System P Exn}
    (h : Transition.exec step as (init P Exn maxKeys now) = some s) :
    (∃ xs, Transition.Run (Sequential P maxKeys) (fun _ => ∅)
      ((accesses as (init P Exn maxKeys now)).map Prod.snd) xs ∧ s.cache.Rep xs) ∧
    ((deliveries as (init P Exn maxKeys now)).map fun x => x.2.load.2).Nodup ∧
    ∀ as₁ as₂ t c result source, as = as₁ ++ .call t c :: as₂ → (∀ a ∈ as₂, NoCall t a) →
      s.threads t = .done result source → ∃ s₁ : System P Exn, ∃ l₁ l₂,
        accesses as (init P Exn maxKeys now) = l₁ ++ l₂ ∧
        Transition.exec step as₁ (init P Exn maxKeys now) = some s₁ ∧
        l₂ = accesses (.call t c :: as₂) s₁ ∧
        Serves P (Shared t (deliveries as (init P Exn maxKeys now))
            (Transition.visited step (.call t c :: as₂) s₁))
          c (ofThread t l₂) (ofThread t (deliveries (.call t c :: as₂) s₁)) result source ∧
        ∀ x ∈ ofThread t l₂, ∀ r, x.reading = some r → s₁.clock ≤ r ∧ r ≤ s.clock := by
  have hsound : (init P Exn maxKeys now).InFlightSound maxKeys := inFlightSound_init now
  have D : (init P Exn maxKeys now).Delivered [] := delivered_init now
  refine ⟨?_, ?_, ?_⟩
  · obtain ⟨xs, hrun, R, -⟩ := accounts_exec h (ShardedCache.Rep.construct maxKeys) rfl
    exact ⟨xs, hrun, R⟩
  · exact (D.exec h hsound).once
  · rintro as₁ as₂ t c result source rfl hcall hdone
    obtain ⟨s₁, h₁, h₂⟩ := Transition.exists_of_exec_append h
    obtain ⟨s₂, hs₂, hrest⟩ := Option.bind_eq_some_iff.mp h₂
    obtain ⟨hl, hd, hunderway, htimely⟩ := called hs₂
    have haccesses : accesses (.call t c :: as₂) s₁ = accesses as₂ s₂ := by
      rw [accesses, Transition.collect_cons hs₂, hl]
      rfl
    have hown : deliveries (.call t c :: as₂) s₁ = deliveries as₂ s₂ := by
      rw [deliveries, Transition.collect_cons hs₂, hd]
      rfl
    have hmade : deliveries (as₁ ++ .call t c :: as₂) (init P Exn maxKeys now) =
        deliveries as₁ (init P Exn maxKeys now) ++ deliveries as₂ s₂ := by
      rw [← hown]
      exact Transition.collect_append h₁ _
    let states := Transition.visited step (.call t c :: as₂) s₁
    let made := deliveries (as₁ ++ .call t c :: as₂) (init P Exn maxKeys now)
    have hsound₁ := hsound.run (Transition.run_of_exec h₁)
    have D₂ : s₂.Delivered (deliveries as₁ (init P Exn maxKeys now)) := by
      simpa [hd] using (D.exec h₁ hsound).step hs₂ hsound₁
    refine ⟨s₁, accesses as₁ _, accesses (.call t c :: as₂) s₁, Transition.collect_append h₁ _, h₁,
      rfl, ?_, ?_⟩
    · have hflown : ∀ x ∈ Transition.visited step as₂ s₂, ∀ k r, x.flight k = some r →
          Flown states (k, r) := by
        intro x hx k r hk
        refine ⟨x, ?_, hk⟩
        simp only [states, Transition.visited, hs₂]
        exact List.mem_cons_of_mem s₁ hx
      have hshared : ∀ u, u ≠ t → ∀ d,
          (u, d) ∈ deliveries as₁ (init P Exn maxKeys now) ++ deliveries as₂ s₂ →
            Flown states d.load → Shared t made states d := by
        intro u hu d hd hflown
        rw [← hmade] at hd
        exact ⟨⟨u, hu, hd⟩, hflown⟩
      have hserves := underway_exec hrest (hsound₁.step hs₂) hcall D₂ hflown hshared hunderway
      rw [hdone] at hserves
      rw [haccesses, hown]
      exact hserves
    · rw [haccesses]
      exact (htimely.exec hrest).2

/-- A `get` that begins before a key is loaded and is decided afterwards, and a caller that joins the
load. -/
private def loadJoined : List (Action ℕ ℕ Unit) :=
  [.call 2 (.get 1), .run 2, .call 0 (.getOrCompute 1 none), .run 0, .run 0, .run 0, .run 0,
    .call 1 (.getOrCompute 1 none), .run 1, .run 1, .run 1, .loaderReturn 0 5, .run 0, .run 0,
    .run 2, .run 2, .run 1]

theorem linearizable_loadJoined :
    ∃ s s₁ : System CacheParams.twoShards Unit,
      s.threads 2 = .done (.got (some 5)) (some (1, 0)) ∧
      s.threads 1 = .done (.computed (.ok 5)) (some (1, 0)) ∧
      (∃ xs, Transition.Run (Sequential CacheParams.twoShards 2) (fun _ => ∅)
        [.get 1 0 none, .get 1 0 none, .get 1 0 none, .get 1 0 none, .set 1 5 none 0 true,
          .get 1 0 (some 5)] xs ∧ s.cache.Rep xs) ∧
      Serves CacheParams.twoShards
        (Shared 1 [(0, ⟨(1, 0), .ok 5⟩)]
          (Transition.visited step (.call 1 (.getOrCompute 1 none) :: loadJoined.drop 8) s₁))
        (.getOrCompute 1 none) [.get 1 0 none, .get 1 0 none] [] (.computed (.ok 5))
        (some (1, 0)) := by
  let s₀ := init CacheParams.twoShards Unit 2 0
  let s := (Transition.exec step loadJoined s₀).get (by decide)
  have hs : Transition.exec step loadJoined s₀ = some s := (Option.some_get _).symm
  have haccesses : (accesses loadJoined s₀).map Prod.snd =
      [.get 1 0 none, .get 1 0 none, .get 1 0 none, .get 1 0 none, .set 1 5 none 0 true,
        .get 1 0 (some 5)] := by decide
  have hdeliveries : deliveries loadJoined s₀ = [(0, ⟨(1, 0), .ok 5⟩)] := by decide
  have hcall : ∀ a ∈ loadJoined.drop 8, NoCall 1 a := by
    simp [loadJoined, NoCall]
  obtain ⟨hsequential, -, hserved⟩ := linearizable hs
  obtain ⟨s₁, l₁, l₂, -, hs₁, rfl, hserves, -⟩ := hserved (loadJoined.take 7) (loadJoined.drop 8) 1
    (.getOrCompute 1 none) (.computed (.ok 5)) (some (1, 0)) rfl hcall (by decide)
  have hused : ∀ x : System CacheParams.twoShards Unit,
      Transition.exec step (loadJoined.take 7) s₀ = some x →
      ofThread 1 (accesses (.call 1 (.getOrCompute 1 none) :: loadJoined.drop 8) x) =
          [.get 1 0 none, .get 1 0 none] ∧
        ofThread 1 (deliveries (.call 1 (.getOrCompute 1 none) :: loadJoined.drop 8) x) = [] := by
    intro x hx
    cases hx
    exact ⟨by decide, by decide⟩
  obtain ⟨haccessed, hdelivered⟩ := hused s₁ hs₁
  rw [haccesses] at hsequential
  rw [hdeliveries, haccessed, hdelivered] at hserves
  exact ⟨s, s₁, by decide, by decide, hsequential, hserves⟩

end System
end MiniRedis
