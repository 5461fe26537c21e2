import MiniRedis.Cache.Memory
import MiniRedis.Concurrency.Moves
import Mathlib.Algebra.Order.BigOperators.Group.Finset

/-!
# Capacity and memory under any interleaving

Every reachable state represents one recency list per shard, within the capacities of the
constructor, and its memory counter reads the sum of the entry sizes. Both follow edit by edit:
a move is a run of edits of one shard, and the other shards stay as they are.
-/
namespace MiniRedis
variable {Key Value Exn : Type}

/-! ## The split of the capacity -/

/-- The capacity of the first `i` shards. -/
def capacityBelow (P : CacheParams Key Value) (maxKeys i : ℕ) : ℕ :=
  i * (maxKeys / P.numShards) + min i (maxKeys % P.numShards)

variable (P : CacheParams Key Value) (maxKeys : ℕ)

theorem capacityBelow_succ (i : Fin P.numShards) :
    capacityBelow P maxKeys (i + 1) = capacityBelow P maxKeys i + capacityOf P maxKeys i := by
  unfold capacityBelow capacityOf
  rw [Nat.add_one_mul]
  split <;> omega

theorem capacityBelow_numShards : capacityBelow P maxKeys P.numShards = maxKeys := by
  have hlt : maxKeys % P.numShards < P.numShards := Nat.mod_lt _ P.numShards_pos
  rw [capacityBelow, Nat.min_eq_right hlt.le]
  exact Nat.div_add_mod maxKeys P.numShards

theorem capacityBelow_mono {i j : ℕ} (h : i ≤ j) :
    capacityBelow P maxKeys i ≤ capacityBelow P maxKeys j := by
  unfold capacityBelow
  have hmul := Nat.mul_le_mul_right (maxKeys / P.numShards) h
  omega

/-- **The constructor loses no capacity and adds none.** -/
theorem sum_capacityOf : ∑ i, capacityOf P maxKeys i = maxKeys := by
  have hbelow : ∀ n (hn : n ≤ P.numShards),
      ∑ i : Fin n, capacityOf P maxKeys (i.castLE hn) = capacityBelow P maxKeys n := by
    intro n
    induction n with
    | zero =>
        intro _
        simp [capacityBelow]
    | succ n ih =>
        intro hn
        rw [Fin.sum_univ_castSucc]
        have hlast := capacityBelow_succ P maxKeys ⟨n, hn⟩
        simp only at hlast
        rw [hlast, ← ih (Nat.le_of_succ_le hn)]
        rfl
  exact (hbelow P.numShards le_rfl).trans (capacityBelow_numShards P maxKeys)

/-- A count in progress stays within the capacity of the shards counted. -/
def Pc.CountOk : Pc Key Value Exn → Prop
  | .count _ i total => i ≤ P.numShards ∧ total ≤ capacityBelow P maxKeys i
  | .done (.counted n) _ => n ≤ maxKeys
  | _ => True

variable [DecidableEq Key] {P maxKeys}

/-! ## Every reachable state is well formed -/

theorem Edits.ok {allowed : Cause Key Value → Prop} {p q : Viewed Key Value}
    {i : Fin P.numShards} (h : Edits P (fun c => allowed c ∧ c.Home P i) p q)
    (hp : p.Ok P maxKeys i) : q.Ok P maxKeys i :=
  h.invariant (fun _ _ _ hc hedit hp => hedit.ok hc.2 hp) hp

namespace System

/-- What holds of the cache and of the threads' local variables. -/
structure WellFormed (maxKeys : ℕ) (s : System P Exn) : Prop where
  maxKeys_eq : s.cache.maxKeys = maxKeys
  rep : ∃ xs, s.cache.Rep xs
  /-- A clock reading is not in the future. -/
  sampled : ∀ t now, (s.threads t).sample = some now → now ≤ s.clock
  counting : ∀ t, (s.threads t).CountOk P maxKeys

theorem wellFormed_init (now : TimePoint) : WellFormed maxKeys (init P Exn maxKeys now) where
  maxKeys_eq := rfl
  rep := ⟨_, .construct maxKeys⟩
  sampled := fun _ _ h => by cases h
  counting := fun _ => trivial

/-- The cache after a move represents lists again. -/
theorem Move.rep {s s₁ : System P Exn} {pc pc' : Pc Key Value Exn} (h : Move s pc s₁ pc')
    (R : ∃ xs, s.cache.Rep xs) :
    (∃ xs, s₁.cache.Rep xs) ∧ s₁.cache.maxKeys = s.cache.maxKeys := by
  obtain ⟨xs, R⟩ := R
  obtain ⟨i, l, ys, hedits, hcache⟩ := h.edits R
  have hok : Viewed.Ok P s.cache.maxKeys i (l, ys) :=
    hedits.ok ⟨R.holds i, R.capacity i, R.fits i⟩
  rw [hcache]
  exact ⟨⟨_, R.unlock hok.holds (hok.capacity.trans (R.capacity i).symm) hok.fits⟩, rfl⟩

omit [DecidableEq Key] in
theorem activeKeys_le_card (now : TimePoint) (sh : Shard Key Value) :
    sh.activeKeys now ≤ sh.map.card := List.length_filter_le _ _

/-- A shard has no more active keys than capacity. -/
theorem WellFormed.activeKeys_le {s : System P Exn} (h : s.WellFormed maxKeys) (now : TimePoint)
    (i : Fin P.numShards) : (s.cache.shards i).activeKeys now ≤ capacityOf P maxKeys i := by
  obtain ⟨xs, R⟩ := h.rep
  have hcard := (R.holds i).card_eq
  have hfits := (R.fits i).bounded
  rw [h.maxKeys_eq] at hfits
  exact (activeKeys_le_card now _).trans (hcard.trans_le hfits)

theorem Move.countOk {s s₁ : System P Exn} {pc pc' : Pc Key Value Exn} (h : Move s pc s₁ pc')
    (hs : s.WellFormed maxKeys) (hpc : pc.CountOk P maxKeys) : pc'.CountOk P maxKeys := by
  cases h with
  | count now i total hi =>
      have hshard := hs.activeKeys_le now ⟨i, hi⟩
      have hsucc := capacityBelow_succ P maxKeys ⟨i, hi⟩
      refine ⟨hi, ?_⟩
      have htotal := hpc.2
      simp only at hsucc
      omega
  | countSample => exact ⟨Nat.zero_le _, Nat.zero_le _⟩
  | countDone now i total =>
      have hmono := capacityBelow_mono P maxKeys hpc.1
      rw [capacityBelow_numShards] at hmono
      exact hpc.2.trans hmono
  | call c => cases c <;> exact trivial
  | sharedMiss caller | exclusiveMiss caller | exclusiveExpired caller | exclusiveHit caller =>
      cases caller <;> exact trivial
  | _ => exact trivial

theorem WellFormed.step {s s' : System P Exn} {a : Action Key Value Exn} (h : Step s a s')
    (hs : s.WellFormed maxKeys) : s'.WellFormed maxKeys := by
  rcases step_cases h with ⟨now, -, hle, rfl⟩ | ⟨t, s₁, pc', -, hmove, rfl⟩
  · exact ⟨hs.maxKeys_eq, hs.rep, fun t now' hnow => (hs.sampled t now' hnow).trans hle,
      hs.counting⟩
  · have hthreads := hmove.threads_eq
    have hclock := hmove.clock_eq
    have hrep := hmove.rep hs.rep
    refine ⟨hrep.2.trans hs.maxKeys_eq, hrep.1, ?_, ?_⟩
    · intro u now hnow
      rw [clock_setPc, hclock]
      rw [threads_setPc, hthreads] at hnow
      split at hnow
      · rcases hmove.sample_eq hnow with rfl | hold
        · exact le_rfl
        · exact hs.sampled t now hold
      · exact hs.sampled u now hnow
    · intro u
      rw [threads_setPc, hthreads]
      split
      · exact hmove.countOk hs (hs.counting t)
      · exact hs.counting u

theorem WellFormed.run {s s' : System P Exn} {as : List (Action Key Value Exn)}
    (h : Transition.Run Step s as s') (hs : s.WellFormed maxKeys) : s'.WellFormed maxKeys :=
  h.invariant (fun _ _ _ hstep hs => hs.step hstep) hs

theorem Reachable.wellFormed {s : System P Exn} (h : s.Reachable maxKeys) :
    s.WellFormed maxKeys := by
  obtain ⟨now, as, hrun⟩ := h
  exact (wellFormed_init now).run hrun

/-- **Capacity is never exceeded and never lost.** The constructor shares out exactly `maxKeys`. In
every reachable state the shares still add up to that, every shard is within its share, every key is
in the shard its hash selects, and no count of keys exceeds `maxKeys`. -/
theorem capacity_never_exceeded (P : CacheParams Key Value) (maxKeys : ℕ) :
    ∑ i, ((ShardedCache.construct P maxKeys).shards i).capacity = maxKeys ∧
    ∀ s : System P Exn, s.Reachable maxKeys →
      ∑ i, (s.cache.shards i).capacity = maxKeys ∧
      (∀ i, (s.cache.shards i).map.card ≤ (s.cache.shards i).capacity) ∧
      (∀ i k e, (s.cache.shards i).map.lookup k = some e → i.val = P.hash k % P.numShards) ∧
      ∑ i, (s.cache.shards i).map.card ≤ maxKeys ∧
      (∀ now, s.cache.activeKeyCount now ≤ maxKeys) ∧
      ∀ t n source, s.threads t = .done (.counted n) source → n ≤ maxKeys := by
  refine ⟨sum_capacityOf P maxKeys, fun s hs => ?_⟩
  have W := hs.wellFormed
  obtain ⟨xs, R⟩ := W.rep
  have hcap : ∀ i, (s.cache.shards i).capacity = capacityOf P maxKeys i := by
    intro i
    rw [R.capacity i, W.maxKeys_eq]
  have hcard : ∀ i, (s.cache.shards i).map.card ≤ (s.cache.shards i).capacity := by
    intro i
    rw [(R.holds i).card_eq]
    exact R.card_le i
  have hsum : ∑ i, (s.cache.shards i).capacity = maxKeys := by
    rw [← sum_capacityOf P maxKeys]
    exact Finset.sum_congr rfl fun i _ => hcap i
  have htotal : ∑ i, (s.cache.shards i).map.card ≤ maxKeys :=
    (Finset.sum_le_sum fun i _ => hcard i).trans_eq hsum
  refine ⟨hsum, hcard, ?_, htotal, ?_, ?_⟩
  · intro i k e he
    exact (congrArg Fin.val (R.lookup_home he)).symm
  · intro now
    rw [ShardedCache.activeKeyCount, ← Fin.sum_univ_def]
    exact (Finset.sum_le_sum fun i _ => activeKeys_le_card now _).trans htotal
  · intro t n source ht
    have := W.counting t
    rw [ht] at this
    exact this

/-- A client stores a key. -/
private def storeOnce : List (Action ℕ ℕ Unit) := [.call 0 (.set 1 5 none), .run 0]

theorem capacity_never_exceeded_twoShards :
    ∃ s : System CacheParams.twoShards Unit, s.Reachable 3 ∧
      ∑ i, (s.cache.shards i).map.card = 1 ∧ ∑ i, (s.cache.shards i).capacity = 3 := by
  let s := (Transition.exec step storeOnce (init CacheParams.twoShards Unit 3 0)).get (by decide)
  have hs : s.Reachable 3 := reachable_of_exec (Option.some_get _).symm
  exact ⟨s, hs, by decide, ((capacity_never_exceeded CacheParams.twoShards 3).2 s hs).1⟩

/-! ## The memory counter -/

/-- The sum of the sizes of all stored entries. -/
def storedBytes (s : System P Exn) : ℕ := ∑ i, (s.cache.shards i).bytes P

/-- The largest sum of sizes while thread `t` takes its next step: a new entry is stored before an
old one is evicted. -/
def peakBytes (t : ℕ) (s : System P Exn) : ℕ :=
  match (s.threads t).storing with
  | some (k, v) =>
      if s.entry k = none ∧ (s.cache.shards (shardForKey P k)).capacity ≠ 0 then
        s.storedBytes + P.entryBytes k v
      else s.storedBytes
  | none => s.storedBytes

/-- The sum over the shards other than `i`. -/
private def bytesBeside (i : Fin P.numShards) (s : System P Exn) : ℕ :=
  ∑ j ∈ Finset.univ.erase i, (s.cache.shards j).bytes P

omit [DecidableEq Key] in
private theorem storedBytes_eq (i : Fin P.numShards) (s : System P Exn) :
    s.storedBytes = (s.cache.locked i).shard.bytes P + s.bytesBeside i :=
  (Finset.add_sum_erase _ _ (Finset.mem_univ i)).symm

omit [DecidableEq Key] in
private theorem storedBytes_unlock {i : Fin P.numShards} {l : Locked Key Value}
    {s s₁ : System P Exn} (h : s₁.cache = s.cache.unlock i l) :
    s₁.storedBytes = l.shard.bytes P + s.bytesBeside i := by
  have hrest : s₁.bytesBeside i = s.bytesBeside i := by
    refine Finset.sum_congr rfl fun j hj => ?_
    rw [h, ShardedCache.shards_unlock, Function.update_of_ne (Finset.ne_of_mem_erase hj)]
  rw [storedBytes_eq i, hrest, ShardedCache.shard_locked, h, ShardedCache.shards_unlock,
    Function.update_self]

/-- The counter reads the sum. -/
def MemoryExact (s : System P Exn) : Prop :=
  s.cache.counters.memoryBytes.Reads s.storedBytes

theorem Move.memoryExact {s s₁ : System P Exn} {pc pc' : Pc Key Value Exn} (h : Move s pc s₁ pc')
    (R : ∃ xs, s.cache.Rep xs) (hs : s.MemoryExact) : s₁.MemoryExact := by
  obtain ⟨xs, R⟩ := R
  obtain ⟨i, l, ys, hedits, hcache⟩ := h.edits R
  rw [MemoryExact, storedBytes_eq i] at hs
  rw [MemoryExact, storedBytes_unlock hcache, hcache]
  exact hedits.reads (R.holds i) hs

/-- A store borrows nothing if its peak fits. -/
private theorem borrowed_store {s : System P Exn} (R : ∃ xs, s.cache.Rep xs)
    (hs : s.MemoryExact) {k : Key} {v : Value} {ttl : Option Millis} {record : Option RecordId}
    (hfit : (if s.entry k = none ∧ (s.cache.shards (shardForKey P k)).capacity ≠ 0 then
      s.storedBytes + P.entryBytes k v else s.storedBytes) < WordCounter.modulus) :
    (s.store k v ttl record).2.cache.counters.memoryBytes.borrowed
      = s.cache.counters.memoryBytes.borrowed := by
  obtain ⟨xs, R⟩ := R
  have H : (s.held k).shard.Holds P (xs (shardForKey P k)) := R.holds _
  rw [MemoryExact, storedBytes_eq (shardForKey P k)] at hs
  change ((s.held k).setImpl P k v ttl s.clock).2.counters.memoryBytes.borrowed = _
  rcases Locked.edit_setImpl H (R.card_le _) k v ttl s.clock with ⟨-, heq⟩ | ⟨hpos, ys, hedit⟩
  · rw [heq]
    rfl
  · refine hedit.borrowed_eq H hs ?_
    rw [storedBytes_eq (shardForKey P k)] at hfit
    cases hk : s.entry k with
    | none =>
        have hk' : (s.held k).shard.map.lookup k = none := hk
        have hcap : (s.cache.shards (shardForKey P k)).capacity ≠ 0 := Nat.ne_of_gt hpos
        rw [if_pos ⟨hk, hcap⟩, Nat.add_right_comm] at hfit
        simp only [Viewed.peak, hk']
        exact hfit
    | some e =>
        have hk' : (s.held k).shard.map.lookup k = some e := hk
        rw [if_neg (by simp [hk])] at hfit
        simp only [Viewed.peak, hk']
        exact hfit

theorem Move.borrowed_eq {s s₁ : System P Exn} {t : ℕ} {pc' : Pc Key Value Exn}
    (h : Move s (s.threads t) s₁ pc') (R : ∃ xs, s.cache.Rep xs) (hs : s.MemoryExact)
    (hfit : s.peakBytes t < WordCounter.modulus) :
    s₁.cache.counters.memoryBytes.borrowed = s.cache.counters.memoryBytes.borrowed := by
  generalize hpc : s.threads t = pc at h
  cases hstore : pc.storing with
  | some kv =>
      rw [peakBytes, hpc, hstore] at hfit
      cases h with
      | set k v ttl =>
          cases hstore
          exact borrowed_store R hs hfit
      | loaded k ttl r v =>
          cases hstore
          exact borrowed_store R hs hfit
      | complete k r out hp => cases (storing_of_pending hp).symm.trans hstore
      | broken k r out out' hp => cases (storing_of_pending hp).symm.trans hstore
      | _ => cases hstore
  | none =>
      obtain ⟨xs, R⟩ := R
      obtain ⟨i, l, ys, hedits, hcache⟩ := h.edits R
      rw [peakBytes, hpc, hstore, storedBytes_eq i] at hfit
      rw [MemoryExact, storedBytes_eq i] at hs
      rw [hcache]
      refine hedits.borrowed_eq ?_ (R.holds i) hs hfit
      rintro k v ttl now ⟨hcause, -⟩
      cases pc <;> simp_all [Pc.Causes, Pc.storing]

/-- A step during which the sum of the entry sizes stays below `2 ^ 64`. -/
def FittingStep (s : System P Exn) (a : Action Key Value Exn) (s' : System P Exn) : Prop :=
  Step s a s' ∧ ∀ t, a.thread = some t → s.peakBytes t < 2 ^ 64

theorem MemoryExact.step {s s' : System P Exn} {a : Action Key Value Exn} (h : Step s a s')
    (W : s.WellFormed maxKeys) (hs : s.MemoryExact) : s'.MemoryExact := by
  rcases step_cases h with ⟨now, -, -, rfl⟩ | ⟨t, s₁, pc', -, hmove, rfl⟩
  · exact hs
  · exact hmove.memoryExact W.rep hs

theorem FittingStep.borrowed_eq {s s' : System P Exn} {a : Action Key Value Exn}
    (h : FittingStep s a s') (W : s.WellFormed maxKeys) (hs : s.MemoryExact) :
    s'.cache.counters.memoryBytes.borrowed = s.cache.counters.memoryBytes.borrowed := by
  rcases step_cases h.1 with ⟨now, -, -, rfl⟩ | ⟨t, s₁, pc', ht, hmove, rfl⟩
  · rfl
  · exact hmove.borrowed_eq W.rep hs (h.2 t ht)

omit [DecidableEq Key] in
theorem memoryExact_init (now : TimePoint) : (init P Exn maxKeys now).MemoryExact := by
  have hempty : (init P Exn maxKeys now).storedBytes = 0 :=
    Finset.sum_eq_zero fun i _ => AList.total_empty _
  rw [MemoryExact, hempty]
  exact WordCounter.reads_zero

theorem Reachable.memoryExact {s : System P Exn} (h : s.Reachable maxKeys) : s.MemoryExact := by
  obtain ⟨now, as, hrun⟩ := h
  exact hrun.invariant_under (I := WellFormed maxKeys) (P := MemoryExact)
    (fun _ _ _ hstep hs => hs.step hstep) (fun _ _ _ hstep hs hm => hm.step hstep hs)
    (wellFormed_init now) (memoryExact_init now)

/-- **Memory accounting is exact.** At the end of any run `memory_usage_bytes` is the sum of the
sizes of the stored entries modulo `2 ^ 64`, and in a run in which that sum always fits in 64 bits
no subtraction took more than the counter held. -/
theorem memory_accounting_exact {now : TimePoint} {as : List (Action Key Value Exn)}
    {s : System P Exn} (h : Transition.Run Step (init P Exn maxKeys now) as s) :
    s.cache.memoryUsageBytes =
      (∑ i, (s.cache.shards i).map.total fun k e =>
        P.sizeofEntry + P.keySizer k + P.valueSizer e.value) % 2 ^ 64 ∧
    (Transition.Run FittingStep (init P Exn maxKeys now) as s →
      s.cache.counters.memoryBytes.borrowed = false) := by
  let I (s : System P Exn) : Prop := s.WellFormed maxKeys ∧ s.MemoryExact
  have hI : ∀ s a s', Step s a s' → I s → I s' :=
    fun s a s' hstep hs => ⟨hs.1.step hstep, hs.2.step hstep hs.1⟩
  have hinit : I (init P Exn maxKeys now) := ⟨wellFormed_init now, memoryExact_init now⟩
  refine ⟨(h.invariant hI hinit).2, fun hfit => ?_⟩
  let J (s : System P Exn) : Prop := I s ∧ s.cache.counters.memoryBytes.borrowed = false
  have hJ : ∀ s a s', FittingStep s a s' → J s → J s' :=
    fun s a s' hstep hs => ⟨hI s a s' hstep.1 hs.1,
      (hstep.borrowed_eq hs.1.1 hs.1.2).trans hs.2⟩
  exact (hfit.invariant hJ ⟨hinit, rfl⟩).2

theorem memory_accounting_exact_twoShards :
    ∃ s : System CacheParams.twoShards Unit,
      s.cache.memoryUsageBytes = 64 ∧ s.cache.counters.memoryBytes.borrowed = false := by
  let s₀ := init CacheParams.twoShards Unit 3 0
  let s₁ := (step (.call 0 (.set 1 5 none)) s₀).get (by decide)
  let s₂ := (step (.run 0) s₁).get (by decide)
  have h₁ : FittingStep s₀ (.call 0 (.set 1 5 none)) s₁ :=
    ⟨(Option.some_get _).symm, by rintro t ⟨⟩; decide⟩
  have h₂ : FittingStep s₁ (.run 0) s₂ :=
    ⟨(Option.some_get _).symm, by rintro t ⟨⟩; decide⟩
  have hfit : Transition.Run FittingStep s₀ [.call 0 (.set 1 5 none), .run 0] s₂ :=
    .cons h₁ (.cons h₂ (.nil _))
  have hexact := memory_accounting_exact (hfit.mono fun _ _ _ h => h.1)
  refine ⟨s₂, ?_, hexact.2 hfit⟩
  rw [hexact.1]
  decide

end System
end MiniRedis
