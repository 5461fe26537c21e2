import MiniRedis.Persistence.Daemon
import MiniRedis.Persistence.RejectedWrite
import MiniRedis.Persistence.SnapshotRoundTrip

/-!
# A snapshot that is taken while the cache is in use

`snapshot_items` locks one shard after the other, and clients and the reaper use the cache in the
meantime, with ttls or without. So the file may show a cache that never was. But it is the snapshot of
a cache whose shards were those of the real one, each at some moment in between, and everything that
holds of a snapshot and its reload holds of that cache: nothing is evicted, the lasting entries are
restored, and no others.
-/
namespace MiniRedis
variable {M : Platform}

/-- What other threads do to the cache. -/
inductive CacheUse (M : Platform)
  | set (key value : Bytes) (ttl : Option Millis) (now : TimePoint)
  | get (key : Bytes) (now : TimePoint)
  | del (key : Bytes)
  | reap (now : TimePoint) (shard : Fin M.params.numShards)

def CacheUse.apply : CacheUse M → ShardedCache M.params → ShardedCache M.params
  | .set key value ttl now, c => (c.set key value ttl now).2
  | .get key now, c => (c.get key now).2
  | .del key, c => (c.del key).2
  | .reap now shard, c => c.cleanupShard now shard

inductive LiveAction (M : Platform)
  | use (u : CacheUse M)
  /-- A step of the snapshot thread. -/
  | dump (t : Instant) (ord : HashOrder Bytes Bytes)

namespace Daemon

/-- The snapshot thread beside others that use the cache. -/
def liveStep : LiveAction M → Daemon M → Option (Daemon M)
  | .use u, s => some { s with cache := u.apply s.cache }
  | .dump t ord, s => some (s.dumpStep t ord)

/-- Some processor of that capacity has the cache. -/
def Attained (capacity : ℕ) (c : ShardedCache M.params) : Prop :=
  ∃ queue, Processor.Reachable capacity (⟨c, queue⟩ : Processor M)

theorem Attained.apply {capacity : ℕ} {c : ShardedCache M.params} (h : Attained capacity c)
    (u : CacheUse M) : Attained capacity (u.apply c) := by
  obtain ⟨queue, hp⟩ := h
  cases u with
  | set key value ttl now => exact ⟨_, hp.set key value ttl now⟩
  | get key now => exact ⟨_, hp.get key now⟩
  | del key => exact ⟨_, hp.del key⟩
  | reap now shard => exact ⟨_, hp.reap now shard⟩

theorem dumpStep_cache (t : Instant) (ord : HashOrder Bytes Bytes) (s : Daemon M) :
    (s.dumpStep t ord).cache = s.cache := by
  obtain ⟨dump, snapshot, visited, shown, heq⟩ := s.dumpStep_frame t ord
  rw [heq]

/-! ## What the thread has collected -/

/-- Shards of caches at the moments `V`, with the orders in which they were iterated. -/
structure Glimpses (V : Daemon M → Prop) where
  cache : Fin M.params.numShards → ShardedCache M.params
  order : Fin M.params.numShards → HashOrder Bytes Bytes
  moment : ∀ i, ∃ u, V u ∧ u.cache = cache i

variable {V : Daemon M → Prop} {now : TimePoint}

/-- The items of the shards that have been visited. -/
def Glimpses.items (g : Glimpses V) (now : TimePoint) (seen : List (Fin M.params.numShards)) :
    List (SnapshotItem Bytes Bytes) :=
  seen.flatMap fun i =>
    ((g.order i).order ((g.cache i).shards i).map).filterMap (ShardedCache.snapshotItem now)

/-- A shard is visited. -/
theorem Glimpses.exists_snoc (g : Glimpses V) {s : Daemon M} (hs : V s)
    {seen : List (Fin M.params.numShards)} {i : Fin M.params.numShards} (hi : i ∉ seen)
    (ord : HashOrder Bytes Bytes) :
    ∃ g' : Glimpses V, ∀ now, g'.items now (seen ++ [i]) = g.items now seen ++
      (ord.order (s.cache.shards i).map).filterMap (ShardedCache.snapshotItem now) := by
  refine ⟨⟨Function.update g.cache i s.cache, Function.update g.order i ord, ?_⟩, ?_⟩
  · intro j
    by_cases hj : j = i
    · subst hj
      exact ⟨s, hs, by rw [Function.update_self]⟩
    · rw [Function.update_of_ne hj]
      exact g.moment j
  · have hold : ∀ j ∈ seen, j ≠ i := by
      rintro j hj rfl
      exact hi hj
    intro now
    simp only [items, List.flatMap_append, List.flatMap_cons, List.flatMap_nil, List.append_nil,
      Function.update_self]
    congr 1
    refine List.flatMap_congr ?_
    intro j hj
    rw [Function.update_of_ne (hold j hj), Function.update_of_ne (hold j hj)]

/-- No shard is visited twice. -/
theorem notMem_of_finRange {n : ℕ} {seen rest : List (Fin n)} (h : List.finRange n = seen ++ rest)
    {i : Fin n} (hi : i ∈ rest) : i ∉ seen := by
  have hnodup := List.nodup_finRange n
  rw [h, List.nodup_append] at hnodup
  intro hseen
  exact hnodup.2.2 i hseen i hi rfl

/-- How far the snapshot has come that was begun at `now`. -/
def Collects (V : Daemon M → Prop) (now : TimePoint) : DumpPc M → Prop
  | .idle => True
  | .collect now' rest items => now' = now ∧ ∃ seen, List.finRange M.params.numShards = seen ++ rest ∧
      ∃ g : Glimpses V, items = g.items now seen
  | .remove text | .rename text => ∃ epochMs, ∃ g : Glimpses V,
      text = snapshotText epochMs (g.items now (List.finRange M.params.numShards))

/-- A step of the snapshot thread, before it has put the file in place. -/
theorem Collects.dumpStep {s : Daemon M} (h : Collects V now s.dump) (hs : V s)
    (hidle : s.dump ≠ .idle) (t : Instant) (ord : HashOrder Bytes Bytes) :
    Collects V now (s.dumpStep t ord).dump := by
  cases hd : s.dump with
  | idle => exact absurd hd hidle
  | collect now' rest items =>
      rw [hd] at h
      obtain ⟨rfl, seen, hall, g, rfl⟩ := h
      cases rest with
      | nil =>
          rw [List.append_nil] at hall
          simp only [Daemon.dumpStep, hd]
          exact ⟨t.epochMs, g, by rw [hall]⟩
      | cons i rest =>
          have hi : i ∉ seen := notMem_of_finRange hall List.mem_cons_self
          obtain ⟨g', hg'⟩ := g.exists_snoc hs hi ord
          simp only [Daemon.dumpStep, hd]
          exact ⟨rfl, seen ++ [i], by rw [hall, List.append_assoc]; rfl, g', (hg' now').symm⟩
  | remove text =>
      rw [hd] at h
      simp only [Daemon.dumpStep, hd]
      exact h
  | rename text =>
      simp only [Daemon.dumpStep, hd]
      trivial

/-! ## The cache of the snapshot -/

/-- Shards that are iterated in orders of their own are iterated in the order of one function: two of
them have the same map only if it is empty. -/
theorem exists_order {c : ShardedCache M.params}
    {xs : Fin M.params.numShards → RecencyList Bytes (Record Bytes)} (R : c.Rep xs)
    (order : Fin M.params.numShards → HashOrder Bytes Bytes) :
    ∃ ord : HashOrder Bytes Bytes, ∀ i,
      ord.order (c.shards i).map = (order i).order (c.shards i).map := by
  classical
  refine ⟨⟨fun m => if h : ∃ i, (c.shards i).map = m then (order h.choose).order m else m.entries,
    fun m => ?_⟩, fun i => ?_⟩
  · split
    · exact (order _).perm m
    · exact .refl _
  · have h : ∃ j, (c.shards j).map = (c.shards i).map := ⟨i, rfl⟩
    simp only [dif_pos h]
    have hsame := h.choose_spec
    generalize h.choose = j at hsame
    rcases List.eq_nil_or_concat (c.shards i).map.entries with hempty | ⟨l, ⟨k, e⟩, hlast⟩
    · have hnil : ∀ j, (order j).order (c.shards i).map = [] := by
        intro j
        have hperm := (order j).perm (c.shards i).map
        rw [hempty] at hperm
        exact hperm.eq_nil
      rw [hnil, hnil]
    · have hi : (c.shards i).map.lookup k = some e := AList.mem_lookup_iff.mpr (by simp [hlast])
      have hj : (c.shards j).map.lookup k = some e := hsame ▸ hi
      rw [← R.lookup_home hi, ← R.lookup_home hj]

/-- A cache put together from shards of several moments. -/
def Glimpses.mixed (g : Glimpses V) (capacity : ℕ) (c : ShardedCache M.params) :
    ShardedCache M.params :=
  { c with shards := fun i => (g.cache i).shards i, maxKeys := capacity }

/-- Such a cache holds lists, like those it was put together from. -/
theorem Glimpses.rep_mixed {capacity : ℕ} (hV : ∀ u, V u → Attained capacity u.cache)
    (g : Glimpses V) (c : ShardedCache M.params) :
    ∃ xs, (g.mixed capacity c).Rep xs ∧ DeadlinesFit xs := by
  have hall : ∀ i, ∃ xs, (g.cache i).Rep xs ∧ DeadlinesFit xs ∧ (g.cache i).maxKeys = capacity := by
    intro i
    obtain ⟨u, hu, heq⟩ := g.moment i
    obtain ⟨queue, hp⟩ := hV u hu
    obtain ⟨xs, R, hfit⟩ := hp.deadlinesFit
    rw [← heq]
    exact ⟨xs, R, hfit, hp.maxKeys_eq⟩
  choose xs R hfit hkeys using hall
  refine ⟨fun i => xs i i, ⟨fun i => (R i).holds i, fun i => ?_, fun i => ?_⟩,
    fun i => hfit i i⟩
  · exact ((R i).capacity i).trans (by rw [hkeys i]; rfl)
  · have hfits := (R i).fits i
    rwa [hkeys i] at hfits

/-- **A snapshot under load.** Take a run in which the snapshot thread has begun to collect with the
clock reading `now`, and has collected everything, while other threads used the cache as they liked.
What it writes is the snapshot of a cache each of whose shards is the real one's at some moment of
the run. If its keys and values are storable, the file restores that cache if and only if no deadline
leaves the range of the clock. -/
theorem snapshot_of_moments {capacity : ℕ} {s₁ s : Daemon M} {as : List (LiveAction M)}
    {text : Bytes} (hs₁ : Attained capacity s₁.cache)
    (hstart : s₁.dump = .collect now (List.finRange M.params.numShards) [])
    (h : Transition.exec liveStep as s₁ = some s) (hend : s.dump = .remove text)
    (hone : ∀ u ∈ Transition.visited liveStep as s₁, u.dump ≠ .idle) :
    ∃ (mixed : ShardedCache M.params) (ord : HashOrder Bytes Bytes) (epochMs : Millis),
      (∀ i, ∃ u ∈ Transition.visited liveStep as s₁, mixed.shards i = u.cache.shards i) ∧
      mixed.maxKeys = capacity ∧ text = mixed.snapshotFile ord ⟨now, epochMs⟩ ∧
      ((∀ key r, mixed.stored key = some r → Storable key ∧ Storable r.value) →
        Representable now → ∀ clock : ℕ → TimePoint, (∀ i, Representable (clock i)) →
          (RoundTrip ord ⟨now, epochMs⟩ clock mixed ↔
            FitsClock ord ⟨now, epochMs⟩ clock mixed)) := by
  let V (u : Daemon M) : Prop :=
    u ∈ Transition.visited liveStep as s₁ ∧ Attained capacity u.cache
  have hV : ∀ u, V u → Attained capacity u.cache := fun u hu => hu.2
  have hcollects : Attained capacity s.cache ∧ Collects V now s.dump := by
    refine Transition.invariant_of_visited
      (Q := fun u => Attained capacity u.cache ∧ Collects V now u.dump) ?_ ⟨hs₁, ?_⟩ h
    · intro a _ u v hu _ hQ hstep
      cases a with
      | use cacheUse =>
          cases hstep
          exact ⟨hQ.1.apply cacheUse, hQ.2⟩
      | dump t ord =>
          cases hstep
          exact ⟨dumpStep_cache t ord u ▸ hQ.1, hQ.2.dumpStep ⟨hu, hQ.1⟩ (hone u hu) t ord⟩
    · rw [hstart]
      exact ⟨rfl, [], rfl, ⟨fun _ => s₁.cache, fun _ => .stored,
        fun _ => ⟨s₁, ⟨Transition.mem_visited as s₁, hs₁⟩, rfl⟩⟩, rfl⟩
  obtain ⟨-, hcollects⟩ := hcollects
  rw [hend] at hcollects
  obtain ⟨epochMs, g, rfl⟩ := hcollects
  obtain ⟨xs, R, hfit⟩ := g.rep_mixed hV s₁.cache
  obtain ⟨ord, hord⟩ := exists_order R g.order
  have hshards : ∀ i, ∃ u ∈ Transition.visited liveStep as s₁,
      (g.mixed capacity s₁.cache).shards i = u.cache.shards i := by
    intro i
    obtain ⟨u, hu, heq⟩ := g.moment i
    exact ⟨u, hu.1, by rw [heq]; rfl⟩
  refine ⟨g.mixed capacity s₁.cache, ord, epochMs, hshards, rfl, ?_, fun hstorable hnow clock hclock =>
    ⟨fitsClock_of_roundTrip R hfit hstorable hnow hclock,
      roundTrip_of_fitsClock R hstorable hclock⟩⟩
  rw [ShardedCache.snapshotFile, ShardedCache.snapshotItems]
  simp only [hord]
  rfl

theorem stored_del {c : ShardedCache M.params}
    {xs : Fin M.params.numShards → RecencyList Bytes (Record Bytes)} (R : c.Rep xs) {k key : Bytes}
    {r : Record Bytes} (h : (c.del k).2.stored key = some r) : c.stored key = some r := by
  rw [(R.del k).stored_eq] at h
  rw [R.stored_eq]
  exact lookup_of_update (fun _ _ hr => (AList.lookup_of_lookup_erase hr).2) _ key r h

/-- The one key is deleted when its shard has been visited. -/
private def deleteBehind : List (LiveAction Platform.oneShard) :=
  .dump ⟨1, 1⟩ .stored :: .use (.del (ascii "k")) :: List.replicate 64 (.dump ⟨2, 2⟩ .stored)

private def begun : Daemon Platform.oneShard :=
  { init Platform.oneShard 64 with
    cache := (Processor.storingOne 1000).cache
    dump := .collect 0 (List.finRange Platform.oneShard.params.numShards) [] }

private def written : DumpPc M → Option Bytes
  | .remove text => some text
  | .idle | .collect .. | .rename _ => none

private theorem stored_of_visited {u : Daemon Platform.oneShard}
    (hu : u ∈ Transition.visited liveStep deleteBehind begun) :
    Attained 64 u.cache ∧ ∀ key r, u.cache.stored key = some r → Storable key ∧ Storable r.value := by
  refine Transition.forall_mem_visited (P := fun u => Attained 64 u.cache ∧ ∀ key r,
    u.cache.stored key = some r → Storable key ∧ Storable r.value) ?_
    ⟨⟨_, Processor.reachable_storingOne 1000⟩, Processor.storable_storingOne 1000⟩ u hu
  intro a ha v w hv hstep
  rw [deleteBehind, List.mem_cons, List.mem_cons, List.mem_replicate] at ha
  obtain rfl | rfl | ⟨-, rfl⟩ := ha
  · cases hstep
    rwa [dumpStep_cache]
  · cases hstep
    obtain ⟨queue, hp⟩ := hv.1
    obtain ⟨xs, R, -⟩ := hp.deadlinesFit
    exact ⟨hv.1.apply (.del (ascii "k")), fun key r hr => hv.2 key r (stored_del R hr)⟩
  · cases hstep
    rwa [dumpStep_cache]

/-- Its line is in the snapshot all the same. -/
theorem snapshot_of_moments_deleteBehind :
    ∃ (mixed : ShardedCache Platform.oneShard.params) (ord : HashOrder Bytes Bytes)
      (epochMs : Millis),
      snapshotText 2 [⟨ascii "k", ascii "v", some 1000⟩] = mixed.snapshotFile ord ⟨0, epochMs⟩ ∧
      ∀ clock : ℕ → TimePoint, (∀ i, Representable (clock i)) →
        (RoundTrip ord ⟨0, epochMs⟩ clock mixed ↔ FitsClock ord ⟨0, epochMs⟩ clock mixed) := by
  have hwritten : (Transition.exec liveStep deleteBehind begun).bind (fun s => written s.dump) =
      some (snapshotText 2 [⟨ascii "k", ascii "v", some 1000⟩]) := by decide +kernel
  have hbusy : ((Transition.visited liveStep deleteBehind begun).all fun u =>
      match u.dump with
      | .idle => false
      | .collect .. | .remove _ | .rename _ => true) = true := by decide +kernel
  obtain ⟨s, hs, htext⟩ := Option.bind_eq_some_iff.mp hwritten
  have hend : s.dump = .remove (snapshotText 2 [⟨ascii "k", ascii "v", some 1000⟩]) := by
    cases hd : s.dump <;> rw [hd] at htext <;> cases htext
    rfl
  have hone : ∀ u ∈ Transition.visited liveStep deleteBehind begun, u.dump ≠ .idle := by
    intro u hu hidle
    have hnot := List.all_eq_true.mp hbusy u hu
    rw [hidle] at hnot
    cases hnot
  have hs₁ : Attained 64 begun.cache := ⟨_, Processor.reachable_storingOne 1000⟩
  obtain ⟨mixed, ord, epochMs, hshards, -, htext, hround⟩ :=
    snapshot_of_moments hs₁ rfl hs hend hone
  refine ⟨mixed, ord, epochMs, htext, hround ?_ ⟨by decide, by decide⟩⟩
  intro key r hr
  obtain ⟨u, hu, heq⟩ := hshards (shardForKey Platform.oneShard.params key)
  rw [ShardedCache.stored, heq] at hr
  exact (stored_of_visited hu).2 key r hr

end Daemon
end MiniRedis
