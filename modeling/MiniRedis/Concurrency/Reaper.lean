import MiniRedis.Cache.Thinned
import MiniRedis.Concurrency.Invariants
import Mathlib.Data.List.ReduceOption

/-!
# Can a client see the reaper?

`reaper_loop` calls `cleanup_expired` at times of its own. A client that makes its calls at the same
clock readings should get the same answers whether it runs or not. It does, as long as it deletes no
key whose deadline has passed: `get` and `set` treat an expired entry as absent, the counts and the
snapshots skip it, but `del` reports that it was there.
-/
namespace MiniRedis
variable {Key Value Exn : Type}

/-- A call of a client. -/
inductive ClientCall (Key Value : Type)
  | set (key : Key) (value : Value) (ttl : Option Millis)
  | get (key : Key)
  | del (key : Key)
  | activeKeyCount
  | snapshotItems (ord : HashOrder Key Value)

/-- What a call returns. The items of a snapshot come in no particular order. -/
inductive Answer (Key Value : Type)
  | flag (ok : Bool)
  | found (value : Option Value)
  | counted (n : ℕ)
  | items (items : Multiset (SnapshotItem Key Value))

/-- Calls with the reading of the clock at each; `none` is a `cleanup_expired`. -/
abbrev Schedule (Key Value : Type) := List (TimePoint × Option (ClientCall Key Value))

/-- The calls of the client. -/
def Schedule.calls (ops : Schedule Key Value) : List (TimePoint × ClientCall Key Value) :=
  ops.filterMap fun op => op.2.map fun call => (op.1, call)

/-- The client alone, without a reaper. -/
def unreaped (calls : List (TimePoint × ClientCall Key Value)) : Schedule Key Value :=
  calls.map fun x => (x.1, some x.2)

/-- The clock does not go back. -/
def Steady {α : Type} (ops : List (TimePoint × α)) : Prop :=
  (ops.map Prod.fst).Pairwise (· ≤ ·)

variable [DecidableEq Key] {P : CacheParams Key Value} {maxKeys : ℕ}

namespace ShardedCache

def visit (now : TimePoint) (c : ShardedCache P) : ClientCall Key Value →
    Answer Key Value × ShardedCache P
  | .set k v ttl => (.flag (c.set k v ttl now).1, (c.set k v ttl now).2)
  | .get k => (.found (c.get k now).1, (c.get k now).2)
  | .del k => (.flag (c.del k).1, (c.del k).2)
  | .activeKeyCount => (.counted (c.activeKeyCount now), c)
  | .snapshotItems ord => (.items (c.snapshotItems ord now), c)

/-- A call or a clean-up. -/
def serve (op : TimePoint × Option (ClientCall Key Value)) (c : ShardedCache P) :
    Option (Answer Key Value) × ShardedCache P :=
  match op.2 with
  | some call => (some (c.visit op.1 call).1, (c.visit op.1 call).2)
  | none => (none, c.cleanupExpired op.1)

/-- The cache after a schedule. -/
def after (ops : Schedule Key Value) (c : ShardedCache P) : ShardedCache P :=
  Transition.final serve ops c

/-- What the client's calls return. -/
def answers (ops : Schedule Key Value) (c : ShardedCache P) : List (Answer Key Value) :=
  (Transition.outputs serve ops c).reduceOption

/-- Clean-ups at any positions change no answer and neither the hit nor the miss counter. -/
def ReaperUnseen (c : ShardedCache P) (calls : List (TimePoint × ClientCall Key Value)) : Prop :=
  ∀ ops : Schedule Key Value, ops.calls = calls → Steady ops →
    c.answers ops = c.answers (unreaped calls) ∧
      (c.after ops).counters.hits = (c.after (unreaped calls)).counters.hits ∧
      (c.after ops).counters.misses = (c.after (unreaped calls)).counters.misses

/-- Each `del` returns true exactly when a `get` at the same instant would return a value. -/
def DelExact (c : ShardedCache P) (calls : List (TimePoint × ClientCall Key Value)) : Prop :=
  ∀ before now k rest, calls = before ++ (now, .del k) :: rest →
    ((c.after (unreaped before)).del k).1 = ((c.after (unreaped before)).get k now).1.isSome

/-- No `del` finds its key stored with its deadline passed. -/
def DelsLive (c : ShardedCache P) (calls : List (TimePoint × ClientCall Key Value)) : Prop :=
  ∀ before now k rest, calls = before ++ (now, .del k) :: rest → ∀ e,
    ((c.after (unreaped before)).shards (shardForKey P k)).map.lookup k = some e →
      isExpired e now = false

/-- No call evicts an entry. -/
def Uncrowded (c : ShardedCache P) (calls : List (TimePoint × ClientCall Key Value)) : Prop :=
  (c.after (unreaped calls)).counters.evictions = c.counters.evictions

instance (c : ShardedCache P) (calls : List (TimePoint × ClientCall Key Value)) :
    Decidable (c.Uncrowded calls) :=
  inferInstanceAs (Decidable (_ = _))

/-! ## Two caches that a client cannot tell apart -/

/-- `d` is the cache `c` without some of the entries that are expired at `now`. -/
structure Reaped (now : TimePoint) (c d : ShardedCache P) : Prop where
  maxKeys : d.maxKeys = c.maxKeys
  hits : d.counters.hits = c.counters.hits
  misses : d.counters.misses = c.counters.misses
  lists : ∃ xs ys, c.Rep xs ∧ d.Rep ys ∧ ∀ i, Thinned now (xs i) (ys i)

namespace Reaped
variable {now later : TimePoint} {c d : ShardedCache P}

theorem refl (h : ∃ xs, c.Rep xs) (now : TimePoint) : c.Reaped now c := by
  obtain ⟨xs, R⟩ := h
  exact ⟨rfl, rfl, rfl, xs, xs, R, R, fun i => .refl (xs i)⟩

theorem mono (h : c.Reaped now d) (hle : now ≤ later) : c.Reaped later d := by
  obtain ⟨xs, ys, R, S, hthin⟩ := h.lists
  exact ⟨h.maxKeys, h.hits, h.misses, xs, ys, R, S, fun i => (hthin i).mono hle⟩

/-- The reaper makes the second cache thinner. -/
theorem cleanup (h : c.Reaped now d) : c.Reaped now (d.cleanupExpired now) := by
  obtain ⟨xs, ys, R, S, hthin⟩ := h.lists
  obtain ⟨hhits, hmisses⟩ := S.lookups_cleanupExpired now
  exact ⟨(maxKeys_cleanupExpired now d).trans h.maxKeys, hhits.trans h.hits,
    hmisses.trans h.misses, xs, _, R, S.cleanupExpired now, fun i => (hthin i).live⟩

/-- Related lists stay related where one shard's lists are replaced. -/
private theorem thinned_update {xs ys : Fin P.numShards → RecencyList Key (Record Value)}
    (h : ∀ i, Thinned now (xs i) (ys i)) {j : Fin P.numShards}
    {xs' ys' : RecencyList Key (Record Value)} (h' : Thinned now xs' ys') (i : Fin P.numShards) :
    Thinned now (Function.update xs j xs' i) (Function.update ys j ys' i) := by
  by_cases hi : i = j
  · subst hi
    rwa [Function.update_self, Function.update_self]
  · rw [Function.update_of_ne hi, Function.update_of_ne hi]
    exact h i

theorem set (h : c.Reaped now d) (k : Key) (v : Value) (ttl : Option Millis)
    (hroom : (c.set k v ttl now).2.counters.evictions = c.counters.evictions) :
    (c.set k v ttl now).1 = (d.set k v ttl now).1 ∧
      (c.set k v ttl now).2.Reaped now (d.set k v ttl now).2 := by
  obtain ⟨xs, ys, R, S, hthin⟩ := h.lists
  obtain ⟨hhits, hmisses⟩ := R.lookups_set k v ttl now
  obtain ⟨hhits', hmisses'⟩ := S.lookups_set k v ttl now
  have hput : Thinned now
      (RecencyList.put (capacityOf P c.maxKeys (shardForKey P k)) k (storedRecord v ttl now)
        (xs (shardForKey P k)))
      (RecencyList.put (capacityOf P c.maxKeys (shardForKey P k)) k (storedRecord v ttl now)
        (ys (shardForKey P k))) := by
    by_cases hcap : capacityOf P c.maxKeys (shardForKey P k) = 0
    · have hx := R.card_le_capacityOf (shardForKey P k)
      have hy := S.card_le_capacityOf (shardForKey P k)
      rw [h.maxKeys] at hy
      rw [hcap] at hx hy ⊢
      rw [RecencyList.put_zero hx, RecencyList.put_zero hy]
      exact hthin _
    · have hevict := R.evictions_set k v ttl now
      rw [hroom] at hevict
      refine (hthin (shardForKey P k)).put ?_
      by_contra hfull
      rw [if_pos ⟨hcap, not_le.mp hfull⟩] at hevict
      omega
  refine ⟨by rw [R.set_ok, S.set_ok, h.maxKeys], h.maxKeys, ?_, ?_, _, _, R.set k v ttl now,
    S.set k v ttl now, ?_⟩
  · rw [hhits, hhits', h.hits]
  · rw [hmisses, hmisses', h.misses]
  · rw [h.maxKeys]
    exact thinned_update hthin hput

theorem get (h : c.Reaped now d) (k : Key) :
    (c.get k now).1 = (d.get k now).1 ∧ (c.get k now).2.Reaped now (d.get k now).2 := by
  obtain ⟨xs, ys, R, S, hthin⟩ := h.lists
  obtain ⟨hhits, hmisses, -⟩ := R.counters_get k now
  obtain ⟨hhits', hmisses', -⟩ := S.counters_get k now
  have hsame : (c.get k now).1 = (d.get k now).1 := by
    rw [R.get_eq, S.get_eq]
    rcases hthin (shardForKey P k) k with heq | ⟨hnone, r, hr, hexp⟩
    · rw [heq]
    · rw [hnone, hr]
      simp [Record.read, hexp]
  have hkeys : ∀ c : ShardedCache P, (c.get k now).2.maxKeys = c.maxKeys := fun c =>
    maxKeys_call now (.get k) c
  refine ⟨hsame, ?_, ?_, ?_, _, _, R.get k now, S.get k now,
    thinned_update hthin ((hthin (shardForKey P k)).lookedUp k)⟩
  · rw [hkeys, hkeys, h.maxKeys]
  · rw [hhits, hhits', h.hits, hsame]
  · rw [hmisses, hmisses', h.misses, hsame]

theorem del (h : c.Reaped now d) {k : Key}
    (hlive : ∀ e, (c.shards (shardForKey P k)).map.lookup k = some e → isExpired e now = false) :
    (c.del k).1 = (d.del k).1 ∧ (c.del k).2.Reaped now (d.del k).2 := by
  obtain ⟨xs, ys, R, S, hthin⟩ := h.lists
  obtain ⟨hhits, hmisses⟩ := R.lookups_del k
  obtain ⟨hhits', hmisses'⟩ := S.lookups_del k
  refine ⟨?_, h.maxKeys, ?_, ?_, _, _, R.del k, S.del k,
    thinned_update hthin ((hthin (shardForKey P k)).erase k)⟩
  · rw [R.del_ok, S.del_ok]
    rcases hthin (shardForKey P k) k with heq | ⟨-, r, hr, hexp⟩
    · rw [heq]
    · obtain ⟨e, he, rfl⟩ := (R.holds (shardForKey P k)).exists_entry hr
      rw [expired_record, hlive e he] at hexp
      cases hexp
  · rw [hhits, hhits', h.hits]
  · rw [hmisses, hmisses', h.misses]

theorem activeKeyCount_eq (h : c.Reaped now d) : d.activeKeyCount now = c.activeKeyCount now := by
  obtain ⟨xs, ys, R, S, hthin⟩ := h.lists
  rw [R.activeKeyCount_eq, S.activeKeyCount_eq]
  refine congrArg List.sum (List.map_congr_left fun i _ => ?_)
  exact AList.card_eq_of_lookup (hthin i).lookup_liveRecords

theorem snapshotItems_perm (h : c.Reaped now d) (ord : HashOrder Key Value) :
    (d.snapshotItems ord now).Perm (c.snapshotItems ord now) := by
  obtain ⟨xs, ys, R, S, hthin⟩ := h.lists
  refine List.Perm.flatMap_left _ fun i _ => ?_
  exact (S.items_perm ord now i).trans ((hthin i).items_perm.trans (R.items_perm ord now i).symm)

/-- **One call** gives the same answer in both caches and keeps them related, if it evicts nothing
and deletes no expired entry. -/
theorem visit (h : c.Reaped now d) (call : ClientCall Key Value)
    (hroom : (c.visit now call).2.counters.evictions = c.counters.evictions)
    (hlive : ∀ k, call = .del k → ∀ e,
      (c.shards (shardForKey P k)).map.lookup k = some e → isExpired e now = false) :
    (c.visit now call).1 = (d.visit now call).1 ∧
      (c.visit now call).2.Reaped now (d.visit now call).2 := by
  cases call with
  | set k v ttl =>
      obtain ⟨hok, hnext⟩ := h.set k v ttl hroom
      exact ⟨congrArg Answer.flag hok, hnext⟩
  | get k =>
      obtain ⟨hfound, hnext⟩ := h.get k
      exact ⟨congrArg Answer.found hfound, hnext⟩
  | del k =>
      obtain ⟨hok, hnext⟩ := h.del (hlive k rfl)
      exact ⟨congrArg Answer.flag hok, hnext⟩
  | activeKeyCount => exact ⟨congrArg Answer.counted h.activeKeyCount_eq.symm, h⟩
  | snapshotItems ord =>
      have hitems := Multiset.coe_eq_coe.mpr (h.snapshotItems_perm ord).symm
      exact ⟨congrArg Answer.items hitems, h⟩

end Reaped

/-! ## Whole schedules -/

theorem rep_visit {c : ShardedCache P} (h : ∃ xs, c.Rep xs) (now : TimePoint)
    (call : ClientCall Key Value) :
    (∃ xs, (c.visit now call).2.Rep xs) ∧
      c.counters.evictions ≤ (c.visit now call).2.counters.evictions := by
  obtain ⟨xs, R⟩ := h
  cases call with
  | set k v ttl => exact ⟨⟨_, R.set k v ttl now⟩, by rw [visit, R.evictions_set]; omega⟩
  | get k => exact ⟨⟨_, R.get k now⟩, (R.counters_get k now).2.2.ge⟩
  | del k => exact ⟨⟨_, R.del k⟩, (R.evictions_del k).ge⟩
  | activeKeyCount => exact ⟨⟨xs, R⟩, le_rfl⟩
  | snapshotItems ord => exact ⟨⟨xs, R⟩, le_rfl⟩

theorem evictions_le_after {c : ShardedCache P} (h : ∃ xs, c.Rep xs)
    (calls : List (TimePoint × ClientCall Key Value)) :
    c.counters.evictions ≤ (c.after (unreaped calls)).counters.evictions := by
  induction calls generalizing c with
  | nil => exact le_rfl
  | cons x calls ih =>
      obtain ⟨hrep, hle⟩ := rep_visit h x.1 x.2
      exact hle.trans (ih hrep)

theorem rep_after {c : ShardedCache P} (h : ∃ xs, c.Rep xs)
    (calls : List (TimePoint × ClientCall Key Value)) :
    ∃ xs, (c.after (unreaped calls)).Rep xs := by
  induction calls generalizing c with
  | nil => exact h
  | cons x calls ih => exact ih (rep_visit h x.1 x.2).1

theorem Uncrowded.cons {c : ShardedCache P} (h : ∃ xs, c.Rep xs) {now : TimePoint}
    {call : ClientCall Key Value} {calls : List (TimePoint × ClientCall Key Value)}
    (hroom : c.Uncrowded ((now, call) :: calls)) :
    (c.visit now call).2.counters.evictions = c.counters.evictions ∧
      (c.visit now call).2.Uncrowded calls := by
  obtain ⟨hrep, hle⟩ := rep_visit h now call
  have hlater := evictions_le_after hrep calls
  have hend : ((c.visit now call).2.after (unreaped calls)).counters.evictions =
      c.counters.evictions := hroom
  have heq : (c.visit now call).2.counters.evictions = c.counters.evictions := by omega
  exact ⟨heq, hend.trans heq.symm⟩

theorem DelsLive.tail {c : ShardedCache P} {now : TimePoint} {call : ClientCall Key Value}
    {calls : List (TimePoint × ClientCall Key Value)} (h : c.DelsLive ((now, call) :: calls)) :
    (c.visit now call).2.DelsLive calls := by
  intro before t k rest heq
  exact h ((now, call) :: before) t k rest (by rw [heq]; rfl)

/-- **A whole schedule.** The reaped cache gives the client the answers of the other one. -/
theorem Reaped.run (ops : Schedule Key Value) {now : TimePoint} {c d : ShardedCache P}
    (h : c.Reaped now d) (hsteady : Steady ops) (hnow : ∀ op ∈ ops, now ≤ op.1)
    (hroom : c.Uncrowded ops.calls) (hlive : c.DelsLive ops.calls) :
    d.answers ops = c.answers (unreaped ops.calls) ∧
      ∃ later, (c.after (unreaped ops.calls)).Reaped later (d.after ops) := by
  induction ops generalizing now c d with
  | nil => exact ⟨rfl, now, h⟩
  | cons op ops ih =>
      obtain ⟨t, action⟩ := op
      obtain ⟨hfirst, hrest⟩ := List.pairwise_cons.mp hsteady
      have hlater : ∀ op ∈ ops, t ≤ op.1 := fun op hop => hfirst op.1 (List.mem_map_of_mem hop)
      have ht : c.Reaped t d := h.mono (hnow _ List.mem_cons_self)
      cases action with
      | none => exact ih ht.cleanup hrest hlater hroom hlive
      | some call =>
          have hrep : ∃ xs, c.Rep xs := by
            obtain ⟨xs, -, R, -⟩ := h.lists
            exact ⟨xs, R⟩
          obtain ⟨hevict, hroom'⟩ := Uncrowded.cons hrep hroom
          obtain ⟨hsame, hnext⟩ := ht.visit call hevict fun k hk e he =>
            hlive [] t k _ (by rw [hk]; rfl) e he
          obtain ⟨hanswers, later, hend⟩ := ih hnext hrest hlater hroom' hlive.tail
          refine ⟨?_, later, hend⟩
          change (d.visit t call).1 :: (d.visit t call).2.answers ops =
            (c.visit t call).1 :: (c.visit t call).2.answers (unreaped (Schedule.calls ops))
          rw [hsame, hanswers]

/-! ## What a `del` gives away -/

/-- A `get` at the same instant agrees with every `del` if and only if no `del` finds an expired
entry. -/
theorem delExact_iff {c : ShardedCache P} (h : ∃ xs, c.Rep xs)
    (calls : List (TimePoint × ClientCall Key Value)) : c.DelExact calls ↔ c.DelsLive calls := by
  -- the statement for one `del`, in the cache it is called on
  have hdel : ∀ before now (k : Key), (((c.after (unreaped before)).del k).1 =
      ((c.after (unreaped before)).get k now).1.isSome ↔ ∀ e,
        ((c.after (unreaped before)).shards (shardForKey P k)).map.lookup k = some e →
          isExpired e now = false) := by
    intro before now k
    obtain ⟨xs, R⟩ := rep_after h before
    rw [R.del_ok, R.get_eq]
    cases he : ((c.after (unreaped before)).shards (shardForKey P k)).map.lookup k with
    | none => simp [(R.holds _).lookup_none he]
    | some e =>
        rw [(R.holds _).lookup_some he]
        cases hexp : isExpired e now <;> simp [Record.read, expired_record, hexp]
  constructor
  · intro hexact before now k rest heq
    exact (hdel before now k).mp (hexact before now k rest heq)
  · intro hlive before now k rest heq
    exact (hdel before now k).mpr (hlive before now k rest heq)

omit [DecidableEq Key] in
theorem calls_append (ops ops' : Schedule Key Value) :
    Schedule.calls (ops ++ ops') = Schedule.calls ops ++ Schedule.calls ops' :=
  List.filterMap_append

omit [DecidableEq Key] in
theorem calls_unreaped (calls : List (TimePoint × ClientCall Key Value)) :
    Schedule.calls (unreaped calls) = calls := by
  rw [Schedule.calls, unreaped, List.filterMap_map]
  exact List.filterMap_some ..

theorem answers_append (ops ops' : Schedule Key Value) (c : ShardedCache P) :
    c.answers (ops ++ ops') = c.answers ops ++ (c.after ops).answers ops' := by
  rw [answers, Transition.outputs_append, List.reduceOption_append]
  rfl

/-- A clean-up just before the `del` of an expired entry shows. -/
theorem delsLive_of_unseen {c : ShardedCache P} (h : ∃ xs, c.Rep xs)
    {calls : List (TimePoint × ClientCall Key Value)} (hsteady : Steady calls)
    (hunseen : c.ReaperUnseen calls) : c.DelsLive calls := by
  intro before now k rest heq e he
  by_contra hexp
  have hexp : isExpired e now = true := Bool.not_eq_false _ ▸ hexp
  obtain ⟨xs, R⟩ := rep_after h before
  let s := c.after (unreaped before)
  let ops : Schedule Key Value :=
    unreaped before ++ (now, none) :: unreaped ((now, .del k) :: rest)
  have hcalls : ops.calls = calls := by
    have htail : Schedule.calls ((now, none) :: unreaped ((now, ClientCall.del k) :: rest)) =
        (now, .del k) :: rest := calls_unreaped _
    rw [heq, calls_append, calls_unreaped, htail]
  have htimes : Steady ops := by
    have hfst : ops.map Prod.fst = before.map Prod.fst ++ now :: now :: rest.map Prod.fst := by
      simp only [ops, unreaped, List.map_append, List.map_cons, List.map_map]
      rfl
    rw [heq, Steady, List.map_append, List.map_cons, List.pairwise_append] at hsteady
    obtain ⟨hbefore, hrest, hcross⟩ := hsteady
    rw [Steady, hfst, List.pairwise_append]
    refine ⟨hbefore, List.pairwise_cons.mpr ⟨?_, hrest⟩, ?_⟩
    · exact List.forall_mem_cons.mpr ⟨le_rfl, (List.pairwise_cons.mp hrest).1⟩
    · intro t ht u hu
      rcases List.mem_cons.mp hu with rfl | hu
      · exact hcross t ht _ List.mem_cons_self
      · exact hcross t ht u hu
  have hanswers := (hunseen ops hcalls htimes).1
  have hsplit : unreaped calls = unreaped before ++ unreaped ((now, .del k) :: rest) := by
    rw [heq]
    exact List.map_append
  rw [hsplit, answers_append, answers_append] at hanswers
  have htail := List.append_cancel_left hanswers
  have hflag : ((s.cleanupExpired now).del k).1 = (s.del k).1 := by
    change Answer.flag ((s.cleanupExpired now).del k).1 :: _ = Answer.flag (s.del k).1 :: _ at htail
    exact Answer.flag.inj (List.cons.inj htail).1
  have hrecord := (R.holds (shardForKey P k)).lookup_some he
  have hgone : (liveRecords now (xs (shardForKey P k))).lookup k = none := by
    rw [liveRecords, AList.lookup_filterEntries, hrecord]
    simp [Option.filter, expired_record, hexp]
  rw [R.del_ok, (R.cleanupExpired now).del_ok, hrecord, hgone] at hflag
  cases hflag

/-- **The reaper is unobservable** if and only if no `del` finds its key stored with its deadline
passed, and the same condition decides whether `del` agrees with a `get` at the same instant. -/
theorem reaper_unobservable_iff {s : System P Exn} (hs : s.Reachable maxKeys)
    {calls : List (TimePoint × ClientCall Key Value)} (hsteady : Steady calls)
    (hroom : s.cache.Uncrowded calls) :
    (s.cache.ReaperUnseen calls ↔ s.cache.DelsLive calls) ∧
      (s.cache.DelExact calls ↔ s.cache.DelsLive calls) := by
  have hrep := hs.wellFormed.rep
  refine ⟨⟨delsLive_of_unseen hrep hsteady, ?_⟩, delExact_iff hrep calls⟩
  rintro hlive ops rfl htimes
  have hbound : ∃ now, ∀ op ∈ ops, now ≤ op.1 := by
    cases ops with
    | nil => exact ⟨0, by simp⟩
    | cons op ops =>
        have hfirst := (List.pairwise_cons.mp htimes).1
        refine ⟨op.1, List.forall_mem_cons.mpr ⟨le_rfl, fun op' hop' => ?_⟩⟩
        exact hfirst op'.1 (List.mem_map_of_mem hop')
  obtain ⟨now, hnow⟩ := hbound
  obtain ⟨hanswers, later, hend⟩ :=
    (Reaped.refl hrep now).run ops htimes hnow hroom hlive
  exact ⟨hanswers, hend.hits, hend.misses⟩

/-- A key is deleted when its millisecond is over. -/
private def deleteLate : List (TimePoint × ClientCall ℕ ℕ) :=
  [(0, .set 1 5 (some 1)), (2000000, .del 1)]

/-- Two keys without a ttl and one for a millisecond. -/
private def threeKeys : List (Action ℕ ℕ Unit) :=
  [.call 0 (.set 2 7 none), .run 0, .call 1 (.set 4 8 (some 1)), .run 1, .call 2 (.set 1 9 none),
    .run 2]

/-- When the millisecond is over, the key is read and deleted, and another one overwritten and
deleted. -/
private def readThenDelete : List (TimePoint × ClientCall ℕ ℕ) :=
  [(2000000, .get 4), (2000000, .del 4), (2000000, .set 2 6 (some 1)), (2000001, .del 2)]

theorem reaper_unobservable_readThenDelete :
    ∃ s : System CacheParams.twoShards Unit, s.Reachable 5 ∧ s.entry 1 ≠ none ∧ s.entry 2 ≠ none ∧
      s.entry 4 ≠ none ∧ s.cache.ReaperUnseen readThenDelete ∧
        s.cache.DelExact readThenDelete := by
  let s := (Transition.exec System.step threeKeys
    (System.init CacheParams.twoShards Unit 5 0)).get (by decide)
  have hs : s.Reachable 5 := System.reachable_of_exec (Option.some_get _).symm
  have hone : s.entry 1 ≠ none := Option.isSome_iff_ne_none.mp (by decide)
  have htwo : s.entry 2 ≠ none := Option.isSome_iff_ne_none.mp (by decide)
  have hfour : s.entry 4 ≠ none := Option.isSome_iff_ne_none.mp (by decide)
  have hlive : s.cache.DelsLive readThenDelete := by
    intro before now k rest heq
    rcases before with _ | ⟨x, _ | ⟨y, _ | ⟨z, _ | ⟨w, before⟩⟩⟩⟩
    · cases heq
    · -- the `get` has removed the key
      cases heq
      intro e he
      have hgone : ((s.cache.after (unreaped [(2000000, .get 4)])).shards
          (shardForKey CacheParams.twoShards 4)).map.lookup 4 = none := by decide
      cases hgone.symm.trans he
    · cases heq
    · cases heq
      intro e he
      have hfresh : (((s.cache.after (unreaped [(2000000, .get 4), (2000000, .del 4),
          (2000000, .set 2 6 (some 1))])).shards
            (shardForKey CacheParams.twoShards 2)).map.lookup 2).all
              (fun e => !isExpired e 2000001) = true := by decide
      rw [he] at hfresh
      simpa using hfresh
    · have hlength := congrArg List.length heq
      simp [readThenDelete] at hlength
  have hsteady : Steady readThenDelete := by simp [Steady, readThenDelete]
  have hiff := reaper_unobservable_iff hs hsteady (by decide)
  exact ⟨s, hs, hone, htwo, hfour, hiff.1.mpr hlive, hiff.2.mpr hlive⟩

/-- `del` returns true for the expired key, and false if the reaper came before it. -/
theorem reaper_observed :
    ¬ ∀ (P : CacheParams ℕ ℕ) (maxKeys : ℕ) (s : System P Unit)
      (calls : List (TimePoint × ClientCall ℕ ℕ)), s.Reachable maxKeys → Steady calls →
        s.cache.Uncrowded calls → s.cache.ReaperUnseen calls ∧ s.cache.DelExact calls := by
  intro h
  let s := System.init CacheParams.twoShards Unit 3 0
  have hs : s.Reachable 3 := ⟨0, [], .nil _⟩
  have hsteady : Steady deleteLate := by simp [Steady, deleteLate]
  have hunseen := (h CacheParams.twoShards 3 s deleteLate hs hsteady (by decide)).1
  have hlive := delsLive_of_unseen hs.wellFormed.rep hsteady hunseen
  let stored := s.cache.after (unreaped [(0, .set 1 5 (some 1))])
  let entry := ((stored.shards (shardForKey CacheParams.twoShards 1)).map.lookup 1).get (by decide)
  have hexp : isExpired entry 2000000 = true := by decide
  have hfalse := hlive [(0, .set 1 5 (some 1))] 2000000 1 [] rfl entry (Option.some_get _).symm
  rw [hexp] at hfalse
  cases hfalse

end ShardedCache
end MiniRedis
