import MiniRedis.Persistence.Recovery

/-!
# Which writes survive their encoding

`set` accepts any strings, and the HTTP server passes on whatever a request contains. What it logs
is read back as that `SET`, and so is the line of the item in every later snapshot, if and only if
key and value are storable.
-/
namespace MiniRedis
variable {M : Platform}

/-- The processors that can come about: started on any files, and then called. -/
inductive Processor.Reachable (capacity : ℕ) : Processor M → Prop
  | start (clock : RecoveryClock) (snapshot aof : Bytes) :
      Reachable capacity (Server.start M capacity clock snapshot aof).processor
  | set {p : Processor M} (h : Reachable capacity p) (key value : Bytes) (ttl : Option Millis)
      (now : TimePoint) : Reachable capacity (p.set key value ttl now).2
  | get {p : Processor M} (h : Reachable capacity p) (key : Bytes) (now : TimePoint) :
      Reachable capacity (p.get key now).2
  | del {p : Processor M} (h : Reachable capacity p) (key : Bytes) :
      Reachable capacity (p.del key).2
  | drain {p : Processor M} (h : Reachable capacity p) : Reachable capacity { p with queue := [] }
  | reap {p : Processor M} (h : Reachable capacity p) (now : TimePoint) (shard : Fin M.params.numShards) :
      Reachable capacity { p with cache := p.cache.cleanupShard now shard }

theorem Processor.Reachable.rep {capacity : ℕ} {p : Processor M} (h : p.Reachable capacity) :
    ∃ xs, p.cache.Rep xs := by
  induction h with
  | start clock snapshot aof => exact ⟨_, rep_recoverFromDisk_timed capacity clock snapshot aof⟩
  | set h key value ttl now ih =>
      obtain ⟨xs, R⟩ := ih
      exact ⟨_, R.set key value ttl now⟩
  | get h key now ih =>
      obtain ⟨xs, R⟩ := ih
      exact ⟨_, R.get key now⟩
  | del h key ih =>
      obtain ⟨xs, R⟩ := ih
      exact ⟨_, R.del key⟩
  | drain h ih => exact ih
  | reap h now shard ih =>
      obtain ⟨xs, R⟩ := ih
      exact ⟨_, R.cleanupShard now shard⟩

namespace Processor

/-- What a `set` logs, and what any snapshot writes for the item it stored, is read back as one
`SET` of the same key, value and ttl and as no other command. -/
structure FaithfulSet (p : Processor M) (key value : Bytes) (ttl : Option Millis)
    (now : TimePoint) : Prop where
  logged : ∃ line, (p.set key value ttl now).2.queue = p.queue ++ [line] ∧
    readBack (aofText [line]) = [.set key value ttl]
  dumped : ∀ ord t, ∀ item ∈ (p.set key value ttl now).2.cache.snapshotItems ord t,
    item.key = key →
      readBack (aofText [snapshotLine item]) = [.set key value item.ttlRemaining]

theorem readBack_recordSet {key value : Bytes} {ttl : Option Millis} (hk : Storable key)
    (hv : Storable value) (httl : ∀ d ∈ ttl, 0 ≤ d ∧ d < 2 ^ 63) :
    readBack (aofText [recordSet key value ttl]) = [.set key value ttl] := by
  have hall : ∀ w ∈ [WriteCommand.set key value ttl], w.Storable := by
    intro w hw
    rw [List.mem_singleton.mp hw]
    exact ⟨hk, hv, httl⟩
  have h := readBack_aofText hall []
  rwa [List.append_nil, readBack_nil, List.append_nil] at h

/-- The item of the key just set shows what was set. -/
theorem shows_set {p : Processor M} {xs : Fin M.params.numShards → RecencyList Bytes (Record Bytes)}
    (R : p.cache.Rep xs) {key value : Bytes} {ttl : Option Millis} {now t : TimePoint}
    (hset : (p.set key value ttl now).1 = true) {ord : HashOrder Bytes Bytes}
    {item : SnapshotItem Bytes Bytes}
    (hitem : item ∈ (p.set key value ttl now).2.cache.snapshotItems ord t) (hkey : item.key = key) :
    item.Shows t (storedRecord value ttl now) := by
  obtain ⟨r, hr, hshows⟩ := (R.set key value ttl now).shows hitem
  have hcap : capacityOf M.params p.cache.maxKeys (M.home key) ≠ 0 := by
    have := (R.set_ok key value ttl now).symm.trans hset
    simpa using this
  have hput := RecencyList.lookup_put_self (capacityOf M.params p.cache.maxKeys (M.home key)) key
    (storedRecord value ttl now) (by omega) (R.card_le_capacityOf _)
  rw [hkey, Function.update_self, hput] at hr
  cases hr
  exact hshows

/-- **A successful `set` survives its encoding if and only if key and value are storable.** -/
theorem faithfulSet_iff {capacity : ℕ} {p : Processor M} (hp : p.Reachable capacity)
    {key value : Bytes} {ttl : Option Millis} {now : TimePoint}
    (hset : (p.set key value ttl now).1 = true) (httl : ∀ d ∈ ttl, 0 ≤ d ∧ d < 2 ^ 63) :
    p.FaithfulSet key value ttl now ↔ Storable key ∧ Storable value := by
  constructor
  · intro h
    obtain ⟨line, -, hread⟩ := h.logged
    have hstorable := storable_of_mem_readBack (hread ▸ List.mem_singleton_self _)
    exact ⟨hstorable.1, hstorable.2.1⟩
  · rintro ⟨hk, hv⟩
    obtain ⟨xs, R⟩ := hp.rep
    refine ⟨⟨_, rfl, readBack_recordSet hk hv httl⟩, ?_⟩
    intro ord t item hitem hkey
    have hshows := shows_set R hset hitem hkey
    have hvalue : item.value = value := hshows.value
    have hrem : ∀ d ∈ item.ttlRemaining, 0 ≤ d ∧ d < 2 ^ 63 :=
      fun d hd => ⟨(hshows.pos d hd).le, hshows.ttl_lt hd⟩
    rw [snapshotLine, hkey, hvalue]
    exact readBack_recordSet hk hv hrem

/-- A clock that stands still at zero. -/
def stoppedClock : RecoveryClock := ⟨fun _ => 0, fun _ => 0⟩

/-- A processor with one entry for each shard, started without files. -/
def fresh : Processor Platform.oneShard := (Server.start Platform.oneShard 64 stoppedClock [] []).processor

theorem faithfulSet_iff_ttl :
    fresh.FaithfulSet (ascii "k") (ascii "v") (some 250) 7 ↔
      Storable (ascii "k") ∧ Storable (ascii "v") :=
  faithfulSet_iff (.start stoppedClock [] []) (by decide) (by simp)

/-- A value with a blank in it: the line `SET k a b` is rejected, because `b` is no ttl. -/
theorem set_with_blank_lost :
    ¬ ∀ (capacity : ℕ) (p : Processor Platform.oneShard) (key value : Bytes) (ttl : Option Millis)
      (now : TimePoint), p.Reachable capacity → (p.set key value ttl now).1 = true →
      (∀ d ∈ ttl, 0 ≤ d ∧ d < 2 ^ 63) → p.FaithfulSet key value ttl now := by
  intro h
  have hset : (fresh.set (ascii "k") (ascii "a b") none 0).1 = true := by decide
  obtain ⟨line, hqueue, hread⟩ :=
    (h 64 fresh (ascii "k") (ascii "a b") none 0 (.start stoppedClock [] []) hset (by simp)).logged
  have hline : line = ascii "SET k a b" := by
    have : [ascii "SET k a b"] = [line] := hqueue
    exact (List.singleton_inj.mp this).symm
  have hlost : readBack (aofText [ascii "SET k a b"]) = [] := by decide
  rw [hline, hlost] at hread
  cases hread

end Processor
end MiniRedis
