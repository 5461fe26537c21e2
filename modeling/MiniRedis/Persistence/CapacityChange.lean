import MiniRedis.Cache.Capacity
import MiniRedis.Persistence.Recovery

/-!
# Restarting with a larger capacity

The capacity is an argument of the program, the files do not mention it. Whatever the files contain,
a start with a larger capacity recovers everything that a start with a smaller one recovers.
-/
namespace MiniRedis
variable {M : Platform} {m n : ℕ}

namespace ShardedCache.Within
variable {c d : ShardedCache M.params}

theorem applyWrite (hmn : m ≤ n) (h : Within m n c d) (now : TimePoint) (w : WriteCommand) :
    Within m n (MiniRedis.applyWrite now w c) (MiniRedis.applyWrite now w d) := by
  cases w with
  | set key value ttl => exact (h.set hmn key value ttl now).2
  | del key => exact (h.del key).2

theorem replayCommands (hmn : m ≤ n) (h : Within m n c d) (ws : List (TimePoint × WriteCommand)) :
    Within m n (MiniRedis.replayCommands ws c) (MiniRedis.replayCommands ws d) := by
  induction ws generalizing c d with
  | nil => exact h
  | cons x ws ih => exact ih (h.applyWrite hmn x.1 x.2)

/-- Both files are replayed. -/
theorem recoverFromDisk (hmn : m ≤ n) (clock : RecoveryClock) (snapshot aof : Bytes) :
    Within m n
      (MiniRedis.recoverFromDisk clock snapshot aof (ShardedCache.construct M.params m))
      (MiniRedis.recoverFromDisk clock snapshot aof (ShardedCache.construct M.params n)) :=
  ((Within.construct hmn).replayCommands hmn _).replayCommands hmn _

end ShardedCache.Within

/-- **A larger capacity recovers no less.** For every snapshot file and every append-only file, with
any bytes in them, each shard of a server started for `n ≥ m` keys holds what the same shard of a
server started for `m` keys holds, in the same order of use, and at no time does a `GET` find a value
with the smaller one and not with the larger. -/
theorem Server.start_larger_capacity (hmn : m ≤ n) (clock : RecoveryClock) (snapshot aof : Bytes) :
    (∀ i, ((start M m clock snapshot aof).cache.shards i).view.Sublist
      ((start M n clock snapshot aof).cache.shards i).view) ∧
    ∀ key now value, ((start M m clock snapshot aof).processor.get key now).1 = some value →
      ((start M n clock snapshot aof).processor.get key now).1 = some value := by
  have h := ShardedCache.Within.recoverFromDisk (M := M) hmn clock snapshot aof
  refine ⟨h.view_sublist, fun key now value hvalue => ?_⟩
  have hget := (h.get key now).1
  have hsmall : ((MiniRedis.recoverFromDisk clock snapshot aof
    (ShardedCache.construct M.params m)).get key now).1 = some value := hvalue
  rw [hsmall] at hget
  exact hget.eq_some

/-- Two keys of one shard, the second of which takes the place of the first where there is room for
one. -/
theorem Server.start_larger_capacity_twoKeys :
    let aof := ascii "SET a 1\nSET b 2\n"
    let clock : RecoveryClock := ⟨fun _ => 0, fun _ => 0⟩
    ((start Platform.oneShard 1 clock [] aof).processor.get (ascii "b") 0).1 = some (ascii "2") ∧
      ((start Platform.oneShard 128 clock [] aof).processor.get (ascii "b") 0).1 =
        some (ascii "2") := by
  intro aof clock
  have hsmall : ((start Platform.oneShard 1 clock [] aof).processor.get (ascii "b") 0).1 =
      some (ascii "2") := by decide +kernel
  exact ⟨hsmall, (start_larger_capacity (M := Platform.oneShard) (show 1 ≤ 128 by decide) clock []
    aof).2 (ascii "b") 0 (ascii "2") hsmall⟩

end MiniRedis
