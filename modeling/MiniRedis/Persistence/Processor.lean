import MiniRedis.Cache.Lists
import MiniRedis.Lib.WriteLog
import MiniRedis.Persistence.Log

/-!
# The command processor and its files

`RedisCommandProcessor` owns a cache of strings and hands each write to the persistence code, which
puts a line in a queue. A background thread moves the queue to the append-only file, another one
writes snapshots, and at the start of the process both files are replayed into an empty cache.

## Main definitions

* `Processor` — the cache and the queue, with `set`, `get`, `del` and `executeLine`.
* `replayFile`, `recoverFromDisk` — the start of the process.
* `Server` — a processor and the contents of the two files, with everything that can happen to them
  while the process runs (`Server.step`), an orderly `shutdown` and a `restart`.
-/
namespace MiniRedis

/-- What the standard library leaves open: the hash of a string, the sizes of the objects, and how
a ratio is printed. -/
structure Platform where
  hash : Bytes → ℕ
  sizeofString : ℕ
  sizeofEntry : ℕ
  showRatio : ℕ → ℕ → Bytes

/-- `ShardedCache<std::string, std::string, 64>`; `DefaultObjectSizer` adds a string's length to the
size of the object. -/
def Platform.params (M : Platform) : CacheParams Bytes Bytes where
  numShards := 64
  numShards_pos := by decide
  hash := M.hash
  keySizer := fun key => M.sizeofString + key.length
  valueSizer := fun value => M.sizeofString + value.length
  sizeofEntry := M.sizeofEntry

/-- A platform on which all keys share a shard. -/
def Platform.oneShard : Platform := ⟨fun _ => 0, 32, 64, fun _ _ => []⟩

/-- The call of the cache that a write makes. -/
def applyWrite {M : Platform} (now : TimePoint) (w : WriteCommand) (c : ShardedCache M.params) :
    ShardedCache M.params :=
  match w with
  | .set key value ttl => (c.set key value ttl now).2
  | .del key => (c.del key).2

structure CommandResponse where
  ok : Bool := true
  shouldExit : Bool := false
  payload : Bytes
  deriving DecidableEq, Repr

/-- The processor, with persistence enabled: its cache and the lines waiting to be written. -/
structure Processor (M : Platform) where
  cache : ShardedCache M.params
  queue : List Bytes

variable {M : Platform}

namespace Processor

def enqueueLine (line : Bytes) (p : Processor M) : Processor M :=
  { p with queue := p.queue ++ [line] }

def set (key value : Bytes) (ttl : Option Millis) (now : TimePoint) (p : Processor M) :
    Bool × Processor M :=
  let r := p.cache.set key value ttl now
  (r.1, enqueueLine (recordSet key value ttl) { p with cache := r.2 })

def get (key : Bytes) (now : TimePoint) (p : Processor M) : Option Bytes × Processor M :=
  let r := p.cache.get key now
  (r.1, { p with cache := r.2 })

def del (key : Bytes) (p : Processor M) : Bool × Processor M :=
  let r := p.cache.del key
  (r.1, enqueueLine (recordDel key) { p with cache := r.2 })

/-- The payload of `HELP`. -/
def helpPayload : Bytes :=
  ascii "Commands: PING | SET <key> <value> [ttl_ms] | GET <key> | DEL <key> | STATS | HELP | QUIT"

/-- The payload of `STATS`. -/
def statsPayload (M : Platform) (s : CacheStats) : Bytes :=
  ascii "hits=" ++ toString s.hits ++ ascii " misses=" ++ toString s.misses ++
    ascii " hit_ratio=" ++ M.showRatio s.hits (s.hits + s.misses) ++
    ascii " evictions=" ++ toString s.evictions ++ ascii " expirations=" ++ toString s.expirations ++
    ascii " active_keys=" ++ toString s.activeKeys ++ ascii " memory_bytes=" ++
    toString s.memoryBytes

def executeParsed (parsed : ParsedTcpCommand) (now : TimePoint) (p : Processor M) :
    CommandResponse × Processor M :=
  match parsed.type with
  | .ping => ({ payload := ascii "PONG" }, p)
  | .help => ({ payload := helpPayload }, p)
  | .quit => ({ shouldExit := true, payload := ascii "BYE" }, p)
  | .set =>
      let r := p.set parsed.key parsed.value parsed.ttlMs now
      ({ ok := r.1, payload := if r.1 then ascii "OK" else ascii "ERR set failed" }, r.2)
  | .get =>
      let r := p.get parsed.key now
      ({ payload := r.1.getD (ascii "(nil)") }, r.2)
  | .del =>
      let r := p.del parsed.key
      ({ payload := if r.1 then ascii "1" else ascii "0" }, r.2)
  | .stats => ({ payload := statsPayload M (p.cache.stats now) }, p)
  | .invalid => ({ ok := false, payload := ascii "ERR unknown command" }, p)

def executeLine (rawLine : Bytes) (now : TimePoint) (p : Processor M) :
    CommandResponse × Processor M :=
  let parsed := parseTcpCommand rawLine
  if parsed.type = .invalid then ({ ok := false, payload := ascii "ERR " ++ parsed.error }, p)
  else executeParsed parsed now p

end Processor

/-! ## Recovery -/

/-- Commands, each with the reading of the clock at which it is replayed. -/
def timed (clock : ℕ → TimePoint) (ws : List WriteCommand) : List (TimePoint × WriteCommand) :=
  ws.mapIdx fun i w => (clock i, w)

def replayCommands (ws : List (TimePoint × WriteCommand)) (c : ShardedCache M.params) :
    ShardedCache M.params := ws.foldl (fun c x => applyWrite x.1 x.2 c) c

/-- `replay_file`. A file that cannot be opened has no text. -/
def replayFile (clock : ℕ → TimePoint) (text : Bytes) (c : ShardedCache M.params) :
    ShardedCache M.params := replayCommands (timed clock (readBack text)) c

/-- The readings of the clock during a recovery. -/
structure RecoveryClock where
  snapshot : ℕ → TimePoint
  aof : ℕ → TimePoint

def recoverFromDisk (clock : RecoveryClock) (snapshot aof : Bytes) (c : ShardedCache M.params) :
    ShardedCache M.params := replayFile clock.aof aof (replayFile clock.snapshot snapshot c)

/-! ## The server -/

/-- A processor and the contents of its files. -/
structure Server (M : Platform) where
  processor : Processor M
  aof : Bytes
  snapshot : Bytes

/-- A reading of the steady clock and of the system clock, the latter in milliseconds. -/
structure Instant where
  now : TimePoint
  epochMs : Millis

/-- What can happen while the process runs. -/
inductive ServerAction (M : Platform)
  /-- A client's line is executed. -/
  | command (line : Bytes)
  /-- The queue is written to the append-only file. -/
  | flush
  /-- The snapshot file is replaced. -/
  | snapshot (ord : HashOrder Bytes Bytes)
  /-- The reaper cleans up a shard. -/
  | reap (shard : Fin M.params.numShards)

namespace Server

def cache (s : Server M) : ShardedCache M.params := s.processor.cache

/-- The lines that are or will be in the append-only file. -/
def log (s : Server M) : List WriteCommand := readBack (s.aof ++ aofText s.processor.queue)

/-- The process is started on the given files. -/
def start (M : Platform) (capacity : ℕ) (clock : RecoveryClock) (snapshot aof : Bytes) :
    Server M where
  processor := ⟨recoverFromDisk clock snapshot aof (ShardedCache.construct M.params capacity), []⟩
  aof := aof
  snapshot := snapshot

/-- The first start, from empty data files. -/
def init (M : Platform) (capacity : ℕ) : Server M where
  processor := ⟨ShardedCache.construct M.params capacity, []⟩
  aof := []
  snapshot := []

/-- The part of `aof_loop` that writes out the queue. -/
def flush (s : Server M) : Server M :=
  { s with aof := s.aof ++ aofText s.processor.queue, processor := { s.processor with queue := [] } }

def writeSnapshotFile (ord : HashOrder Bytes Bytes) (t : Instant) (s : Server M) : Server M :=
  { s with snapshot := snapshotText t.epochMs (s.cache.snapshotItems ord t.now) }

def step (t : Instant) (s : Server M) : ServerAction M → Server M
  | .command line => { s with processor := (s.processor.executeLine line t.now).2 }
  | .flush => s.flush
  | .snapshot ord => s.writeSnapshotFile ord t
  | .reap shard =>
      { s with processor := { s.processor with cache := s.cache.cleanupShard t.now shard } }

/-- An orderly shutdown: the queue is drained and a last snapshot is written. -/
def shutdown (ord : HashOrder Bytes Bytes) (t : Instant) (s : Server M) : Server M :=
  s.flush.writeSnapshotFile ord t

/-- The next start, with the same capacity. -/
def restart (clock : RecoveryClock) (s : Server M) : Server M :=
  start M s.cache.maxKeys clock s.snapshot s.aof

end Server
end MiniRedis
