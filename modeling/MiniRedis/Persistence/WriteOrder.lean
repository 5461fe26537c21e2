import MiniRedis.Lib.Transition
import MiniRedis.Persistence.Recovery

/-!
# Concurrent writers

A write takes effect in the cache under the lock of its shard, and is put into the queue later,
under the lock of the queue. Between the two steps of one client others may make theirs, so the log
need not be in the order in which the writes took effect.

If no write overtakes an earlier one to its key on the way to the queue, and the log never stands
for more keys than a shard holds, then its replay gives the contents of the cache.
-/
namespace MiniRedis
variable {M : Platform}

/-- Clients that write, and the thread that writes out the queue. -/
structure Writers (M : Platform) where
  cache : ShardedCache M.params
  /-- The writes that took effect and are not in the queue yet, each with its client, in the order
  in which they took effect. -/
  pending : List (ℕ × WriteCommand)
  queue : List Bytes
  aof : Bytes

inductive WriterAction (M : Platform)
  /-- A client's write, which has no ttl, takes effect. -/
  | update (client : ℕ) (w : WriteCommand) (now : TimePoint)
  /-- A client's write is put into the queue. -/
  | enqueue (client : ℕ)
  /-- The queue is written to the append-only file. -/
  | flush
  /-- The reaper cleans up a shard. -/
  | reap (shard : Fin M.params.numShards) (now : TimePoint)

namespace Writers

def init (M : Platform) (capacity : ℕ) : Writers M where
  cache := ShardedCache.construct M.params capacity
  pending := []
  queue := []
  aof := []

/-- The lines that are or will be in the append-only file. -/
def log (s : Writers M) : List WriteCommand := readBack (s.aof ++ aofText s.queue)

/-- The pending writes that took effect before the client's. -/
def before (client : ℕ) (s : Writers M) : List (ℕ × WriteCommand) :=
  s.pending.takeWhile fun x => x.1 ≠ client

/-- The client's pending write and those that took effect after it. -/
def rest (client : ℕ) (s : Writers M) : List (ℕ × WriteCommand) :=
  s.pending.dropWhile fun x => x.1 ≠ client

/-- The client's pending write. -/
def next? (client : ℕ) (s : Writers M) : Option WriteCommand := (s.rest client).head?.map Prod.snd

def step : WriterAction M → Writers M → Option (Writers M)
  | .update client w now, s =>
      if w.ttl = none ∧ s.next? client = none then
        some { s with cache := applyWrite now w s.cache, pending := s.pending ++ [(client, w)] }
      else none
  | .enqueue client, s =>
      (s.next? client).map fun w =>
        { s with queue := s.queue ++ [w.line], pending := s.before client ++ (s.rest client).tail }
  | .flush, s => some { s with aof := s.aof ++ aofText s.queue, queue := [] }
  | .reap shard now, s => some { s with cache := s.cache.cleanupShard now shard }

/-- `step` as a relation. -/
def Step (s : Writers M) (a : WriterAction M) (s' : Writers M) : Prop := step a s = some s'

/-- A replay of the file into an empty cache of the same capacity reads as the cache does. -/
def LogAgrees (s : Writers M) : Prop :=
  ∀ clock now now' key,
    ((replayFile clock s.aof (ShardedCache.construct M.params s.cache.maxKeys)).get key now').1 =
      (s.cache.get key now).1

/-- All clients are done and everything is written. -/
def Settled (s : Writers M) : Prop := s.pending = [] ∧ s.queue = []

/-- What a step has to respect: writes are storable; and a write that is put into the queue, unless
its shard has no capacity, overtakes no different write to its key, and the keys that the log
stands for still fit the shard. -/
def InOrder (s : Writers M) : WriterAction M → Prop
  | .update _ w _ => w.Storable
  | .enqueue client => ∀ w ∈ s.next? client,
      capacityOf M.params s.cache.maxKeys (M.home w.key) ≠ 0 →
        (∀ x ∈ s.before client, x.2.key = w.key → x.2 = w) ∧
        (WriteLog.contents (shardLog M (M.home w.key) (s.log ++ [w]))).card ≤
          capacityOf M.params s.cache.maxKeys (M.home w.key)
  | _ => True

instance (s : Writers M) : DecidablePred s.InOrder
  | .update _ w _ => inferInstanceAs (Decidable w.Storable)
  | .enqueue client => inferInstanceAs (Decidable (∀ w ∈ s.next? client,
      capacityOf M.params s.cache.maxKeys (M.home w.key) ≠ 0 →
        (∀ x ∈ s.before client, x.2.key = w.key → x.2 = w) ∧
        (WriteLog.contents (shardLog M (M.home w.key) (s.log ++ [w]))).card ≤
          capacityOf M.params s.cache.maxKeys (M.home w.key)))
  | .flush => isTrue trivial
  | .reap _ _ => isTrue trivial

/-- A step that is taken only in order. -/
def stepInOrder (a : WriterAction M) (s : Writers M) : Option (Writers M) :=
  if s.InOrder a then step a s else none

/-- A step in order. -/
def OrderedStep (s : Writers M) (a : WriterAction M) (s' : Writers M) : Prop :=
  Step s a s' ∧ s.InOrder a

theorem orderedStep_of_eq {s s' : Writers M} {a : WriterAction M}
    (h : stepInOrder a s = some s') : OrderedStep s a s' := by
  unfold stepInOrder at h
  split at h
  · next horder => exact ⟨h, horder⟩
  · cases h

theorem pending_eq {s : Writers M} {client : ℕ} {w : WriteCommand} (h : s.next? client = some w) :
    s.pending.map Prod.snd =
      (s.before client).map Prod.snd ++ w :: (s.rest client).tail.map Prod.snd := by
  obtain ⟨x, hx, rfl⟩ := Option.map_eq_some_iff.mp h
  have hrest : s.rest client = x :: (s.rest client).tail := (List.cons_head?_tail hx).symm
  have hsplit : s.pending = s.before client ++ s.rest client :=
    List.takeWhile_append_dropWhile.symm
  rw [hsplit, List.map_append, hrest]
  simp

/-- What is pending for an idle client after its next write took effect. -/
theorem before_rest_update {s : Writers M} {client : ℕ} (hidle : s.next? client = none)
    (w : WriteCommand) (c : ShardedCache M.params) :
    before client { s with cache := c, pending := s.pending ++ [(client, w)] } = s.pending ∧
      rest client { s with cache := c, pending := s.pending ++ [(client, w)] } = [(client, w)] := by
  have hnone : s.rest client = [] := by simpa [next?] using hidle
  have hother : ∀ x ∈ s.pending, decide (x.1 ≠ client) = true := by
    simpa [rest, List.dropWhile_eq_nil_iff] using hnone
  constructor
  · rw [before, List.takeWhile_append_of_pos hother]
    simp
  · rw [rest, List.dropWhile_append_of_pos hother]
    simp

/-- **The two steps of a client** execute its line, if no other step comes between them. -/
theorem exec_update_enqueue {s : Writers M} {client : ℕ} {line : Bytes} {w : WriteCommand}
    {now : TimePoint} (hw : (parseTcpCommand line).write? = some w) (hfree : w.ttl = none)
    (hidle : s.next? client = none) :
    Transition.exec step [.update client w now, .enqueue client] s =
      some { s with
        cache := ((⟨s.cache, s.queue⟩ : Processor M).executeLine line now).2.cache
        queue := ((⟨s.cache, s.queue⟩ : Processor M).executeLine line now).2.queue } := by
  obtain ⟨hbefore, hrest⟩ := before_rest_update hidle w (applyWrite now w s.cache)
  have hnext : next? client
      { s with cache := applyWrite now w s.cache, pending := s.pending ++ [(client, w)] } =
        some w := by
    rw [next?, hrest]
    rfl
  rw [Processor.executeLine_of_write hw]
  simp [Transition.exec, step, hfree, hidle, hnext, hbefore, hrest]

/-! ## The invariant -/

/-- The file and the queue hold a log which, where there is capacity, fits the shards; and while
nothing was evicted the cache holds what that log and the pending writes amount to. -/
structure Sound (capacity : ℕ) (s : Writers M) (ws : List WriteCommand)
    (xs : Fin M.params.numShards → RecencyList Bytes (Record Bytes)) : Prop where
  maxKeys : s.cache.maxKeys = capacity
  rep : s.cache.Rep xs
  lasting : ∀ i k r, (xs i).lookup k = some r → r.deadline = none
  logged : Logged s.aof s.queue ws
  storable : ∀ w ∈ s.pending.map Prod.snd, w.Storable
  ttlFree : ∀ w ∈ ws ++ s.pending.map Prod.snd, w.ttl = none
  fits : ∀ i, capacityOf M.params capacity i ≠ 0 →
    WriteLog.replay (capacityOf M.params capacity i) (shardLog M i ws) ∅ =
      WriteLog.contents (shardLog M i ws)
  live : s.cache.counters.evictions = 0 → ∀ i, capacityOf M.params capacity i ≠ 0 → ∀ k,
    (xs i).lookup k =
      WriteLog.standing k (shardLog M i (ws ++ s.pending.map Prod.snd))

namespace Sound
variable {capacity : ℕ} {s : Writers M} {ws : List WriteCommand}
  {xs : Fin M.params.numShards → RecencyList Bytes (Record Bytes)}

theorem init (capacity : ℕ) : Sound capacity (Writers.init M capacity) [] fun _ => ∅ where
  maxKeys := rfl
  rep := ShardedCache.Rep.construct capacity
  lasting := fun _ _ _ h => by cases h
  logged := .nil
  storable := by simp [Writers.init]
  ttlFree := by simp [Writers.init]
  fits := fun _ _ => rfl
  live := fun _ _ _ _ => rfl

theorem log_eq (S : Sound capacity s ws xs) : s.log = ws := S.logged.readBack_eq

theorem update (S : Sound capacity s ws xs) {w : WriteCommand} (hw : w.Storable)
    (hfree : w.ttl = none) (client : ℕ) (now : TimePoint) :
    Sound capacity
      { s with cache := applyWrite now w s.cache, pending := s.pending ++ [(client, w)] } ws
      (Function.update xs (M.home w.key) ((w.write now).apply
        (capacityOf M.params capacity (M.home w.key)) (xs (M.home w.key)))) where
  maxKeys := (maxKeys_applyWrite now w s.cache).trans S.maxKeys
  rep := S.maxKeys ▸ S.rep.applyWrite now w
  lasting := by
    intro i k r hr
    by_cases hi : i = M.home w.key
    · subst hi
      rw [Function.update_self] at hr
      rcases Write.lookup_apply hr with heq | ⟨-, hprev⟩
      · exact deadline_of_write hfree heq
      · exact S.lasting _ k r hprev
    · rw [Function.update_of_ne hi] at hr
      exact S.lasting i k r hr
  logged := S.logged
  storable := by
    intro v hv
    simp only [List.map_append, List.map_singleton, List.mem_append, List.mem_singleton] at hv
    rcases hv with hv | rfl
    · exact S.storable v hv
    · exact hw
  ttlFree := by
    intro v hv
    simp only [List.map_append, List.map_singleton, ← List.append_assoc] at hv
    rcases List.mem_append.mp hv with hv | hv
    · exact S.ttlFree v hv
    · rw [List.mem_singleton.mp hv]
      exact hfree
  fits := S.fits
  live := by
    intro hevict i hcap k
    have hzero : s.cache.counters.evictions = 0 :=
      Nat.le_zero.mp (hevict ▸ S.rep.evictions_le_applyWrite now w)
    have hlive := S.live hzero i hcap
    rw [← S.maxKeys] at hcap ⊢
    simp only [List.map_append, List.map_singleton, ← List.append_assoc]
    exact S.rep.standing_applyWrite hfree hevict hcap hlive k

/-- Moving a write that overtakes no different write to its key does not change what a key stands
for. -/
theorem standing_enqueue {pre post : List WriteCommand} {w : WriteCommand}
    (h : ∀ v ∈ pre, v.key = w.key → v = w) (i : Fin M.params.numShards) (k : Bytes)
    (ws : List WriteCommand) :
    WriteLog.standing k (shardLog M i (ws ++ (pre ++ w :: post))) =
      WriteLog.standing k (shardLog M i (ws ++ [w] ++ (pre ++ post))) := by
  have hcons : ∀ l, shardLog M i (w :: l) = shardLog M i [w] ++ shardLog M i l :=
    fun l => shardLog_append i [w] l
  have hreorder : shardLog M i (ws ++ (pre ++ w :: post)) =
      shardLog M i ws ++ ((shardLog M i pre ++ shardLog M i [w]) ++ shardLog M i post) := by
    simp [hcons post]
  have hreorder' : shardLog M i (ws ++ [w] ++ (pre ++ post)) =
      shardLog M i ws ++ ((shardLog M i [w] ++ shardLog M i pre) ++ shardLog M i post) := by
    simp [hcons (pre ++ post)]
  have hswap : (shardLog M i pre ++ shardLog M i [w]).filter (fun v => v.key = k) =
      (shardLog M i [w] ++ shardLog M i pre).filter fun v => v.key = k := by
    by_cases hi : i = M.home w.key
    · subst hi
      rw [shardLog_singleton_self]
      refine WriteLog.filter_key_swap ?_ k
      intro v hv hkey
      obtain ⟨u, hu, rfl⟩ := List.mem_map.mp hv
      rw [WriteCommand.key_write, WriteCommand.key_write] at hkey
      rw [h u (List.mem_filter.mp hu).1 hkey]
    · rw [shardLog_singleton_of_ne hi, List.append_nil, List.nil_append]
  rw [hreorder, hreorder']
  apply WriteLog.standing_congr
  simp only [List.filter_append] at hswap ⊢
  rw [hswap]

theorem enqueue (S : Sound capacity s ws xs) {client : ℕ} {w : WriteCommand}
    (hnext : s.next? client = some w) (horder : s.InOrder (.enqueue client)) :
    ∃ ws', Sound capacity
      { s with queue := s.queue ++ [w.line], pending := s.before client ++ (s.rest client).tail }
      ws' xs := by
  have hpending := pending_eq hnext
  have hmem : ∀ v, v ∈ (s.before client ++ (s.rest client).tail).map Prod.snd →
      v ∈ s.pending.map Prod.snd := by
    intro v hv
    rw [hpending]
    simp only [List.map_append, List.mem_append, List.mem_cons] at hv ⊢
    tauto
  have hw : w ∈ s.pending.map Prod.snd := by
    rw [hpending]
    simp
  have hcond := horder w hnext
  rw [S.log_eq, S.maxKeys] at hcond
  refine ⟨ws ++ [w], ?_⟩
  constructor
  · exact S.maxKeys
  · exact S.rep
  · exact S.lasting
  · exact S.logged.enqueue (S.storable w hw)
  · exact fun v hv => S.storable v (hmem v hv)
  · intro v hv
    refine S.ttlFree v ?_
    simp only [List.mem_append, List.mem_singleton] at hv ⊢
    rcases hv with (hv | rfl) | hv
    · exact .inl hv
    · exact .inr hw
    · exact .inr (hmem v hv)
  · intro i hcap
    by_cases hi : i = M.home w.key
    · subst hi
      have hfit := (hcond hcap).2
      rw [shardLog_append, shardLog_singleton_self] at hfit ⊢
      exact WriteLog.replay_snoc_of_fits (S.fits _ hcap) hfit
    · rw [shardLog_append, shardLog_singleton_of_ne hi, List.append_nil]
      exact S.fits i hcap
  · intro hevict i hcap k
    rw [S.live hevict i hcap k, hpending, List.map_append]
    by_cases hi : i = M.home w.key
    · subst hi
      refine standing_enqueue ?_ _ k ws
      intro v hv hkey
      obtain ⟨x, hx, rfl⟩ := List.mem_map.mp hv
      exact (hcond hcap).1 x hx hkey
    · have hskip : ∀ l l' : List WriteCommand,
          shardLog M i (l ++ w :: l') = shardLog M i (l ++ l') := by
        intro l l'
        rw [List.append_cons, shardLog_append, shardLog_append, shardLog_singleton_of_ne hi]
        simp
      rw [← List.append_assoc, hskip, List.append_assoc ws [w], List.singleton_append, hskip,
        List.append_assoc]

/-- A step in order keeps the invariant. -/
theorem step (S : Sound capacity s ws xs) {a : WriterAction M} {s' : Writers M} (h : Step s a s')
    (horder : s.InOrder a) : ∃ ws' ys, Sound capacity s' ws' ys := by
  cases a with
  | update client w now =>
      simp only [Step, Writers.step] at h
      split at h
      · next hguard =>
        cases h
        exact ⟨ws, _, S.update horder hguard.1 client now⟩
      · cases h
  | enqueue client =>
      obtain ⟨w, hw, rfl⟩ := Option.map_eq_some_iff.mp h
      obtain ⟨ws', S'⟩ := S.enqueue hw horder
      exact ⟨ws', xs, S'⟩
  | flush =>
      cases h
      exact ⟨ws, xs, { S with logged := S.logged.flush }⟩
  | reap shard now =>
      cases h
      have hlive : liveRecords now (xs shard) = xs shard :=
        AList.filterEntries_eq_self fun k r hr => by simp [Record.expired, S.lasting shard k r hr]
      have R := S.rep.cleanupShard now shard
      have hevict := S.rep.evictions_cleanupShard now shard
      rw [hlive, Function.update_eq_self] at R
      exact ⟨ws, xs, { S with rep := R, live := fun h => S.live (hevict.symm.trans h) }⟩

/-- **When everything is written, the file replays to what the cache holds.** -/
theorem logAgrees (S : Sound capacity s ws xs) (hevict : s.cache.counters.evictions = 0)
    (hsettled : s.Settled) : s.LogAgrees := by
  intro clock now now' key
  obtain ⟨hpending, hqueue⟩ := hsettled
  have haof : readBack s.aof = ws := by
    have h := S.logged.readBack_eq
    rwa [hqueue, aofText_nil, List.append_nil] at h
  have hfree : ∀ w ∈ ws, w.ttl = none := fun w hw => S.ttlFree w (List.mem_append_left _ hw)
  rw [replayFile, haof, get_replayCommands _ hfree, S.rep.get_eq,
    bind_read_eq (fun r hr => S.lasting _ key r hr)]
  refine congrArg (Option.map Record.value) ?_
  by_cases hcap : capacityOf M.params capacity (M.home key) = 0
  · have hright := S.rep.card_le_capacityOf (M.home key)
    rw [S.maxKeys, hcap] at hright
    rw [S.maxKeys, hcap, AList.eq_empty_of_card_le hright,
      AList.eq_empty_of_card_le (WriteLog.card_replay_le (Nat.zero_le _) _)]
  · have hlive := S.live hevict (M.home key) hcap key
    rw [hpending, List.map_nil, List.append_nil, ← WriteLog.lookup_contents,
      ← S.fits (M.home key) hcap] at hlive
    rw [hlive, S.maxKeys]

end Sound

/-- **The log agrees with the cache** when all writes of a run are done, whatever the interleaving,
if nothing was evicted and each step was in order. -/
theorem logAgrees_of_inOrder {capacity : ℕ} {acts : List (WriterAction M)} {s : Writers M}
    (hrun : Transition.Run OrderedStep (init M capacity) acts s) (hsettled : s.Settled)
    (hevict : s.cache.counters.evictions = 0) : s.LogAgrees := by
  have hstep : ∀ (x : Writers M) a y, OrderedStep x a y →
      (∃ ws xs, Sound capacity x ws xs) → ∃ ws xs, Sound capacity y ws xs := by
    rintro x a y ⟨hxy, horder⟩ ⟨ws, xs, S⟩
    exact S.step hxy horder
  obtain ⟨ws, xs, S⟩ := hrun.invariant hstep ⟨[], _, Sound.init capacity⟩
  exact S.logAgrees hevict hsettled

/-! ## Clients that take turns

A client that puts its write into the queue before another one writes to the same shard is always
in order: what the log stands for is then what the shard held at some time. -/

/-- What a step has to respect so that the log has the writes to each shard in the order in which
they took effect. -/
def TakesTurns (s : Writers M) : WriterAction M → Prop
  | .update _ w _ => w.Storable
  | .enqueue client => ∀ w ∈ s.next? client, ∀ x ∈ s.before client, M.home x.2.key ≠ M.home w.key
  | _ => True

/-- The writes to a shard, the logged ones first. -/
def history (s : Writers M) (i : Fin M.params.numShards) : List (Write Bytes (Record Bytes)) :=
  shardLog M i (s.log ++ s.pending.map Prod.snd)

/-- What the writes to a shard stand for fits the shard at any point. -/
def Fits (s : Writers M) : Prop :=
  ∀ i, capacityOf M.params s.cache.maxKeys i ≠ 0 → ∀ l, l <+: s.history i →
    (WriteLog.contents l).card ≤ capacityOf M.params s.cache.maxKeys i

/-- A step takes no eviction back. -/
theorem evictions_le_step {s s' : Writers M} {a : WriterAction M}
    {xs : Fin M.params.numShards → RecencyList Bytes (Record Bytes)} (R : s.cache.Rep xs)
    (h : Step s a s') :
    s.cache.counters.evictions ≤ s'.cache.counters.evictions ∧ ∃ ys, s'.cache.Rep ys := by
  cases a with
  | update client w now =>
      simp only [Step, step] at h
      split at h
      · cases h
        exact ⟨R.evictions_le_applyWrite now w, _, R.applyWrite now w⟩
      · cases h
  | enqueue client =>
      obtain ⟨w, -, rfl⟩ := Option.map_eq_some_iff.mp h
      exact ⟨le_rfl, xs, R⟩
  | flush =>
      cases h
      exact ⟨le_rfl, xs, R⟩
  | reap shard now =>
      cases h
      exact ⟨(R.evictions_cleanupShard now shard).ge, _, R.cleanupShard now shard⟩

theorem fits_init (capacity : ℕ) : (init M capacity).Fits := by
  intro i _ l hl
  rw [List.eq_nil_of_prefix_nil hl]
  exact Nat.zero_le _

/-- If no pending write to its shard precedes it, a write is the first pending one of its shard. -/
theorem shardLog_pending {s : Writers M} {client : ℕ} {w : WriteCommand}
    (hnext : s.next? client = some w)
    (hturn : ∀ x ∈ s.before client, M.home x.2.key ≠ M.home w.key) (i : Fin M.params.numShards) :
    shardLog M i (s.pending.map Prod.snd) =
      shardLog M i [w] ++ shardLog M i ((s.before client ++ (s.rest client).tail).map Prod.snd) := by
  have hcons : ∀ l, shardLog M i (w :: l) = shardLog M i [w] ++ shardLog M i l :=
    fun l => shardLog_append i [w] l
  rw [pending_eq hnext, shardLog_append, hcons, List.map_append, shardLog_append]
  by_cases hi : i = M.home w.key
  · have hnone : shardLog M i ((s.before client).map Prod.snd) = [] := by
      rw [shardLog, List.map_eq_nil_iff, List.filter_eq_nil_iff]
      intro v hv
      obtain ⟨x, hx, rfl⟩ := List.mem_map.mp hv
      simpa [hi] using hturn x hx
    rw [hnone, List.nil_append, List.nil_append]
  · rw [shardLog_singleton_of_ne hi, List.nil_append, List.nil_append]

/-- A step that takes turns is in order. -/
theorem Fits.inOrder {s : Writers M} (hfits : s.Fits) {a : WriterAction M} (h : s.TakesTurns a) :
    s.InOrder a := by
  cases a with
  | update client w now => exact h
  | enqueue client =>
      intro w hw hcap
      have hturn := h w hw
      refine ⟨fun x hx hkey => absurd (congrArg M.home hkey) (hturn x hx), ?_⟩
      refine hfits _ hcap _ ?_
      rw [history, shardLog_append, shardLog_append, shardLog_pending hw hturn, ← List.append_assoc]
      exact List.prefix_append _ _
  | flush => trivial
  | reap shard now => trivial

namespace Sound
variable {capacity : ℕ} {s : Writers M} {ws : List WriteCommand}
  {xs : Fin M.params.numShards → RecencyList Bytes (Record Bytes)}

theorem log_enqueue (S : Sound capacity s ws xs) {client : ℕ} {w : WriteCommand}
    (hnext : s.next? client = some w) :
    readBack (s.aof ++ aofText (s.queue ++ [w.line])) = s.log ++ [w] := by
  have hw : w ∈ s.pending.map Prod.snd := by
    rw [pending_eq hnext]
    simp
  rw [S.log_eq]
  exact (S.logged.enqueue (S.storable w hw)).readBack_eq

/-- While nothing is evicted, all writes to a shard together stand for what it holds. -/
theorem card_history_le (S : Sound capacity s ws xs) (hevict : s.cache.counters.evictions = 0)
    (i : Fin M.params.numShards) (hcap : capacityOf M.params s.cache.maxKeys i ≠ 0) :
    (WriteLog.contents (s.history i)).card ≤ capacityOf M.params s.cache.maxKeys i := by
  have hlookup : ∀ k, (WriteLog.contents (s.history i)).lookup k = (xs i).lookup k := by
    intro k
    rw [S.maxKeys] at hcap
    rw [S.live hevict i hcap k, WriteLog.lookup_contents, history, S.log_eq]
  rw [AList.card_eq_of_lookup hlookup]
  exact S.rep.card_le_capacityOf i

/-- While nothing is evicted, steps that take turns keep what the writes stand for within the
shards. -/
theorem fits_step (S : Sound capacity s ws xs) (hfits : s.Fits) {a : WriterAction M}
    {s' : Writers M} (h : Step s a s') (hturn : s.TakesTurns a)
    (hevict : s'.cache.counters.evictions = 0) : s'.Fits := by
  cases a with
  | update client w now =>
      simp only [Step, Writers.step] at h
      split at h
      · next hguard =>
        cases h
        have S' := S.update hturn hguard.1 client now
        intro i hcap l hl
        have hwhole := S'.card_history_le hevict i hcap
        have hhistory : history
            { s with cache := applyWrite now w s.cache, pending := s.pending ++ [(client, w)] } i =
              s.history i ++ shardLog M i [w] := by
          simp [history, log]
        simp only [maxKeys_applyWrite] at hcap hwhole ⊢
        rw [hhistory] at hl hwhole
        by_cases hi : i = M.home w.key
        · subst hi
          -- a part of the writes is an old one, or all of them
          rw [shardLog_singleton_self] at hl hwhole
          rcases List.prefix_concat_iff.mp hl with rfl | hl
          · exact hwhole
          · exact hfits _ hcap l hl
        · rw [shardLog_singleton_of_ne hi, List.append_nil] at hl
          exact hfits i hcap l hl
      · cases h
  | enqueue client =>
      obtain ⟨w, hw, rfl⟩ := Option.map_eq_some_iff.mp h
      intro i hcap l hl
      refine hfits i hcap l ?_
      rw [history, shardLog_append, shardLog_pending hw (hturn w hw), ← List.append_assoc,
        ← shardLog_append, ← S.log_enqueue hw, ← shardLog_append]
      exact hl
  | flush =>
      cases h
      intro i hcap l hl
      refine hfits i hcap l ?_
      simpa [history, log] using hl
  | reap shard now =>
      cases h
      exact hfits

end Sound

/-- **Clients that take turns keep the log in agreement with the cache**, if nothing is evicted. -/
theorem logAgrees_of_takesTurns {capacity : ℕ} {acts : List (WriterAction M)} {s : Writers M}
    (hrun : Transition.Run (fun x a y => Step x a y ∧ x.TakesTurns a) (init M capacity) acts s)
    (hsettled : s.Settled) (hevict : s.cache.counters.evictions = 0) : s.LogAgrees := by
  have hstep : ∀ (x : Writers M) a y, Step x a y ∧ x.TakesTurns a →
      (∃ xs, x.cache.Rep xs) ∧ (x.cache.counters.evictions = 0 →
        ∃ ws xs, Sound capacity x ws xs ∧ x.Fits) →
      (∃ ys, y.cache.Rep ys) ∧ (y.cache.counters.evictions = 0 →
        ∃ ws ys, Sound capacity y ws ys ∧ y.Fits) := by
    rintro x a y ⟨hxy, hturn⟩ ⟨⟨xs, R⟩, hx⟩
    obtain ⟨hle, hrep⟩ := evictions_le_step R hxy
    refine ⟨hrep, ?_⟩
    intro hy
    obtain ⟨ws, xs, S, hfits⟩ := hx (Nat.le_zero.mp (hy ▸ hle))
    obtain ⟨ws', ys, S'⟩ := S.step hxy (hfits.inOrder hturn)
    exact ⟨ws', ys, S', S.fits_step hfits hxy hturn hy⟩
  obtain ⟨-, hsound⟩ := hrun.invariant hstep
    ⟨⟨_, ShardedCache.Rep.construct capacity⟩,
      fun _ => ⟨[], _, Sound.init capacity, fits_init capacity⟩⟩
  obtain ⟨ws, xs, S, -⟩ := hsound hevict
  exact S.logAgrees hevict hsettled

/-! ## Two clients -/

/-- Two writes that take effect one after the other and are put into the queue the other way
round. -/
def crossing (first second : WriteCommand) : List (WriterAction Platform.oneShard) :=
  [.update 0 first 0, .update 1 second 0, .enqueue 1, .enqueue 0, .flush]

/-- Writes to different keys may cross. -/
theorem logAgrees_of_inOrder_crossing :
    ∃ s, Transition.Run OrderedStep (init Platform.oneShard 128) (crossing
        (.set (ascii "a") (ascii "1") none) (.set (ascii "b") (ascii "2") none)) s ∧
      s.LogAgrees := by
  let acts := crossing (.set (ascii "a") (ascii "1") none) (.set (ascii "b") (ascii "2") none)
  let s := (Transition.exec stepInOrder acts (init Platform.oneShard 128)).get (by decide +kernel)
  have hrun : Transition.Run OrderedStep (init Platform.oneShard 128) acts s :=
    (Transition.run_of_exec (Option.some_get _).symm).mono fun _ _ _ h => orderedStep_of_eq h
  have hsettled : s.Settled := by constructor <;> decide +kernel
  have hevict : s.cache.counters.evictions = 0 := by decide +kernel
  exact ⟨s, hrun, logAgrees_of_inOrder hrun hsettled hevict⟩

/-- Writes to one key may not: the cache holds 2, and the replay gives 1. -/
theorem crossing_writes_swapped :
    ¬ ∀ (capacity : ℕ) (acts : List (WriterAction Platform.oneShard)) (s : Writers Platform.oneShard),
      Transition.Run Step (init Platform.oneShard capacity) acts s → s.Settled →
      s.cache.counters.evictions = 0 → s.LogAgrees := by
  intro h
  let acts := crossing (.set (ascii "k") (ascii "1") none) (.set (ascii "k") (ascii "2") none)
  let s := (Transition.exec step acts (init Platform.oneShard 128)).get (by decide +kernel)
  have hrun : Transition.Run Step (init Platform.oneShard 128) acts s :=
    Transition.run_of_exec (Option.some_get _).symm
  have hsettled : s.Settled := by constructor <;> decide +kernel
  have hevict : s.cache.counters.evictions = 0 := by decide +kernel
  have hread := h 128 acts s hrun hsettled hevict (fun _ => 0) 0 0 (ascii "k")
  have hlive : (s.cache.get (ascii "k") 0).1 = some (ascii "2") := by decide +kernel
  have hreplay : ((replayFile (fun _ => 0) s.aof (ShardedCache.construct Platform.oneShard.params
      s.cache.maxKeys)).get (ascii "k") 0).1 = some (ascii "1") := by decide +kernel
  rw [hreplay, hlive] at hread
  cases hread

end Writers
end MiniRedis
