import MiniRedis.Server.BrokenConnection

/-!
# All clients of the TCP server

`main` accepts connections and starts a thread for each, which runs `handle_client` on the one
processor. A command is two steps of its thread, between which other threads can come in: what it
does to the cache, and the rest, in which the line of a write is put into the queue and the response
is sent. A `send` may fail anywhere, and a client may hang up. `stats` is no such step: it reads one
counter after the other, also while another thread is in a critical section, and then locks one shard
after the other. Which numbers it finds is left open.

Whatever the order of the steps, the commands do to the cache what one thread would have done that
executes them one after another; each client gets the answers to its own commands, all of them and
in order as long as its connection holds, those to `STATS` with some numbers; and its writes are
queued in its order.
-/
namespace MiniRedis
variable {M : Platform}

/-- The thread of a client. -/
structure ClientThread where
  /-- Everything that has been received. No step depends on it. -/
  received : Bytes
  buffer : Bytes
  /-- The response to a command that is not answered yet, and the line that is to be queued. -/
  busy : Option (CommandResponse × Option Bytes)
  sent : Bytes
  alive : Bool
  /-- Every `send` has succeeded. No step depends on it. -/
  delivered : Bool

/-- Clients are named by their connections. -/
structure TcpServer (M : Platform) where
  server : Server M
  clients : ℕ → Option ClientThread
  /-- What has been done to the cache, in order, and for which client with which numbers for `STATS`.
  No step depends on it. -/
  history : List (Option (ℕ × CacheStats) × Instant × ServerAction M)
  /-- The lines that clients have put into the queue, in order. No step depends on it. -/
  recorded : List (ℕ × Bytes)

inductive TcpAction (M : Platform)
  /-- A client connects, and the first `taken` bytes of the greeting get through. -/
  | accept (c taken : ℕ)
  | receive (c : ℕ) (chunk : Chunk)
  /-- `recv` returns that the connection has ended. -/
  | hangUp (c : ℕ)
  /-- A line is taken off the buffer and, if it is a command, used on the cache. If it is `STATS`, then
  `seen` is what `stats` has put together. -/
  | execute (c : ℕ) (time : Instant) (seen : CacheStats)
  /-- A write is put into the queue and the response is sent. The first `taken` bytes get through. -/
  | respond (c taken : ℕ)
  /-- Another thread of the process does something. -/
  | background (time : Instant) (a : ServerAction M)

namespace ClientThread

/-- `send_all`, of which `taken` bytes get through. -/
def send (text : Bytes) (taken : ℕ) (σ : ClientThread) : ClientThread :=
  { σ with
    sent := σ.sent ++ text.take taken
    alive := σ.alive && decide (text.length ≤ taken)
    delivered := σ.delivered && decide (text.length ≤ taken) }

/-- The thread after its first `send`. -/
def greeted (taken : ℕ) : ClientThread := send greeting taken ⟨[], [], none, [], true, true⟩

/-- The thread is in `recv`. -/
def Receiving (σ : ClientThread) : Prop :=
  σ.alive = true ∧ σ.busy = none ∧ newline ∉ σ.buffer

instance (σ : ClientThread) : Decidable σ.Receiving :=
  inferInstanceAs (Decidable (_ ∧ _ = none ∧ _))

def receive (chunk : Bytes) (σ : ClientThread) : ClientThread :=
  { σ with received := σ.received ++ chunk, buffer := σ.buffer ++ chunk }

end ClientThread

/-- The line of the log that a command line stands for. -/
def logLine? (line : Bytes) : Option Bytes := (parseTcpCommand line).write?.map WriteCommand.line

/-- What `execute_line` answers, given the numbers that `stats` finds. -/
def Processor.answer (line : Bytes) (now : TimePoint) (seen : CacheStats) (p : Processor M) :
    CommandResponse :=
  if (parseTcpCommand line).type = .stats then { payload := statsPayload M seen }
  else (p.executeLine line now).1

namespace TcpServer

def setClient (c : ℕ) (σ : ClientThread) (s : TcpServer M) : TcpServer M :=
  { s with clients := Function.update s.clients c (some σ) }

/-- What `execute_line` does before it records the write. -/
def useCache (c : ℕ) (line : Bytes) (time : Instant) (seen : CacheStats) (s : TcpServer M) :
    CommandResponse × TcpServer M :=
  let r := s.server.processor.executeLine line time.now
  (s.server.processor.answer line time.now seen,
    { s with
      server := { s.server with processor := { s.server.processor with cache := r.2.cache } }
      history := s.history ++ [(some (c, seen), time, .command line)] })

/-- What `execute_line` does to record a write. -/
def record (c : ℕ) : Option Bytes → TcpServer M → TcpServer M
  | none, s => s
  | some line, s =>
      { s with
        server := { s.server with processor := s.server.processor.enqueueLine line }
        recorded := s.recorded ++ [(c, line)] }

/-- The next line of a client's buffer. -/
def executeNext (c : ℕ) (time : Instant) (seen : CacheStats) (σ : ClientThread)
    (s : TcpServer M) : Option (TcpServer M) :=
  (σ.buffer.idxOf? newline).map fun pos =>
    let line := sanitizeLine (σ.buffer.take pos)
    let σ := { σ with buffer := σ.buffer.drop (pos + 1) }
    if line.isEmpty then s.setClient c σ
    else
      let r := s.useCache c line time seen
      r.2.setClient c { σ with busy := some (r.1, logLine? line) }

/-- The end of a command. -/
def finish (c taken : ℕ) (response : CommandResponse) (line : Option Bytes) (σ : ClientThread)
    (s : TcpServer M) : TcpServer M :=
  let σ := σ.send (response.payload ++ [newline]) taken
  (s.record c line).setClient c { σ with busy := none, alive := σ.alive && !response.shouldExit }

/-- One step of one thread. -/
def step : TcpAction M → TcpServer M → Option (TcpServer M)
  | .accept c taken, s =>
      if s.clients c = none then some (s.setClient c (.greeted taken)) else none
  | .receive c chunk, s =>
      (s.clients c).bind fun σ =>
        if σ.Receiving then some (s.setClient c (σ.receive chunk.bytes)) else none
  | .hangUp c, s =>
      (s.clients c).bind fun σ =>
        if σ.Receiving then some (s.setClient c { σ with alive := false }) else none
  | .execute c time seen, s =>
      (s.clients c).bind fun σ =>
        if σ.alive = true ∧ σ.busy = none then s.executeNext c time seen σ else none
  | .respond c taken, s =>
      (s.clients c).bind fun σ =>
        σ.busy.map fun r => s.finish c taken r.1 r.2 σ
  | .background _ (.command _), _ => none
  | .background time a, s =>
      some { s with server := s.server.step time a, history := s.history ++ [(none, time, a)] }

/-- The server before the first client connects. -/
def opened (s : Server M) : TcpServer M := ⟨s, fun _ => none, [], []⟩

end TcpServer

/-! ## One thread instead -/

/-- What has been done to a cache, with the client for whom and the numbers that `stats` finds. -/
abbrev History (M : Platform) := List (Option (ℕ × CacheStats) × Instant × ServerAction M)

/-- One thread does it, and answers if it is the command of a client. -/
def Server.answer (x : Option (ℕ × CacheStats) × Instant × ServerAction M) (s : Server M) :
    Option CommandResponse × Server M :=
  (match x with
    | (some (_, seen), time, .command line) => some (s.processor.answer line time.now seen)
    | _ => none, s.step x.2.1 x.2.2)

namespace History

/-- The commands of a client. -/
def commandsOf (c : ℕ) (h : History M) : List Bytes :=
  h.filterMap fun x =>
    match x with
    | (some (c', _), _, .command line) => if c' = c then some line else none
    | _ => none

/-- The answers that one thread would have given to a client, with the numbers that its `STATS` have
found. -/
def answersTo (c : ℕ) (s : Server M) (h : History M) : List CommandResponse :=
  (h.zip (Transition.outputs Server.answer h s)).filterMap fun x =>
    if x.1.1.map Prod.fst = some c then x.2 else none

end History

/-- The lines that a client has put into the queue. -/
def linesOf (c : ℕ) (recorded : List (ℕ × Bytes)) : List Bytes :=
  (recorded.filter fun x => x.1 = c).map Prod.snd

/-- What a client is owed, given what one thread would have answered it. -/
structure ClientThread.Served (s₀ : Server M) (h : History M) (recorded : List (ℕ × Bytes)) (c : ℕ)
    (σ : ClientThread) : Prop where
  /-- Its commands are executed in its order, each once. -/
  commands : h.commandsOf c <+: commandLines σ.received
  /-- Nothing is left undone when the thread waits for the client, or has ended and the connection
  did not fail. -/
  complete : σ.delivered = true → (σ.Receiving ∨ σ.alive = false) →
    h.commandsOf c = commandLines σ.received
  /-- The complete lines that were sent are the greeting and its answers. The last one may be missing
  if the connection failed, and comes later if the thread is in a command. -/
  answers : ∃ done, h.answersTo c s₀ = done ++ (σ.busy.map Prod.fst).toList ∧
    Splitting.terminated newline σ.sent =
      if σ.delivered then greetingLine :: done.map CommandResponse.payload
      else (greetingLine :: done.map CommandResponse.payload).dropLast
  /-- Its writes are queued in its order. -/
  queued : linesOf c recorded ++ (σ.busy.bind Prod.snd).toList =
    (h.commandsOf c).filterMap logLine?

/-! ## What one thread does -/

namespace Server
variable {s s' : Server M}

/-- What a command does to the cache and what it answers depends on the cache alone. -/
theorem executeLine_congr {p q : Processor M} (h : p.cache = q.cache) (line : Bytes)
    (now : TimePoint) : (p.executeLine line now).1 = (q.executeLine line now).1 ∧
      (p.executeLine line now).2.cache = (q.executeLine line now).2.cache := by
  obtain ⟨cache, queue⟩ := p
  obtain ⟨cache', queue'⟩ := q
  obtain rfl : cache = cache' := h
  cases htype : (parseTcpCommand line).type with
  | set | get | del =>
      simp only [Processor.executeLine, htype, reduceCtorEq, if_false, Processor.executeParsed]
      exact ⟨rfl, rfl⟩
  | _ => simp [Processor.executeLine, Processor.executeParsed, htype]

theorem cache_step_congr (h : s.cache = s'.cache) (t : Instant) (a : ServerAction M) :
    (s.step t a).cache = (s'.step t a).cache := by
  cases a with
  | command line => exact (executeLine_congr h line t.now).2
  | flush | snapshot ord => exact h
  | reap shard => exact congrArg (ShardedCache.cleanupShard t.now shard) h

/-- What a command answers depends on the cache and the numbers it finds alone. -/
theorem answer_congr {p q : Processor M} (h : p.cache = q.cache) (line : Bytes) (now : TimePoint)
    (seen : CacheStats) : p.answer line now seen = q.answer line now seen := by
  unfold Processor.answer
  rw [(executeLine_congr h line now).1]

theorem shouldExit_answer (p : Processor M) (line : Bytes) (now : TimePoint) (seen : CacheStats) :
    (p.answer line now seen).shouldExit = true ↔ (parseTcpCommand line).type = .quit := by
  unfold Processor.answer
  split
  · next hstats => simp [hstats]
  · exact Processor.shouldExit_executeLine line now

theorem notMem_newline_answer {p : Processor M} (K : p.Kept)
    (hratio : ∀ hits total, newline ∉ M.showRatio hits total) (line : Bytes) (now : TimePoint)
    (seen : CacheStats) : newline ∉ (p.answer line now seen).payload := by
  unfold Processor.answer
  split
  · exact notMem_newline_statsPayload hratio seen
  · exact Processor.notMem_newline_payload K hratio line now

end Server

namespace History
variable {c : ℕ} {s₀ : Server M} {h : History M}

theorem final_answer (s₀ : Server M) (h : History M) :
    Transition.final Server.answer h s₀ = s₀.after (h.map Prod.snd) := by
  rw [Server.after, List.foldl_map]
  rfl

theorem answersTo_snoc (x : Option (ℕ × CacheStats) × Instant × ServerAction M) :
    answersTo c s₀ (h ++ [x]) = answersTo c s₀ h ++
      if x.1.map Prod.fst = some c then (Server.answer x (s₀.after (h.map Prod.snd))).1.toList else [] := by
  rw [answersTo, Transition.outputs_append, List.zip_append (by simp), List.filterMap_append,
    final_answer]
  congr 1
  by_cases hx : x.1.map Prod.fst = some c
  · cases hr : (Server.answer x (s₀.after (h.map Prod.snd))).1 <;>
      simp [Transition.outputs, hx, hr]
  · simp [Transition.outputs, hx]

end History

/-! ## One client -/

/-- The commands in a text that follows the buffer of a thread. -/
def ClientThread.owing (busy : Option (CommandResponse × Option Bytes)) (text : Bytes) :
    List Bytes :=
  if busy.any fun r => r.1.shouldExit then []
  else uptoQuit (((Splitting.terminated newline text).map sanitizeLine).filter fun l => !l.isEmpty)

/-- Where the thread of a client is, for whom `cmds` have been executed, whom one thread would have
given `answers`, and who has put `lines` into the queue. -/
structure ClientThread.Tracks (cmds : List Bytes) (answers : List CommandResponse)
    (lines : List Bytes) (σ : ClientThread) : Prop where
  /-- Whatever will be received, it goes on behind the commands that have been executed. -/
  ahead : σ.alive = true → ∀ more, commandLines (σ.received ++ more) =
    cmds ++ owing σ.busy (σ.buffer ++ more)
  initial : cmds <+: commandLines σ.received
  ended : σ.alive = false → σ.delivered = true → cmds = commandLines σ.received
  alive : σ.busy ≠ none → σ.alive = true
  delivered : σ.alive = true → σ.delivered = true
  answers : ∃ done, answers = done ++ (σ.busy.map Prod.fst).toList ∧
    Sent (greetingLine :: done.map CommandResponse.payload) (σ.sent.map some) σ.delivered
  queued : lines ++ (σ.busy.bind Prod.snd).toList = cmds.filterMap logLine?

/-- A text with a newline, of which a part gets through. -/
theorem Sent.take {texts : List Bytes} {sent : Bytes} (h : Sent texts (sent.map some) true)
    (text : Bytes) (taken : ℕ) :
    Sent (texts ++ [text]) ((sent ++ (text ++ [newline]).take taken).map some)
      (decide ((text ++ [newline]).length ≤ taken)) := by
  have hsent : sent = frames texts := by
    generalize hwire : sent.map some = wire at h
    cases h
    exact List.map_injective_iff.mpr (Option.some_injective _) hwire
  subst hsent
  by_cases hle : (text ++ [newline]).length ≤ taken
  · have hwhole : frames texts ++ (text ++ [newline]) = frames (texts ++ [text]) := by
      simp [frames]
    rw [List.take_of_length_le hle, decide_eq_true hle, hwhole]
    exact .whole _
  · rw [decide_eq_false hle]
    rw [List.length_append, List.length_singleton] at hle
    rw [List.take_append_of_le_length (by omega)]
    exact .part (List.take_prefix ..)

namespace ClientThread.Tracks
variable {cmds : List Bytes} {answers : List CommandResponse} {lines : List Bytes}
  {σ : ClientThread}

theorem greeted (taken : ℕ) : Tracks [] [] [] (greeted taken) where
  ahead := fun _ _ => rfl
  initial := List.nil_prefix
  ended := fun _ _ => rfl
  alive := fun h => absurd rfl h
  delivered := id
  answers := by
    have htext : greeting = greetingLine ++ [newline] := by decide +kernel
    refine ⟨[], rfl, ?_⟩
    simp only [ClientThread.greeted, send, htext, Bool.true_and]
    exact (Sent.whole []).take greetingLine taken
  queued := rfl

theorem receive (h : Tracks cmds answers lines σ) (hσ : σ.Receiving) (chunk : Bytes) :
    Tracks cmds answers lines (σ.receive chunk) := by
  have hmore : ∀ more, commandLines (σ.received ++ chunk ++ more) =
      cmds ++ owing σ.busy (σ.buffer ++ chunk ++ more) := by
    intro more
    rw [List.append_assoc, List.append_assoc]
    exact h.ahead hσ.1 (chunk ++ more)
  refine { h with ahead := fun _ => hmore, initial := ?_, ended := ?_ }
  · have hnow := hmore []
    rw [List.append_nil] at hnow
    exact ⟨_, hnow.symm⟩
  · intro hdead
    exact absurd (hσ.1.symm.trans hdead) (by simp)

theorem hangUp (h : Tracks cmds answers lines σ) (hσ : σ.Receiving) :
    Tracks cmds answers lines { σ with alive := false } := by
  obtain ⟨halive, hbusy, hbuffer⟩ := hσ
  have hnow := h.ahead halive []
  rw [List.append_nil, List.append_nil, hbusy, owing, Splitting.terminated_of_notMem hbuffer] at hnow
  refine { h with ahead := ?_, ended := ?_, alive := ?_, delivered := ?_ }
  · intro hdead
    cases hdead
  · intro _ _
    simpa [uptoQuit] using hnow.symm
  · exact fun hne => absurd hbusy hne
  · intro hdead
    cases hdead

/-- A line is taken off the buffer. -/
theorem owing_line {raw : Bytes} (hraw : newline ∉ raw) (text : Bytes) :
    owing none (raw ++ newline :: text) =
      if (sanitizeLine raw).isEmpty then owing none text
      else if (parseTcpCommand (sanitizeLine raw)).type = .quit then [sanitizeLine raw]
      else sanitizeLine raw :: owing none text := by
  simp only [owing, Option.any_none, Bool.false_eq_true, if_false,
    Splitting.terminated_append_eol hraw, List.map_cons]
  cases hline : (sanitizeLine raw).isEmpty with
  | true => rw [if_pos rfl, List.filter_cons_of_neg (by simp [hline])]
  | false => rw [if_neg (by simp), List.filter_cons_of_pos (by simp [hline]), uptoQuit]

/-- A blank line. -/
theorem blank (h : Tracks cmds answers lines σ) (hbusy : σ.busy = none)
    {raw rest : Bytes} (hraw : newline ∉ raw) (hbuffer : σ.buffer = raw ++ newline :: rest)
    (hline : (sanitizeLine raw).isEmpty = true) :
    Tracks cmds answers lines { σ with buffer := rest } := by
  refine { h with ahead := ?_ }
  intro halive more
  have hnow := h.ahead halive more
  rw [hbuffer, hbusy, List.append_assoc, List.cons_append, owing_line hraw, if_pos hline] at hnow
  rw [hnow, hbusy]

/-- A command is used on the cache. -/
theorem use (h : Tracks cmds answers lines σ) (halive : σ.alive = true) (hbusy : σ.busy = none)
    {raw rest : Bytes} (hraw : newline ∉ raw) (hbuffer : σ.buffer = raw ++ newline :: rest)
    (hline : (sanitizeLine raw).isEmpty = false) {response : CommandResponse}
    (hexit : response.shouldExit = true ↔ (parseTcpCommand (sanitizeLine raw)).type = .quit) :
    Tracks (cmds ++ [sanitizeLine raw]) (answers ++ [response]) lines
      { σ with buffer := rest, busy := some (response, logLine? (sanitizeLine raw)) } := by
  have hmore : ∀ more, commandLines (σ.received ++ more) = cmds ++ [sanitizeLine raw] ++
      owing (some (response, logLine? (sanitizeLine raw))) (rest ++ more) := by
    intro more
    have hnow := h.ahead halive more
    rw [hbuffer, hbusy, List.append_assoc, List.cons_append, owing_line hraw,
      if_neg (by simp [hline])] at hnow
    rw [hnow, List.append_assoc]
    by_cases hquit : (parseTcpCommand (sanitizeLine raw)).type = .quit
    · simp [owing, hexit.mpr hquit, hquit]
    · have hgo : response.shouldExit = false := by simpa [hquit] using hexit
      simp [owing, hgo, hquit]
  obtain ⟨done, hdone, hsent⟩ := h.answers
  have hqueued := h.queued
  rw [hbusy] at hdone hqueued
  refine ⟨fun _ => hmore, ?_, ?_, fun _ => halive, h.delivered, ⟨done, ?_, hsent⟩, ?_⟩
  · have hnow := hmore []
    rw [List.append_nil] at hnow
    exact ⟨_, hnow.symm⟩
  · intro hdead
    exact absurd (halive.symm.trans hdead) (by simp)
  · simp [hdone]
  · rw [List.filterMap_append, ← hqueued]
    cases hl : logLine? (sanitizeLine raw) <;> simp [hl]

/-- The write is queued and the response sent. -/
theorem respond (h : Tracks cmds answers lines σ) {response : CommandResponse}
    {line : Option Bytes} (hbusy : σ.busy = some (response, line)) (taken : ℕ) :
    Tracks cmds answers (lines ++ line.toList)
      { σ.send (response.payload ++ [newline]) taken with
        busy := none
        alive := (σ.send (response.payload ++ [newline]) taken).alive && !response.shouldExit } := by
  have halive : σ.alive = true := h.alive (by simp [hbusy])
  have hdelivered := h.delivered halive
  obtain ⟨done, hdone, hsent⟩ := h.answers
  have hqueued := h.queued
  rw [hbusy] at hdone hqueued
  rw [hdelivered] at hsent
  refine ⟨?_, h.initial, ?_, fun hne => absurd rfl hne, ?_, ⟨done ++ [response], ?_, ?_⟩, ?_⟩
  · intro hgo more
    have hexit : response.shouldExit = false := by
      simp only [Bool.and_eq_true, Bool.not_eq_true'] at hgo
      exact hgo.2
    have hnow := h.ahead halive more
    rw [hbusy] at hnow
    simpa [owing, hexit, send] using hnow
  · intro hdead hall
    simp only [send, halive, hdelivered, Bool.true_and, Bool.and_eq_false_iff] at hdead hall
    have hexit : response.shouldExit = true := by
      rcases hdead with hcut | hexit
      · cases hcut.symm.trans hall
      · simpa using hexit
    have hnow := h.ahead halive []
    rw [hbusy] at hnow
    simpa [owing, hexit, send] using hnow.symm
  · intro hgo
    simp only [send, halive, hdelivered, Bool.true_and, Bool.and_eq_true] at hgo ⊢
    exact hgo.1
  · simp [hdone]
  · have htake := hsent.take response.payload taken
    simpa [send, hdelivered] using htake
  · simpa using hqueued

end ClientThread.Tracks

/-! ## All clients -/

namespace TcpServer
variable {s₀ : Server M} {s s' : TcpServer M} {c : ℕ} {σ : ClientThread}

/-- What is known of client `c`. -/
def TracksClient (s₀ : Server M) (s : TcpServer M) (c : ℕ) (σ : ClientThread) : Prop :=
  σ.Tracks (History.commandsOf c s.history) (History.answersTo c s₀ s.history)
    (linesOf c s.recorded)

/-- Nothing has been done for `c`. -/
def Unused (s₀ : Server M) (s : TcpServer M) (c : ℕ) : Prop :=
  History.commandsOf c s.history = [] ∧ History.answersTo c s₀ s.history = [] ∧
    linesOf c s.recorded = []

/-- The cache is the one thread's, the log holds what was recorded, and every client is tracked. -/
structure Sound (s₀ : Server M) (s : TcpServer M) : Prop where
  cache : s.server.cache = (s₀.after (s.history.map Prod.snd)).cache
  log : s.server.aof ++ aofText s.server.processor.queue =
    s₀.aof ++ aofText (s₀.processor.queue ++ s.recorded.map Prod.snd)
  client : ∀ c σ, s.clients c = some σ → s.TracksClient s₀ c σ
  unused : ∀ c, s.clients c = none → s.Unused s₀ c

theorem Sound.opened (s₀ : Server M) : Sound s₀ (opened s₀) where
  cache := rfl
  log := by simp [TcpServer.opened]
  client := fun _ _ h => by cases h
  unused := fun _ _ => ⟨rfl, rfl, rfl⟩

/-- The other clients do not see the step of a client. -/
theorem Sound.of_client (S : Sound s₀ s) (hcache : s'.server.cache =
      (s₀.after (s'.history.map Prod.snd)).cache)
    (hlog : s'.server.aof ++ aofText s'.server.processor.queue =
      s₀.aof ++ aofText (s₀.processor.queue ++ s'.recorded.map Prod.snd))
    (hclients : s'.clients = Function.update s.clients c (some σ)) (hσ : s'.TracksClient s₀ c σ)
    (hothers : ∀ d, d ≠ c → History.commandsOf d s'.history = History.commandsOf d s.history ∧
      History.answersTo d s₀ s'.history = History.answersTo d s₀ s.history ∧
      linesOf d s'.recorded = linesOf d s.recorded) : Sound s₀ s' := by
  refine ⟨hcache, hlog, ?_, ?_⟩
  · intro d τ hd
    rw [hclients] at hd
    by_cases hdc : d = c
    · subst hdc
      rw [Function.update_self] at hd
      cases hd
      exact hσ
    · rw [Function.update_of_ne hdc] at hd
      have hτ := S.client d τ hd
      obtain ⟨hcmds, hanswers, hlines⟩ := hothers d hdc
      rwa [TracksClient, ← hcmds, ← hanswers, ← hlines] at hτ
  · intro d hd
    rw [hclients] at hd
    by_cases hdc : d = c
    · subst hdc
      rw [Function.update_self] at hd
      cases hd
    · rw [Function.update_of_ne hdc] at hd
      obtain ⟨hcmds, hanswers, hlines⟩ := hothers d hdc
      rw [Unused, hcmds, hanswers, hlines]
      exact S.unused d hd

/-- A step that concerns a client's thread alone. -/
theorem Sound.setClient (S : Sound s₀ s) (hσ : s.TracksClient s₀ c σ) :
    Sound s₀ (s.setClient c σ) :=
  S.of_client S.cache S.log rfl hσ fun _ _ => ⟨rfl, rfl, rfl⟩

theorem after_snoc (s₀ : Server M) (l : List (Instant × ServerAction M))
    (x : Instant × ServerAction M) : s₀.after (l ++ [x]) = (s₀.after l).step x.1 x.2 := by
  simp [Server.after]

/-- A command is used on the cache for a client whose thread tracks it. -/
theorem Sound.useCache (S : Sound s₀ s) (σ : ClientThread) (line : Bytes) (time : Instant)
    (seen : CacheStats)
    (hσ : ∀ response, (response.shouldExit = true ↔ (parseTcpCommand line).type = .quit) →
      ClientThread.Tracks (History.commandsOf c s.history ++ [line])
        (History.answersTo c s₀ s.history ++ [response]) (linesOf c s.recorded)
        { σ with busy := some (response, logLine? line) }) :
    Sound s₀ ((s.useCache c line time seen).2.setClient c
      { σ with busy := some ((s.useCache c line time seen).1, logLine? line) }) := by
  have hexecute := Server.executeLine_congr (p := s.server.processor)
    (q := (s₀.after (s.history.map Prod.snd)).processor) S.cache line time.now
  have hanswer := Server.answer_congr (p := s.server.processor)
    (q := (s₀.after (s.history.map Prod.snd)).processor) S.cache line time.now seen
  have hanswers : ∀ d, History.answersTo d s₀ (s.history ++ [(some (c, seen), time, .command line)]) =
      History.answersTo d s₀ s.history ++
        if d = c then [(s.useCache c line time seen).1] else [] := by
    intro d
    rw [History.answersTo_snoc]
    simp only [Option.map_some, Option.some.injEq, Server.answer, Option.toList_some,
      TcpServer.useCache, hanswer, eq_comm]
  refine S.of_client ?_ S.log rfl ?_ ?_
  · simp only [TcpServer.useCache, TcpServer.setClient, List.map_append, List.map_cons,
      List.map_nil, after_snoc]
    exact hexecute.2
  · have htracks := hσ _ (Server.shouldExit_answer s.server.processor line time.now seen)
    have hcmds : History.commandsOf c (s.history ++ [(some (c, seen), time, .command line)]) =
        History.commandsOf c s.history ++ [line] := by simp [History.commandsOf]
    simp only [TracksClient, TcpServer.setClient, TcpServer.useCache, hcmds]
    rw [hanswers c, if_pos rfl]
    exact htracks
  · intro d hd
    refine ⟨?_, ?_, rfl⟩
    · simp [TcpServer.setClient, TcpServer.useCache, History.commandsOf, hd.symm]
    · exact (hanswers d).trans (by simp [hd])

theorem Sound.executeNext (S : Sound s₀ s) (hc : s.clients c = some σ) (halive : σ.alive = true)
    (hbusy : σ.busy = none) {time : Instant} {seen : CacheStats}
    (h : s.executeNext c time seen σ = some s') : Sound s₀ s' := by
  obtain ⟨pos, hpos, rfl⟩ := Option.map_eq_some_iff.mp h
  obtain ⟨raw, rest, hbuffer, hraw, htake, hdrop⟩ := LineReader.exists_of_idxOf? hpos
  have hσ : s.TracksClient s₀ c σ := S.client c σ hc
  simp only [htake, hdrop]
  cases hline : (sanitizeLine raw).isEmpty with
  | true =>
      rw [if_pos rfl]
      exact S.setClient (hσ.blank hbusy hraw hbuffer hline)
  | false =>
      rw [if_neg (by simp)]
      exact S.useCache { σ with buffer := rest } (sanitizeLine raw) time seen
        fun response hexit => hσ.use halive hbusy hraw hbuffer hline hexit

theorem Sound.finish (S : Sound s₀ s) (hc : s.clients c = some σ) {response : CommandResponse}
    {line : Option Bytes} (hbusy : σ.busy = some (response, line)) (taken : ℕ) :
    Sound s₀ (s.finish c taken response line σ) := by
  have hσ := (S.client c σ hc).respond hbusy taken
  cases line with
  | none =>
      rw [Option.toList_none, List.append_nil] at hσ
      exact S.setClient hσ
  | some line =>
      have hlines : ∀ d, linesOf d (s.recorded ++ [(c, line)]) =
          linesOf d s.recorded ++ if d = c then [line] else [] := by
        intro d
        by_cases hd : d = c
        · simp [linesOf, hd]
        · simp [linesOf, hd, Ne.symm hd]
      refine S.of_client S.cache ?_ rfl ?_ fun d hd => ⟨rfl, rfl, (hlines d).trans (by simp [hd])⟩
      · have hlog := S.log
        simp only [TcpServer.finish, TcpServer.setClient, TcpServer.record, Processor.enqueueLine,
          List.map_append, List.map_cons, List.map_nil, aofText_append] at hlog ⊢
        rw [← List.append_assoc, hlog]
        simp
      · simp only [TracksClient, TcpServer.finish, TcpServer.setClient, TcpServer.record]
        rw [hlines c, if_pos rfl]
        exact hσ

theorem Sound.background (S : Sound s₀ s) (time : Instant) {a : ServerAction M}
    (ha : ∀ line, a ≠ .command line) :
    Sound s₀ { s with server := s.server.step time a, history := s.history ++ [(none, time, a)] } := by
  have hcmds : ∀ c, History.commandsOf c (s.history ++ [(none, time, a)]) =
      History.commandsOf c s.history := by
    intro c
    simp [History.commandsOf]
  have hanswers : ∀ c, History.answersTo c s₀ (s.history ++ [(none, time, a)]) =
      History.answersTo c s₀ s.history := by
    intro c
    rw [History.answersTo_snoc, if_neg (by simp), List.append_nil]
  refine ⟨?_, ?_, ?_, ?_⟩
  · rw [List.map_append, List.map_cons, List.map_nil, after_snoc]
    exact Server.cache_step_congr S.cache time a
  · have hlog := S.log
    cases a with
    | command line => exact absurd rfl (ha line)
    | flush => simpa [Server.step, Server.flush] using hlog
    | snapshot ord | reap shard => exact hlog
  · intro c σ hc
    rw [TracksClient, hcmds, hanswers]
    exact S.client c σ hc
  · intro c hc
    rw [Unused, hcmds, hanswers]
    exact S.unused c hc

theorem Sound.step (S : Sound s₀ s) {a : TcpAction M} (h : TcpServer.step a s = some s') :
    Sound s₀ s' := by
  cases a with
  | accept c taken =>
      simp only [TcpServer.step] at h
      split at h
      · next hc =>
        cases h
        obtain ⟨hcmds, hanswers, hlines⟩ := S.unused c hc
        refine S.setClient ?_
        rw [TracksClient, hcmds, hanswers, hlines]
        exact ClientThread.Tracks.greeted taken
      · cases h
  | receive c chunk =>
      obtain ⟨σ, hc, h⟩ := Option.bind_eq_some_iff.mp h
      split at h
      · next hσ =>
        cases h
        exact S.setClient ((S.client c σ hc).receive hσ chunk.bytes)
      · cases h
  | hangUp c =>
      obtain ⟨σ, hc, h⟩ := Option.bind_eq_some_iff.mp h
      split at h
      · next hσ =>
        cases h
        exact S.setClient ((S.client c σ hc).hangUp hσ)
      · cases h
  | execute c time seen =>
      obtain ⟨σ, hc, h⟩ := Option.bind_eq_some_iff.mp h
      split at h
      · next hσ => exact S.executeNext hc hσ.1 hσ.2 h
      · cases h
  | respond c taken =>
      obtain ⟨σ, hc, h⟩ := Option.bind_eq_some_iff.mp h
      obtain ⟨r, hbusy, rfl⟩ := Option.map_eq_some_iff.mp h
      exact S.finish hc hbusy taken
  | background time a =>
      cases a with
      | command line => cases h
      | flush | snapshot ord | reap shard =>
          cases h
          exact S.background time (by simp)

/-- What one thread answers is one line. -/
theorem notMem_newline_answersTo (K : s₀.processor.Kept)
    (hratio : ∀ hits total, newline ∉ M.showRatio hits total) (h : History M) (c : ℕ) :
    ∀ r ∈ h.answersTo c s₀, newline ∉ r.payload := by
  have hstep : ∀ x ∈ h, ∀ s : Server M, s.processor.Kept →
      (∀ r ∈ (Server.answer x s).1, newline ∉ r.payload) ∧ (Server.answer x s).2.processor.Kept := by
    intro x _ s K
    refine ⟨?_, Server.kept_step K x.2.1 x.2.2⟩
    intro r hr
    unfold Server.answer at hr
    split at hr
    · cases hr
      exact Server.notMem_newline_answer K hratio _ _ _
    · cases hr
  have hall := Transition.outputs_of_invariant (I := fun s : Server M => s.processor.Kept)
    (Q := fun _ o => ∀ r : CommandResponse, r ∈ o → newline ∉ r.payload) hstep K
  intro r hr
  obtain ⟨x, hx, hxr⟩ := List.mem_filterMap.mp hr
  split at hxr
  · exact hall.1 x hx r hxr
  · cases hxr

/-- **Many clients, one cache.** In every run of the threads, the commands and the background work do
to the cache what one thread would have done in the order of the history; the log holds the recorded
lines in their order; and each client gets what it would have got from that one thread, up to the
numbers in its answers to `STATS`. -/
theorem clients_served (hratio : ∀ hits total, newline ∉ M.showRatio hits total) (capacity : ℕ)
    (clock : RecoveryClock) (snapshot aof : Bytes) {as : List (TcpAction M)}
    (h : Transition.exec TcpServer.step as (opened (Server.start M capacity clock snapshot aof)) =
      some s) :
    s.server.cache =
        ((Server.start M capacity clock snapshot aof).after (s.history.map Prod.snd)).cache ∧
      s.server.aof ++ aofText s.server.processor.queue =
        aof ++ aofText (s.recorded.map Prod.snd) ∧
      ∀ c σ, s.clients c = some σ →
        σ.Served (Server.start M capacity clock snapshot aof) s.history s.recorded c := by
  have S : Sound (Server.start M capacity clock snapshot aof) s :=
    (Transition.run_of_exec h).invariant (fun _ _ _ hstep S => S.step hstep) (.opened _)
  refine ⟨S.cache, S.log, ?_⟩
  intro c σ hc
  have T : s.TracksClient (Server.start M capacity clock snapshot aof) c σ := S.client c σ hc
  obtain ⟨done, hdone, hsent⟩ := T.answers
  refine ⟨T.initial, ?_, ⟨done, hdone, ?_⟩, T.queued⟩
  · rintro hdelivered (⟨halive, hbusy, hbuffer⟩ | hdead)
    · have hnow := T.ahead halive []
      rw [List.append_nil, List.append_nil, hbusy, ClientThread.owing,
        Splitting.terminated_of_notMem hbuffer] at hnow
      simpa [uptoQuit] using hnow.symm
    · exact T.ended hdead hdelivered
  · have hanswers := notMem_newline_answersTo (Server.kept_start capacity clock snapshot aof) hratio
      s.history c
    obtain ⟨bytes, hbytes, hlines⟩ := hsent.received (by
      refine List.forall_mem_cons.mpr ⟨by decide +kernel, ?_⟩
      intro text htext
      obtain ⟨r, hr, rfl⟩ := List.mem_map.mp htext
      exact hanswers r (by simp [hdone, hr]))
    obtain rfl : σ.sent = bytes := List.map_injective_iff.mpr (Option.some_injective _) hbytes
    exact hlines

/-- One client reads what another has written before that one has its answer, and counts while others
write. The other's connection breaks. -/
def twoClients : List (TcpAction Platform.oneShard) :=
  [.accept 0 31, .accept 1 31, .receive 0 ⟨ascii "SET k 1\nGE", by decide, by decide⟩,
    .receive 1 ⟨ascii "GET k\nstats\nquit\n", by decide, by decide⟩,
    .execute 0 ⟨0, 0⟩ ⟨0, 0, 0, 0, 0, 0⟩, .execute 1 ⟨1, 1⟩ ⟨0, 0, 0, 0, 0, 0⟩,
    .background ⟨2, 2⟩ .flush, .respond 1 2, .respond 0 1, .execute 1 ⟨3, 3⟩ ⟨1, 0, 0, 0, 0, 1⟩,
    .respond 1 100, .execute 1 ⟨4, 4⟩ ⟨0, 0, 0, 0, 0, 0⟩, .respond 1 4]

theorem clients_served_twoClients :
    ∃ s : TcpServer Platform.oneShard,
      Transition.exec TcpServer.step twoClients
        (opened (Server.start Platform.oneShard 64 ⟨fun _ => 0, fun _ => 0⟩ [] [])) = some s ∧
      s.server.cache = ((Server.start Platform.oneShard 64 ⟨fun _ => 0, fun _ => 0⟩ [] []).after
        (s.history.map Prod.snd)).cache ∧
      s.server.aof ++ aofText s.server.processor.queue =
        [] ++ aofText (s.recorded.map Prod.snd) ∧
      ∀ c σ, s.clients c = some σ →
        σ.Served (Server.start Platform.oneShard 64 ⟨fun _ => 0, fun _ => 0⟩ [] []) s.history
          s.recorded c := by
  let s₀ : TcpServer Platform.oneShard :=
    opened (Server.start Platform.oneShard 64 ⟨fun _ => 0, fun _ => 0⟩ [] [])
  have hsome : (Transition.exec TcpServer.step twoClients s₀).isSome = true := by decide +kernel
  have hs : Transition.exec TcpServer.step twoClients s₀ = some _ := (Option.some_get hsome).symm
  exact ⟨_, hs, clients_served (fun _ _ => List.not_mem_nil) 64 _ [] [] hs⟩

end TcpServer
end MiniRedis
