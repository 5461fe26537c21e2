import MiniRedis.Lib.LineReader
import MiniRedis.Persistence.Recovery

/-!
# A client of the TCP server

`handle_client` greets a client, receives its bytes in chunks, and answers each line that is not
blank with a line of its own until one of them is a `QUIT`. Other threads use the same processor in
the meantime. How the network cuts the bytes into chunks cannot be seen: what is executed and what
is sent depend on the lines of the whole stream only.
-/
namespace MiniRedis
variable {M : Platform}

/-- The filter of `sanitize_line`. -/
def printable (c : UInt8) : Bool :=
  !(c == 0) && !(c == 13) && ((32 ≤ c && c ≤ 126) || c == 9 || c == 32)

def sanitizeLine (raw : Bytes) : Bytes := tcpTrim (raw.filter printable)

def greeting : Bytes := ascii "OK mini-redis tcp server ready\n"

/-- What a successful `recv` returns. -/
structure Chunk where
  bytes : Bytes
  nonempty : 0 < bytes.length
  fits : bytes.length ≤ 1024

/-- What happens around a command: the actions of other threads since the last one, and the time. -/
structure Turn (M : Platform) where
  others : List (Instant × ServerAction M)
  time : Instant

namespace Server

/-- The server after some actions. -/
def after (acts : List (Instant × ServerAction M)) (s : Server M) : Server M :=
  acts.foldl (fun s x => s.step x.1 x.2) s

/-- One command of a client, and the actions before it. -/
def executeAt (turn : Turn M) (line : Bytes) (s : Server M) : CommandResponse × Server M :=
  let s := s.after turn.others
  let r := s.processor.executeLine line turn.time.now
  (r.1, { s with processor := r.2 })

/-- Commands of a client from the `n`th on: the payloads of the responses and the server after them. -/
def respond (turns : ℕ → Turn M) : ℕ → List Bytes → Server M → List Bytes × Server M
  | _, [], s => ([], s)
  | n, line :: lines, s =>
      let r := s.executeAt (turns n) line
      let rest := respond turns (n + 1) lines r.2
      (r.1.payload :: rest.1, rest.2)

end Server

/-- The state of `handle_client`. -/
structure ClientHandler (M : Platform) where
  server : Server M
  sent : Bytes
  alive : Bool
  /-- The lines passed to `execute_line`. Nothing but the count of turns depends on them. -/
  executed : List Bytes

namespace ClientHandler

/-- What happens with a line that was cut off the buffer. -/
def handleLine (turns : ℕ → Turn M) (raw : Bytes) (s : ClientHandler M) : ClientHandler M :=
  let line := sanitizeLine raw
  if line.isEmpty then s
  else
    let r := s.server.executeAt (turns s.executed.length) line
    { server := r.2
      sent := s.sent ++ (r.1.payload ++ [newline])
      alive := !r.1.shouldExit
      executed := s.executed ++ [line] }

/-- `handle_client`, when every `send` succeeds. After the chunks the connection is closed. -/
def handleClient (turns : ℕ → Turn M) (chunks : List Chunk) (server : Server M) : ClientHandler M :=
  LineReader.receive newline alive (handleLine turns) (chunks.map Chunk.bytes) []
    ⟨server, greeting, true, []⟩

end ClientHandler

/-! ## What a client is owed -/

/-- Lines up to the first one that parses to `QUIT` or `EXIT`. -/
def uptoQuit : List Bytes → List Bytes
  | [] => []
  | line :: lines =>
      if (parseTcpCommand line).type = .quit then [line] else line :: uptoQuit lines

/-- The commands in a stream: what is left of its complete lines, blank ones apart, up to the first
`QUIT`. -/
def commandLines (stream : Bytes) : List Bytes :=
  uptoQuit (((Splitting.terminated newline stream).map sanitizeLine).filter fun l => !l.isEmpty)

/-- The handler has executed the commands of the stream and no others, and has sent the greeting and
a line for each command. -/
structure Framed (turns : ℕ → Turn M) (stream : Bytes) (s : Server M) (h : ClientHandler M) :
    Prop where
  executed : h.executed = commandLines stream
  server : h.server = (s.respond turns 0 (commandLines stream)).2
  sent : h.sent = greeting ++
    (s.respond turns 0 (commandLines stream)).1.flatMap fun payload => payload ++ [newline]
  answered : (s.respond turns 0 (commandLines stream)).1.length = (commandLines stream).length
  oneLine : ∀ payload ∈ (s.respond turns 0 (commandLines stream)).1, newline ∉ payload

/-! ## Responses are one line long -/

/-- The texts of the parser's errors. -/
def parserErrors : List Bytes :=
  [[], ascii "empty command", ascii "PING takes no arguments", ascii "STATS takes no arguments",
    ascii "usage: GET <key>", ascii "usage: DEL <key>", ascii "usage: SET <key> <value> [ttl_ms]",
    ascii "ttl_ms must be an integer", ascii "ttl_ms must be a non-negative integer",
    ascii "unknown command"]

theorem error_parseSet (args : List Bytes) : (parseSet args).error ∈ parserErrors := by
  unfold parseSet
  split
  · exact List.mem_cons_self
  · split
    · simp [parserErrors]
    · split <;> simp [parserErrors]
  · simp [parserErrors, ParsedTcpCommand.rejected]

theorem error_parseWords (name : Bytes) (args : List Bytes) :
    (parseWords name args).error ∈ parserErrors := by
  unfold parseWords
  dsimp only
  repeat' split
  all_goals first
    | exact error_parseSet args
    | simp [parserErrors, ParsedTcpCommand.rejected]

theorem error_parseTcpCommand (line : Bytes) : (parseTcpCommand line).error ∈ parserErrors := by
  cases hw : tcpSplitWs line with
  | nil =>
      rw [parseTcpCommand_of_no_words hw]
      simp [parserErrors, ParsedTcpCommand.rejected]
  | cons name args =>
      rw [parseTcpCommand_of_words hw]
      exact error_parseWords name args

theorem notMem_newline_toString (i : ℤ) : newline ∉ toString i := by
  intro h
  cases isspace_of_mem_toString h

theorem notMem_newline_statsPayload (hratio : ∀ hits total, newline ∉ M.showRatio hits total)
    (s : CacheStats) : newline ∉ Processor.statsPayload M s := by
  have htexts : ∀ text ∈ [ascii "hits=", ascii " misses=", ascii " hit_ratio=", ascii " evictions=",
      ascii " expirations=", ascii " active_keys=", ascii " memory_bytes="], newline ∉ text := by
    decide +kernel
  simp only [List.forall_mem_cons] at htexts
  simp only [Processor.statsPayload, List.mem_append, not_or, notMem_newline_toString, hratio,
    not_false_eq_true, and_true]
  simp [htexts]

/-- Every stored value was accepted by the parser. -/
def Processor.Kept (p : Processor M) : Prop :=
  ∃ xs, p.cache.Rep xs ∧ ∀ i k r, (xs i).lookup k = some r → Storable r.value

namespace Processor
variable {p : Processor M}

/-- A response is one line. -/
theorem notMem_newline_payload (K : p.Kept) (hratio : ∀ hits total, newline ∉ M.showRatio hits total)
    (line : Bytes) (now : TimePoint) : newline ∉ (p.executeLine line now).1.payload := by
  have htexts : ∀ text ∈ [ascii "ERR ", ascii "PONG", helpPayload, ascii "BYE", ascii "OK",
      ascii "ERR set failed", ascii "(nil)", ascii "1", ascii "0", ascii "ERR unknown command"],
      newline ∉ text := by
    decide +kernel
  have herrors : ∀ text ∈ parserErrors, newline ∉ text := by decide +kernel
  simp only [List.forall_mem_cons] at htexts
  obtain ⟨herr, hpong, hhelp, hbye, hok, hfailed, hnil, hone, hzero, hunknown, -⟩ := htexts
  cases htype : (parseTcpCommand line).type with
  | invalid =>
      simp only [executeLine, htype, if_true, List.mem_append, not_or]
      exact ⟨herr, herrors _ (error_parseTcpCommand line)⟩
  | get =>
      simp only [executeLine, htype, reduceCtorEq, if_false, executeParsed]
      obtain ⟨xs, R, hstorable⟩ := K
      cases hget : (p.get (parseTcpCommand line).key now).1 with
      | none => exact hnil
      | some value =>
          have hread := R.get_eq (parseTcpCommand line).key now
          change (p.cache.get _ now).1 = _ at hget
          rw [hget] at hread
          obtain ⟨r, hr, hvalue⟩ := Option.bind_eq_some_iff.mp hread.symm
          unfold Record.read at hvalue
          split at hvalue
          · cases hvalue
          · cases hvalue
            exact notMem_newline (hstorable _ _ r hr)
  | stats =>
      simp only [executeLine, htype, reduceCtorEq, if_false, executeParsed]
      exact notMem_newline_statsPayload hratio _
  | set | del =>
      simp only [executeLine, htype, reduceCtorEq, if_false, executeParsed]
      split <;> assumption
  | ping =>
      simp only [executeLine, htype, reduceCtorEq, if_false, executeParsed]
      exact hpong
  | help =>
      simp only [executeLine, htype, reduceCtorEq, if_false, executeParsed]
      exact hhelp
  | quit =>
      simp only [executeLine, htype, reduceCtorEq, if_false, executeParsed]
      exact hbye

/-- A line is the last one if it parses to `QUIT`. -/
theorem shouldExit_executeLine (line : Bytes) (now : TimePoint) :
    (p.executeLine line now).1.shouldExit = true ↔ (parseTcpCommand line).type = .quit := by
  cases htype : (parseTcpCommand line).type <;> simp [executeLine, htype, executeParsed]

theorem Kept.applyWrite (K : p.Kept) {w : WriteCommand} (hw : w.Storable) (now : TimePoint)
    (queue : List Bytes) : Kept ⟨applyWrite now w p.cache, queue⟩ := by
  obtain ⟨xs, R, hstorable⟩ := K
  refine ⟨_, R.applyWrite now w, ?_⟩
  intro i k r hr
  by_cases hi : i = M.home w.key
  · subst hi
    rw [Function.update_self] at hr
    rcases Write.lookup_apply hr with hput | ⟨-, hprev⟩
    · cases w with
      | del key => cases hput
      | set key value ttl =>
          cases hput
          exact hw.2.1
    · exact hstorable _ k r hprev
  · rw [Function.update_of_ne hi] at hr
    exact hstorable i k r hr

theorem Kept.replayCommands {ws : List (TimePoint × WriteCommand)} (h : ∀ x ∈ ws, x.2.Storable)
    {c : ShardedCache M.params} {queue : List Bytes} (K : Kept ⟨c, queue⟩) :
    Kept ⟨MiniRedis.replayCommands ws c, queue⟩ := by
  induction ws generalizing c with
  | nil => exact K
  | cons x ws ih =>
      obtain ⟨hx, hws⟩ := List.forall_mem_cons.mp h
      exact ih hws (K.applyWrite hx x.1 queue)

theorem Kept.executeLine (K : p.Kept) (line : Bytes) (now : TimePoint) :
    (p.executeLine line now).2.Kept := by
  cases hw : (parseTcpCommand line).write? with
  | some w =>
      rw [executeLine_of_write hw]
      exact K.applyWrite (storable_of_write? hw) now _
  | none =>
      rcases executeLine_of_read p now hw with heq | ⟨key, heq⟩
      · rwa [heq]
      · rw [heq]
        obtain ⟨xs, R, hstorable⟩ := K
        refine ⟨_, R.get key now, fun i k r hr => hstorable i k r ?_⟩
        exact lookup_of_update (fun k r => lookup_of_lookedUp) i k r hr

end Processor

namespace Server
variable {s : Server M}

theorem kept_start (capacity : ℕ) (clock : RecoveryClock) (snapshot aof : Bytes) :
    (Server.start M capacity clock snapshot aof).processor.Kept := by
  have K : Processor.Kept (⟨ShardedCache.construct M.params capacity, []⟩ : Processor M) :=
    ⟨_, ShardedCache.Rep.construct capacity, fun _ _ _ h => by cases h⟩
  have htimed : ∀ (clock : ℕ → TimePoint) (text : Bytes), ∀ x ∈ timed clock (readBack text),
      x.2.Storable := by
    intro clock text x hx
    have hmem := List.mem_map_of_mem (f := Prod.snd) hx
    rw [map_snd_timed] at hmem
    exact storable_of_mem_readBack hmem
  exact (K.replayCommands (htimed clock.snapshot snapshot)).replayCommands (htimed clock.aof aof)

theorem kept_step (K : s.processor.Kept) (t : Instant) (a : ServerAction M) :
    (s.step t a).processor.Kept := by
  cases a with
  | command line => exact K.executeLine line t.now
  | flush => exact K
  | snapshot ord => exact K
  | reap shard =>
      obtain ⟨xs, R, hstorable⟩ := K
      refine ⟨_, R.cleanupShard t.now shard, fun i k r hr => hstorable i k r ?_⟩
      exact lookup_of_update (fun k r => lookup_of_liveRecords) i k r hr

theorem kept_after (K : s.processor.Kept) (acts : List (Instant × ServerAction M)) :
    (s.after acts).processor.Kept := by
  induction acts generalizing s with
  | nil => exact K
  | cons x acts ih => exact ih (kept_step K x.1 x.2)

theorem length_respond (turns : ℕ → Turn M) (n : ℕ) (lines : List Bytes) (s : Server M) :
    (s.respond turns n lines).1.length = lines.length := by
  induction lines generalizing n s with
  | nil => rfl
  | cons line lines ih => exact congrArg Nat.succ (ih (n + 1) _)

theorem notMem_newline_respond (K : s.processor.Kept)
    (hratio : ∀ hits total, newline ∉ M.showRatio hits total) (turns : ℕ → Turn M) (n : ℕ)
    (lines : List Bytes) : ∀ payload ∈ (s.respond turns n lines).1, newline ∉ payload := by
  induction lines generalizing n s with
  | nil => simp [respond]
  | cons line lines ih =>
      have K' := kept_after K (turns n).others
      intro payload hmem
      rcases List.mem_cons.mp hmem with rfl | hmem
      · exact Processor.notMem_newline_payload K' hratio line _
      · exact ih (s := (s.executeAt (turns n) line).2) (K'.executeLine line _) (n + 1) payload hmem

end Server

/-! ## The handler -/

namespace ClientHandler

/-- Commands have been executed and answered in turn. -/
structure Answered (turns : ℕ → Turn M) (cmds : List Bytes) (h h' : ClientHandler M) : Prop where
  executed : h'.executed = h.executed ++ cmds
  server : h'.server = (h.server.respond turns h.executed.length cmds).2
  sent : h'.sent = h.sent ++
    (h.server.respond turns h.executed.length cmds).1.flatMap fun payload => payload ++ [newline]

section Handling
variable (turns : ℕ → Turn M) {raw : Bytes} (h : ClientHandler M)

theorem handleLine_of_blank (hblank : (sanitizeLine raw).isEmpty = true) :
    handleLine turns raw h = h := by
  simp only [handleLine, hblank, if_true]

theorem answered_handleLine (hline : (sanitizeLine raw).isEmpty = false) :
    Answered turns [sanitizeLine raw] h (handleLine turns raw h) ∧
      ((handleLine turns raw h).alive = true ↔ (parseTcpCommand (sanitizeLine raw)).type ≠ .quit) := by
  have hexit := Processor.shouldExit_executeLine
    (p := (h.server.after (turns h.executed.length).others).processor) (sanitizeLine raw)
    (turns h.executed.length).time.now
  simp only [handleLine, hline, Bool.false_eq_true, if_false]
  refine ⟨⟨rfl, rfl, by simp [Server.respond]⟩, ?_⟩
  rw [Bool.not_eq_true', ← Bool.not_eq_true, ne_eq, ← hexit]
  rfl

theorem Answered.trans {turns : ℕ → Turn M} {h h' h'' : ClientHandler M} {line : Bytes}
    {cmds : List Bytes} (A : Answered turns [line] h h') (A' : Answered turns cmds h' h'') :
    Answered turns (line :: cmds) h h'' := by
  have hcount : h'.executed.length = h.executed.length + 1 := by simp [A.executed]
  have hserver : h'.server = (h.server.executeAt (turns h.executed.length) line).2 := A.server
  refine ⟨?_, ?_, ?_⟩
  · rw [A'.executed, A.executed, List.append_assoc]
    rfl
  · rw [A'.server, hcount, hserver]
    rfl
  · rw [A'.sent, A.sent, hcount, hserver]
    simp [Server.respond]

/-- What is served of lines: their commands up to the first `QUIT`. -/
theorem answered_serve (lines : List Bytes) (halive : h.alive = true) :
    Answered turns (uptoQuit ((lines.map sanitizeLine).filter fun l => !l.isEmpty)) h
      (LineReader.serve alive (handleLine turns) lines h) := by
  induction lines generalizing h with
  | nil => exact ⟨(List.append_nil _).symm, rfl, (List.append_nil _).symm⟩
  | cons raw lines ih =>
      rw [LineReader.serve, List.map_cons]
      cases hline : (sanitizeLine raw).isEmpty with
      | true =>
          rw [handleLine_of_blank turns h hline, if_pos halive,
            List.filter_cons_of_neg (by simp [hline])]
          exact ih h halive
      | false =>
          obtain ⟨A, hnext⟩ := answered_handleLine turns h hline
          rw [List.filter_cons_of_pos (by simp [hline]), uptoQuit]
          by_cases hquit : (parseTcpCommand (sanitizeLine raw)).type = .quit
          · have hdead : ¬ (handleLine turns raw h).alive = true := fun hl => hnext.mp hl hquit
            rw [if_neg hdead, if_pos hquit]
            exact A
          · rw [if_pos (hnext.mpr hquit), if_neg hquit]
            exact A.trans (ih _ (hnext.mpr hquit))

end Handling

/-- **The chunks do not matter**, and each command is answered by a line. -/
theorem framed_handleClient (hratio : ∀ hits total, newline ∉ M.showRatio hits total) (capacity : ℕ)
    (clock : RecoveryClock) (snapshot aof : Bytes) (acts : List (Instant × ServerAction M))
    (turns : ℕ → Turn M) (chunks : List Chunk) :
    Framed turns (chunks.flatMap Chunk.bytes) ((Server.start M capacity clock snapshot aof).after acts)
      (handleClient turns chunks ((Server.start M capacity clock snapshot aof).after acts)) := by
  generalize hs : (Server.start M capacity clock snapshot aof).after acts = s
  have K : s.processor.Kept := hs ▸ Server.kept_after (Server.kept_start _ _ _ _) acts
  have A := answered_serve turns ⟨s, greeting, true, []⟩
    (Splitting.terminated newline (chunks.flatMap Chunk.bytes)) rfl
  have heq : handleClient turns chunks s = LineReader.serve alive (handleLine turns)
      (Splitting.terminated newline (chunks.flatMap Chunk.bytes)) ⟨s, greeting, true, []⟩ := by
    rw [handleClient, LineReader.receive_eq _ (by simp) rfl]
    rfl
  rw [heq]
  exact ⟨A.executed, A.server, A.sent, Server.length_respond _ _ _ _,
    Server.notMem_newline_respond K hratio turns 0 _⟩

/-- A stream of two chunks, cut inside a command, with lines after the `QUIT`. -/
def twoChunks : List Chunk :=
  [⟨ascii "SET k v\nGE", by decide, by decide⟩, ⟨ascii "T k\n\r\nquit\nPING\nPI", by decide, by decide⟩]

theorem framed_handleClient_twoChunks :
    Framed (fun _ => ⟨[], ⟨0, 0⟩⟩) (twoChunks.flatMap Chunk.bytes)
      ((Server.start Platform.oneShard 64 ⟨fun _ => 0, fun _ => 0⟩ [] []).after [])
      (handleClient (fun _ => ⟨[], ⟨0, 0⟩⟩) twoChunks
        ((Server.start Platform.oneShard 64 ⟨fun _ => 0, fun _ => 0⟩ [] []).after [])) :=
  framed_handleClient (fun _ _ => List.not_mem_nil) 64 _ [] [] [] _ twoChunks

example : commandLines (twoChunks.flatMap Chunk.bytes) =
    [ascii "SET k v", ascii "GET k", ascii "quit"] := by decide +kernel

end ClientHandler
end MiniRedis
