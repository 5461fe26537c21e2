import MiniRedis.Cache.ShardedCache
import MiniRedis.Text.Command

/-!
# The log and the snapshot as texts

A write is logged as a line, a command that the parser of the TCP server reads. A snapshot is a
comment and a `SET` line for each live item. `replay_file` reads either file line by line, skips
blank lines and comments and obeys the `SET` and `DEL` lines among the rest.

The encoding puts blanks between the parts and does not quote them, so it is faithful for storable
keys and values (`replayLine_line`) and for no others (`storable_of_replayLine`).
-/
namespace MiniRedis

/-- A write to the cache, as it is logged and replayed. -/
inductive WriteCommand
  | set (key value : Bytes) (ttl : Option Millis)
  | del (key : Bytes)
  deriving DecidableEq, Repr

namespace WriteCommand

def key : WriteCommand → Bytes
  | set key _ _ => key
  | del key => key

def ttl : WriteCommand → Option Millis
  | set _ _ ttl => ttl
  | del _ => none

/-- The parts of the command are storable, and its ttl is a `long long` and not negative. -/
def Storable : WriteCommand → Prop
  | set key value ttl =>
      MiniRedis.Storable key ∧ MiniRedis.Storable value ∧ ∀ d ∈ ttl, 0 ≤ d ∧ d < 2 ^ 63
  | del key => MiniRedis.Storable key

instance : DecidablePred Storable
  | set key value ttl => inferInstanceAs (Decidable (MiniRedis.Storable key ∧
      MiniRedis.Storable value ∧ ∀ d ∈ ttl, 0 ≤ d ∧ d < 2 ^ 63))
  | del key => inferInstanceAs (Decidable (MiniRedis.Storable key))

end WriteCommand

/-! ## Writing -/

/-- A `SET` line, with the ttl at its end if there is one. -/
def setLine (key value : Bytes) (ttl : Option Millis) : Bytes :=
  let line := ascii "SET " ++ key ++ ascii " " ++ value
  match ttl with
  | some d => line ++ ascii " " ++ toString d
  | none => line

/-- The line `record_set` enqueues. -/
def recordSet (key value : Bytes) (ttl : Option Millis) : Bytes := setLine key value ttl

/-- The line `record_del` enqueues. -/
def recordDel (key : Bytes) : Bytes := ascii "DEL " ++ key

def WriteCommand.line : WriteCommand → Bytes
  | set key value ttl => recordSet key value ttl
  | del key => recordDel key

/-- What `aof_loop` appends to the file for a batch of lines. -/
def aofText (batch : List Bytes) : Bytes := batch.flatMap fun line => line ++ [newline]

/-- The line of an item in the snapshot file. -/
def snapshotLine (item : SnapshotItem Bytes Bytes) : Bytes :=
  setLine item.key item.value item.ttlRemaining

/-- The first line of the snapshot file. -/
def snapshotHeader (nowEpochMs : Millis) : Bytes :=
  ascii "# LLMC_RDB_V1 " ++ toString nowEpochMs

/-- `write_snapshot_file`: the text of the file. -/
def snapshotText (nowEpochMs : Millis) (items : List (SnapshotItem Bytes Bytes)) : Bytes :=
  aofText (snapshotHeader nowEpochMs :: items.map snapshotLine)

/-! ## Reading back -/

def isCommentOrEmpty (line : Bytes) : Bool :=
  match tcpTrim line with
  | [] => true
  | b :: _ => b == 35

/-- The write that a parsed command is, if it is one. -/
def ParsedTcpCommand.write? (parsed : ParsedTcpCommand) : Option WriteCommand :=
  match parsed.type with
  | .set => some (.set parsed.key parsed.value parsed.ttlMs)
  | .del => some (.del parsed.key)
  | _ => none

/-- What `replay_file` makes of a line. -/
def replayLine (line : Bytes) : Option WriteCommand :=
  if isCommentOrEmpty line then none else (parseTcpCommand line).write?

/-- The commands that `replay_file` reads from a file. -/
def readBack (text : Bytes) : List WriteCommand :=
  (Splitting.lines newline text).filterMap replayLine

@[simp] theorem aofText_nil : aofText [] = [] := rfl
@[simp] theorem aofText_append (ls ms : List Bytes) :
    aofText (ls ++ ms) = aofText ls ++ aofText ms := List.flatMap_append
@[simp] theorem readBack_nil : readBack [] = [] := rfl

/-- A line that begins with a letter is neither blank nor a comment. -/
theorem isCommentOrEmpty_cons {b : UInt8} (hb : isspace b = false) (hne : b ≠ 35) (l : Bytes) :
    isCommentOrEmpty (b :: l) = false := by
  obtain ⟨m, hm⟩ := Splitting.trim_cons hb l
  have htrim : tcpTrim (b :: l) = b :: m := hm
  simp [isCommentOrEmpty, htrim, hne]

theorem storable_toString {d : Millis} (hd : 0 ≤ d) : Storable (toString d) :=
  ⟨toString_ne_nil hd, fun _ hb => isspace_of_isdigit (isdigit_of_mem_toString hd hb)⟩

theorem notMem_newline {s : Bytes} (h : Storable s) : newline ∉ s := by
  intro hmem
  have := h.2 newline hmem
  cases this

/-! ## A storable command is read back -/

theorem setLine_none (key value : Bytes) :
    setLine key value none = ascii "SET" ++ 32 :: (key ++ 32 :: value) := by
  have hblank : ' '.toUInt8 = 32 := rfl
  simp [setLine, ascii, hblank]

theorem setLine_some (key value : Bytes) (d : Millis) :
    setLine key value (some d) =
      ascii "SET" ++ 32 :: (key ++ 32 :: (value ++ 32 :: toString d)) := by
  have hblank : ' '.toUInt8 = 32 := rfl
  simp [setLine, ascii, hblank]

theorem words_setLine_none {key value : Bytes} (hk : Storable key) (hv : Storable value) :
    tcpSplitWs (setLine key value none) = [ascii "SET", key, value] := by
  have hset : Storable (ascii "SET") := by decide +kernel
  rw [setLine_none, tcpSplitWs_append_space hset, tcpSplitWs_append_space hk, words_of_storable hv]

theorem words_setLine_some {key value : Bytes} (hk : Storable key) (hv : Storable value)
    {d : Millis} (hd : 0 ≤ d) :
    tcpSplitWs (setLine key value (some d)) = [ascii "SET", key, value, toString d] := by
  have hset : Storable (ascii "SET") := by decide +kernel
  rw [setLine_some, tcpSplitWs_append_space hset, tcpSplitWs_append_space hk,
    tcpSplitWs_append_space hv, words_of_storable (storable_toString hd)]

theorem parseTcpCommand_setLine {key value : Bytes} {ttl : Option Millis} (hk : Storable key)
    (hv : Storable value) (httl : ∀ d ∈ ttl, 0 ≤ d ∧ d < 2 ^ 63) :
    parseTcpCommand (setLine key value ttl) =
      { type := .set, key := key, value := value, ttlMs := ttl } := by
  cases ttl with
  | none =>
      rw [parseTcpCommand_of_words (words_setLine_none hk hv)]
      rfl
  | some d =>
      obtain ⟨hd, hlt⟩ := httl d rfl
      have hread := stoll_toString hd hlt
      have hbad : ¬ ((toString d).length ≠ (toString d).length ∨ d < 0) := by simpa using hd
      rw [parseTcpCommand_of_words (words_setLine_some hk hv hd)]
      change parseSet [key, value, toString d] = _
      simp only [parseSet, hread, hbad, if_false]

theorem words_recordDel {key : Bytes} (hk : Storable key) :
    tcpSplitWs (recordDel key) = [ascii "DEL", key] := by
  have hdel : Storable (ascii "DEL") := by decide +kernel
  change tcpSplitWs (ascii "DEL" ++ 32 :: key) = _
  rw [tcpSplitWs_append_space hdel, words_of_storable hk]

theorem parseTcpCommand_recordDel {key : Bytes} (hk : Storable key) :
    parseTcpCommand (recordDel key) = { type := .del, key := key } := by
  rw [parseTcpCommand_of_words (words_recordDel hk)]
  rfl

theorem replayLine_setLine {key value : Bytes} {ttl : Option Millis} (hk : Storable key)
    (hv : Storable value) (httl : ∀ d ∈ ttl, 0 ≤ d ∧ d < 2 ^ 63) :
    replayLine (setLine key value ttl) = some (.set key value ttl) := by
  have hcomment : isCommentOrEmpty (setLine key value ttl) = false := by
    cases ttl <;> exact isCommentOrEmpty_cons (b := 83) rfl (by decide) _
  simp only [replayLine, hcomment, parseTcpCommand_setLine hk hv httl,
    ParsedTcpCommand.write?, Bool.false_eq_true, if_false]

/-- **A storable command is read back from its line.** -/
theorem replayLine_line {w : WriteCommand} (h : w.Storable) : replayLine w.line = some w := by
  cases w with
  | set key value ttl => exact replayLine_setLine h.1 h.2.1 h.2.2
  | del key =>
      have hcomment : isCommentOrEmpty (recordDel key) = false :=
        isCommentOrEmpty_cons (b := 68) rfl (by decide) _
      simp only [WriteCommand.line, replayLine, hcomment, parseTcpCommand_recordDel h,
        ParsedTcpCommand.write?, Bool.false_eq_true, if_false]

/-- The line of a storable command is a single line. -/
theorem notMem_newline_line {w : WriteCommand} (h : w.Storable) : newline ∉ w.line := by
  cases w with
  | set key value ttl =>
      have hk := notMem_newline h.1
      have hv := notMem_newline h.2.1
      have hset : newline ∉ ascii "SET" := by decide
      have hblank : newline ≠ 32 := by decide
      cases ttl with
      | none => simp [WriteCommand.line, recordSet, setLine_none, hk, hv, hset, hblank]
      | some d =>
          have hd := notMem_newline (storable_toString (h.2.2 d rfl).1)
          simp [WriteCommand.line, recordSet, setLine_some, hk, hv, hd, hset, hblank]
  | del key =>
      have hk := notMem_newline h
      have hdel : newline ∉ ascii "DEL " := by decide
      simp [WriteCommand.line, recordDel, hk, hdel]

theorem filterMap_replayLine {ws : List WriteCommand} (h : ∀ w ∈ ws, w.Storable) :
    (ws.map WriteCommand.line).filterMap replayLine = ws := by
  rw [List.filterMap_map]
  exact (List.filterMap_congr fun w hw => replayLine_line (h w hw)).trans (List.filterMap_some ..)

/-- **A log of storable commands is read back.** -/
theorem readBack_aofText {ws : List WriteCommand} (h : ∀ w ∈ ws, w.Storable) (rest : Bytes) :
    readBack (aofText (ws.map WriteCommand.line) ++ rest) = ws ++ readBack rest := by
  have hlines : ∀ l ∈ ws.map WriteCommand.line, newline ∉ l := by
    intro l hl
    obtain ⟨w, hw, rfl⟩ := List.mem_map.mp hl
    exact notMem_newline_line (h w hw)
  rw [readBack, aofText, Splitting.lines_flatMap hlines, List.filterMap_append,
    filterMap_replayLine h]
  rfl

/-! ## The snapshot is read back -/

/-- The command that restores an item. -/
def SnapshotItem.command (item : SnapshotItem Bytes Bytes) : WriteCommand :=
  .set item.key item.value item.ttlRemaining

theorem replayLine_snapshotHeader (nowEpochMs : Millis) :
    replayLine (snapshotHeader nowEpochMs) = none := by
  obtain ⟨m, htrim⟩ : ∃ m, tcpTrim (snapshotHeader nowEpochMs) = 35 :: m :=
    Splitting.trim_cons rfl _
  simp [replayLine, isCommentOrEmpty, htrim]

theorem notMem_newline_snapshotHeader (nowEpochMs : Millis) :
    newline ∉ snapshotHeader nowEpochMs := by
  have hlit : newline ∉ ascii "# LLMC_RDB_V1 " := by decide
  have hnum : newline ∉ toString nowEpochMs := by
    intro hmem
    have := isspace_of_mem_toString hmem
    cases this
  simp [snapshotHeader, hlit, hnum]

/-- **A snapshot of storable items is read back** as one `SET` for each of them. -/
theorem readBack_snapshotText {items : List (SnapshotItem Bytes Bytes)}
    (h : ∀ item ∈ items, item.command.Storable) (nowEpochMs : Millis) :
    readBack (snapshotText nowEpochMs items) = items.map SnapshotItem.command := by
  have hlines : items.map snapshotLine =
      (items.map SnapshotItem.command).map WriteCommand.line := by
    rw [List.map_map]
    rfl
  have hitems : ∀ w ∈ items.map SnapshotItem.command, w.Storable := by
    intro w hw
    obtain ⟨item, hitem, rfl⟩ := List.mem_map.mp hw
    exact h item hitem
  have hrest := readBack_aofText hitems []
  simp only [List.append_nil, readBack_nil] at hrest
  rw [snapshotText, aofText, List.flatMap_cons, List.append_assoc, List.singleton_append,
    readBack, Splitting.lines_append_eol (notMem_newline_snapshotHeader nowEpochMs),
    List.filterMap_cons, replayLine_snapshotHeader, hlines]
  exact hrest

/-! ## Nothing else is -/

/-- **What a line is parsed to is storable.** -/
theorem storable_of_write? {line : Bytes} {w : WriteCommand}
    (h : (parseTcpCommand line).write? = some w) : w.Storable := by
  unfold ParsedTcpCommand.write? at h
  split at h
  · next hset =>
    cases h
    exact storable_of_set hset
  · next hdel =>
    cases h
    exact storable_of_del hdel
  · cases h

theorem storable_of_replayLine {line : Bytes} {w : WriteCommand} (h : replayLine line = some w) :
    w.Storable := by
  unfold replayLine at h
  split at h
  · cases h
  · exact storable_of_write? h

theorem storable_of_mem_readBack {text : Bytes} {w : WriteCommand} (h : w ∈ readBack text) :
    w.Storable := by
  obtain ⟨line, -, hline⟩ := List.mem_filterMap.mp h
  exact storable_of_replayLine hline

end MiniRedis
