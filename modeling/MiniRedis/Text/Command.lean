import MiniRedis.Text.Bytes

/-!
# The command parser

`parse_tcp_command`: trim the line, cut it into words, and read the first word as a command name in
either case. What the parser hands on as a key or a value is a word of the line, so it is not empty
and holds no whitespace (`Storable`).
-/
namespace MiniRedis

inductive TcpCommandType
  | set
  | get
  | del
  | stats
  | ping
  | quit
  | help
  | invalid
  deriving DecidableEq, Repr

structure ParsedTcpCommand where
  type : TcpCommandType := .invalid
  key : Bytes := []
  value : Bytes := []
  ttlMs : Option ℤ := none
  error : Bytes := []
  deriving DecidableEq, Repr

/-- The answer to a line that is not a command. -/
def ParsedTcpCommand.rejected (error : String) : ParsedTcpCommand := { error := ascii error }

/-- The arguments of `SET`. -/
def parseSet : List Bytes → ParsedTcpCommand
  | [key, value] => { type := .set, key := key, value := value }
  | [key, value, ttl] =>
      match stoll ttl with
      | none => { key := key, value := value, error := ascii "ttl_ms must be an integer" }
      | some (n, pos) =>
          if pos ≠ ttl.length ∨ n < 0 then
            { key := key, value := value, error := ascii "ttl_ms must be a non-negative integer" }
          else { type := .set, key := key, value := value, ttlMs := some n }
  | _ => .rejected "usage: SET <key> <value> [ttl_ms]"

/-- The words of a command, the first of which is its name. -/
def parseWords (name : Bytes) (args : List Bytes) : ParsedTcpCommand :=
  let cmd := tcpUpper name
  if cmd = ascii "PING" then
    if args.isEmpty then { type := .ping } else .rejected "PING takes no arguments"
  else if cmd = ascii "HELP" then { type := .help }
  else if cmd = ascii "QUIT" ∨ cmd = ascii "EXIT" then { type := .quit }
  else if cmd = ascii "STATS" then
    if args.isEmpty then { type := .stats } else .rejected "STATS takes no arguments"
  else if cmd = ascii "GET" then
    match args with
    | [key] => { type := .get, key := key }
    | _ => .rejected "usage: GET <key>"
  else if cmd = ascii "DEL" then
    match args with
    | [key] => { type := .del, key := key }
    | _ => .rejected "usage: DEL <key>"
  else if cmd = ascii "SET" then parseSet args
  else .rejected "unknown command"

def parseTcpCommand (rawLine : Bytes) : ParsedTcpCommand :=
  let line := tcpTrim rawLine
  if line.isEmpty then .rejected "empty command"
  else
    match tcpSplitWs line with
    | [] => .rejected "empty command"
    | name :: args => parseWords name args

/-- Not empty and free of whitespace. -/
def Storable (s : Bytes) : Prop := s ≠ [] ∧ ∀ b ∈ s, isspace b = false

instance (s : Bytes) : Decidable (Storable s) :=
  have : Decidable (∀ b ∈ s, isspace b = false) := List.decidableBAll _ s
  inferInstanceAs (Decidable (s ≠ [] ∧ ∀ b ∈ s, isspace b = false))

theorem storable_of_mem {line word : Bytes} (h : word ∈ tcpSplitWs line) : Storable word :=
  Splitting.mem_words h

theorem tcpSplitWs_tcpTrim (line : Bytes) : tcpSplitWs (tcpTrim line) = tcpSplitWs line :=
  Splitting.words_trim line

theorem words_of_storable {s : Bytes} (h : Storable s) : tcpSplitWs s = [s] :=
  (Splitting.words_of_forall h.2).trans (Splitting.emit_of_ne_nil h.1)

/-- A word, a blank and the rest of the line. -/
theorem tcpSplitWs_append_space {s : Bytes} (h : Storable s) (rest : Bytes) :
    tcpSplitWs (s ++ 32 :: rest) = s :: tcpSplitWs rest := by
  have hcut : tcpSplitWs (s ++ 32 :: rest) = tcpSplitWs s ++ tcpSplitWs rest :=
    Splitting.words_append_sep rfl s rest
  rw [hcut, words_of_storable h]
  rfl

/-- **A line with words parses by its words**; whitespace around and between them is nothing. -/
theorem parseTcpCommand_of_words {line name : Bytes} {args : List Bytes}
    (h : tcpSplitWs line = name :: args) : parseTcpCommand line = parseWords name args := by
  have hne : (tcpTrim line).isEmpty = false := by
    cases ht : tcpTrim line with
    | nil =>
        have hw := tcpSplitWs_tcpTrim line
        rw [ht, h] at hw
        cases hw
    | cons b l => rfl
  simp [parseTcpCommand, hne, tcpSplitWs_tcpTrim, h]

/-- The arguments of an accepted `SET` are the key, the value and perhaps a ttl. -/
theorem args_of_parseSet {args : List Bytes} (h : (parseSet args).type = .set) :
    args = [(parseSet args).key, (parseSet args).value] ∧ (parseSet args).ttlMs = none ∨
      ∃ ttl, args = [(parseSet args).key, (parseSet args).value, ttl] := by
  unfold parseSet at h ⊢
  cases args with
  | nil => cases h
  | cons key args =>
    cases args with
    | nil => cases h
    | cons value args =>
      cases args with
      | nil => exact .inl ⟨rfl, rfl⟩
      | cons ttl args =>
        cases args with
        | cons w args => cases h
        | nil =>
          right
          refine ⟨ttl, ?_⟩
          dsimp only
          split
          · rfl
          · split <;> rfl

/-- What `SET` reads are two of its arguments. -/
theorem mem_of_parseSet {args : List Bytes} (h : (parseSet args).type = .set) :
    (parseSet args).key ∈ args ∧ (parseSet args).value ∈ args := by
  have hmem : ∀ rest, args = (parseSet args).key :: (parseSet args).value :: rest →
      (parseSet args).key ∈ args ∧ (parseSet args).value ∈ args := by
    intro rest heq
    generalize (parseSet args).key = key at heq ⊢
    generalize (parseSet args).value = value at heq ⊢
    simp [heq]
  rcases args_of_parseSet h with ⟨heq, -⟩ | ⟨ttl, heq⟩
  · exact hmem _ heq
  · exact hmem _ heq

/-- A ttl that `SET` reads is a `long long` and not negative. -/
theorem ttl_of_parseSet {args : List Bytes} {d : ℤ} (hd : d ∈ (parseSet args).ttlMs) :
    0 ≤ d ∧ d < 2 ^ 63 := by
  unfold parseSet at hd
  split at hd
  · cases hd
  · next key value ttl =>
    cases hread : stoll ttl with
    | none =>
        rw [hread] at hd
        cases hd
    | some r =>
        obtain ⟨n, pos⟩ := r
        have hlt := stoll_lt hread
        rw [hread] at hd
        dsimp only at hd
        split at hd
        · cases hd
        · next hok =>
          cases hd
          omega
  · cases hd

/-- A command whose type is `set` is a well-formed `SET`. -/
theorem parseWords_of_set {name : Bytes} {args : List Bytes}
    (h : (parseWords name args).type = .set) : parseWords name args = parseSet args := by
  unfold parseWords at h ⊢
  dsimp only at h ⊢
  repeat' split at h
  all_goals first
    | cases h
    | simp_all

theorem type_parseSet_ne_del (args : List Bytes) : (parseSet args).type ≠ .del := by
  unfold parseSet
  split
  · simp
  · split
    · simp
    · split <;> simp
  · simp [ParsedTcpCommand.rejected]

/-- The key that an accepted `DEL` reads is its argument. -/
theorem mem_of_parseWords_del {name : Bytes} {args : List Bytes}
    (h : (parseWords name args).type = .del) : (parseWords name args).key ∈ args := by
  unfold parseWords at h ⊢
  dsimp only at h ⊢
  repeat' split at h
  all_goals first
    | exact absurd h (type_parseSet_ne_del args)
    | simp_all [ParsedTcpCommand.rejected]

/-- A line without words is rejected. -/
theorem parseTcpCommand_of_no_words {line : Bytes} (h : tcpSplitWs line = []) :
    parseTcpCommand line = .rejected "empty command" := by
  simp [parseTcpCommand, tcpSplitWs_tcpTrim, h]

/-- What an accepted `SET` hands on. -/
theorem storable_of_set {line : Bytes} (h : (parseTcpCommand line).type = .set) :
    Storable (parseTcpCommand line).key ∧ Storable (parseTcpCommand line).value ∧
      ∀ d ∈ (parseTcpCommand line).ttlMs, 0 ≤ d ∧ d < 2 ^ 63 := by
  cases hw : tcpSplitWs line with
  | nil =>
      rw [parseTcpCommand_of_no_words hw] at h
      cases h
  | cons name args =>
      rw [parseTcpCommand_of_words hw] at h ⊢
      have hset := parseWords_of_set h
      rw [hset] at h ⊢
      have hmem : ∀ w ∈ args, Storable w := fun w hmem =>
        storable_of_mem (by rw [hw]; exact List.mem_cons_of_mem _ hmem)
      obtain ⟨hkey, hvalue⟩ := mem_of_parseSet h
      exact ⟨hmem _ hkey, hmem _ hvalue, fun d hd => ttl_of_parseSet hd⟩

/-- What an accepted `DEL` hands on. -/
theorem storable_of_del {line : Bytes} (h : (parseTcpCommand line).type = .del) :
    Storable (parseTcpCommand line).key := by
  cases hw : tcpSplitWs line with
  | nil =>
      rw [parseTcpCommand_of_no_words hw] at h
      cases h
  | cons name args =>
      rw [parseTcpCommand_of_words hw] at h ⊢
      have hmem := mem_of_parseWords_del h
      exact storable_of_mem (by rw [hw]; exact List.mem_cons_of_mem _ hmem)

end MiniRedis
