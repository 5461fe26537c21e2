import MiniRedis.Persistence.RejectedWrite
import MiniRedis.Server.TcpServer
import MiniRedis.Text.Grammar

/-!
# The two ways of a line to the processor

A line typed at the command line, or sent to `/cmd`, is executed as it is. The TCP server executes
what `sanitize_line` leaves of it, and that drops every byte from 128 on. The two agree on lines of
ASCII. On others they agree only if the bytes that are dropped do not count: behind `HELP`, `QUIT` or
`EXIT`, or where the line is rejected for the same reason with and without them. Two keys that differ
in such bytes are one key over TCP.
-/
namespace MiniRedis
variable {M : Platform}

/-- A line without newline and without ASCII control bytes; tabs are allowed. -/
def ClientLine (line : Bytes) : Prop := ∀ b ∈ line, b = 9 ∨ (32 ≤ b ∧ b ≠ 127)

instance (line : Bytes) : Decidable (ClientLine line) := List.decidableBAll _ line

/-- The bytes of ASCII. -/
def IsAscii (s : Bytes) : Prop := ∀ b ∈ s, b < 128

instance (s : Bytes) : Decidable (IsAscii s) := List.decidableBAll _ s

/-- The bytes of ASCII in a string. -/
def asciiOnly (s : Bytes) : Bytes := s.filter (· < 128)

/-- Whether a line goes through `sanitize_line` cannot be seen: in any state the processor answers
the same and is left in the same state. -/
def PathsAgree (M : Platform) (line : Bytes) : Prop :=
  ∀ (capacity : ℕ) (p : Processor M), p.Reachable capacity → ∀ now,
    p.executeLine (sanitizeLine line) now = p.executeLine line now

/-- The bytes from 128 on in a line do not matter. -/
def HighBytesIgnored (line : Bytes) : Prop :=
  IsAscii line ∨ (parseTcpCommand line).type = .help ∨ (parseTcpCommand line).type = .quit ∨
    ((parseTcpCommand line).type = .invalid ∧ (parseTcpCommand (asciiOnly line)).type = .invalid ∧
      (parseTcpCommand (asciiOnly line)).error = (parseTcpCommand line).error)

/-! ## What is left of a line -/

theorem lt_of_isspace {b : UInt8} (h : isspace b = true) : b < 128 := by
  simp only [isspace] at h
  grind

theorem parseTcpCommand_congr {line line' : Bytes} (h : tcpSplitWs line = tcpSplitWs line') :
    parseTcpCommand line = parseTcpCommand line' := by
  cases hw : tcpSplitWs line' with
  | nil => rw [parseTcpCommand_of_no_words hw, parseTcpCommand_of_no_words (h.trans hw)]
  | cons name args => rw [parseTcpCommand_of_words hw, parseTcpCommand_of_words (h.trans hw)]

/-- Of a client's line `sanitize_line` drops the bytes from 128 on. -/
theorem parse_sanitizeLine {line : Bytes} (h : ClientLine line) :
    parseTcpCommand (sanitizeLine line) = parseTcpCommand (asciiOnly line) := by
  have hfilter : line.filter printable = asciiOnly line := by
    refine List.filter_congr fun b hb => ?_
    have hb := h b hb
    simp only [printable]
    grind
  rw [sanitizeLine, hfilter]
  exact parseTcpCommand_congr (tcpSplitWs_tcpTrim _)

theorem words_asciiOnly (line : Bytes) :
    tcpSplitWs (asciiOnly line) =
      (tcpSplitWs line).flatMap fun w => Splitting.emit (asciiOnly w) :=
  Splitting.words_filter fun b _ hb => by simpa using lt_of_isspace hb

theorem asciiOnly_of_isAscii {s : Bytes} (h : IsAscii s) : asciiOnly s = s :=
  List.filter_eq_self.mpr fun b hb => by simpa using h b hb

theorem isAscii_asciiOnly (s : Bytes) : IsAscii (asciiOnly s) := fun b hb => by
  simpa using (List.mem_filter.mp hb).2

/-- A line is ASCII if its words are. -/
theorem isAscii_of_words {line : Bytes} (h : ∀ w ∈ tcpSplitWs line, IsAscii w) : IsAscii line := by
  intro b hb
  by_cases hspace : isspace b = true
  · exact lt_of_isspace hspace
  · have hmem : b ∈ (tcpSplitWs line).flatten := by
      rw [tcpSplitWs, Splitting.flatten_words]
      exact List.mem_filter.mpr ⟨hb, by simpa using hspace⟩
    obtain ⟨w, hw, hbw⟩ := List.mem_flatten.mp hmem
    exact h w hw b hbw

theorem isAscii_of_mem_words {line w : Bytes} (h : IsAscii line) (hw : w ∈ tcpSplitWs line) :
    IsAscii w := by
  intro b hb
  have hmem : b ∈ (tcpSplitWs line).flatten := List.mem_flatten.mpr ⟨w, hw, hb⟩
  rw [tcpSplitWs, Splitting.flatten_words] at hmem
  exact h b (List.mem_filter.mp hmem).1

/-! ## Commands without high bytes -/

theorem isAscii_of_named {word : Bytes} {name : String} (hname : name ∈ commandNames)
    (h : Named word name) : IsAscii word := by
  intro b hb
  have hmem : toupper b ∈ ascii name := by
    rw [← (tcpUpper_of_named hname).mp h]
    exact List.mem_map_of_mem hb
  have hletter := letters_of_mem_commandNames name hname _ hmem
  simp only [toupper] at hletter
  grind

theorem isAscii_of_ttlText {word : Bytes} {n : ℤ} (h : TtlText word n) : IsAscii word := by
  obtain ⟨sign, neg, digits, rfl, hsign, -, hdigits, -⟩ := h
  intro b hb
  cases List.mem_append.mp hb with
  | inl hb =>
      have hsigns : IsAscii [] ∧ IsAscii (ascii "+") ∧ IsAscii (ascii "-") := by decide
      cases hsign with
      | absent => exact hsigns.1 b hb
      | plus => exact hsigns.2.1 b hb
      | minus => exact hsigns.2.2 b hb
  | inr hb =>
      have hdigit := hdigits b hb
      simp only [isdigit] at hdigit
      grind

/-- What a command of ASCII words hands on is ASCII. -/
theorem isAscii_of_grammar {ws : List Bytes} {cmd : ParsedTcpCommand} (h : Grammar ws cmd)
    (hws : ∀ w ∈ ws, IsAscii w) : IsAscii cmd.key ∧ IsAscii cmd.value := by
  have hnil : IsAscii [] := by simp [IsAscii]
  cases h <;> simp_all

/-- A command that takes no other arguments than its key and value is ASCII if these are. -/
theorem isAscii_words_of_grammar {ws : List Bytes} {cmd : ParsedTcpCommand} (h : Grammar ws cmd)
    (hhelp : cmd.type ≠ .help) (hquit : cmd.type ≠ .quit) (hkey : IsAscii cmd.key)
    (hvalue : IsAscii cmd.value) : ∀ w ∈ ws, IsAscii w := by
  cases h with
  | help | quit => contradiction
  | ping hname => simpa using isAscii_of_named (by decide) hname
  | stats hname => simpa using isAscii_of_named (by decide) hname
  | get hname => simpa using ⟨isAscii_of_named (by decide) hname, hkey⟩
  | del hname => simpa using ⟨isAscii_of_named (by decide) hname, hkey⟩
  | set hname => simpa using ⟨isAscii_of_named (by decide) hname, hkey, hvalue⟩
  | setTtl hname _ _ httl =>
      simpa using ⟨isAscii_of_named (by decide) hname, hkey, hvalue, isAscii_of_ttlText httl⟩

/-- The name of a command stays what it is. -/
theorem words_asciiOnly_of_named {line name : Bytes} {args : List Bytes} {s : String}
    (hs : s ∈ commandNames) (hname : Named name s) (hw : tcpSplitWs line = name :: args) :
    ∃ args', tcpSplitWs (asciiOnly line) = name :: args' := by
  have hmem : name ∈ tcpSplitWs line := by
    rw [hw]
    exact List.mem_cons_self
  have hne : name ≠ [] := (storable_of_mem hmem).1
  refine ⟨args.flatMap fun w => Splitting.emit (asciiOnly w), ?_⟩
  rw [words_asciiOnly, hw, List.flatMap_cons, asciiOnly_of_isAscii (isAscii_of_named hs hname),
    Splitting.emit_of_ne_nil hne]
  rfl

/-- The arguments of `HELP` and `QUIT` do not matter. -/
theorem parse_asciiOnly_of_help {line : Bytes}
    (h : (parseTcpCommand line).type = .help ∨ (parseTcpCommand line).type = .quit) :
    parseTcpCommand (asciiOnly line) = parseTcpCommand line := by
  have hvalid : (parseTcpCommand line).type ≠ .invalid := by
    cases h with
    | inl h => simp [h]
    | inr h => simp [h]
  have hcmd := grammar_parseTcpCommand hvalid
  apply parseTcpCommand_of_grammar
  generalize hw : tcpSplitWs line = ws at hcmd
  generalize parseTcpCommand line = cmd at h hcmd
  cases hcmd with
  | help hname =>
      obtain ⟨args', hargs⟩ := words_asciiOnly_of_named (by decide) hname hw
      rw [hargs]
      exact .help hname args'
  | quit hname =>
      obtain ⟨args', hargs⟩ :=
        hname.elim (fun hname => words_asciiOnly_of_named (by decide) hname hw)
          fun hname => words_asciiOnly_of_named (by decide) hname hw
      rw [hargs]
      exact .quit hname args'
  | _ => simp at h

/-! ## States that tell commands apart -/

namespace Processor

/-- A start without files, with room for a key in each shard. -/
def roomy (M : Platform) : Processor M := (Server.start M 64 stoppedClock [] []).processor

/-- The same with one key. -/
def storing (M : Platform) (key : Bytes) : Processor M := ((roomy M).set key (ascii "v") none 0).2

theorem reachable_roomy : (roomy M).Reachable 64 := .start stoppedClock [] []

theorem reachable_storing (key : Bytes) : (storing M key).Reachable 64 :=
  reachable_roomy.set key (ascii "v") none 0

theorem rep_roomy : (roomy M).cache.Rep fun _ => (∅ : RecencyList Bytes (Record Bytes)) :=
  ShardedCache.Rep.construct 64

theorem get_storing_self (key : Bytes) :
    ((storing M key).get key 0).1 = some (ascii "v") := by
  have hcap : capacityOf M.params (roomy M).cache.maxKeys (M.home key) ≠ 0 :=
    (capacityOf_ne_zero_iff M.params _ (M.home key)).mpr (Nat.mod_lt _ M.params.numShards_pos)
  have hlookup := rep_roomy.lookup_set_self hcap (ascii "v") none 0
  refine ((rep_roomy.set key (ascii "v") none 0).get_eq key 0).trans ?_
  rw [hlookup]
  rfl

theorem get_storing_of_ne {key other : Bytes} (h : other ≠ key) :
    ((storing M key).get other 0).1 = none := by
  refine ((rep_roomy.set key (ascii "v") none 0).get_eq other 0).trans ?_
  rw [Option.bind_eq_none_iff]
  intro r hr
  by_cases hhome : shardForKey M.params other = shardForKey M.params key
  · rw [hhome, Function.update_self] at hr
    have hold := RecencyList.lookup_put_of_ne h hr
    rw [AList.lookup_empty] at hold
    cases hold
  · rw [Function.update_of_ne hhome, AList.lookup_empty] at hr
    cases hr

/-- With room for all keys a line succeeds unless the parser rejects it. -/
theorem ok_executeLine_roomy {line : Bytes} :
    ((roomy M).executeLine line 0).1.ok = true ↔ (parseTcpCommand line).type ≠ .invalid := by
  constructor
  · intro hok hinvalid
    simp [executeLine, hinvalid] at hok
  · intro hvalid
    by_cases hset : (parseTcpCommand line).type = .set
    · rw [(executeLine_of_set hset 0 (roomy M)).1]
      exact set_of_lt reachable_roomy (Nat.mod_lt _ (by decide)) _ _ 0
    · simp only [executeLine, hvalid, if_false]
      exact ok_executeParsed hset hvalid 0 (roomy M)

/-- Only a `GET` of the stored key answers with its value. -/
theorem get_of_response {line key : Bytes}
    (h : ((storing M key).executeLine line 0).1 = { payload := ascii "v" }) :
    (parseTcpCommand line).type = .get ∧ (parseTcpCommand line).key = key := by
  have hpayload := congrArg CommandResponse.payload h
  have hother : ∀ payload ∈ [ascii "PONG", helpPayload, ascii "BYE", ascii "OK",
      ascii "ERR set failed", ascii "1", ascii "0", ascii "(nil)"], payload ≠ ascii "v" := by
    decide +kernel
  cases htype : (parseTcpCommand line).type with
  | get =>
      refine ⟨rfl, ?_⟩
      by_contra hne
      simp only [executeLine, htype, executeParsed, get_storing_of_ne hne] at hpayload
      exact hother _ (by simp) hpayload
  | set =>
      simp only [executeLine, htype, executeParsed, reduceCtorEq, if_false] at hpayload
      split at hpayload
      · exact absurd hpayload (hother _ (by simp))
      · exact absurd hpayload (hother _ (by simp))
  | del =>
      simp only [executeLine, htype, executeParsed, reduceCtorEq, if_false] at hpayload
      split at hpayload
      · exact absurd hpayload (hother _ (by simp))
      · exact absurd hpayload (hother _ (by simp))
  | stats =>
      -- the payload begins with `hits=`
      simp only [executeLine, htype, executeParsed, statsPayload] at hpayload
      have hhead := congrArg List.head? hpayload
      cases hhead
  | ping | help | quit =>
      simp only [executeLine, htype, executeParsed, reduceCtorEq, if_false] at hpayload
      exact absurd hpayload (hother _ (by simp))
  | invalid => simp [executeLine, htype] at h

/-- A line that changes the queue of a processor as a write does is that write. -/
theorem write_of_executeLine {line line' : Bytes} {w : WriteCommand} {p : Processor M}
    (hw : (parseTcpCommand line).write? = some w)
    (h : (p.executeLine line' 0).2.queue = (p.executeLine line 0).2.queue) :
    (parseTcpCommand line').write? = some w := by
  rw [executeLine_of_write hw] at h
  cases hw' : (parseTcpCommand line').write? with
  | none =>
      exfalso
      have hread : (p.executeLine line' 0).2.queue = p.queue := by
        rcases executeLine_of_read p 0 hw' with hsame | ⟨key, hsame⟩
        · rw [hsame]
        · rw [hsame]
      have hlen := congrArg List.length (hread.symm.trans h)
      simp at hlen
  | some w' =>
      rw [executeLine_of_write hw'] at h
      have hline : w'.line = w.line := by simpa using h
      have hread := replayLine_line (storable_of_write? hw')
      rw [hline, replayLine_line (storable_of_write? hw)] at hread
      exact hread.symm

end Processor

/-! ## When the paths agree -/

theorem write?_eq_set {parsed : ParsedTcpCommand} {key value : Bytes} {ttl : Option Millis}
    (h : parsed.write? = some (.set key value ttl)) :
    parsed.type = .set ∧ parsed.key = key ∧ parsed.value = value := by
  unfold ParsedTcpCommand.write? at h
  split at h
  · next hset =>
    cases h
    exact ⟨hset, rfl, rfl⟩
  · cases h
  · cases h

theorem write?_eq_del {parsed : ParsedTcpCommand} {key : Bytes}
    (h : parsed.write? = some (.del key)) : parsed.type = .del ∧ parsed.key = key := by
  unfold ParsedTcpCommand.write? at h
  split at h
  · cases h
  · next hdel =>
    cases h
    exact ⟨hdel, rfl⟩
  · cases h

/-- What is executed over TCP is ASCII. -/
theorem isAscii_sanitized {line : Bytes} (hline : ClientLine line)
    (hvalid : (parseTcpCommand (sanitizeLine line)).type ≠ .invalid) :
    IsAscii (parseTcpCommand (sanitizeLine line)).key ∧
      IsAscii (parseTcpCommand (sanitizeLine line)).value := by
  rw [parse_sanitizeLine hline] at hvalid ⊢
  exact isAscii_of_grammar (grammar_parseTcpCommand hvalid)
    fun w hw => isAscii_of_mem_words (isAscii_asciiOnly line) hw

/-- A command that means the same over TCP hands on ASCII: a write because it is logged, a `GET`
because there is a state in which only the same `GET` answers as it does. -/
theorem isAscii_of_pathsAgree {line : Bytes} (hline : ClientLine line) (h : PathsAgree M line)
    (hvalid : (parseTcpCommand line).type ≠ .invalid) :
    IsAscii (parseTcpCommand line).key ∧ IsAscii (parseTcpCommand line).value := by
  have hnil : IsAscii [] := by simp [IsAscii]
  have hqueue := congrArg (fun r => r.2.queue) (h 64 (Processor.roomy M) Processor.reachable_roomy 0)
  have hcmd := grammar_parseTcpCommand hvalid
  generalize hparse : parseTcpCommand line = cmd at hcmd
  generalize tcpSplitWs line = ws at hcmd
  cases hcmd with
  | ping | stats | help | quit => exact ⟨hnil, hnil⟩
  | get _ key =>
      have hget := congrArg Prod.fst (h 64 (Processor.storing M key) (Processor.reachable_storing key) 0)
      have hvalue : ((Processor.storing M key).executeLine line 0).1 = { payload := ascii "v" } := by
        simp [Processor.executeLine, Processor.executeParsed, hparse, Processor.get_storing_self]
      obtain ⟨htype, hkey⟩ := Processor.get_of_response (hget.trans hvalue)
      have hleft := isAscii_sanitized hline (by simp [htype])
      exact ⟨hkey ▸ hleft.1, hnil⟩
  | del _ key =>
      have hwrite : (parseTcpCommand line).write? = some (.del key) := by rw [hparse]; rfl
      obtain ⟨htype, hkey⟩ := write?_eq_del (Processor.write_of_executeLine hwrite hqueue)
      have hleft := isAscii_sanitized hline (by simp [htype])
      exact ⟨hkey ▸ hleft.1, hnil⟩
  | set _ key value =>
      have hwrite : (parseTcpCommand line).write? = some (.set key value none) := by
        rw [hparse]; rfl
      obtain ⟨htype, hkey, hvalue⟩ := write?_eq_set (Processor.write_of_executeLine hwrite hqueue)
      have hleft := isAscii_sanitized hline (by simp [htype])
      exact ⟨hkey ▸ hleft.1, hvalue ▸ hleft.2⟩
  | @setTtl _ _ n _ key value =>
      have hwrite : (parseTcpCommand line).write? = some (.set key value (some n)) := by
        rw [hparse]; rfl
      obtain ⟨htype, hkey, hvalue⟩ := write?_eq_set (Processor.write_of_executeLine hwrite hqueue)
      have hleft := isAscii_sanitized hline (by simp [htype])
      exact ⟨hkey ▸ hleft.1, hvalue ▸ hleft.2⟩

/-- Bytes that matter on one path only are seen. -/
theorem highBytesIgnored_of_pathsAgree {line : Bytes} (hline : ClientLine line)
    (h : PathsAgree M line) : HighBytesIgnored line := by
  by_cases hinvalid : (parseTcpCommand line).type = .invalid
  · have hroomy := congrArg Prod.fst (h 64 (Processor.roomy M) Processor.reachable_roomy 0)
    have hleft : (parseTcpCommand (sanitizeLine line)).type = .invalid := by
      by_contra hvalid
      have hok := (Processor.ok_executeLine_roomy (M := M)).mpr hvalid
      rw [hroomy] at hok
      exact Processor.ok_executeLine_roomy.mp hok hinvalid
    have herror := congrArg CommandResponse.payload hroomy
    simp only [Processor.executeLine, hinvalid, hleft, if_true, List.append_cancel_left_eq]
      at herror
    rw [parse_sanitizeLine hline] at hleft herror
    exact .inr (.inr (.inr ⟨hinvalid, hleft, herror⟩))
  · by_cases hhelp : (parseTcpCommand line).type = .help
    · exact .inr (.inl hhelp)
    · by_cases hquit : (parseTcpCommand line).type = .quit
      · exact .inr (.inr (.inl hquit))
      · obtain ⟨hkey, hvalue⟩ := isAscii_of_pathsAgree hline h hinvalid
        exact .inl (isAscii_of_words (isAscii_words_of_grammar (grammar_parseTcpCommand hinvalid)
          hhelp hquit hkey hvalue))

/-- Where high bytes are ignored, the parser makes the same of the line. -/
theorem parse_of_highBytesIgnored {line : Bytes} (hline : ClientLine line) (h : HighBytesIgnored line)
    (hvalid : (parseTcpCommand line).type ≠ .invalid) :
    parseTcpCommand (sanitizeLine line) = parseTcpCommand line := by
  rw [parse_sanitizeLine hline]
  rcases h with hascii | hhelp | hquit | ⟨hinvalid, -⟩
  · rw [asciiOnly_of_isAscii hascii]
  · exact parse_asciiOnly_of_help (.inl hhelp)
  · exact parse_asciiOnly_of_help (.inr hquit)
  · exact absurd hinvalid hvalid

theorem pathsAgree_of_highBytesIgnored {line : Bytes} (hline : ClientLine line)
    (h : HighBytesIgnored line) : PathsAgree M line := by
  intro capacity p _ now
  by_cases hinvalid : (parseTcpCommand line).type = .invalid
  · obtain ⟨hleft, herror⟩ : (parseTcpCommand (asciiOnly line)).type = .invalid ∧
        (parseTcpCommand (asciiOnly line)).error = (parseTcpCommand line).error := by
      rcases h with hascii | hhelp | hquit | ⟨-, hleft, herror⟩
      · rw [asciiOnly_of_isAscii hascii]
        exact ⟨hinvalid, rfl⟩
      · simp [hinvalid] at hhelp
      · simp [hinvalid] at hquit
      · exact ⟨hleft, herror⟩
    simp only [Processor.executeLine, parse_sanitizeLine hline, hinvalid, hleft, herror, if_true]
  · simp only [Processor.executeLine, parse_of_highBytesIgnored hline h hinvalid]

/-- A command that addresses an entry. -/
def NamesKey (cmd : ParsedTcpCommand) : Prop := cmd.type = .set ∨ cmd.type = .get ∨ cmd.type = .del

/-- **The front ends agree on a line if and only if its bytes from 128 on are ignored**, and lines on
which they agree address different entries over TCP if their keys differ. -/
theorem pathsAgree_iff (M : Platform) :
    (∀ line, ClientLine line → (PathsAgree M line ↔ HighBytesIgnored line)) ∧
      ∀ line line', ClientLine line → ClientLine line' → HighBytesIgnored line →
        HighBytesIgnored line' → NamesKey (parseTcpCommand line) →
        NamesKey (parseTcpCommand line') →
        (parseTcpCommand line).key ≠ (parseTcpCommand line').key →
          (parseTcpCommand (sanitizeLine line)).key ≠
            (parseTcpCommand (sanitizeLine line')).key := by
  refine ⟨fun line hline => ⟨highBytesIgnored_of_pathsAgree hline,
    pathsAgree_of_highBytesIgnored hline⟩, ?_⟩
  intro line line' hline hline' h h' hkey hkey' hne
  have hvalid : ∀ {cmd : ParsedTcpCommand}, NamesKey cmd → cmd.type ≠ .invalid := by
    rintro cmd (hset | hget | hdel)
    · simp [hset]
    · simp [hget]
    · simp [hdel]
  rwa [parse_of_highBytesIgnored hline h (hvalid hkey),
    parse_of_highBytesIgnored hline' h' (hvalid hkey')]

theorem pathsAgree_help :
    PathsAgree Platform.oneShard (ascii "HELP caf" ++ [195, 169]) ∧
      (parseTcpCommand (sanitizeLine (ascii "GET a"))).key ≠
        (parseTcpCommand (sanitizeLine (ascii "GET b"))).key :=
  ⟨((pathsAgree_iff Platform.oneShard).1 _ (by decide +kernel)).mpr (.inr (.inl (by decide +kernel))),
    (pathsAgree_iff Platform.oneShard).2 (ascii "GET a") (ascii "GET b") (by decide +kernel)
      (by decide +kernel) (.inl (by decide +kernel)) (.inl (by decide +kernel))
      (.inr (.inl (by decide +kernel))) (.inr (.inl (by decide +kernel))) (by decide +kernel)⟩

/-- `GET café`, with an acute accent in UTF-8. -/
def acute : Bytes := ascii "GET caf" ++ [195, 169]

/-- The same with a grave accent. -/
def grave : Bytes := ascii "GET caf" ++ [195, 168]

/-- Over TCP both read the key `caf`, and neither finds what is stored under its own. -/
theorem accents_lost :
    (¬ ∀ (M : Platform) (line : Bytes), ClientLine line → PathsAgree M line) ∧
      (ClientLine acute ∧ ClientLine grave ∧
        (parseTcpCommand acute).key ≠ (parseTcpCommand grave).key ∧
        (parseTcpCommand (sanitizeLine acute)).key = ascii "caf" ∧
        (parseTcpCommand (sanitizeLine grave)).key = ascii "caf") := by
  refine ⟨fun h => ?_, by decide +kernel⟩
  have hsame := h Platform.oneShard acute (by decide +kernel) 64
    (Processor.storing Platform.oneShard (parseTcpCommand acute).key)
    (Processor.reachable_storing _) 0
  have hpayload := congrArg (fun r => r.1.payload) hsame
  exact absurd hpayload (by decide +kernel)

end MiniRedis
