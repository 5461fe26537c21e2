import MiniRedis.Persistence.Recovery

/-!
# A torn log

A crash can cut the append-only file at any byte. What is left are complete lines and a part of the
next one. `replay_file` reads that part like a line, and the next process appends to it, so a cut is
harmless if and only if it falls between two lines.
-/
namespace MiniRedis
variable {M : Platform}

/-- The writes among the lines that clients send. -/
def issued (lines : List (TimePoint × Bytes)) : List WriteCommand :=
  lines.filterMap fun x => (parseTcpCommand x.2).write?

/-- Execute lines in turn. -/
def Processor.executeLines (lines : List (TimePoint × Bytes)) (p : Processor M) : Processor M :=
  lines.foldl (fun p x => (p.executeLine x.2 x.1).2) p

/-- What a process whose cache is `c` writes to the log when it executes the lines. -/
def loggedText (c : ShardedCache M.params) (lines : List (TimePoint × Bytes)) : Bytes :=
  aofText ((⟨c, []⟩ : Processor M).executeLines lines).queue

/-- A part of the log does no harm: its replay performs the commands whose lines it has to the end,
and with any further lines that a later process logs it performs these as well. -/
structure TornHarmless (M : Platform) (lines : List (TimePoint × Bytes)) (part : Bytes) : Prop where
  performed : readBack part = (issued lines).take (part.count newline)
  appended : ∀ (c : ShardedCache M.params) later, readBack (part ++ loggedText c later) =
    (issued lines).take (part.count newline) ++ issued later

theorem storable_of_mem_issued {lines : List (TimePoint × Bytes)} {w : WriteCommand}
    (h : w ∈ issued lines) : w.Storable := by
  obtain ⟨x, -, hx⟩ := List.mem_filterMap.mp h
  exact storable_of_write? hx

theorem queue_executeLines (lines : List (TimePoint × Bytes)) (p : Processor M) :
    (p.executeLines lines).queue = p.queue ++ (issued lines).map WriteCommand.line := by
  induction lines generalizing p with
  | nil => simp [Processor.executeLines, issued]
  | cons x lines ih =>
      change ((p.executeLine x.2 x.1).2.executeLines lines).queue = _
      rw [ih]
      cases hw : (parseTcpCommand x.2).write? with
      | some w => simp [Processor.executeLine_of_write hw, issued, hw]
      | none =>
          have hqueue : (p.executeLine x.2 x.1).2.queue = p.queue := by
            rcases Processor.executeLine_of_read p x.1 hw with heq | ⟨key, heq⟩ <;> rw [heq]
          simp [hqueue, issued, hw]

theorem loggedText_eq (c : ShardedCache M.params) (lines : List (TimePoint × Bytes)) :
    loggedText c lines = aofText ((issued lines).map WriteCommand.line) := by
  rw [loggedText, queue_executeLines, List.nil_append]

/-! ## What is cut off -/

section Cut
variable {ws : List WriteCommand} {part rest : Bytes}

/-- A log has complete lines only. -/
theorem cut_aofText (h : ∀ w ∈ ws, w.Storable) :
    Splitting.terminated newline (aofText (ws.map WriteCommand.line)) = ws.map WriteCommand.line ∧
      Splitting.unterminated newline (aofText (ws.map WriteCommand.line)) = [] := by
  have hlines : ∀ l ∈ ws.map WriteCommand.line, newline ∉ l := by
    intro l hl
    obtain ⟨w, hw, rfl⟩ := List.mem_map.mp hl
    exact notMem_newline_line (h w hw)
  exact Prod.mk.inj (Splitting.cutFrom_flatMap hlines)

/-- The complete lines of a part of a log, and those that the rest goes on with. -/
theorem cut_part (h : ∀ w ∈ ws, w.Storable)
    (heq : part ++ rest = aofText (ws.map WriteCommand.line)) :
    Splitting.terminated newline part ++
        (Splitting.cutFrom newline (Splitting.unterminated newline part) rest).1 =
      ws.map WriteCommand.line ∧
    (Splitting.cutFrom newline (Splitting.unterminated newline part) rest).2 = [] := by
  have hcut := cut_aofText h
  rw [← heq, Splitting.terminated, Splitting.unterminated, Splitting.cutFrom_append] at hcut
  exact hcut

/-- The complete lines of a part of a log are the lines of its first commands. -/
theorem terminated_part (h : ∀ w ∈ ws, w.Storable)
    (heq : part ++ rest = aofText (ws.map WriteCommand.line)) :
    Splitting.terminated newline part = (ws.take (part.count newline)).map WriteCommand.line := by
  rw [List.map_take, ← Splitting.length_terminated, ← (cut_part h heq).1]
  exact List.take_left.symm

/-- What a torn log ends with is the beginning of the next line. -/
theorem exists_next_of_unterminated (h : ∀ w ∈ ws, w.Storable)
    (heq : part ++ rest = aofText (ws.map WriteCommand.line))
    (htail : Splitting.unterminated newline part ≠ []) :
    ∃ w ws', ws = ws.take (part.count newline) ++ w :: ws' ∧
      Splitting.unterminated newline part <+: w.line := by
  obtain ⟨hlines, hrest⟩ := cut_part h heq
  obtain ⟨m, ls, hm⟩ := Splitting.exists_line_of_cutFrom htail hrest
  rw [hm, terminated_part h heq] at hlines
  have hall := List.take_append_drop (part.count newline) ws
  rw [← congrArg (List.map WriteCommand.line) hall, List.map_append] at hlines
  obtain ⟨w, ws', hws, hline, -⟩ := List.map_eq_cons_iff.mp (List.append_cancel_left hlines).symm
  exact ⟨w, ws', by rw [← hws, List.take_append_drop], m, hline.symm⟩

/-- **What a torn log is read as**: its complete lines and, as if it were one, what is left of the
next. -/
theorem readBack_part (h : ∀ w ∈ ws, w.Storable)
    (heq : part ++ rest = aofText (ws.map WriteCommand.line)) :
    readBack part = ws.take (part.count newline) ++
      (Splitting.emit (Splitting.unterminated newline part)).filterMap replayLine := by
  rw [readBack, Splitting.lines_eq, List.filterMap_append, terminated_part h heq,
    filterMap_replayLine fun w hw => h w (List.mem_of_mem_take hw)]

end Cut

/-! ## What a torn line is read as -/

/-- Does `t` delete a key, or set the key that `w` sets, both without a ttl? -/
def WriteCommand.Shortens : WriteCommand → WriteCommand → Prop
  | del _, _ => True
  | set key _ ttl, w => ttl = none ∧ ∃ value, w = set key value none

theorem WriteCommand.Shortens.ttl_eq {t w : WriteCommand} (h : t.Shortens w) : t.ttl = none := by
  cases t with
  | set key value ttl => exact h.1
  | del key => rfl

theorem words_of_type_set {line : Bytes} (h : (parseTcpCommand line).type = .set) :
    ∃ name, tcpSplitWs line = [name, (parseTcpCommand line).key, (parseTcpCommand line).value] ∧
        (parseTcpCommand line).ttlMs = none ∨
      ∃ ttl, tcpSplitWs line =
        [name, (parseTcpCommand line).key, (parseTcpCommand line).value, ttl] := by
  cases hw : tcpSplitWs line with
  | nil =>
      rw [parseTcpCommand_of_no_words hw] at h
      cases h
  | cons name args =>
      rw [parseTcpCommand_of_words hw] at h ⊢
      have hset := parseWords_of_set h
      rw [hset] at h ⊢
      rcases args_of_parseSet h with ⟨heq, hnone⟩ | ⟨ttl, heq⟩
      · exact ⟨name, .inl ⟨congrArg (List.cons name) heq, hnone⟩⟩
      · exact ⟨name, .inr ⟨ttl, congrArg (List.cons name) heq⟩⟩

/-- A line without a ttl has three words at most, so no part of it sets a ttl. -/
theorem shortens_of_part {w t : WriteCommand} (hw : w.Storable) (hfree : w.ttl = none)
    {tail : Bytes} (htail : tail <+: w.line) (ht : replayLine tail = some t) : t.Shortens w := by
  unfold replayLine at ht
  split at ht
  · cases ht
  · unfold ParsedTcpCommand.write? at ht
    split at ht
    · next hset =>
      cases ht
      obtain ⟨m, hm⟩ := htail
      obtain ⟨rest, hrest, hne⟩ := Splitting.exists_words_append isspace tail m
      change tcpSplitWs (tail ++ m) = (tcpSplitWs tail).dropLast ++ rest at hrest
      change tcpSplitWs tail ≠ [] → rest ≠ [] at hne
      rw [hm] at hrest
      obtain ⟨name, hwords⟩ := words_of_type_set hset
      have hpos : 0 < rest.length := by
        refine List.length_pos_iff.mpr (hne ?_)
        rcases hwords with ⟨hwords, -⟩ | ⟨ttl, hwords⟩ <;> simp [hwords]
      -- a part of a line has no more words than the line
      have hlen : (tcpSplitWs tail).length ≤ (tcpSplitWs w.line).length := by
        rw [hrest, List.length_append, List.length_dropLast]
        omega
      cases w with
      | del key =>
          rw [WriteCommand.line, words_recordDel hw] at hlen
          rcases hwords with ⟨hwords, -⟩ | ⟨ttl, hwords⟩ <;> simp [hwords] at hlen
      | set key value ttl =>
          cases hfree
          rw [WriteCommand.line, recordSet, words_setLine_none hw.1 hw.2.1] at hlen hrest
          rcases hwords with ⟨hwords, hnone⟩ | ⟨ttl, hwords⟩
          · rw [hwords] at hrest
            simp only [List.dropLast_cons_cons, List.dropLast_singleton, List.cons_append,
              List.cons.injEq] at hrest
            exact ⟨hnone, value, by rw [hrest.2.1]⟩
          · simp [hwords] at hlen
    · cases ht
      trivial
    · cases ht

/-! ## A line that follows a torn one -/

theorem words_of_type_del {name : Bytes} {args : List Bytes}
    (h : (parseWords name args).type = .del) :
    tcpUpper name = ascii "DEL" ∧ args = [(parseWords name args).key] := by
  unfold parseWords at h ⊢
  dsimp only at h ⊢
  repeat' split at h
  all_goals first
    | exact absurd h (type_parseSet_ne_del args)
    | simp_all [ParsedTcpCommand.rejected]

/-- A line that deletes a key has the bytes of a verb and of the key, and whitespace. -/
theorem length_of_del {line key : Bytes} (h : (parseTcpCommand line).write? = some (.del key)) :
    (line.filter fun b => !isspace b).length = 3 + key.length := by
  unfold ParsedTcpCommand.write? at h
  split at h
  · cases h
  · next htype =>
    cases h
    cases hw : tcpSplitWs line with
    | nil =>
        rw [parseTcpCommand_of_no_words hw] at htype
        cases htype
    | cons name args =>
        rw [parseTcpCommand_of_words hw] at htype ⊢
        obtain ⟨hname, hargs⟩ := words_of_type_del htype
        have hlen : (tcpUpper name).length = 3 := by rw [hname]; rfl
        have hall : (tcpSplitWs line).flatten = _ := Splitting.flatten_words line
        rw [hw, hargs] at hall
        rw [← hall]
        simpa [tcpUpper] using hlen
  · cases h

theorem exists_cons_line (w : WriteCommand) : ∃ b l, w.line = b :: l ∧ isspace b = false := by
  cases w with
  | set key value ttl => cases ttl <;> exact ⟨83, _, rfl, rfl⟩
  | del key => exact ⟨68, _, rfl, rfl⟩

/-- What is left of a line spoils the next one. -/
theorem replayLine_torn {w : WriteCommand} {tail key : Bytes} (htail : tail ≠ [])
    (hline : tail <+: w.line) (hk : Storable key) :
    replayLine (tail ++ recordDel key) ≠ some (.del key) := by
  intro h
  unfold replayLine at h
  split at h
  · cases h
  · have hlen := length_of_del h
    obtain ⟨b, l, hb, hspace⟩ := exists_cons_line w
    obtain ⟨c, t, rfl⟩ := List.exists_cons_of_ne_nil htail
    obtain ⟨m, hm⟩ := hline
    have hc : c = b := by
      rw [hb] at hm
      exact (List.cons.inj hm).1
    subst hc
    have hdel : ((recordDel key).filter fun b => !isspace b).length = 3 + key.length := by
      have hall : key.filter (fun b => !isspace b) = key :=
        List.filter_eq_self.mpr fun b hb => by simp [hk.2 b hb]
      have hverb : ((ascii "DEL ").filter fun b => !isspace b).length = 3 := by decide +kernel
      rw [recordDel, List.filter_append, List.length_append, hverb, hall]
    rw [List.cons_append, List.filter_cons_of_pos (by simp [hspace]), List.length_cons,
      List.filter_append, List.length_append, hdel] at hlen
    omega

/-- **A torn log is harmless if and only if it is not torn inside a line.** -/
theorem tornHarmless_iff {lines : List (TimePoint × Bytes)} {c : ShardedCache M.params} {part : Bytes}
    (h : part <+: loggedText c lines) :
    TornHarmless M lines part ↔ ∀ b ∈ part.getLast?, b = newline := by
  rw [← Splitting.unterminated_eq_nil_iff]
  obtain ⟨rest, heq⟩ := h
  rw [loggedText_eq] at heq
  have hws : ∀ w ∈ issued lines, w.Storable := fun w hw => storable_of_mem_issued hw
  constructor
  · intro H
    by_contra htail
    obtain ⟨w, -, -, hline⟩ := exists_next_of_unterminated hws heq htail
    have hk : Storable (ascii "k") := by decide +kernel
    have hone : issued [(0, recordDel (ascii "k"))] = [.del (ascii "k")] := by
      have hwrite : (parseTcpCommand (recordDel (ascii "k"))).write? = some (.del (ascii "k")) := by
        rw [parseTcpCommand_recordDel hk]
        rfl
      simp [issued, hwrite]
    -- the next process logs one more command
    have hread := H.appended c [(0, recordDel (ascii "k"))]
    have hnewline : newline ∉ recordDel (ascii "k") :=
      notMem_newline_line (w := .del (ascii "k")) hk
    have hlogged : loggedText c [(0, recordDel (ascii "k"))] =
        recordDel (ascii "k") ++ newline :: [] := by
      rw [loggedText_eq, hone]
      simp [aofText, WriteCommand.line]
    rw [hone, hlogged, readBack, Splitting.lines_append_line hnewline, List.filterMap_append,
      terminated_part hws heq, filterMap_replayLine fun w hw => hws w (List.mem_of_mem_take hw)]
      at hread
    have hline' := List.append_cancel_left hread
    rw [List.filterMap_cons] at hline'
    cases hjoined : replayLine (Splitting.unterminated newline part ++ recordDel (ascii "k")) with
    | none =>
        rw [hjoined] at hline'
        cases hline'
    | some v =>
        rw [hjoined] at hline'
        exact replayLine_torn htail hline hk (hjoined.trans (congrArg some (List.cons.inj hline').1))
  · intro htail
    have htake : ∀ w ∈ (issued lines).take (part.count newline), w.Storable :=
      fun w hw => hws w (List.mem_of_mem_take hw)
    refine ⟨?_, ?_⟩
    · rw [readBack_part hws heq, htail]
      exact List.append_nil _
    · intro c' later
      have hpart := Splitting.append_unterminated newline part
      rw [htail, List.append_nil, terminated_part hws heq] at hpart
      change aofText _ = part at hpart
      have hall : ∀ w ∈ (issued lines).take (part.count newline) ++ issued later, w.Storable :=
        fun w hw => (List.mem_append.mp hw).elim (htake w) fun hw => storable_of_mem_issued hw
      have hread := readBack_aofText hall []
      rw [List.append_nil, readBack_nil, List.append_nil, List.map_append, aofText_append, hpart,
        ← loggedText_eq c'] at hread
      exact hread

/-- A log of two commands, cut between them. -/
theorem tornHarmless_iff_atLineEnd :
    TornHarmless Platform.oneShard [(0, ascii "set k ab"), (0, ascii "del k")]
      (aofText [ascii "SET k ab"]) := by
  have h : aofText [ascii "SET k ab"] <+: loggedText (ShardedCache.construct
      Platform.oneShard.params 64) [(0, ascii "set k ab"), (0, ascii "del k")] := by decide +kernel
  exact (tornHarmless_iff h).mpr (by decide +kernel)

/-- A log that is cut in a value is read as a command that nobody issued. -/
theorem torn_value_replayed :
    ¬ ∀ (c : ShardedCache Platform.oneShard.params) lines part, part <+: loggedText c lines →
      TornHarmless Platform.oneShard lines part := by
  intro h
  have hpart : ascii "SET k a" <+: loggedText (ShardedCache.construct
      Platform.oneShard.params 64) [(0, ascii "SET k ab")] := by decide +kernel
  have hread := (h _ _ _ hpart).performed
  have hinvented : readBack (ascii "SET k a") = [.set (ascii "k") (ascii "a") none] := by
    decide +kernel
  have hcomplete : (issued [(0, ascii "SET k ab")]).take ((ascii "SET k a").count newline) = [] := by
    decide +kernel
  rw [hinvented, hcomplete] at hread
  cases hread

end MiniRedis
