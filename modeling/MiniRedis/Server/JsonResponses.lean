import MiniRedis.Persistence.SnapshotRoundTrip
import MiniRedis.Server.HttpServer
import MiniRedis.Text.Utf8

/-!
# JSON over the life of a server

A response is JSON only if what it quotes is a text without control characters, and values are quoted
long after they were set: by other clients, and by processes that have read them from files. As long as
only such texts come in, over HTTP, from other clients and from the files of the first start, only such
texts are stored, queued and written, whatever is evicted, expired, replayed or rewritten. Then every
response but the page is a JSON object, and its `ok` goes with its status.
-/
namespace MiniRedis
variable {M : Platform}

/-! ## Texts stay texts -/

/-- All keys and values of the cache are texts. -/
def ShardedCache.Textual (c : ShardedCache M.params) : Prop :=
  ∃ xs, c.Rep xs ∧ ∀ i k r, (xs i).lookup k = some r → IsText k ∧ IsText r.value

def WriteCommand.Textual : WriteCommand → Prop
  | .set key value _ => IsText key ∧ IsText value
  | .del key => IsText key

structure Processor.Textual (p : Processor M) : Prop where
  cache : p.cache.Textual
  queue : ∀ line ∈ p.queue, IsText line

/-- Nothing but texts is stored, in memory or in files. -/
structure Server.Textual (s : Server M) : Prop where
  processor : s.processor.Textual
  aof : IsText s.aof
  snapshot : IsText s.snapshot

/-- If the action executes a line, it is a text. -/
def ServerAction.Textual : ServerAction M → Prop
  | .command line => IsText line
  | .flush | .snapshot _ | .reap _ => True

section Commands

theorem isText_setLine {key value : Bytes} (hkey : IsText key) (hvalue : IsText value)
    (ttl : Option Millis) : IsText (setLine key value ttl) := by
  have hset : IsText (ascii "SET ") := isText_of_plain (by decide +kernel)
  have hspace : IsText (ascii " ") := isText_of_plain (by decide +kernel)
  have hline := ((hset.append hkey).append hspace).append hvalue
  cases ttl with
  | none => exact hline
  | some d => exact (hline.append hspace).append (isText_toString d)

theorem WriteCommand.Textual.line {w : WriteCommand} (h : w.Textual) : IsText w.line := by
  cases w with
  | set key value ttl => exact isText_setLine h.1 h.2 ttl
  | del key => exact (isText_of_plain (by decide +kernel) : IsText (ascii "DEL ")).append h

theorem isText_aofText {batch : List Bytes} (h : ∀ line ∈ batch, IsText line) :
    IsText (aofText batch) :=
  IsText.flatMap fun line hline => (h line hline).append (isText_singleton (by decide))

/-- A line whose words are texts is a command of texts. -/
theorem textual_of_write? {line : Bytes} {w : WriteCommand}
    (hwords : ∀ word ∈ tcpSplitWs line, IsText word)
    (hw : (parseTcpCommand line).write? = some w) : w.Textual := by
  have hvalid : (parseTcpCommand line).type ≠ .invalid := by
    intro hinvalid
    simp [ParsedTcpCommand.write?, hinvalid] at hw
  obtain ⟨hkey, hvalue⟩ := (grammar_parseTcpCommand hvalid).isText hwords
  unfold ParsedTcpCommand.write? at hw
  split at hw
  · cases hw
    exact ⟨hkey, hvalue⟩
  · cases hw
    exact hkey
  · cases hw

/-- What is read back from a text are commands of texts: no line end is inside a character. -/
theorem textual_of_mem_readBack {text : Bytes} (h : IsText text) {w : WriteCommand}
    (hw : w ∈ readBack text) : w.Textual := by
  obtain ⟨line, hline, hreplay⟩ := List.mem_filterMap.mp hw
  unfold replayLine at hreplay
  split at hreplay
  · cases hreplay
  · refine textual_of_write? (fun word hword => h.of_mem_words ?_) hreplay
    have hlines : (Splitting.lines newline text).flatMap (Splitting.words isspace) =
        Splitting.words isspace text := Splitting.flatMap_words_lines (by decide) text
    rw [tcpSplitWs, ← hlines]
    exact List.mem_flatMap.mpr ⟨line, hline, hword⟩

end Commands

namespace ShardedCache.Textual
variable {c : ShardedCache M.params}

theorem construct (capacity : ℕ) : (ShardedCache.construct M.params capacity).Textual :=
  ⟨_, ShardedCache.Rep.construct capacity, fun _ _ _ h => by cases h⟩

/-- What is left of the cache is textual. -/
theorem of_lookup (h : c.Textual) {c' : ShardedCache M.params}
    (hc : ∀ xs, c.Rep xs → ∃ ys, c'.Rep ys ∧
      ∀ i k r, (ys i).lookup k = some r → (xs i).lookup k = some r) : c'.Textual := by
  obtain ⟨xs, R, htext⟩ := h
  obtain ⟨ys, R', hle⟩ := hc xs R
  exact ⟨ys, R', fun i k r hr => htext i k r (hle i k r hr)⟩

theorem get (h : c.Textual) (key : Bytes) (now : TimePoint) : (c.get key now).2.Textual :=
  h.of_lookup fun _ R => ⟨_, R.get key now, lookup_of_update fun _ _ => lookup_of_lookedUp⟩

theorem cleanupShard (h : c.Textual) (now : TimePoint) (i : Fin M.params.numShards) :
    (c.cleanupShard now i).Textual :=
  h.of_lookup fun _ R => ⟨_, R.cleanupShard now i, lookup_of_update fun _ _ => lookup_of_liveRecords⟩

theorem applyWrite (h : c.Textual) {w : WriteCommand} (hw : w.Textual) (now : TimePoint) :
    (MiniRedis.applyWrite now w c).Textual := by
  obtain ⟨xs, R, htext⟩ := h
  refine ⟨_, R.applyWrite now w, fun i k r hr => ?_⟩
  by_cases hi : i = M.home w.key
  · subst hi
    rw [Function.update_self] at hr
    rcases Write.lookup_apply hr with hput | ⟨-, hprev⟩
    · cases w with
      | del key => cases hput
      | set key value ttl =>
          cases hput
          exact hw
    · exact htext _ k r hprev
  · rw [Function.update_of_ne hi] at hr
    exact htext i k r hr

theorem replayFile (h : c.Textual) (clock : ℕ → TimePoint) {text : Bytes} (htext : IsText text) :
    (MiniRedis.replayFile clock text c).Textual := by
  have hws : ∀ x ∈ timed clock (readBack text), x.2.Textual := by
    intro x hx
    have hmem := List.mem_map_of_mem (f := Prod.snd) hx
    rw [map_snd_timed] at hmem
    exact textual_of_mem_readBack htext hmem
  unfold MiniRedis.replayFile
  generalize timed clock (readBack text) = ws at hws
  induction ws generalizing c with
  | nil => exact h
  | cons x ws ih =>
      obtain ⟨hx, hws⟩ := List.forall_mem_cons.mp hws
      exact ih (h.applyWrite hx x.1) hws

/-- A value that is found is a text. -/
theorem found (h : c.Textual) {key value : Bytes} {now : TimePoint}
    (hget : (c.get key now).1 = some value) : IsText value := by
  obtain ⟨xs, R, htext⟩ := h
  have hread := R.get_eq key now
  rw [hget] at hread
  obtain ⟨r, hr, hvalue⟩ := Option.bind_eq_some_iff.mp hread.symm
  unfold Record.read at hvalue
  split at hvalue
  · cases hvalue
  · cases hvalue
    exact (htext _ key r hr).2

theorem snapshotItem (h : c.Textual) {ord : HashOrder Bytes Bytes} {now : TimePoint}
    {item : SnapshotItem Bytes Bytes} (hitem : item ∈ c.snapshotItems ord now) :
    IsText item.key ∧ IsText item.value := by
  obtain ⟨xs, R, htext⟩ := h
  obtain ⟨r, hr, hshows⟩ := (mem_snapshotItems_iff R).mp hitem
  rw [R.stored_eq] at hr
  have hvalue : item.value = r.value := by
    unfold Record.item? at hshows
    grind
  rw [hvalue]
  exact htext _ _ r hr

end ShardedCache.Textual

namespace Processor.Textual
variable {p : Processor M}

theorem set (h : p.Textual) {key value : Bytes} (hkey : IsText key) (hvalue : IsText value)
    (ttl : Option Millis) (now : TimePoint) : (p.set key value ttl now).2.Textual := by
  refine ⟨h.cache.applyWrite (w := .set key value ttl) ⟨hkey, hvalue⟩ now, ?_⟩
  simpa [Processor.set, enqueueLine, or_imp, forall_and] using
    ⟨h.queue, isText_setLine hkey hvalue ttl⟩

theorem del (h : p.Textual) {key : Bytes} (hkey : IsText key) : (p.del key).2.Textual := by
  refine ⟨h.cache.applyWrite (w := .del key) hkey 0, ?_⟩
  have hline : IsText (recordDel key) := WriteCommand.Textual.line (w := .del key) hkey
  simpa [Processor.del, enqueueLine, or_imp, forall_and] using ⟨h.queue, hline⟩

theorem get (h : p.Textual) (key : Bytes) (now : TimePoint) : (p.get key now).2.Textual :=
  ⟨h.cache.get key now, h.queue⟩

theorem executeLine (h : p.Textual) {line : Bytes} (hline : IsText line) (now : TimePoint) :
    (p.executeLine line now).2.Textual := by
  cases hw : (parseTcpCommand line).write? with
  | some w =>
      have htext := textual_of_write? (fun word hword => hline.of_mem_words hword) hw
      rw [executeLine_of_write hw]
      refine ⟨h.cache.applyWrite htext now, ?_⟩
      simpa [or_imp, forall_and] using ⟨h.queue, htext.line⟩
  | none =>
      rcases executeLine_of_read p now hw with heq | ⟨key, heq⟩
      · rwa [heq]
      · rw [heq]
        exact h.get key now

end Processor.Textual

namespace Server.Textual
variable {s : Server M}

theorem step (h : s.Textual) (t : Instant) {a : ServerAction M} (ha : a.Textual) :
    (s.step t a).Textual := by
  cases a with
  | command line => exact ⟨h.processor.executeLine ha t.now, h.aof, h.snapshot⟩
  | flush =>
      have haof := h.aof.append (isText_aofText h.processor.queue)
      exact ⟨⟨h.processor.cache, by simp [Server.step, Server.flush]⟩, haof, h.snapshot⟩
  | snapshot ord =>
      have hheader : IsText (snapshotHeader t.epochMs) :=
        (isText_of_plain (by decide +kernel)).append (isText_toString _)
      refine ⟨h.processor, h.aof, isText_aofText (List.forall_mem_cons.mpr ⟨hheader, ?_⟩)⟩
      intro line hline
      obtain ⟨item, hitem, rfl⟩ := List.mem_map.mp hline
      obtain ⟨hkey, hvalue⟩ := h.processor.cache.snapshotItem hitem
      exact isText_setLine hkey hvalue _
  | reap shard =>
      exact ⟨⟨h.processor.cache.cleanupShard t.now shard, h.processor.queue⟩, h.aof, h.snapshot⟩

theorem after (h : s.Textual) {acts : List (Instant × ServerAction M)}
    (hacts : ∀ x ∈ acts, x.2.Textual) : (s.after acts).Textual := by
  induction acts generalizing s with
  | nil => exact h
  | cons x acts ih =>
      obtain ⟨hx, hacts⟩ := List.forall_mem_cons.mp hacts
      exact ih (h.step x.1 hx) hacts

/-- A process that is started on files of texts. -/
theorem start (capacity : ℕ) (clock : RecoveryClock) {snapshot aof : Bytes}
    (hsnapshot : IsText snapshot) (haof : IsText aof) :
    (Server.start M capacity clock snapshot aof).Textual := by
  have hempty := ShardedCache.Textual.construct (M := M) capacity
  have hloaded := hempty.replayFile clock.snapshot hsnapshot
  exact ⟨⟨hloaded.replayFile clock.aof haof, by simp [Server.start]⟩, haof, hsnapshot⟩

theorem shutdown (h : s.Textual) (ord : HashOrder Bytes Bytes) (t : Instant) :
    (s.shutdown ord t).Textual := (h.step t (a := .flush) trivial).step t (a := .snapshot ord) trivial

theorem restart (h : s.Textual) (clock : RecoveryClock) : (s.restart clock).Textual :=
  start _ clock h.snapshot h.aof

end Server.Textual

/-! ## Responses -/

/-- What the texts of the build and the standard library are like: `std::to_string` of a ratio is a
JSON number, and the other texts have no control characters. -/
structure HttpTexts.Printable (T : HttpTexts) (M : Platform) : Prop where
  stollWhat : IsText T.stollWhat
  number : ∀ hits total, ∃ t, Json.utf8 t = T.showRatio hits total ∧ Json.Number t
  ratio : ∀ hits total, IsText (M.showRatio hits total)

/-- A JSON object that begins with `ok`; this is true for the statuses 200 and 404. -/
def Speaks (r : HttpResponse) : Prop :=
  ∃ ms, Json.JsonBytes r.body
    (.object ((['o', 'k'], .bool (decide (r.status = 200 ∨ r.status = 404))) :: ms))

/-- The name and the text of the member `ok`. -/
def okMember (ok : Bool) : List Char × List Char :=
  (['o', 'k'], if ok then ['t', 'r', 'u', 'e'] else ['f', 'a', 'l', 's', 'e'])

theorem writes_okMember (ok : Bool) : Json.WritesMember (okMember ok) (['o', 'k'], .bool ok) :=
  ⟨rfl, Json.chars_of_forall (by simp [Json.Unescaped]), .bool ok⟩

/-- A body that is written as an object of `ok` and other members. -/
theorem speaks_of_objectText {status : ℕ} {body : Bytes} (ok : Bool)
    (hok : ok = decide (status = 200 ∨ status = 404)) {ms : List (List Char × List Char)}
    {xs : List (List Char × Json.Value)} (hms : List.Forall₂ Json.WritesMember ms xs)
    (hbody : Json.utf8 (Json.objectText (okMember ok) ms) = body) :
    Speaks { status := status, body := body } := by
  subst hok hbody
  exact ⟨xs, Json.jsonBytes_utf8.mpr (Json.jsonText_objectText (writes_okMember _) hms)⟩

/-- The number that `std::to_string` writes. -/
theorem exists_number (n : ℕ) : ∃ t, Json.utf8 t = toString n ∧ Json.Number t := by
  have hdigit : ∀ d < 10, Json.utf8 [Nat.digitChar d] = [digitByte d] ∧
      (Nat.digitChar d).isDigit = true ∧ (Nat.digitChar d = '0' → d = 0) := by decide +kernel
  have htext : ∀ ds : List ℕ, (∀ d ∈ ds, d < 10) →
      Json.utf8 (ds.map Nat.digitChar) = ds.map digitByte := by
    intro ds
    induction ds with
    | nil => intro _; rfl
    | cons d ds ih =>
        intro hds
        obtain ⟨hd, hds⟩ := List.forall_mem_cons.mp hds
        rw [List.map_cons, List.map_cons, ← List.singleton_append, Json.utf8_append, ih hds,
          (hdigit d hd).1]
        rfl
  have hlt : ∀ d ∈ Decimal.digitsOf n, d < 10 := fun d hd => Decimal.lt_of_mem_digitsOf hd
  refine ⟨(Decimal.digitsOf n).map Nat.digitChar, htext _ hlt, Json.IntPart.number ?_⟩
  rcases Decimal.digitsOf_cases n with hzero | ⟨d, ds, hcons, hne⟩
  · rw [hzero]
    exact .zero
  · rw [hcons] at hlt ⊢
    obtain ⟨hd, hds⟩ := List.forall_mem_cons.mp hlt
    refine .digits (hdigit d hd).2.1 (fun h => hne ((hdigit d hd).2.2 h)) fun c hc => ?_
    obtain ⟨e, he, rfl⟩ := List.mem_map.mp hc
    exact (hdigit e (hds e he)).2.1

theorem speaks_of_carries {r : HttpResponse} {ok : Bool} {name : String} {s : List Char}
    (h : Carries r.body ok name s) (hok : ok = decide (r.status = 200 ∨ r.status = 404)) :
    Speaks r := by
  obtain ⟨v, hv⟩ := h.wellFormed
  obtain ⟨b, hb, -⟩ := h.decodes v hv
  subst hok hb
  exact ⟨_, hv⟩

theorem speaks_jsonOk {message : Bytes} (h : IsText message) : Speaks { body := jsonOk message } := by
  obtain ⟨s, rfl, hs⟩ := h
  exact speaks_of_carries ((carries_jsonOk_iff s).mpr hs) (by simp)

theorem speaks_jsonErr {status : ℕ} {message : Bytes} (hstatus : status = 400 ∨ status = 500)
    (h : IsText message) : Speaks { status := status, body := jsonErr message } := by
  obtain ⟨s, rfl, hs⟩ := h
  refine speaks_of_carries ((carries_jsonErr_iff s).mpr hs) ?_
  rcases hstatus with rfl | rfl <;> simp

namespace HttpServer
variable {T : HttpTexts} {p : Processor M}

theorem speaks_handleHealth : Speaks (handleHealth p).1 := by
  have hstatus : Json.WritesMember (['s', 't', 'a', 't', 'u', 's'], ['"', 'u', 'p', '"'])
      (['s', 't', 'a', 't', 'u', 's'], .string ['u', 'p']) :=
    ⟨rfl, Json.chars_of_forall (by simp [Json.Unescaped]),
      .string (b := ['u', 'p']) (Json.chars_of_forall (by simp [Json.Unescaped]))⟩
  exact speaks_of_objectText true (by simp) (.cons hstatus .nil) (by decide +kernel)

theorem speaks_handleDel (key : Option Bytes) : Speaks (handleDel key p).1 := by
  cases key with
  | none => exact speaks_jsonErr (.inl rfl) (isText_of_plain (by decide +kernel))
  | some key =>
      have hdeleted : ∀ deleted : Bool, Json.WritesMember
          (['d', 'e', 'l', 'e', 't', 'e', 'd'], (okMember deleted).2)
          (['d', 'e', 'l', 'e', 't', 'e', 'd'], .bool deleted) :=
        fun deleted => ⟨rfl, Json.chars_of_forall (by simp [Json.Unescaped]), .bool deleted⟩
      refine speaks_of_objectText true (by simp) (.cons (hdeleted (p.del key).1) .nil) ?_
      cases (p.del key).1 with
      | true => decide +kernel
      | false => decide +kernel

theorem speaks_handleGet (h : p.Textual) (key : Option Bytes) (now : TimePoint) :
    Speaks (handleGet key now p).1 := by
  cases key with
  | none => exact speaks_jsonErr (.inl rfl) (isText_of_plain (by decide +kernel))
  | some key =>
      cases hget : (p.get key now).1 with
      | none =>
          simp only [handleGet, hget]
          have hvalue : Json.WritesMember (['v', 'a', 'l', 'u', 'e'], ['n', 'u', 'l', 'l'])
              (['v', 'a', 'l', 'u', 'e'], .null) :=
            ⟨rfl, Json.chars_of_forall (by simp [Json.Unescaped]), .null⟩
          exact speaks_of_objectText true (by simp) (.cons hvalue .nil) (by decide +kernel)
      | some value =>
          obtain ⟨s, rfl, hs⟩ := h.cache.found hget
          refine speaks_of_carries ((carries_handleGet_iff hget).mpr hs) ?_
          simp [handleGet, hget]

theorem isText_what (hT : T.Printable M) {raw : Option Bytes} {ex : TtlError}
    (h : parseTtlMs raw = .error ex) : IsText (ex.what T) := by
  cases raw with
  | none => cases h
  | some raw =>
      simp only [parseTtlMs] at h
      split at h
      · cases h
        exact hT.stollWhat
      · split at h
        · cases h
          have htext : IsText (ascii "ttl_ms must be a non-negative integer") :=
            isText_of_plain (by decide +kernel)
          exact htext
        · cases h

theorem speaks_handleSet (hT : T.Printable M) (req : HttpRequest) (now : TimePoint) :
    Speaks (handleSet T req now p).1 := by
  unfold handleSet
  split
  · split
    · next ex hex => exact speaks_jsonErr (.inl rfl) (isText_what hT hex)
    · dsimp only
      split
      · exact speaks_jsonOk (isText_of_plain (by decide +kernel))
      · exact speaks_jsonErr (.inr rfl) (isText_of_plain (by decide +kernel))
  · exact speaks_jsonErr (.inl rfl) (isText_of_plain (by decide +kernel))

/-- Members that are numbers, as `GET /stats` writes them. -/
def numberMembers (ms : List (String × Bytes)) : Bytes :=
  ms.flatMap fun m => ascii ",\"" ++ ascii m.1 ++ ascii "\":" ++ m.2

theorem exists_numberMembers (ms : List (String × Bytes))
    (hnames : ∀ m ∈ ms, ∀ c ∈ m.1.toList, c.toNat < 128 ∧ Json.Unescaped c)
    (hnumbers : ∀ m ∈ ms, ∃ t, Json.utf8 t = m.2 ∧ Json.Number t) :
    ∃ ts xs, List.Forall₂ Json.WritesMember ts xs ∧
      Json.utf8 (Json.moreText ts) = numberMembers ms ++ ascii "\x7d" := by
  induction ms with
  | nil => exact ⟨[], [], .nil, by decide +kernel⟩
  | cons m ms ih =>
      obtain ⟨hname, hnames⟩ := List.forall_mem_cons.mp hnames
      obtain ⟨⟨t, ht, hnumber⟩, hnumbers⟩ := List.forall_mem_cons.mp hnumbers
      obtain ⟨ts, xs, hmembers, htext⟩ := ih hnames hnumbers
      have hchars := Json.chars_of_forall fun c hc => (hname c hc).2
      refine ⟨(m.1.toList, t) :: ts, (m.1.toList, .number t) :: xs,
        .cons ⟨rfl, hchars, .number hnumber⟩ hmembers, ?_⟩
      have hquote : ascii ",\"" = Json.utf8 [',', '"'] := by decide +kernel
      have hcolon : ascii "\":" = Json.utf8 ['"', ':'] := by decide +kernel
      have hhead := ascii_eq_utf8 fun c hc => (hname c hc).1
      have hcons : Json.moreText ((m.1.toList, t) :: ts) =
          [',', '"'] ++ (m.1.toList ++ (['"', ':'] ++ (t ++ Json.moreText ts))) := by
        simp [Json.moreText, Json.memberText]
      rw [hcons]
      simp only [Json.utf8_append, ← hquote, ← hcolon, ← hhead, ht, htext, numberMembers,
        List.flatMap_cons, List.append_assoc]

theorem speaks_handleStats (hT : T.Printable M) (now : TimePoint) :
    Speaks (handleStats T now p).1 := by
  generalize hs : p.cache.stats now = s
  obtain ⟨ts, xs, hmembers, htext⟩ := exists_numberMembers
    [("hits", toString s.hits), ("misses", toString s.misses),
      ("hit_ratio", T.showRatio s.hits (s.hits + s.misses)), ("evictions", toString s.evictions),
      ("expirations", toString s.expirations), ("active_keys", toString s.activeKeys),
      ("memory_bytes", toString s.memoryBytes)]
    (by simp [Json.Unescaped])
    (by simp [exists_number, hT.number])
  refine speaks_of_objectText true (by simp) hmembers ?_
  have hok : ascii "\x7b\"ok\":true" = Json.utf8 ('{' :: Json.memberText (okMember true)) := by
    decide +kernel
  have hcons : Json.objectText (okMember true) ts =
      '{' :: Json.memberText (okMember true) ++ Json.moreText ts := rfl
  rw [hcons, Json.utf8_append, htext, ← hok, hs, statsBody]
  simp [numberMembers, ascii]

/-- The payloads that do not depend on the state. -/
def fixedPayloads : List Bytes :=
  parserErrors.map (ascii "ERR " ++ ·) ++
    [ascii "PONG", Processor.helpPayload, ascii "BYE", ascii "OK", ascii "ERR set failed",
      ascii "(nil)", ascii "1", ascii "0", ascii "ERR unknown command"]

/-- The payload of a response is a text. -/
theorem isText_payload (hT : T.Printable M) (h : p.Textual) (line : Bytes) (now : TimePoint) :
    IsText (p.executeLine line now).1.payload := by
  have hfixed : ∀ payload ∈ fixedPayloads, IsText payload := by
    have hplain : ∀ payload ∈ fixedPayloads, ∀ b ∈ payload, plainByte b = true := by decide +kernel
    exact fun payload hmem => isText_of_plain (hplain payload hmem)
  cases htype : (parseTcpCommand line).type with
  | invalid =>
      simp only [Processor.executeLine, htype, if_true]
      refine hfixed _ (List.mem_append_left _ (List.mem_map_of_mem ?_))
      exact error_parseTcpCommand line
  | get =>
      simp only [Processor.executeLine, htype, reduceCtorEq, if_false, Processor.executeParsed]
      cases hget : (p.get (parseTcpCommand line).key now).1 with
      | none => exact hfixed _ (by simp [fixedPayloads])
      | some value => exact h.cache.found hget
  | stats =>
      simp only [Processor.executeLine, htype, reduceCtorEq, if_false, Processor.executeParsed,
        Processor.statsPayload]
      have hnames : ∀ name ∈ [ascii "hits=", ascii " misses=", ascii " hit_ratio=",
          ascii " evictions=", ascii " expirations=", ascii " active_keys=", ascii " memory_bytes="],
          ∀ b ∈ name, plainByte b = true := by decide +kernel
      have htexts := fun name hname => isText_of_plain (hnames name hname)
      simp only [List.forall_mem_cons] at htexts
      obtain ⟨hhits, hmisses, hratio, hevictions, hexpirations, hactive, hmemory, -⟩ := htexts
      exact (((((((((((((hhits.append (isText_toString _)).append hmisses).append
        (isText_toString _)).append hratio).append (hT.ratio _ _)).append hevictions).append
        (isText_toString _)).append hexpirations).append (isText_toString _)).append hactive).append
        (isText_toString _)).append hmemory).append (isText_toString _))
  | set | del =>
      simp only [Processor.executeLine, htype, reduceCtorEq, if_false, Processor.executeParsed]
      split <;> exact hfixed _ (by simp [fixedPayloads])
  | ping | help | quit =>
      simp only [Processor.executeLine, htype, reduceCtorEq, if_false, Processor.executeParsed]
      exact hfixed _ (by simp [fixedPayloads])

theorem speaks_handleCmd (hT : T.Printable M) (h : p.Textual) (body : Bytes) (now : TimePoint) :
    Speaks (handleCmd body now p).1 := by
  have htext := isText_payload hT h body now
  simp only [handleCmd, cmdResponse]
  split
  · exact speaks_jsonOk htext
  · exact speaks_jsonErr (.inl rfl) htext

end HttpServer

/-! ## The life of a server -/

/-- The parameters and the body of a request are texts. -/
structure HttpRequest.Textual (req : HttpRequest) : Prop where
  key : ∀ key ∈ req.param "key", IsText key
  value : ∀ value ∈ req.param "value", IsText value
  body : IsText req.body

/-- What happens to a server that is kept running. -/
inductive HttpEvent (M : Platform)
  /-- A request is served, and before it come the actions of other threads. -/
  | request (turn : Turn M) (req : HttpRequest)
  /-- The process is stopped in order, and started again. -/
  | restart (ord : HashOrder Bytes Bytes) (t : Instant) (clock : RecoveryClock)
  /-- The process is killed between two writes to its files, and started again. -/
  | crash (clock : RecoveryClock)

def HttpEvent.Textual : HttpEvent M → Prop
  | .request turn req => (∀ x ∈ turn.others, x.2.Textual) ∧ req.Textual
  | .restart _ _ _ | .crash _ => True

namespace HttpServer
variable {T : HttpTexts}

/-- The response to an event, if there is one, and the server after it. -/
def happen (T : HttpTexts) (e : HttpEvent M) (s : Server M) : Option HttpResponse × Server M :=
  match e with
  | .request turn req => serve T (turn, req) s
  | .restart ord t clock => (none, (s.shutdown ord t).restart clock)
  | .crash clock => (none, s.restart clock)

/-- The event is a request for the page. -/
def ForPage : HttpEvent M → Prop
  | .request _ req => req.route = some .root
  | .restart _ _ _ | .crash _ => False

/-- All responses of a run but the page are JSON. -/
def AlwaysSpeaks (T : HttpTexts) (es : List (HttpEvent M)) (s : Server M) : Prop :=
  ∀ x ∈ es.zip (Transition.outputs (happen T) es s), ¬ ForPage x.1 → ∀ r ∈ x.2, Speaks r

theorem textual_handle {p : Processor M} (h : p.Textual) {req : HttpRequest} (hreq : req.Textual)
    (now : TimePoint) : (handle T req now p).2.Textual := by
  simp only [handle]
  cases req.route with
  | none => exact h
  | some route =>
      cases route with
      | root | health | stats => exact h
      | cmd => exact h.executeLine hreq.body now
      | get =>
          cases hkey : req.param "key" with
          | none => exact h
          | some key =>
              simp only [handleGet]
              split <;> exact h.get key now
      | del =>
          cases hkey : req.param "key" with
          | none => exact h
          | some key => exact h.del (hreq.key key hkey)
      | set =>
          simp only [handleSet]
          split
          · next key value hkey hvalue =>
            split
            · exact h
            · next ttl _ =>
              split <;> exact h.set (hreq.key key hkey) (hreq.value value hvalue) ttl now
          · exact h

theorem speaks_handle (hT : T.Printable M) {p : Processor M} (h : p.Textual) (req : HttpRequest)
    (now : TimePoint) (hroute : req.route ≠ some .root) :
    ∀ r ∈ (handle T req now p).1, Speaks r := by
  have hsome : ∀ {x r : HttpResponse}, Speaks x → r ∈ some x → Speaks r := by
    intro x r hx hr
    cases hr
    exact hx
  simp only [handle]
  cases hreq : req.route with
  | none => simp
  | some route =>
      intro r
      cases route with
      | root => exact absurd hreq hroute
      | health => exact hsome speaks_handleHealth
      | set => exact hsome (speaks_handleSet hT req now)
      | get => exact hsome (speaks_handleGet h _ now)
      | del => exact hsome (speaks_handleDel _)
      | stats => exact hsome (speaks_handleStats hT now)
      | cmd => exact hsome (speaks_handleCmd hT h _ now)

theorem happen_textual (hT : T.Printable M) {s : Server M} (h : s.Textual) {e : HttpEvent M}
    (he : e.Textual) :
    (¬ ForPage e → ∀ r ∈ (happen T e s).1, Speaks r) ∧ (happen T e s).2.Textual := by
  cases e with
  | request turn req =>
      have hafter := h.after he.1
      exact ⟨fun hpage => speaks_handle hT hafter.processor req _ hpage,
        textual_handle hafter.processor he.2 _, hafter.aof, hafter.snapshot⟩
  | restart ord t clock => exact ⟨by simp [happen], (h.shutdown ord t).restart clock⟩
  | crash clock => exact ⟨by simp [happen], h.restart clock⟩

/-- **Every response but the page is JSON**, over the whole life of a server: started on files of
texts, through any requests, commands of other clients, expirations, snapshots, restarts and crashes.
It is an object, and its `ok` tells the statuses 200 and 404 from 400 and 500. -/
theorem responses_are_json (hT : T.Printable M) (capacity : ℕ) (clock : RecoveryClock)
    {snapshot aof : Bytes} (hsnapshot : IsText snapshot) (haof : IsText aof)
    {es : List (HttpEvent M)} (hes : ∀ e ∈ es, e.Textual) :
    AlwaysSpeaks T es (Server.start M capacity clock snapshot aof) := by
  have hstart : (Server.start M capacity clock snapshot aof).Textual :=
    Server.Textual.start capacity clock hsnapshot haof
  have hrun := Transition.outputs_of_invariant (f := happen T) (I := Server.Textual)
    (Q := fun e o => ¬ ForPage e → ∀ r ∈ o, Speaks r)
    (fun e he _ hs => happen_textual hT hs (hes e he)) hstart
  exact hrun.1

theorem printable_plainTexts : plainTexts.Printable Platform.oneShard := by
  refine ⟨isText_of_plain (by decide +kernel), fun _ _ => ⟨"0.500000".toList, ?_, ?_⟩,
    fun _ _ => isText_nil⟩
  · change Json.utf8 "0.500000".toList = ascii "0.500000"
    decide +kernel
  · refine ⟨[], ['0'], '.' :: "500000".toList, [], by simp, by simp, .zero, .digits ?_, .absent⟩
    exact ⟨by simp, by simp⟩

/-- A value with a quotation mark and a letter that is not ASCII is set, and read after a restart. -/
def setThenRestart : List (HttpEvent Platform.oneShard) :=
  [.request ⟨[], ⟨0, 0⟩⟩ ⟨.post, ascii "/set",
      params [("key", ascii "k"), ("value", Json.utf8 ['"', 'é'])], []⟩,
    .restart ⟨fun m => m.entries, fun _ => .refl _⟩ ⟨1, 1⟩ ⟨fun _ => 2, fun _ => 2⟩,
    .request ⟨[], ⟨3, 3⟩⟩ ⟨.get, ascii "/get", params [("key", ascii "k")], []⟩]

theorem responses_are_json_setThenRestart :
    AlwaysSpeaks plainTexts setThenRestart
      (Server.start Platform.oneShard 64 ⟨fun _ => 0, fun _ => 0⟩ [] []) := by
  refine responses_are_json printable_plainTexts 64 _ isText_nil isText_nil ?_
  have hk : IsText (ascii "k") := isText_of_plain (by decide +kernel)
  have hv : IsText (Json.utf8 ['"', 'é']) := ⟨_, rfl, by simp [Json.Printable]⟩
  simp only [setThenRestart, List.forall_mem_cons]
  refine ⟨⟨by simp, ?_, ?_, isText_nil⟩, trivial, ⟨by simp, ?_, ?_, isText_nil⟩, by simp⟩
  · simpa [params, List.lookup_cons] using hk
  · simpa [params, List.lookup_cons] using hv
  · simpa [params, List.lookup_cons] using hk
  · simp [params, List.lookup_cons]

end HttpServer

end MiniRedis
