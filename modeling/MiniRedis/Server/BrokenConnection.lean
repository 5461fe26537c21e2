import MiniRedis.Server.SendAll
import MiniRedis.Server.TcpServer

/-!
# A connection that breaks

`handle_client` executes a command, sends the response, and ends if that fails. The network can take
any part of a response before it fails, or never take the rest. What is executed is a first part of
the commands of the stream all the same, and a client that counts the complete lines it has received
knows it up to one command: every line is the answer to its command, in order, and of the lines owed
for what has been executed at most the last one is missing.
-/
namespace MiniRedis
variable {M : Platform} {api : SocketApi}

/-- What the calls of `send` return while `send_all` sends the `n`th text of a connection. None
accepts more than it is asked to. -/
structure Network (api : SocketApi) where
  results : ℕ → Bytes → List SendResult
  honest : ∀ n data, (sendLoop api data (results n data) 0).Honest

/-- `send_all` of the `n`th text. -/
def Network.transmit (net : Network api) (n : ℕ) (data : Bytes) : SendRun :=
  sendLoop api data (net.results n data) 0

/-- The state of `handle_client`. -/
structure Connection (M : Platform) where
  server : Server M
  /-- What the calls of `send` have transmitted. -/
  wire : List (Option UInt8)
  alive : Bool
  executed : List Bytes

namespace Connection

/-- What happens with a line that was cut off the buffer. A `send_all` that does not return is the
last thing that happens, like one that fails. -/
def handleLine (net : Network api) (turns : ℕ → Turn M) (raw : Bytes) (h : Connection M) :
    Connection M :=
  let line := sanitizeLine raw
  if line.isEmpty then h
  else
    let r := h.server.executeAt (turns h.executed.length) line
    let response := r.1.payload ++ [newline]
    let run := net.transmit (h.executed.length + 1) response
    { server := r.2
      wire := h.wire ++ run.wire response
      alive := run.returned == some true && !r.1.shouldExit
      executed := h.executed ++ [line] }

/-- `handle_client`. After the chunks the connection is closed or breaks. -/
def handleClient (net : Network api) (turns : ℕ → Turn M) (chunks : List Chunk)
    (server : Server M) : Connection M :=
  let run := net.transmit 0 greeting
  let h : Connection M := ⟨server, run.wire greeting, run.returned == some true, []⟩
  if h.alive then
    LineReader.receive newline alive (handleLine net turns) (chunks.map Chunk.bytes) [] h
  else h

end Connection

/-! ## What a client knows -/

/-- Texts as they are sent, each with a newline. -/
def frames (texts : List Bytes) : Bytes := texts.flatMap fun text => text ++ [newline]

/-- The line that greets a client. -/
def greetingLine : Bytes := ascii "OK mini-redis tcp server ready"

/-- The lines that are owed: the greeting, and an answer for each command. -/
def owed (turns : ℕ → Turn M) (s : Server M) (cmds : List Bytes) : List Bytes :=
  greetingLine :: (s.respond turns 0 cmds).1

/-- The texts have been transmitted, whole or up to a point before the newline of the last one. -/
inductive Sent : List Bytes → List (Option UInt8) → Bool → Prop
  | whole (texts : List Bytes) : Sent texts ((frames texts).map some) true
  | part {texts : List Bytes} {last part : Bytes} (h : part <+: last) :
      Sent (texts ++ [last]) ((frames texts ++ part).map some) false

/-- What a client reads of the lines. -/
theorem Sent.received {texts : List Bytes} {wire : List (Option UInt8)} {whole : Bool}
    (h : Sent texts wire whole) (htexts : ∀ text ∈ texts, newline ∉ text) :
    ∃ bytes, wire = bytes.map some ∧ Splitting.terminated newline bytes =
      if whole then texts else texts.dropLast := by
  cases h with
  | whole =>
      refine ⟨frames texts, rfl, ?_⟩
      rw [Splitting.terminated, frames, Splitting.cutFrom_flatMap htexts]
      rfl
  | @part init last part hpart =>
      have hinit : ∀ text ∈ init, newline ∉ text := fun text h =>
        htexts text (List.mem_append_left _ h)
      have hlast : newline ∉ part := fun hmem =>
        htexts last (by simp) (hpart.subset hmem)
      refine ⟨frames init ++ part, rfl, ?_⟩
      simp only [Bool.false_eq_true, if_false, List.dropLast_concat]
      exact Splitting.terminated_flatMap_append hinit hlast

/-- `send_all` of one more line. -/
theorem Sent.transmit {texts : List Bytes} {wire : List (Option UInt8)} (h : Sent texts wire true)
    (net : Network api) (n : ℕ) {text : Bytes} (hshort : text.length + 1 < 2 ^ 31) :
    Sent (texts ++ [text]) (wire ++ (net.transmit n (text ++ [newline])).wire (text ++ [newline]))
      ((net.transmit n (text ++ [newline])).returned == some true) := by
  have hlen : (text ++ [newline]).length = text.length + 1 := by simp
  have htransmits : (net.transmit n (text ++ [newline])).Transmits (text ++ [newline]) 0 :=
    (sendLoop_transmits_iff api (by omega) _ (Nat.zero_le _) (net.honest n _)).mpr
      (.inl (by omega))
  have hframes : wire = (frames texts).map some := by cases h; rfl
  subst hframes
  generalize net.transmit n (text ++ [newline]) = run at htransmits
  obtain ⟨-, hprefix, htrue, -⟩ := htransmits
  rw [List.drop_zero] at hprefix htrue
  cases hreturned : run.returned == some true with
  | true =>
      rw [htrue.mp (by simpa using hreturned), ← List.map_append]
      have hwhole : frames texts ++ (text ++ [newline]) = frames (texts ++ [text]) := by
        simp [frames]
      rw [hwhole]
      exact .whole _
  | false =>
      obtain ⟨part, hpart, hwire⟩ := List.prefix_map_iff.mp hprefix
      rw [hwire, ← List.map_append]
      rcases List.prefix_concat_iff.mp hpart with rfl | hpart
      · simp [htrue.mpr hwire] at hreturned
      · exact .part hpart

/-! ## The handler -/

theorem respond_append (turns : ℕ → Turn M) (n : ℕ) (cmds cmds' : List Bytes) (s : Server M) :
    s.respond turns n (cmds ++ cmds') =
      ((s.respond turns n cmds).1 ++
          ((s.respond turns n cmds).2.respond turns (n + cmds.length) cmds').1,
        ((s.respond turns n cmds).2.respond turns (n + cmds.length) cmds').2) := by
  induction cmds generalizing n s with
  | nil => rfl
  | cons cmd cmds ih =>
      have hcount : n + 1 + cmds.length = n + (cmds.length + 1) := by omega
      simp only [List.cons_append, Server.respond, ih, hcount, List.length_cons]

/-- The answers to the first commands do not depend on the later ones. -/
theorem respond_initial (turns : ℕ → Turn M) (n : ℕ) {cmds cmds' : List Bytes} (h : cmds <+: cmds')
    (s : Server M) : (s.respond turns n cmds).1 <+: (s.respond turns n cmds').1 := by
  obtain ⟨rest, rfl⟩ := h
  rw [respond_append]
  exact List.prefix_append _ _

namespace Connection

/-- The commands have been executed, and their answers sent behind the greeting. -/
structure Progress (turns : ℕ → Turn M) (s : Server M) (cmds : List Bytes) (whole : Bool)
    (h : Connection M) : Prop where
  executed : h.executed = cmds
  server : h.server = (s.respond turns 0 cmds).2
  sent : Sent (owed turns s cmds) h.wire whole

section Handling
variable {turns : ℕ → Turn M} {s : Server M} {cmds : List Bytes} {raw : Bytes}
  {h : Connection M}

/-- One command. The handler goes on if its answer was sent and it is not a `QUIT`. -/
theorem Progress.handleLine (P : Progress turns s cmds true h) (net : Network api)
    (hline : (sanitizeLine raw).isEmpty = false)
    (hshort : ∀ payload ∈ (s.respond turns 0 (cmds ++ [sanitizeLine raw])).1,
      payload.length + 1 < 2 ^ 31) :
    ∃ whole, Progress turns s (cmds ++ [sanitizeLine raw]) whole (handleLine net turns raw h) ∧
      ((handleLine net turns raw h).alive = true ↔
        whole = true ∧ (parseTcpCommand (sanitizeLine raw)).type ≠ .quit) := by
  have hsnoc := respond_append turns 0 cmds [sanitizeLine raw] s
  rw [Nat.zero_add, ← P.server] at hsnoc
  simp only [Server.respond] at hsnoc
  generalize hr : h.server.executeAt (turns cmds.length) (sanitizeLine raw) = r at hsnoc
  have hexit : r.1.shouldExit = true ↔ (parseTcpCommand (sanitizeLine raw)).type = .quit := by
    rw [← hr]
    exact Processor.shouldExit_executeLine (sanitizeLine raw) _
  have hlen : r.1.payload.length + 1 < 2 ^ 31 := hshort _ (by simp [hsnoc])
  have hsent := P.sent.transmit net (cmds.length + 1) hlen
  have howed : owed turns s (cmds ++ [sanitizeLine raw]) = owed turns s cmds ++ [r.1.payload] := by
    simp [owed, hsnoc]
  generalize hrun : net.transmit (cmds.length + 1) (r.1.payload ++ [newline]) = run at hsent
  have hstep : Connection.handleLine net turns raw h =
      { server := r.2
        wire := h.wire ++ run.wire (r.1.payload ++ [newline])
        alive := run.returned == some true && !r.1.shouldExit
        executed := cmds ++ [sanitizeLine raw] } := by
    simp only [Connection.handleLine, hline, Bool.false_eq_true, if_false, P.executed, hr, hrun]
  rw [hstep]
  refine ⟨run.returned == some true, ⟨rfl, ?_, ?_⟩, ?_⟩
  · rw [hsnoc]
  · rw [howed]
    exact hsent
  · rw [Bool.and_eq_true, Bool.not_eq_true', ← Bool.not_eq_true, ne_eq, ← hexit]

/-- What is served of lines: a first part of their commands, and all up to the first `QUIT` if
everything was sent. The induction is on the lines. -/
theorem Progress.serve (P : Progress turns s cmds true h) (net : Network api) (lines : List Bytes)
    (hshort : ∀ payload ∈ (s.respond turns 0 (cmds ++
      uptoQuit ((lines.map sanitizeLine).filter fun l => !l.isEmpty))).1, payload.length + 1 < 2 ^ 31)
    (halive : h.alive = true) :
    ∃ cmds' whole, Progress turns s (cmds ++ cmds') whole
        (LineReader.serve alive (Connection.handleLine net turns) lines h) ∧
      cmds' <+: uptoQuit ((lines.map sanitizeLine).filter fun l => !l.isEmpty) ∧
      (whole = true → cmds' = uptoQuit ((lines.map sanitizeLine).filter fun l => !l.isEmpty)) := by
  induction lines generalizing h cmds with
  | nil =>
      refine ⟨[], true, ?_, List.nil_prefix, fun _ => rfl⟩
      rw [List.append_nil]
      exact P
  | cons raw lines ih =>
      rw [LineReader.serve]
      simp only [List.map_cons] at hshort ⊢
      cases hline : (sanitizeLine raw).isEmpty with
      | true =>
          have hsame : Connection.handleLine net turns raw h = h := by
            simp only [Connection.handleLine, hline, if_true]
          rw [hsame, if_pos halive, List.filter_cons_of_neg (by simp [hline])]
          rw [List.filter_cons_of_neg (by simp [hline])] at hshort
          exact ih P hshort halive
      | false =>
          rw [List.filter_cons_of_pos (by simp [hline]), uptoQuit]
          rw [List.filter_cons_of_pos (by simp [hline]), uptoQuit] at hshort
          have hfirst : ∀ rest, ∀ payload ∈ (s.respond turns 0 (cmds ++ [sanitizeLine raw])).1,
              payload ∈ (s.respond turns 0 (cmds ++ sanitizeLine raw :: rest)).1 :=
            fun rest payload hmem => (respond_initial turns 0 ⟨rest, by simp⟩ s).subset hmem
          by_cases hquit : (parseTcpCommand (sanitizeLine raw)).type = .quit
          · rw [if_pos hquit] at hshort ⊢
            obtain ⟨whole, P', hnext⟩ := P.handleLine net hline hshort
            have hdead : ¬ (Connection.handleLine net turns raw h).alive = true :=
              fun hl => (hnext.mp hl).2 hquit
            rw [if_neg hdead]
            exact ⟨_, whole, P', List.prefix_refl _, fun _ => rfl⟩
          · rw [if_neg hquit] at hshort ⊢
            obtain ⟨whole, P', hnext⟩ := P.handleLine net hline
              fun payload hmem => hshort payload (hfirst _ payload hmem)
            cases whole with
            | true =>
                rw [if_pos (hnext.mpr ⟨rfl, hquit⟩)]
                obtain ⟨cmds', whole, P'', hprefix, hall⟩ :=
                  ih P' (by simpa using hshort) (hnext.mpr ⟨rfl, hquit⟩)
                refine ⟨sanitizeLine raw :: cmds', whole, by simpa using P'', ?_, fun hw => ?_⟩
                · exact List.cons_prefix_cons.mpr ⟨rfl, hprefix⟩
                · rw [hall hw]
            | false =>
                have hdead : ¬ (Connection.handleLine net turns raw h).alive = true :=
                  fun hl => by simpa using (hnext.mp hl).1
                rw [if_neg hdead]
                refine ⟨[sanitizeLine raw], false, P', ?_, by simp⟩
                exact List.cons_prefix_cons.mpr ⟨rfl, List.nil_prefix⟩

end Handling

end Connection

namespace Connection

end Connection
end MiniRedis
