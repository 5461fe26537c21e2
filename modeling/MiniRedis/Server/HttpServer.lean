import MiniRedis.Server.Http
import MiniRedis.Server.TcpServer
import MiniRedis.Server.TtlRange

/-!
# The HTTP server

A handler for each route of the server: what it reads of a request, what it does to the processor
and what it answers. Every route is a command in other clothes. As long as keys and values are ones
that a command line can name, a session of requests does to the processor exactly what the session of
their command lines does, and the responses say the same.
-/
namespace MiniRedis
variable {M : Platform}

inductive HttpMethod
  | get
  | post
  | delete
  deriving DecidableEq, Repr

/-- What the handlers see of a request: `param` is the value of a parameter, if it has one. -/
structure HttpRequest where
  method : HttpMethod
  path : Bytes
  param : String → Option Bytes
  body : Bytes

/-- The handlers that `main` registers. -/
inductive Route
  | root
  | health
  | set
  | get
  | del
  | stats
  | cmd
  deriving DecidableEq, Repr

/-- The handler of a request. -/
def HttpRequest.route (req : HttpRequest) : Option Route :=
  match req.method with
  | .get =>
      if req.path = ascii "/" then some .root
      else if req.path = ascii "/health" then some .health
      else if req.path = ascii "/get" then some .get
      else if req.path = ascii "/stats" then some .stats
      else none
  | .post =>
      if req.path = ascii "/set" then some .set
      else if req.path = ascii "/cmd" then some .cmd
      else none
  | .delete => if req.path = ascii "/del" then some .del else none

/-- What the build and the standard library put into responses: the page, the message of the
exceptions of `std::stoll`, one for both of them as in libstdc++, and `std::to_string` of a ratio. -/
structure HttpTexts where
  page : Bytes
  stollWhat : Bytes
  showRatio : ℕ → ℕ → Bytes

/-- `ex.what()` -/
def TtlError.what (T : HttpTexts) : TtlError → Bytes
  | .stoll => T.stollWhat
  | .runtimeError what => what

namespace HttpServer
variable (T : HttpTexts)

/-- `GET /` -/
def handleRoot (p : Processor M) : HttpResponse × Processor M := ({ body := T.page }, p)

/-- `GET /health` -/
def handleHealth (p : Processor M) : HttpResponse × Processor M :=
  ({ body := ascii "\x7b\"ok\":true,\"status\":\"up\"\x7d" }, p)

/-- `POST /set` -/
def handleSet (req : HttpRequest) (now : TimePoint) (p : Processor M) :
    HttpResponse × Processor M :=
  match req.param "key", req.param "value" with
  | some key, some value =>
      match parseTtlMs (req.param "ttl_ms") with
      | .error ex => ({ status := 400, body := jsonErr (ex.what T) }, p)
      | .ok ttl =>
          let r := p.set key value ttl now
          if r.1 then ({ body := jsonOk (ascii "OK") }, r.2)
          else ({ status := 500, body := jsonErr (ascii "set failed") }, r.2)
  | _, _ =>
      ({ status := 400,
         body := jsonErr (ascii "usage: POST /set?key=<k>&value=<v>[&ttl_ms=<n>]]") }, p)

/-- `DELETE /del` -/
def handleDel (key : Option Bytes) (p : Processor M) : HttpResponse × Processor M :=
  match key with
  | none => ({ status := 400, body := jsonErr (ascii "usage: DELETE /del?key=<k>") }, p)
  | some key =>
      let r := p.del key
      ({ body := ascii "\x7b\"ok\":true,\"deleted\":" ++
          (if r.1 then ascii "true\x7d" else ascii "false\x7d") }, r.2)

/-- The payload of `GET /stats`. -/
def statsBody (s : CacheStats) : Bytes :=
  ascii "\x7b\"ok\":true" ++
    ascii ",\"hits\":" ++ toString s.hits ++
    ascii ",\"misses\":" ++ toString s.misses ++
    ascii ",\"hit_ratio\":" ++ T.showRatio s.hits (s.hits + s.misses) ++
    ascii ",\"evictions\":" ++ toString s.evictions ++
    ascii ",\"expirations\":" ++ toString s.expirations ++
    ascii ",\"active_keys\":" ++ toString s.activeKeys ++
    ascii ",\"memory_bytes\":" ++ toString s.memoryBytes ++ ascii "\x7d"

/-- `GET /stats` -/
def handleStats (now : TimePoint) (p : Processor M) : HttpResponse × Processor M :=
  ({ body := statsBody T (p.cache.stats now) }, p)

/-- The response of `POST /cmd` to what the processor has answered. -/
def cmdResponse (response : CommandResponse) : HttpResponse :=
  if response.ok then { body := jsonOk response.payload }
  else { status := 400, body := jsonErr response.payload }

/-- `POST /cmd` -/
def handleCmd (body : Bytes) (now : TimePoint) (p : Processor M) : HttpResponse × Processor M :=
  let r := p.executeLine body now
  (cmdResponse r.1, r.2)

/-- The server. The library answers requests that have no handler by itself. -/
def handle (req : HttpRequest) (now : TimePoint) (p : Processor M) :
    Option HttpResponse × Processor M :=
  let respond (r : HttpResponse × Processor M) : Option HttpResponse × Processor M := (some r.1, r.2)
  match req.route with
  | some .root => respond (handleRoot T p)
  | some .health => respond (handleHealth p)
  | some .set => respond (handleSet T req now p)
  | some .get => respond (handleGet (req.param "key") now p)
  | some .del => respond (handleDel (req.param "key") p)
  | some .stats => respond (handleStats T now p)
  | some .cmd => respond (handleCmd req.body now p)
  | none => (none, p)

end HttpServer

/-! ## The command line of a request -/

/-- The line of a `GET`. -/
def getLine (key : Bytes) : Bytes := ascii "GET " ++ key

/-- What `POST /set` hands to the processor, if the request is one. -/
def HttpRequest.set? (req : HttpRequest) : Option WriteCommand :=
  match req.param "key", req.param "value", parseTtlMs (req.param "ttl_ms") with
  | some key, some value, .ok ttl => some (.set key value ttl)
  | _, _, _ => none

/-- The command that does what the handler does, if it calls the processor. -/
def HttpRequest.line (req : HttpRequest) : Option Bytes :=
  match req.route with
  | some .set => req.set?.map WriteCommand.line
  | some .get => (req.param "key").map getLine
  | some .del => (req.param "key").map recordDel
  | some .stats => some (ascii "STATS")
  | some .cmd => some req.body
  | some .root | some .health | none => none

/-- The keys and values of the parameters are ones that a command line can name. -/
structure HttpRequest.Plain (req : HttpRequest) : Prop where
  key : ∀ key ∈ req.param "key", Storable key
  value : ∀ value ∈ req.param "value", Storable value

theorem parseTcpCommand_getLine {key : Bytes} (hk : Storable key) :
    parseTcpCommand (getLine key) = { type := .get, key := key } := by
  have hget : Storable (ascii "GET") := by decide +kernel
  have hwords : tcpSplitWs (getLine key) = [ascii "GET", key] := by
    change tcpSplitWs (ascii "GET" ++ 32 :: key) = _
    rw [tcpSplitWs_append_space hget, words_of_storable hk]
  rw [parseTcpCommand_of_words hwords]
  rfl

/-- A request for `POST /set` is well formed for the processor. -/
theorem HttpRequest.Plain.storable_set? {req : HttpRequest} (h : req.Plain) {w : WriteCommand}
    (hw : req.set? = some w) : w.Storable := by
  unfold HttpRequest.set? at hw
  split at hw
  · next key value ttl hkey hvalue httl =>
    cases hw
    refine ⟨h.key key hkey, h.value value hvalue, ?_⟩
    intro d hd
    cases hraw : req.param "ttl_ms" with
    | none =>
        rw [hraw] at httl
        cases httl
        cases hd
    | some raw =>
        rw [hraw, Option.mem_def.mp hd] at httl
        exact range_of_parseTtlMs httl
  · cases hw

/-- The response of the HTTP server says what the answer to the command line says. -/
inductive Renders (T : HttpTexts) (M : Platform) :
    HttpRequest → Option HttpResponse → Option CommandResponse → Prop
  /-- No command is executed: the page, the health check, a usage or ttl error, another route. -/
  | unexecuted {req : HttpRequest} {response : Option HttpResponse} (h : req.line = none) :
      Renders T M req response none
  | set {req : HttpRequest} (h : req.route = some .set) :
      Renders T M req (some { body := jsonOk (ascii "OK") }) (some { payload := ascii "OK" })
  | setFailed {req : HttpRequest} (h : req.route = some .set) :
      Renders T M req (some { status := 500, body := jsonErr (ascii "set failed") })
        (some { ok := false, payload := ascii "ERR set failed" })
  | found {req : HttpRequest} (h : req.route = some .get) (value : Bytes) :
      Renders T M req (some { body := jsonBody "\x7b\"ok\":true,\"value\":\"" value })
        (some { payload := value })
  | missing {req : HttpRequest} (h : req.route = some .get) :
      Renders T M req (some { status := 404, body := ascii "\x7b\"ok\":true,\"value\":null\x7d" })
        (some { payload := ascii "(nil)" })
  | del {req : HttpRequest} (h : req.route = some .del) (deleted : Bool) :
      Renders T M req
        (some { body := ascii "\x7b\"ok\":true,\"deleted\":" ++
          (if deleted then ascii "true\x7d" else ascii "false\x7d") })
        (some { payload := if deleted then ascii "1" else ascii "0" })
  | stats {req : HttpRequest} (h : req.route = some .stats) (s : CacheStats) :
      Renders T M req (some { body := HttpServer.statsBody T s })
        (some { payload := Processor.statsPayload M s })
  | cmd {req : HttpRequest} (h : req.route = some .cmd) (response : CommandResponse) :
      Renders T M req (some (HttpServer.cmdResponse response)) (some response)

namespace HttpServer
variable {T} {p : Processor M} {req : HttpRequest} {now : TimePoint}

/-- The command line of a request, executed if there is one. -/
def executeRequest (req : HttpRequest) (now : TimePoint) (p : Processor M) :
    Option CommandResponse × Processor M :=
  match req.line with
  | some line =>
      let r := p.executeLine line now
      (some r.1, r.2)
  | none => (none, p)

/-- Both do the same to the processor, and say the same. -/
def Agrees (T : HttpTexts) (req : HttpRequest) (x : HttpResponse × Processor M)
    (y : Option CommandResponse × Processor M) : Prop :=
  Renders T M req (some x.1) y.1 ∧ x.2 = y.2

theorem executeLine_storable {w : WriteCommand} (hw : w.Storable) (now : TimePoint)
    (p : Processor M) : p.executeLine w.line now =
      match w with
      | .set key value ttl =>
          ({ ok := (p.set key value ttl now).1,
             payload := if (p.set key value ttl now).1 then ascii "OK"
              else ascii "ERR set failed" }, (p.set key value ttl now).2)
      | .del key => ({ payload := if (p.del key).1 then ascii "1" else ascii "0" }, (p.del key).2) := by
  cases w with
  | set key value ttl =>
      have hparse : parseTcpCommand (WriteCommand.set key value ttl).line = _ :=
        parseTcpCommand_setLine hw.1 hw.2.1 hw.2.2
      simp [Processor.executeLine, hparse, Processor.executeParsed]
  | del key =>
      have hparse : parseTcpCommand (WriteCommand.del key).line = _ := parseTcpCommand_recordDel hw
      simp [Processor.executeLine, hparse, Processor.executeParsed]

theorem agrees_set (hreq : req.Plain) (hroute : req.route = some .set) (now : TimePoint) (p : Processor M) :
    Agrees T req (handleSet T req now p) (executeRequest req now p) := by
  have hline : req.line = req.set?.map WriteCommand.line := by simp [HttpRequest.line, hroute]
  cases hset : req.set? with
  | none =>
      have hnone : req.line = none := by rw [hline, hset, Option.map_none]
      have hstate : (handleSet T req now p).2 = p := by
        unfold HttpRequest.set? at hset
        unfold handleSet
        split
        · next key value hkey hvalue =>
          split
          · rfl
          · next ttl httl => simp [hkey, hvalue, httl] at hset
        · rfl
      simp only [Agrees, executeRequest, hnone]
      exact ⟨.unexecuted hnone, hstate⟩
  | some w =>
      have hw := hreq.storable_set? hset
      have hsome : req.line = some w.line := by rw [hline, hset, Option.map_some]
      unfold HttpRequest.set? at hset
      split at hset
      · next key value ttl hkey hvalue httl =>
        cases hset
        simp only [Agrees, executeRequest, hsome, executeLine_storable hw, handleSet, hkey, hvalue, httl]
        cases hok : (p.set key value ttl now).1 with
        | true => exact ⟨.set hroute, rfl⟩
        | false => exact ⟨.setFailed hroute, rfl⟩
      · cases hset

theorem agrees_get (hreq : req.Plain) (hroute : req.route = some .get) (now : TimePoint) (p : Processor M) :
    Agrees T req (handleGet (req.param "key") now p) (executeRequest req now p) := by
  have hline : req.line = (req.param "key").map getLine := by simp [HttpRequest.line, hroute]
  cases hkey : req.param "key" with
  | none =>
      have hnone : req.line = none := by rw [hline, hkey, Option.map_none]
      simp only [Agrees, executeRequest, hnone, handleGet]
      exact ⟨.unexecuted hnone, trivial⟩
  | some key =>
      have hsome : req.line = some (getLine key) := by rw [hline, hkey, Option.map_some]
      have hparse := parseTcpCommand_getLine (hreq.key key hkey)
      simp only [Agrees, executeRequest, hsome, Processor.executeLine, hparse, reduceCtorEq, if_false,
        Processor.executeParsed, handleGet]
      cases hfound : (p.get key now).1 with
      | none => exact ⟨.missing hroute, rfl⟩
      | some value => exact ⟨.found hroute value, rfl⟩

theorem agrees_del (hreq : req.Plain) (hroute : req.route = some .del) (now : TimePoint) (p : Processor M) :
    Agrees T req (handleDel (req.param "key") p) (executeRequest req now p) := by
  have hline : req.line = (req.param "key").map recordDel := by
    simp [HttpRequest.line, hroute]
  cases hkey : req.param "key" with
  | none =>
      have hnone : req.line = none := by rw [hline, hkey, Option.map_none]
      simp only [Agrees, executeRequest, hnone, handleDel]
      exact ⟨.unexecuted hnone, trivial⟩
  | some key =>
      have hsome : req.line = some (recordDel key) := by rw [hline, hkey, Option.map_some]
      have hexec := executeLine_storable (w := .del key) (hreq.key key hkey) now p
      rw [WriteCommand.line] at hexec
      simp only [Agrees, executeRequest, hsome, hexec, handleDel]
      exact ⟨.del hroute _, trivial⟩

theorem agrees_stats (hroute : req.route = some .stats) (now : TimePoint) (p : Processor M) :
    Agrees T req (handleStats T now p) (executeRequest req now p) := by
  have hline : req.line = some (ascii "STATS") := by simp [HttpRequest.line, hroute]
  have hparse : parseTcpCommand (ascii "STATS") = { type := .stats } := by decide +kernel
  simp only [Agrees, executeRequest, hline, handleStats, Processor.executeLine, hparse,
    reduceCtorEq, if_false, Processor.executeParsed]
  exact ⟨.stats hroute _, trivial⟩

theorem agrees_cmd (hroute : req.route = some .cmd) (now : TimePoint) (p : Processor M) :
    Agrees T req (handleCmd req.body now p) (executeRequest req now p) := by
  have hline : req.line = some req.body := by simp [HttpRequest.line, hroute]
  simp only [Agrees, executeRequest, hline, handleCmd]
  exact ⟨.cmd hroute _, trivial⟩

/-- A request does what its command line does, and the response says what the answer says. -/
theorem handle_executeRequest (hreq : req.Plain) (now : TimePoint) (p : Processor M) :
    Renders T M req (handle T req now p).1 (executeRequest req now p).1 ∧
      (handle T req now p).2 = (executeRequest req now p).2 := by
  have hother : ∀ response, req.line = none →
      Renders T M req response (executeRequest req now p).1 ∧ p = (executeRequest req now p).2 := by
    intro response hnone
    simp only [executeRequest, hnone]
    exact ⟨.unexecuted hnone, trivial⟩
  simp only [handle]
  cases hroute : req.route with
  | none => exact hother _ (by simp [HttpRequest.line, hroute])
  | some route =>
      cases route with
      | root | health => exact hother _ (by simp [HttpRequest.line, hroute])
      | set => exact agrees_set hreq hroute now p
      | get => exact agrees_get hreq hroute now p
      | del => exact agrees_del hreq hroute now p
      | stats => exact agrees_stats hroute now p
      | cmd => exact agrees_cmd hroute now p

/-! ## Sessions -/

/-- A request is served, and before it come the actions of other threads. -/
def serve (T : HttpTexts) (x : Turn M × HttpRequest) (s : Server M) :
    Option HttpResponse × Server M :=
  let s := s.after x.1.others
  let r := handle T x.2 x.1.time.now s.processor
  (r.1, { s with processor := r.2 })

/-- The command line of the request is executed in its place. -/
def perform (x : Turn M × HttpRequest) (s : Server M) : Option CommandResponse × Server M :=
  let s := s.after x.1.others
  let r := executeRequest x.2 x.1.time.now s.processor
  (r.1, { s with processor := r.2 })

/-- **A session over HTTP is the session of its command lines.** Whatever other threads do in the
meantime, both leave the same server, with the same cache, queue and files, and each response says
what the answer to the command line says. -/
theorem session_agrees (T : HttpTexts) {xs : List (Turn M × HttpRequest)}
    (h : ∀ x ∈ xs, x.2.Plain) (s : Server M) :
    List.Forall₂ (fun x y => Renders T M x.1.2 x.2 y)
        (xs.zip (Transition.outputs (serve T) xs s)) (Transition.outputs perform xs s) ∧
      Transition.final (serve T) xs s = Transition.final perform xs s := by
  refine Transition.zip_outputs_of_simulation (S := Eq)
    (T := fun (x : Turn M × HttpRequest) => Renders T M x.2) ?_ rfl
  intro x hx s t hst
  subst hst
  obtain ⟨hrenders, hstate⟩ :=
    handle_executeRequest (T := T) (h x hx) x.1.time.now (s.after x.1.others).processor
  refine ⟨hrenders, ?_⟩
  simp only [serve, perform, hstate]

/-- The parameters of a request. -/
def params (ps : List (String × Bytes)) : String → Option Bytes := fun name => ps.lookup name

/-- A value is set and, after the reaper has run, read. -/
def setThenGet : List (Turn Platform.oneShard × HttpRequest) :=
  [(⟨[], ⟨0, 0⟩⟩, ⟨.post, ascii "/set", params [("key", ascii "k"), ("value", ascii "v")], []⟩),
    (⟨[(⟨1, 1⟩, .reap ⟨0, by decide⟩)], ⟨2, 2⟩⟩,
      ⟨.get, ascii "/get", params [("key", ascii "k")], []⟩)]

/-- Texts of a build. -/
def plainTexts : HttpTexts := ⟨ascii "<!doctype html>", ascii "stoll", fun _ _ => ascii "0.500000"⟩

theorem session_agrees_setThenGet :
    List.Forall₂ (fun x y => Renders plainTexts Platform.oneShard x.1.2 x.2 y)
        (setThenGet.zip (Transition.outputs (serve plainTexts) setThenGet (Server.init _ 64)))
        (Transition.outputs perform setThenGet (Server.init _ 64)) ∧
      Transition.final (serve plainTexts) setThenGet (Server.init _ 64) =
        Transition.final perform setThenGet (Server.init _ 64) := by
  refine session_agrees plainTexts ?_ _
  have hk : Storable (ascii "k") := by decide +kernel
  have hv : Storable (ascii "v") := by decide +kernel
  simp only [setThenGet, List.forall_mem_cons]
  refine ⟨⟨?_, ?_⟩, ⟨?_, ?_⟩, by simp⟩
  · simpa [params, List.lookup_cons] using hk
  · simpa [params, List.lookup_cons] using hv
  · simpa [params, List.lookup_cons] using hk
  · simp [params, List.lookup_cons]

end HttpServer
end MiniRedis
