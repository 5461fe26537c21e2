import MiniRedis.Lib.Json
import MiniRedis.Persistence.Encoding

/-!
# The bodies of HTTP responses

The HTTP server builds its JSON by hand: a fixed head, the string with its special characters
escaped, and a fixed end. `json_escape` knows the backslash, the quotation mark, line ends and tabs.
A string with any other control character goes out raw, and then the body is no JSON; every other
string is carried unchanged.
-/
namespace MiniRedis
variable {M : Platform}

/-- What `json_escape` appends for a byte. -/
def jsonEscapeByte (c : UInt8) : Bytes :=
  if c = '\\'.toUInt8 then ascii "\\\\"
  else if c = '"'.toUInt8 then ascii "\\\""
  else if c = '\n'.toUInt8 then ascii "\\n"
  else if c = '\r'.toUInt8 then ascii "\\r"
  else if c = '\t'.toUInt8 then ascii "\\t"
  else [c]

def jsonEscape (s : Bytes) : Bytes := s.flatMap jsonEscapeByte

/-- A body that ends with a string. -/
def jsonBody (head : String) (s : Bytes) : Bytes := ascii head ++ jsonEscape s ++ ascii "\"\x7d"

def jsonOk (message : Bytes) : Bytes := jsonBody "\x7b\"ok\":true,\"message\":\"" message

def jsonErr (message : Bytes) : Bytes := jsonBody "\x7b\"ok\":false,\"error\":\"" message

structure HttpResponse where
  status : ℕ := 200
  body : Bytes
  deriving DecidableEq, Repr

/-- The handler of `GET /get`. The request has a parameter `key` or not. -/
def handleGet (key : Option Bytes) (now : TimePoint) (p : Processor M) :
    HttpResponse × Processor M :=
  match key with
  | none => ({ status := 400, body := jsonErr (ascii "usage: GET /get?key=<k>") }, p)
  | some key =>
      let r := p.get key now
      match r.1 with
      | none => ({ status := 404, body := ascii "\x7b\"ok\":true,\"value\":null\x7d" }, r.2)
      | some value => ({ body := jsonBody "\x7b\"ok\":true,\"value\":\"" value }, r.2)

/-! ## What a client is owed -/

/-- The body is a JSON text, an object of `ok` and of one other member, and what this stands for is
the string. -/
structure Carries (body : Bytes) (ok : Bool) (name : String) (s : List Char) : Prop where
  wellFormed : ∃ v, Json.JsonBytes body v
  decodes : ∀ v, Json.JsonBytes body v → ∃ b,
    v = .object [(['o', 'k'], .bool ok), (name.toList, .string b)] ∧
      ∀ s', Json.Decodes b s' ↔ s' = s

/-! ## Escaping -/

/-- The characters that `json_escape` knows. -/
def special : List Char := ['\\', '"', '\n', '\r', '\t']

theorem forall_special {p : Char → Prop} :
    (∀ c ∈ special, p c) ↔ p '\\' ∧ p '"' ∧ p '\n' ∧ p '\r' ∧ p '\t' := by
  simp [special]

/-- What `json_escape` appends for a character. -/
def escapeChar (c : Char) : List Char :=
  if c = '\\' then ['\\', '\\']
  else if c = '"' then ['\\', '"']
  else if c = '\n' then ['\\', 'n']
  else if c = '\r' then ['\\', 'r']
  else if c = '\t' then ['\\', 't']
  else [c]

theorem escapeChar_of_notMem {c : Char} (h : c ∉ special) : escapeChar c = [c] := by
  simp only [special, List.mem_cons, List.not_mem_nil, or_false, not_or] at h
  simp [escapeChar, h]

/-- Only ASCII is escaped. -/
theorem jsonEscapeByte_of_ne {b : UInt8} (h : ∀ d ∈ special, b ≠ d.toUInt8) :
    jsonEscapeByte b = [b] := by
  simp only [special, List.forall_mem_cons] at h
  obtain ⟨hslash, hquote, hn, hr, ht, -⟩ := h
  simp only [jsonEscapeByte]
  rw [if_neg hslash, if_neg hquote, if_neg hn, if_neg hr, if_neg ht]

theorem toUInt8_inj {c d : Char} (hc : c.toNat < 128) (hd : d.toNat < 128)
    (h : c.toUInt8 = d.toUInt8) : c = d := by
  have hnat := congrArg UInt8.toNat h
  change c.toNat % 256 = d.toNat % 256 at hnat
  apply Char.toNat_inj.mp
  omega

/-- Escaping a character's bytes escapes the character. -/
theorem flatMap_jsonEscapeByte (c : Char) :
    (String.utf8EncodeChar c).flatMap jsonEscapeByte = Json.utf8 (escapeChar c) := by
  by_cases hspecial : c ∈ special
  · have hknown : ∀ c ∈ special,
        (String.utf8EncodeChar c).flatMap jsonEscapeByte = Json.utf8 (escapeChar c) :=
      forall_special.mpr (by decide +kernel)
    exact hknown c hspecial
  · have hascii : ∀ d ∈ special, d.toNat < 128 := forall_special.mpr (by decide)
    have hbytes : ∀ b ∈ String.utf8EncodeChar c, jsonEscapeByte b = [b] := by
      intro b hb
      apply jsonEscapeByte_of_ne
      rintro d hd rfl
      by_cases hc : c.toNat < 128
      · rw [Json.utf8EncodeChar_of_lt hc, List.mem_singleton] at hb
        exact hspecial (toUInt8_inj (hascii d hd) hc hb ▸ hd)
      · have hle : ∀ d ∈ special, d.toUInt8 < 128 := forall_special.mpr (by decide)
        have hge := Json.le_of_mem_utf8EncodeChar (not_lt.mp hc) hb
        exact absurd hge (UInt8.not_le.mpr (hle d hd))
    rw [escapeChar_of_notMem hspecial, List.flatMap_congr hbytes]
    simp [Json.utf8]

theorem jsonEscape_utf8 (s : List Char) :
    jsonEscape (Json.utf8 s) = Json.utf8 (s.flatMap escapeChar) := by
  induction s with
  | nil => rfl
  | cons c s ih =>
      simp only [jsonEscape, Json.utf8, List.flatMap_cons, List.flatMap_append] at ih ⊢
      rw [ih, flatMap_jsonEscapeByte]
      rfl

/-- An escaped character stands for itself, unless it is a control character. -/
theorem decodes_escapeChar {c : Char} (hc : Json.Printable c) {b s : List Char}
    (hb : Json.Chars b) (h : Json.Decodes b s) :
    Json.Chars (escapeChar c ++ b) ∧ Json.Decodes (escapeChar c ++ b) (c :: s) := by
  by_cases hspecial : c ∈ special
  · have hknown : ∀ c ∈ special, ∃ e, escapeChar c = ['\\', e] ∧ (e, c) ∈ Json.escapes := by
      simp [special, escapeChar, Json.escapes]
    obtain ⟨e, hescape, he⟩ := hknown c hspecial
    rw [hescape]
    exact ⟨.escaped he hb, .escaped he h⟩
  · rw [escapeChar_of_notMem hspecial]
    simp only [special, List.mem_cons, List.not_mem_nil, or_false, not_or] at hspecial
    obtain ⟨hslash, hquote, hn, hr, ht⟩ := hspecial
    have hraw : Json.Unescaped c := by
      refine ⟨?_, hquote, hslash⟩
      rcases hc with hle | htab | hline | hreturn
      · exact hle
      · exact absurd htab ht
      · exact absurd hline hn
      · exact absurd hreturn hr
    exact ⟨.unescaped hraw hb, .unescaped hraw h⟩

theorem decodes_escape {s : List Char} (hs : ∀ c ∈ s, Json.Printable c) :
    Json.Chars (s.flatMap escapeChar) ∧ Json.Decodes (s.flatMap escapeChar) s := by
  induction s with
  | nil => exact ⟨.nil, .nil⟩
  | cons c s ih =>
      obtain ⟨hc, hs⟩ := List.forall_mem_cons.mp hs
      obtain ⟨hchars, hdecodes⟩ := ih hs
      exact decodes_escapeChar hc hchars hdecodes

/-- A control character that `json_escape` does not know is not escaped. -/
theorem printable_of_escape {s : List Char} (h : ∀ c ∈ s.flatMap escapeChar, Json.Printable c) :
    ∀ c ∈ s, Json.Printable c := by
  intro c hc
  by_cases hspecial : c ∈ special
  · have hknown : ∀ c ∈ special, 32 ≤ c.toNat ∨ c = '\t' ∨ c = '\n' ∨ c = '\r' :=
      forall_special.mpr (by decide)
    exact hknown c hspecial
  · refine h c (List.mem_flatMap.mpr ⟨c, hc, ?_⟩)
    rw [escapeChar_of_notMem hspecial]
    exact List.mem_singleton_self c

/-! ## The text of a body -/

/-- The text of a body, if `b` is the inside of its string. -/
def bodyText (ok : Bool) (name b : List Char) : List Char :=
  '{' :: '"' :: 'o' :: 'k' :: '"' :: ':' :: ((if ok then ['t', 'r', 'u', 'e']
    else ['f', 'a', 'l', 's', 'e']) ++ ',' :: '"' :: (name ++ '"' :: ':' :: '"' :: (b ++ ['"', '}'])))

theorem ascii_eq_utf8 {s : String} (h : ∀ c ∈ s.toList, c.toNat < 128) :
    ascii s = Json.utf8 s.toList := by
  rw [ascii, Json.utf8]
  generalize s.toList = l at h
  induction l with
  | nil => rfl
  | cons c l ih =>
      obtain ⟨hc, hl⟩ := List.forall_mem_cons.mp h
      rw [List.map_cons, ih hl, List.flatMap_cons, Json.utf8EncodeChar_of_lt hc]
      rfl

/-- A body is its text in UTF-8. -/
theorem jsonBody_utf8 {head : String} {ok : Bool} {name : List Char}
    (hhead : ∀ c ∈ head.toList, c.toNat < 128)
    (htext : ∀ b, head.toList ++ (b ++ ['"', '}']) = bodyText ok name b) (s : List Char) :
    jsonBody head (Json.utf8 s) = Json.utf8 (bodyText ok name (s.flatMap escapeChar)) := by
  have hend : ascii "\"\x7d" = Json.utf8 ['"', '}'] := by decide +kernel
  rw [jsonBody, ascii_eq_utf8 hhead, jsonEscape_utf8, hend, ← Json.utf8_append,
    ← Json.utf8_append, List.append_assoc, htext]

/-- The text is read as an object of two members. -/
theorem jsonText_bodyText (ok : Bool) {name b : List Char} (hname : Json.Chars name)
    (hb : Json.Chars b) :
    Json.JsonText (bodyText ok name b) (.object [(['o', 'k'], .bool ok), (name, .string b)]) := by
  have hok : Json.Chars ['o', 'k'] := Json.chars_of_forall (by simp [Json.Unescaped])
  have hstring : Json.Reads (.value (.string b)) ('"' :: (b ++ ['"', '}'])) ['}'] := .string hb _
  have hmember : Json.Reads (.members [(name, .string b)])
      ('"' :: (name ++ '"' :: ':' :: '"' :: (b ++ ['"', '}']))) [] :=
    .member hname rfl hstring (.lastMember [])
  have hrest : Json.Reads (.moreMembers [(name, .string b)])
      (',' :: '"' :: (name ++ '"' :: ':' :: '"' :: (b ++ ['"', '}']))) [] := .nextMember hmember
  refine ⟨[], .object ?_, rfl⟩
  cases ok with
  | true => exact .member hok rfl (.true _) hrest
  | false => exact .member hok rfl (.false _) hrest

/-- **A string is carried by a body if and only if the JSON grammar allows its control characters.** -/
theorem carries_jsonBody_iff {head name : String} {ok : Bool}
    (hhead : ∀ c ∈ head.toList, c.toNat < 128) (hname : ∀ c ∈ name.toList, Json.Unescaped c)
    (htext : ∀ b, head.toList ++ (b ++ ['"', '}']) = bodyText ok name.toList b) (s : List Char) :
    Carries (jsonBody head (Json.utf8 s)) ok name s ↔ ∀ c ∈ s, Json.Printable c := by
  rw [jsonBody_utf8 hhead htext]
  constructor
  · rintro ⟨⟨v, hv⟩, -⟩
    have hprintable := (Json.jsonBytes_utf8.mp hv).printable
    refine printable_of_escape fun c hc => hprintable c ?_
    simp [bodyText, hc]
  · intro hs
    obtain ⟨hchars, hdecodes⟩ := decodes_escape hs
    have hread := Json.jsonBytes_utf8.mpr
      (jsonText_bodyText ok (Json.chars_of_forall hname) hchars)
    refine ⟨⟨_, hread⟩, fun v hv => ⟨s.flatMap escapeChar, ?_, fun s' => ?_⟩⟩
    · exact (Json.jsonBytes_utf8.mp hv).unique (Json.jsonBytes_utf8.mp hread)
    · exact ⟨fun h => h.unique hdecodes, fun h => h ▸ hdecodes⟩

theorem carries_jsonOk_iff (s : List Char) :
    Carries (jsonOk (Json.utf8 s)) true "message" s ↔ ∀ c ∈ s, Json.Printable c :=
  carries_jsonBody_iff (by simp) (by simp [Json.Unescaped]) (fun b => by simp [bodyText]) s

theorem carries_jsonErr_iff (s : List Char) :
    Carries (jsonErr (Json.utf8 s)) false "error" s ↔ ∀ c ∈ s, Json.Printable c :=
  carries_jsonBody_iff (by simp) (by simp [Json.Unescaped]) (fun b => by simp [bodyText]) s

/-- The body for a value that is found. -/
theorem carries_handleGet_iff {p : Processor M} {key : Bytes} {now : TimePoint} {s : List Char}
    (h : (p.get key now).1 = some (Json.utf8 s)) :
    Carries (handleGet (some key) now p).1.body true "value" s ↔ ∀ c ∈ s, Json.Printable c := by
  simp only [handleGet, h]
  exact carries_jsonBody_iff (by simp) (by simp [Json.Unescaped]) (fun b => by simp [bodyText]) s

/-- **HTTP responses carry a string if and only if it has no control characters** but line feeds,
carriage returns and tabs: every other string comes back unchanged, and with such a character the
body is no JSON. -/
theorem responses_carry_iff (s : List Char) :
    (Carries (jsonOk (Json.utf8 s)) true "message" s ↔ ∀ c ∈ s, Json.Printable c) ∧
      (Carries (jsonErr (Json.utf8 s)) false "error" s ↔ ∀ c ∈ s, Json.Printable c) ∧
      ∀ (M : Platform) (p : Processor M) (key : Bytes) (now : TimePoint),
        (p.get key now).1 = some (Json.utf8 s) →
          (Carries (handleGet (some key) now p).1.body true "value" s ↔
            ∀ c ∈ s, Json.Printable c) :=
  ⟨carries_jsonOk_iff s, carries_jsonErr_iff s, fun _ _ _ _ h => carries_handleGet_iff h⟩

/-- A processor that stores one value. -/
def storingValue (value : Bytes) : Processor Platform.oneShard :=
  (Processor.fresh.set (ascii "k") value none 0).2

theorem responses_carry_iff_quoted :
    Carries (handleGet (some (ascii "k")) 0 (storingValue (Json.utf8 ['"', 'é', '\n']))).1.body true
      "value" ['"', 'é', '\n'] := by
  have hprintable : ∀ c ∈ ['"', 'é', '\n'], Json.Printable c := by simp [Json.Printable]
  exact ((responses_carry_iff ['"', 'é', '\n']).2.2 Platform.oneShard _ (ascii "k") 0
    (by decide +kernel)).mpr hprintable

/-- A backspace goes out as it is. -/
theorem backspace_not_json :
    ¬ ∀ (p : Processor Platform.oneShard) (key : Bytes) (now : TimePoint) (s : List Char),
      (p.get key now).1 = some (Json.utf8 s) →
        Carries (handleGet (some key) now p).1.body true "value" s := by
  intro h
  have hfound : ((storingValue (Json.utf8 ['\x08'])).get (ascii "k") 0).1 =
      some (Json.utf8 ['\x08']) := by decide +kernel
  have hcarries := h (storingValue (Json.utf8 ['\x08'])) (ascii "k") 0 ['\x08'] hfound
  have hprintable := (carries_handleGet_iff hfound).mp hcarries '\x08' (List.mem_singleton_self _)
  revert hprintable
  simp [Json.Printable]

end MiniRedis
