import MiniRedis.Text.Command

/-!
# The grammar of commands

The commands that clients may send, by the words of the line: which words there are, and what the
command is that they stand for. The parser accepts this grammar and nothing else.

## Main results

* `stoll_iff` — `stoll` reads a word to its end just when the word is a sign and digits in range.
* `grammar_parseTcpCommand`, `parseTcpCommand_of_grammar` — what is accepted stands in the grammar, and
  conversely.
* `parseTcpCommand_grammar` — the parser accepts the grammar, and answers every other line with an
  error.
-/
namespace MiniRedis

/-! ## Numbers -/

/-- The sign of a number: is it negative? -/
inductive SignText : Bytes → Bool → Prop
  | absent : SignText [] false
  | plus : SignText (ascii "+") false
  | minus : SignText (ascii "-") true

/-- An optional sign, decimal digits and nothing else, with a value that a `ttl_ms` can have. -/
def TtlText (word : Bytes) (n : ℤ) : Prop :=
  ∃ sign neg digits, word = sign ++ digits ∧ SignText sign neg ∧ digits ≠ [] ∧
    (∀ b ∈ digits, isdigit b = true) ∧
    n = (if neg then -1 else 1) * (Decimal.valueOf (digits.map fun b => b.toNat - 48) : ℤ) ∧
    0 ≤ n ∧ n < 2 ^ 63

theorem signText_signOf (s : Bytes) : SignText (s.take (signOf s).2) (signOf s).1 := by
  cases s with
  | nil => exact .absent
  | cons b s =>
      by_cases hminus : b = 45
      · subst hminus
        exact .minus
      · by_cases hplus : b = 43
        · subst hplus
          exact .plus
        · simpa [signOf, hminus, hplus] using SignText.absent

theorem signOf_append {sign digits : Bytes} {neg : Bool} (h : SignText sign neg)
    (hne : digits ≠ []) (hdigits : ∀ b ∈ digits, isdigit b = true) :
    signOf (sign ++ digits) = (neg, sign.length) := by
  cases h with
  | absent =>
      obtain ⟨b, l, rfl⟩ := List.exists_cons_of_ne_nil hne
      exact signOf_of_isdigit (hdigits b List.mem_cons_self) l
  | plus => rfl
  | minus => rfl

/-- What `stoll` reads when there is nothing to skip. -/
theorem stoll_of_word {word : Bytes} (hword : ∀ b ∈ word, isspace b = false) {digits : Bytes} {n : ℤ}
    (hdigits : (word.drop (signOf word).2).takeWhile isdigit = digits)
    (hn : (if (signOf word).1 then -1 else 1)
      * (Decimal.valueOf (digits.map fun b => b.toNat - 48) : ℤ) = n) :
    stoll word =
      if digits = [] ∨ n < -2 ^ 63 ∨ 2 ^ 63 ≤ n then none
      else some (n, (signOf word).2 + digits.length) := by
  have hspace : word.takeWhile isspace = [] := by
    cases word with
    | nil => rfl
    | cons b l => rw [List.takeWhile_cons, hword b List.mem_cons_self]; rfl
  have hsigned : (if (signOf word).1 then
      -(Decimal.valueOf (digits.map fun b => b.toNat - 48) : ℤ)
      else (Decimal.valueOf (digits.map fun b => b.toNat - 48) : ℤ)) = n := by
    rw [← hn]
    split <;> simp
  simp only [stoll, hspace, List.length_nil, List.drop_zero, Nat.zero_add, hdigits, hsigned,
    List.isEmpty_iff]
  by_cases hnil : digits = []
  · simp [hnil]
  · simp [hnil]

/-- **A word that `stoll` reads to its end** is a sign and digits, and the number is theirs. -/
theorem stoll_iff {word : Bytes} (hword : ∀ b ∈ word, isspace b = false) {n : ℤ} :
    stoll word = some (n, word.length) ∧ 0 ≤ n ↔ TtlText word n := by
  constructor
  · rintro ⟨hread, hn⟩
    have hlt := stoll_lt hread
    obtain ⟨m, hm⟩ : ∃ m, _ = m := ⟨_, rfl⟩
    rw [stoll_of_word hword rfl hm] at hread
    split at hread
    · cases hread
    · next hok =>
      simp only [Option.some.injEq, Prod.mk.injEq] at hread
      obtain ⟨rfl, hlen⟩ := hread
      -- the digits are all that stands behind the sign
      have hall : (word.drop (signOf word).2).takeWhile isdigit = word.drop (signOf word).2 := by
        refine (List.takeWhile_prefix isdigit).eq_of_length ?_
        rw [List.length_drop]
        omega
      refine ⟨_, _, word.drop (signOf word).2, (List.take_append_drop _ word).symm,
        signText_signOf word, ?_, List.takeWhile_eq_self_iff.mp hall, ?_, hn, hlt⟩
      · intro hnil
        exact hok (.inl (hall.trans hnil))
      · rw [← hm, hall]
  · rintro ⟨sign, neg, digits, rfl, hsign, hne, hdigits, hvalue, hn, hlt⟩
    have hsignOf := signOf_append hsign hne hdigits
    have htake : ((sign ++ digits).drop (signOf (sign ++ digits)).2).takeWhile isdigit = digits := by
      rw [hsignOf, List.drop_left]
      exact List.takeWhile_eq_self_iff.mpr hdigits
    have hn' : (if (signOf (sign ++ digits)).1 then -1 else 1)
        * (Decimal.valueOf (digits.map fun b => b.toNat - 48) : ℤ) = n := by
      rw [hsignOf, hvalue]
    have hread := stoll_of_word hword htake hn'
    rw [hsignOf, if_neg (by simp only [hne, false_or]; omega), ← List.length_append] at hread
    exact ⟨hread, hn⟩

/-! ## Command names -/

def tolower (b : UInt8) : UInt8 := if 65 ≤ b && b ≤ 90 then b + 32 else b

/-- A word is a name, ignoring ASCII case. -/
def Named (word : Bytes) (name : String) : Prop := word.map tolower = (ascii name).map tolower

/-- The names of the commands. -/
def commandNames : List String := ["PING", "HELP", "QUIT", "EXIT", "STATS", "GET", "DEL", "SET"]

theorem tolower_eq_iff {b c : UInt8} (hc : 65 ≤ c ∧ c ≤ 90) :
    tolower b = tolower c ↔ toupper b = c := by
  simp only [tolower, toupper]
  grind

theorem map_tolower_eq_iff {name : Bytes} (hname : ∀ c ∈ name, 65 ≤ c ∧ c ≤ 90) {word : Bytes} :
    word.map tolower = name.map tolower ↔ tcpUpper word = name := by
  induction name generalizing word with
  | nil => simp [tcpUpper]
  | cons c name ih =>
      cases word with
      | nil => simp [tcpUpper]
      | cons b word =>
          have hc := tolower_eq_iff (b := b) (hname c List.mem_cons_self)
          have htail : word.map tolower = name.map tolower ↔ tcpUpper word = name :=
            ih fun d hd => hname d (List.mem_cons_of_mem c hd)
          simp only [tcpUpper] at htail
          simp [tcpUpper, hc, htail]

theorem letters_of_mem_commandNames :
    ∀ name ∈ commandNames, ∀ c ∈ ascii name, 65 ≤ c ∧ c ≤ 90 := by decide +kernel

theorem tcpUpper_of_named {word : Bytes} {name : String} (hname : name ∈ commandNames) :
    Named word name ↔ tcpUpper word = ascii name :=
  map_tolower_eq_iff (letters_of_mem_commandNames name hname)

theorem ascii_inj {s t : String} (hs : s ∈ commandNames) (ht : t ∈ commandNames) :
    ascii s = ascii t ↔ s = t := by
  have hinj : ∀ s ∈ commandNames, ∀ t ∈ commandNames, ascii s = ascii t → s = t := by
    decide +kernel
  exact ⟨hinj s hs t ht, congrArg ascii⟩

@[simp] theorem ascii_eq_nil {s : String} : ascii s = [] ↔ s = "" := by simp [ascii]

/-! ## Commands -/

/-- The commands, by their words. -/
inductive Grammar : List Bytes → ParsedTcpCommand → Prop
  | ping {name : Bytes} (hname : Named name "PING") : Grammar [name] { type := .ping }
  | stats {name : Bytes} (hname : Named name "STATS") : Grammar [name] { type := .stats }
  | help {name : Bytes} (hname : Named name "HELP") (args : List Bytes) :
      Grammar (name :: args) { type := .help }
  | quit {name : Bytes} (hname : Named name "QUIT" ∨ Named name "EXIT") (args : List Bytes) :
      Grammar (name :: args) { type := .quit }
  | get {name : Bytes} (hname : Named name "GET") (key : Bytes) :
      Grammar [name, key] { type := .get, key := key }
  | del {name : Bytes} (hname : Named name "DEL") (key : Bytes) :
      Grammar [name, key] { type := .del, key := key }
  | set {name : Bytes} (hname : Named name "SET") (key value : Bytes) :
      Grammar [name, key, value] { type := .set, key := key, value := value }
  | setTtl {name ttl : Bytes} {n : ℤ} (hname : Named name "SET") (key value : Bytes)
      (httl : TtlText ttl n) :
      Grammar [name, key, value, ttl] { type := .set, key := key, value := value, ttlMs := some n }

theorem Grammar.type_ne_invalid {ws : List Bytes} {cmd : ParsedTcpCommand} (h : Grammar ws cmd) :
    cmd.type ≠ .invalid := by
  cases h <;> simp

/-- What the parser makes of the words of a command. -/
theorem parseWords_of_grammar {name : Bytes} {args : List Bytes} {cmd : ParsedTcpCommand}
    (h : Grammar (name :: args) cmd) (hargs : ∀ w ∈ args, ∀ b ∈ w, isspace b = false) :
    parseWords name args = cmd := by
  cases h with
  | ping hname =>
      rw [tcpUpper_of_named (by decide)] at hname
      simp [parseWords, hname]
  | stats hname =>
      rw [tcpUpper_of_named (by decide)] at hname
      simp (disch := decide) [parseWords, hname, ascii_inj]
  | help hname =>
      rw [tcpUpper_of_named (by decide)] at hname
      simp (disch := decide) [parseWords, hname, ascii_inj]
  | quit hname =>
      rw [tcpUpper_of_named (by decide), tcpUpper_of_named (by decide)] at hname
      cases hname with
      | inl hname => simp (disch := decide) [parseWords, hname, ascii_inj]
      | inr hname => simp (disch := decide) [parseWords, hname, ascii_inj]
  | get hname =>
      rw [tcpUpper_of_named (by decide)] at hname
      simp (disch := decide) [parseWords, hname, ascii_inj]
  | del hname =>
      rw [tcpUpper_of_named (by decide)] at hname
      simp (disch := decide) [parseWords, hname, ascii_inj]
  | set hname =>
      rw [tcpUpper_of_named (by decide)] at hname
      simp (disch := decide) [parseWords, hname, ascii_inj, parseSet]
  | @setTtl name ttl n hname key value httl =>
      have hread := (stoll_iff (hargs ttl (by simp))).mpr httl
      rw [tcpUpper_of_named (by decide)] at hname
      simp (disch := decide) [parseWords, hname, ascii_inj, parseSet, hread.1, hread.2]

/-- What the parser accepts as the arguments of `SET`. -/
theorem grammar_of_parseSet {name : Bytes} {args : List Bytes} (hname : Named name "SET")
    (hargs : ∀ w ∈ args, ∀ b ∈ w, isspace b = false) (hne : (parseSet args).type ≠ .invalid) :
    Grammar (name :: args) (parseSet args) := by
  unfold parseSet at hne ⊢
  split
  · exact .set hname _ _
  · next key value ttl =>
    cases hread : stoll ttl with
    | none => simp [hread] at hne
    | some r =>
        obtain ⟨n, pos⟩ := r
        simp only [hread] at hne ⊢
        split
        · next hbad => simp [hbad] at hne
        · next hok =>
          simp only [not_or, not_not, not_lt] at hok
          obtain ⟨rfl, hn⟩ := hok
          exact .setTtl hname _ _ ((stoll_iff (hargs ttl (by simp))).mp ⟨hread, hn⟩)
  · simp_all [ParsedTcpCommand.rejected]

/-- What the parser accepts stands in the grammar. -/
theorem grammar_of_parseWords {name : Bytes} {args : List Bytes}
    (hargs : ∀ w ∈ args, ∀ b ∈ w, isspace b = false)
    (hne : (parseWords name args).type ≠ .invalid) : Grammar (name :: args) (parseWords name args) := by
  have hnamed : ∀ s ∈ commandNames, tcpUpper name = ascii s → Named name s :=
    fun s hs => (tcpUpper_of_named hs).mpr
  revert hne
  unfold parseWords
  dsimp only
  split
  · next hname =>
    split
    · next hnil =>
      rw [List.isEmpty_iff.mp hnil]
      exact fun _ => .ping (hnamed _ (by decide) hname)
    · exact fun hne => absurd rfl hne
  split
  · next hname => exact fun _ => .help (hnamed _ (by decide) hname) _
  split
  · next hname =>
    exact fun _ => .quit (hname.imp (hnamed _ (by decide)) (hnamed _ (by decide))) _
  split
  · next hname =>
    split
    · next hnil =>
      rw [List.isEmpty_iff.mp hnil]
      exact fun _ => .stats (hnamed _ (by decide) hname)
    · exact fun hne => absurd rfl hne
  split
  · next hname =>
    split
    · exact fun _ => .get (hnamed _ (by decide) hname) _
    · exact fun hne => absurd rfl hne
  split
  · next hname =>
    split
    · exact fun _ => .del (hnamed _ (by decide) hname) _
    · exact fun hne => absurd rfl hne
  split
  · next hname => exact grammar_of_parseSet (hnamed _ (by decide) hname) hargs
  · exact fun hne => absurd rfl hne

/-! ## Errors -/

theorem error_parseSet_ne_nil {args : List Bytes} (h : (parseSet args).type = .invalid) :
    (parseSet args).error ≠ [] := by
  unfold parseSet at h ⊢
  split
  · cases h
  · next key value ttl =>
    cases hread : stoll ttl with
    | none => simp
    | some r =>
        simp only [hread] at h ⊢
        split
        · simp
        · next hok => simp [hok] at h
  · simp [ParsedTcpCommand.rejected]

/-- **An error has a text.** -/
theorem error_parseWords_ne_nil {name : Bytes} {args : List Bytes}
    (h : (parseWords name args).type = .invalid) : (parseWords name args).error ≠ [] := by
  by_cases hset : parseWords name args = parseSet args
  · rw [hset] at h ⊢
    exact error_parseSet_ne_nil h
  · revert h
    unfold parseWords at hset ⊢
    dsimp only at hset ⊢
    repeat' split
    all_goals first
      | simp [ParsedTcpCommand.rejected]
        done
      | simp_all

/-! ## Lines -/

/-- What the parser accepts stands in the grammar. -/
theorem grammar_parseTcpCommand {line : Bytes} (h : (parseTcpCommand line).type ≠ .invalid) :
    Grammar (tcpSplitWs line) (parseTcpCommand line) := by
  cases hw : tcpSplitWs line with
  | nil =>
      rw [parseTcpCommand_of_no_words hw] at h
      exact absurd rfl h
  | cons name args =>
      rw [parseTcpCommand_of_words hw] at h ⊢
      refine grammar_of_parseWords (fun w hmem => ?_) h
      exact (storable_of_mem (hw ▸ List.mem_cons_of_mem name hmem)).2

/-- What stands in the grammar is accepted. -/
theorem parseTcpCommand_of_grammar {line : Bytes} {cmd : ParsedTcpCommand}
    (h : Grammar (tcpSplitWs line) cmd) : parseTcpCommand line = cmd := by
  cases hw : tcpSplitWs line with
  | nil =>
      rw [hw] at h
      cases h
  | cons name args =>
      rw [hw] at h
      rw [parseTcpCommand_of_words hw]
      refine parseWords_of_grammar h fun w hmem => ?_
      exact (storable_of_mem (hw ▸ List.mem_cons_of_mem name hmem)).2

theorem error_parseTcpCommand_ne_nil {line : Bytes} (h : (parseTcpCommand line).type = .invalid) :
    (parseTcpCommand line).error ≠ [] := by
  cases hw : tcpSplitWs line with
  | nil =>
      rw [parseTcpCommand_of_no_words hw]
      simp [ParsedTcpCommand.rejected]
  | cons name args =>
      rw [parseTcpCommand_of_words hw] at h ⊢
      exact error_parseWords_ne_nil h

/-- The keys and values of a command are among its words. -/
theorem Grammar.storable {ws : List Bytes} {cmd : ParsedTcpCommand} (h : Grammar ws cmd)
    (hws : ∀ w ∈ ws, Storable w) :
    (cmd.type = .set ∨ cmd.type = .get ∨ cmd.type = .del → Storable cmd.key) ∧
      (cmd.type = .set → Storable cmd.value) := by
  cases h <;> simp_all

/-- **The parser accepts exactly its grammar.** Every line is cut into maximal runs in one way. The
line is a command just when the runs are the words of one, and then the parser returns just that
command; every other line is answered with an error. The keys and values of a command are not empty
and hold no whitespace. -/
theorem parseTcpCommand_grammar (line : Bytes) :
    ∃ ws, (∀ ws', Splitting.Runs isspace line ws' ↔ ws' = ws) ∧
      (∀ cmd, Grammar ws cmd ↔ parseTcpCommand line = cmd ∧ cmd.type ≠ .invalid) ∧
      ((∀ cmd, ¬ Grammar ws cmd) →
        (parseTcpCommand line).type = .invalid ∧ (parseTcpCommand line).error ≠ []) ∧
      ∀ cmd, Grammar ws cmd →
        (cmd.type = .set ∨ cmd.type = .get ∨ cmd.type = .del → Storable cmd.key) ∧
        (cmd.type = .set → Storable cmd.value) := by
  refine ⟨tcpSplitWs line, fun ws => Splitting.runs_iff.trans eq_comm, ?_, ?_, ?_⟩
  · intro cmd
    constructor
    · intro h
      exact ⟨parseTcpCommand_of_grammar h, h.type_ne_invalid⟩
    · rintro ⟨rfl, hne⟩
      exact grammar_parseTcpCommand hne
  · intro hnone
    have hinvalid : (parseTcpCommand line).type = .invalid := by
      by_contra hne
      exact hnone _ (grammar_parseTcpCommand hne)
    exact ⟨hinvalid, error_parseTcpCommand_ne_nil hinvalid⟩
  · intro cmd h
    exact h.storable fun w hw => storable_of_mem hw

example : (parseTcpCommand (ascii " set k v -0 ")).ttlMs = some 0 := by decide +kernel

end MiniRedis
