import Mathlib.Data.List.Forall2
import Mathlib.Data.List.TakeWhile

/-!
# JSON texts

The grammar of RFC 8259 as a relation that reads a text from the front. A value keeps its lexemes: a
number is the text of its notation, a string or a name what stands between the quotation marks. What
such a text stands for is a second relation.

## Main definitions

* `Chars` — the inside of a string; `Decodes` — the characters it stands for.
* `Reads` — a phrase of the grammar, the text it is read from, and what is left of the text.
* `JsonText` — a whole text.

## Main results

* `Decodes.unique` — the inside of a string stands for one sequence of characters.
* `Reads.unique`, `JsonText.unique` — a text is read in one way.
* `JsonText.printable` — below the blank a text has tabs and line ends only.
* `jsonText_objectText` — what is written as an object is read as it.
-/
namespace Json

/-! ## The grammar -/

/-- Insignificant whitespace. -/
def ws (c : Char) : Bool := c == ' ' || c == '\t' || c == '\n' || c == '\r'

def skipWs (i : List Char) : List Char := i.dropWhile ws

def Digits (ds : List Char) : Prop := ds ≠ [] ∧ ∀ c ∈ ds, c.isDigit = true

/-- No leading zeros. -/
inductive IntPart : List Char → Prop
  | zero : IntPart ['0']
  | digits {d : Char} {ds : List Char} (hd : d.isDigit = true) (hne : d ≠ '0')
      (hds : ∀ c ∈ ds, c.isDigit = true) : IntPart (d :: ds)

inductive FracPart : List Char → Prop
  | absent : FracPart []
  | digits {ds : List Char} (hds : Digits ds) : FracPart ('.' :: ds)

inductive ExpPart : List Char → Prop
  | absent : ExpPart []
  | digits {e : Char} {sign ds : List Char} (he : e ∈ ['e', 'E'])
      (hsign : sign ∈ [[], ['+'], ['-']]) (hds : Digits ds) : ExpPart (e :: (sign ++ ds))

def Number (t : List Char) : Prop :=
  ∃ minus int frac exp, t = minus ++ (int ++ (frac ++ exp)) ∧ minus ∈ [[], ['-']] ∧ IntPart int ∧
    FracPart frac ∧ ExpPart exp

/-- What may stand in a string as it is. -/
def Unescaped (c : Char) : Prop := 32 ≤ c.toNat ∧ c ≠ '"' ∧ c ≠ '\\'

instance (c : Char) : Decidable (Unescaped c) :=
  inferInstanceAs (Decidable (32 ≤ c.toNat ∧ c ≠ '"' ∧ c ≠ '\\'))

/-- What may stand behind a backslash, and what it stands for. -/
def escapes : List (Char × Char) :=
  [('"', '"'), ('\\', '\\'), ('/', '/'), ('b', '\x08'), ('f', '\x0c'), ('n', '\n'), ('r', '\r'),
    ('t', '\t')]

def hexDigit? (c : Char) : Option ℕ :=
  if '0' ≤ c ∧ c ≤ '9' then some (c.toNat - 48)
  else if 'a' ≤ c ∧ c ≤ 'f' then some (c.toNat - 87)
  else if 'A' ≤ c ∧ c ≤ 'F' then some (c.toNat - 55)
  else none

/-- The number that hexadecimal digits stand for. -/
def hex? (ds : List Char) : Option ℕ :=
  ds.foldl (fun acc d => acc.bind fun n => (hexDigit? d).map fun m => 16 * n + m) (some 0)

/-- The inside of a string. -/
inductive Chars : List Char → Prop
  | nil : Chars []
  | unescaped {c : Char} {b : List Char} (hc : Unescaped c) (hb : Chars b) : Chars (c :: b)
  | escaped {e c : Char} {b : List Char} (he : (e, c) ∈ escapes) (hb : Chars b) :
      Chars ('\\' :: e :: b)
  | unicode {d₁ d₂ d₃ d₄ : Char} {b : List Char}
      (hds : ∀ d ∈ [d₁, d₂, d₃, d₄], (hexDigit? d).isSome = .true) (hb : Chars b) :
      Chars ('\\' :: 'u' :: d₁ :: d₂ :: d₃ :: d₄ :: b)

/-- A value with its lexemes. -/
inductive Value
  | null
  | bool (b : Bool)
  | number (lexeme : List Char)
  | string (body : List Char)
  | array (elements : List Value)
  | object (members : List (List Char × Value))

/-- The phrases of the grammar. Lists are read up to their closing bracket, at their front or behind
an element. -/
inductive Phrase
  | value (v : Value)
  | elements (vs : List Value)
  | moreElements (vs : List Value)
  | members (ms : List (List Char × Value))
  | moreMembers (ms : List (List Char × Value))

/-- `Reads p i r`: the phrase `p` stands at the front of `i`, and `r` behind it. -/
inductive Reads : Phrase → List Char → List Char → Prop
  | null (r : List Char) : Reads (.value .null) ('n' :: 'u' :: 'l' :: 'l' :: r) r
  | true (r : List Char) : Reads (.value (.bool .true)) ('t' :: 'r' :: 'u' :: 'e' :: r) r
  | false (r : List Char) :
      Reads (.value (.bool .false)) ('f' :: 'a' :: 'l' :: 's' :: 'e' :: r) r
  | number {t : List Char} (ht : Number t) (r : List Char) :
      Reads (.value (.number t)) (t ++ r) r
  | string {b : List Char} (hb : Chars b) (r : List Char) :
      Reads (.value (.string b)) ('"' :: (b ++ '"' :: r)) r
  | array {vs : List Value} {i r : List Char} (h : Reads (.elements vs) (skipWs i) r) :
      Reads (.value (.array vs)) ('[' :: i) r
  | object {ms : List (List Char × Value)} {i r : List Char}
      (h : Reads (.members ms) (skipWs i) r) : Reads (.value (.object ms)) ('{' :: i) r
  | noElements (r : List Char) : Reads (.elements []) (']' :: r) r
  | element {v : Value} {vs : List Value} {i m r : List Char} (hv : Reads (.value v) i m)
      (h : Reads (.moreElements vs) (skipWs m) r) : Reads (.elements (v :: vs)) i r
  | lastElement (r : List Char) : Reads (.moreElements []) (']' :: r) r
  | nextElement {v : Value} {vs : List Value} {i r : List Char}
      (h : Reads (.elements (v :: vs)) (skipWs i) r) :
      Reads (.moreElements (v :: vs)) (',' :: i) r
  | noMembers (r : List Char) : Reads (.members []) ('}' :: r) r
  | member {b : List Char} {v : Value} {ms : List (List Char × Value)} {m i n r : List Char}
      (hb : Chars b) (hcolon : skipWs m = ':' :: i) (hv : Reads (.value v) (skipWs i) n)
      (h : Reads (.moreMembers ms) (skipWs n) r) :
      Reads (.members ((b, v) :: ms)) ('"' :: (b ++ '"' :: m)) r
  | lastMember (r : List Char) : Reads (.moreMembers []) ('}' :: r) r
  | nextMember {x : List Char × Value} {ms : List (List Char × Value)} {i r : List Char}
      (h : Reads (.members (x :: ms)) (skipWs i) r) : Reads (.moreMembers (x :: ms)) (',' :: i) r

/-- A value with whitespace around it. -/
def JsonText (t : List Char) (v : Value) : Prop :=
  ∃ r, Reads (.value v) (skipWs t) r ∧ skipWs r = []

/-! ## Strings -/

/-- What the inside of a string stands for. A pair of surrogates is one character; a surrogate by
itself is none. -/
inductive Decodes : List Char → List Char → Prop
  | nil : Decodes [] []
  | unescaped {c : Char} {b s : List Char} (hc : Unescaped c) (h : Decodes b s) :
      Decodes (c :: b) (c :: s)
  | escaped {e c : Char} {b s : List Char} (he : (e, c) ∈ escapes) (h : Decodes b s) :
      Decodes ('\\' :: e :: b) (c :: s)
  | unicode {d₁ d₂ d₃ d₄ c : Char} {b s : List Char} (hn : hex? [d₁, d₂, d₃, d₄] = some c.toNat)
      (h : Decodes b s) : Decodes ('\\' :: 'u' :: d₁ :: d₂ :: d₃ :: d₄ :: b) (c :: s)
  | surrogates {d₁ d₂ d₃ d₄ e₁ e₂ e₃ e₄ c : Char} {b s : List Char} {hi lo : ℕ}
      (hhi : hex? [d₁, d₂, d₃, d₄] = some (55296 + hi))
      (hlo : hex? [e₁, e₂, e₃, e₄] = some (56320 + lo)) (hhi' : hi < 1024) (hlo' : lo < 1024)
      (hc : c.toNat = 65536 + 1024 * hi + lo) (h : Decodes b s) :
      Decodes ('\\' :: 'u' :: d₁ :: d₂ :: d₃ :: d₄ :: '\\' :: 'u' :: e₁ :: e₂ :: e₃ :: e₄ :: b) (c :: s)

theorem chars_of_forall {b : List Char} (h : ∀ c ∈ b, Unescaped c) : Chars b := by
  induction b with
  | nil => exact .nil
  | cons c b ih =>
      obtain ⟨hc, hb⟩ := List.forall_mem_cons.mp h
      exact .unescaped hc (ih hb)

theorem escapes_fst {e c : Char} (h : (e, c) ∈ escapes) : e ≠ 'u' := by
  rintro rfl
  simp [escapes] at h

theorem escapes_unique {e c c' : Char} (h : (e, c) ∈ escapes) (h' : (e, c') ∈ escapes) : c = c' := by
  have hkeys : ∀ x ∈ escapes, ∀ y ∈ escapes, x.1 = y.1 → x.2 = y.2 := by decide
  exact hkeys _ h _ h' rfl

theorem toNat_not_surrogate (c : Char) {n : ℕ} (hn : n < 2048) : c.toNat ≠ 55296 + n := by
  have hvalid := c.valid
  intro h
  change c.val.toNat < 55296 ∨ 57343 < c.val.toNat ∧ c.val.toNat < 1114112 at hvalid
  change c.val.toNat = 55296 + n at h
  omega

/-- **The inside of a string stands for one sequence of characters.** -/
theorem Decodes.unique {b s s' : List Char} (h : Decodes b s) (h' : Decodes b s') : s = s' := by
  induction h generalizing s' with
  | nil =>
      cases h'
      rfl
  | unescaped hc _ ih =>
      cases h' with
      | unescaped _ h' => rw [ih h']
      | escaped | unicode | surrogates => exact absurd rfl hc.2.2
  | escaped he _ ih =>
      cases h' with
      | unescaped hc => exact absurd rfl hc.2.2
      | escaped he' h' => rw [escapes_unique he he', ih h']
      | unicode | surrogates => exact absurd rfl (escapes_fst he)
  | unicode hn _ ih =>
      cases h' with
      | unescaped hc => exact absurd rfl hc.2.2
      | escaped he => exact absurd rfl (escapes_fst he)
      | unicode hn' h' =>
          have hchar := Option.some.inj (hn.symm.trans hn')
          rw [Char.toNat_inj.mp hchar, ih h']
      | surrogates hhi _ hhi' =>
          have hchar := Option.some.inj (hn.symm.trans hhi)
          exact absurd hchar (toNat_not_surrogate _ (by omega))
  | surrogates hhi hlo hhi' hlo' hc _ ih =>
      cases h' with
      | unescaped hc => exact absurd rfl hc.2.2
      | escaped he => exact absurd rfl (escapes_fst he)
      | unicode hn' =>
          have hchar := Option.some.inj (hn'.symm.trans hhi)
          exact absurd hchar (toNat_not_surrogate _ (by omega))
      | surrogates hhi₂ hlo₂ _ _ hc₂ h' =>
          have hi_eq := Option.some.inj (hhi.symm.trans hhi₂)
          have lo_eq := Option.some.inj (hlo.symm.trans hlo₂)
          have hchar : Char.toNat _ = Char.toNat _ := hc.trans ((by omega : _ = _).trans hc₂.symm)
          rw [Char.toNat_inj.mp hchar, ih h']

/-- A string ends at the first quotation mark that is not escaped. -/
theorem Chars.unique {b b' r r' : List Char} (h : Chars b) (h' : Chars b')
    (heq : b ++ '"' :: r = b' ++ '"' :: r') : b = b' ∧ r = r' := by
  induction h generalizing b' with
  | nil =>
      cases h' with
      | nil => exact ⟨rfl, (List.cons.inj heq).2⟩
      | unescaped hc => exact absurd (List.cons.inj heq).1.symm hc.2.1
      | escaped | unicode => exact absurd (List.cons.inj heq).1 (by decide)
  | unescaped hc _ ih =>
      cases h' with
      | nil => exact absurd (List.cons.inj heq).1 hc.2.1
      | unescaped _ hb' =>
          obtain ⟨hb, hr⟩ := ih hb' (List.cons.inj heq).2
          exact ⟨by rw [(List.cons.inj heq).1, hb], hr⟩
      | escaped | unicode => exact absurd (List.cons.inj heq).1 hc.2.2
  | escaped he _ ih =>
      cases h' with
      | nil => exact absurd (List.cons.inj heq).1 (by decide)
      | unescaped hc => exact absurd (List.cons.inj heq).1.symm hc.2.2
      | escaped _ hb' =>
          have htail := List.cons.inj (List.cons.inj heq).2
          obtain ⟨hb, hr⟩ := ih hb' htail.2
          exact ⟨by rw [htail.1, hb], hr⟩
      | unicode => exact absurd (List.cons.inj (List.cons.inj heq).2).1 (escapes_fst he)
  | unicode _ _ ih =>
      cases h' with
      | nil => exact absurd (List.cons.inj heq).1 (by decide)
      | unescaped hc => exact absurd (List.cons.inj heq).1.symm hc.2.2
      | escaped he => exact absurd (List.cons.inj (List.cons.inj heq).2).1.symm (escapes_fst he)
      | unicode _ hb' =>
          simp only [List.cons_append, List.cons.injEq] at heq
          obtain ⟨-, -, rfl, rfl, rfl, rfl, htail⟩ := heq
          obtain ⟨rfl, hr⟩ := ih hb' htail
          exact ⟨rfl, hr⟩

/-! ## Numbers -/

/-- The characters of numbers. -/
def numberChar (c : Char) : Bool := c.isDigit || ['-', '+', '.', 'e', 'E'].contains c

/-- What a text may go on with behind a number. -/
def Follows (r : List Char) : Prop := ∀ c ∈ r.head?, numberChar c = false

theorem numberChar_of_isDigit {c : Char} (h : c.isDigit = true) : numberChar c = true := by
  simp [numberChar, h]

theorem Number.chars {t : List Char} (h : Number t) : ∀ c ∈ t, numberChar c = true := by
  obtain ⟨minus, int, frac, exp, rfl, hminus, hint, hfrac, hexp⟩ := h
  have hsign : ∀ sign ∈ [[], ['+'], ['-']], ∀ c ∈ sign, numberChar c = true := by
    simp [numberChar]
  intro c hc
  simp only [List.mem_append] at hc
  rcases hc with hc | hc | hc | hc
  · have hsigns : ∀ sign ∈ [[], ['-']], sign ∈ [[], ['+'], ['-']] := by decide
    exact hsign minus (hsigns minus hminus) c hc
  · cases hint with
    | zero => exact numberChar_of_isDigit (by simp_all)
    | digits hd _ hds =>
        cases List.mem_cons.mp hc with
        | inl hc => exact numberChar_of_isDigit (hc ▸ hd)
        | inr hc => exact numberChar_of_isDigit (hds c hc)
  · cases hfrac with
    | absent => cases hc
    | digits hds =>
        cases List.mem_cons.mp hc with
        | inl hc => simp [hc, numberChar]
        | inr hc => exact numberChar_of_isDigit (hds.2 c hc)
  · cases hexp with
    | absent => cases hc
    | digits he hsign' hds =>
        simp only [List.mem_cons, List.mem_append] at hc
        rcases hc with rfl | hc | hc
        · have hmarks : ∀ e ∈ ['e', 'E'], numberChar e = true := by simp [numberChar]
          exact hmarks _ he
        · exact hsign _ hsign' c hc
        · exact numberChar_of_isDigit (hds.2 c hc)

/-- A number without sign, fraction and exponent. -/
theorem IntPart.number {t : List Char} (h : IntPart t) : Number t :=
  ⟨[], t, [], [], by simp, by simp, h, .absent, .absent⟩

/-- How a number begins. -/
theorem Number.head {t r l : List Char} {c : Char} (h : Number t) (heq : t ++ r = c :: l) :
    c = '-' ∨ c.isDigit = true := by
  obtain ⟨minus, int, frac, exp, rfl, hminus, hint, -, -⟩ := h
  simp only [List.mem_cons, List.not_mem_nil, or_false] at hminus
  rcases hminus with rfl | rfl
  · right
    cases hint with
    | zero =>
        rw [← (List.cons.inj heq).1]
        rfl
    | digits hd => exact (List.cons.inj heq).1 ▸ hd
  · exact .inl (List.cons.inj heq).1.symm

/-- How other phrases begin. -/
theorem Number.ne {t r l : List Char} {c : Char} (h : Number t)
    (hc : c ∈ ['n', 't', 'f', '"', '[', '{', ']']) : t ++ r ≠ c :: l := by
  have hnone : ∀ c ∈ ['n', 't', 'f', '"', '[', '{', ']'], ¬ (c = '-' ∨ c.isDigit = true) := by
    simp
  exact fun heq => hnone c hc (h.head heq)

theorem takeWhile_number {t r : List Char} (h : Number t) (hr : Follows r) :
    (t ++ r).takeWhile numberChar = t := by
  rw [List.takeWhile_append_of_pos h.chars]
  cases r with
  | nil => simp
  | cons c r => simp [hr c rfl]

theorem Number.unique {t t' r r' : List Char} (h : Number t) (h' : Number t') (hr : Follows r)
    (hr' : Follows r') (heq : t ++ r = t' ++ r') : t = t' ∧ r = r' := by
  have ht : t = t' := by rw [← takeWhile_number h hr, heq, takeWhile_number h' hr']
  subst ht
  exact ⟨rfl, List.append_cancel_left heq⟩

/-! ## A text is read in one way -/

def Phrase.kind : Phrase → ℕ
  | .value _ => 0
  | .elements _ => 1
  | .moreElements _ => 2
  | .members _ => 3
  | .moreMembers _ => 4

theorem follows_of_skipWs {m : List Char} (h : Follows (skipWs m)) : Follows m := by
  have hws : ∀ c, ws c = true → numberChar c = false := by
    intro c hc
    simp only [ws, Bool.or_eq_true, beq_iff_eq] at hc
    rcases hc with ((rfl | rfl) | rfl) | rfl <;> decide
  cases m with
  | nil => exact fun c hc => by cases hc
  | cons c m =>
      by_cases hc : ws c = true
      · intro d hd
        cases hd
        exact hws c hc
      · simpa [skipWs, hc] using h

/-- Behind a value in a list there is no number. -/
theorem Reads.follows {p : Phrase} {i r : List Char} (h : Reads p i r)
    (hp : p.kind = 2 ∨ p.kind = 4) : Follows i := by
  have hmarks : ∀ c ∈ [']', '}', ','], ∀ i, Follows (c :: i) := by
    simp [Follows, numberChar]
  cases h with
  | lastElement | nextElement | lastMember | nextMember => exact hmarks _ (by simp) _
  | _ => simp [Phrase.kind] at hp

theorem Reads.ne_bracket {v : Value} {i r l : List Char} (h : Reads (.value v) i r) :
    i ≠ ']' :: l := by
  intro heq
  cases h with
  | number ht => exact ht.ne (by simp) heq
  | _ => cases heq

/-- **A phrase is read in one way**, as far as a number does not go on behind it. The induction is on
one reading; what a list goes on with tells where its elements end. -/
theorem Reads.unique {p p' : Phrase} {i i' r r' : List Char} (h : Reads p i r) (h' : Reads p' i' r')
    (hi : i = i') (hp : p.kind = p'.kind) (hr : Follows r) (hr' : Follows r') : p = p' ∧ r = r' := by
  induction h generalizing p' i' r' with
  | null r =>
      cases h' with
      | null => exact ⟨rfl, by simpa using hi⟩
      | number ht => exact absurd hi.symm (ht.ne (by simp))
      | _ => simp [Phrase.kind] at hi hp
  | true r =>
      cases h' with
      | true => exact ⟨rfl, by simpa using hi⟩
      | number ht => exact absurd hi.symm (ht.ne (by simp))
      | _ => simp [Phrase.kind] at hi hp
  | false r =>
      cases h' with
      | false => exact ⟨rfl, by simpa using hi⟩
      | number ht => exact absurd hi.symm (ht.ne (by simp))
      | _ => simp [Phrase.kind] at hi hp
  | number ht r =>
      cases h' with
      | number ht' =>
          obtain ⟨rfl, hrest⟩ := ht.unique ht' hr hr' hi
          exact ⟨rfl, hrest⟩
      | null | true | false | string | array | object => exact absurd hi (ht.ne (by simp))
      | _ => simp [Phrase.kind] at hp
  | string hb r =>
      cases h' with
      | string hb' =>
          obtain ⟨rfl, hrest⟩ := hb.unique hb' (List.cons.inj hi).2
          exact ⟨rfl, hrest⟩
      | number ht => exact absurd hi.symm (ht.ne (by simp))
      | _ => simp [Phrase.kind] at hi hp
  | array _ ih =>
      cases h' with
      | array h' =>
          obtain ⟨helems, hrest⟩ := ih h' (by rw [(List.cons.inj hi).2]) rfl hr hr'
          cases helems
          exact ⟨rfl, hrest⟩
      | number ht => exact absurd hi.symm (ht.ne (by simp))
      | _ => simp [Phrase.kind] at hi hp
  | object _ ih =>
      cases h' with
      | object h' =>
          obtain ⟨hmembers, hrest⟩ := ih h' (by rw [(List.cons.inj hi).2]) rfl hr hr'
          cases hmembers
          exact ⟨rfl, hrest⟩
      | number ht => exact absurd hi.symm (ht.ne (by simp))
      | _ => simp [Phrase.kind] at hi hp
  | noElements r =>
      cases h' with
      | noElements => exact ⟨rfl, (List.cons.inj hi).2⟩
      | element hv => exact absurd hi.symm hv.ne_bracket
      | _ => simp [Phrase.kind] at hp
  | element hv h ihv ih =>
      cases h' with
      | noElements => exact absurd hi hv.ne_bracket
      | element hv' h' =>
          have hm := follows_of_skipWs (h.follows (.inl rfl))
          have hm' := follows_of_skipWs (h'.follows (.inl rfl))
          obtain ⟨hvalue, rfl⟩ := ihv hv' hi rfl hm hm'
          obtain ⟨helems, hrest⟩ := ih h' rfl rfl hr hr'
          cases hvalue
          cases helems
          exact ⟨rfl, hrest⟩
      | _ => simp [Phrase.kind] at hp
  | lastElement r =>
      cases h' with
      | lastElement => exact ⟨rfl, (List.cons.inj hi).2⟩
      | _ => simp [Phrase.kind] at hi hp
  | nextElement _ ih =>
      cases h' with
      | nextElement h' =>
          obtain ⟨helems, hrest⟩ := ih h' (by rw [(List.cons.inj hi).2]) rfl hr hr'
          cases helems
          exact ⟨rfl, hrest⟩
      | _ => simp [Phrase.kind] at hi hp
  | noMembers r =>
      cases h' with
      | noMembers => exact ⟨rfl, (List.cons.inj hi).2⟩
      | _ => simp [Phrase.kind] at hi hp
  | member hb hcolon hv h ihv ih =>
      cases h' with
      | member hb' hcolon' hv' h' =>
          obtain ⟨rfl, rfl⟩ := hb.unique hb' (List.cons.inj hi).2
          have hvalues := (List.cons.inj (hcolon.symm.trans hcolon')).2
          have hn := follows_of_skipWs (h.follows (.inr rfl))
          have hn' := follows_of_skipWs (h'.follows (.inr rfl))
          obtain ⟨hvalue, rfl⟩ := ihv hv' (by rw [hvalues]) rfl hn hn'
          obtain ⟨hmembers, hrest⟩ := ih h' rfl rfl hr hr'
          cases hvalue
          cases hmembers
          exact ⟨rfl, hrest⟩
      | _ => simp [Phrase.kind] at hi hp
  | lastMember r =>
      cases h' with
      | lastMember => exact ⟨rfl, (List.cons.inj hi).2⟩
      | _ => simp [Phrase.kind] at hi hp
  | nextMember _ ih =>
      cases h' with
      | nextMember h' =>
          obtain ⟨hmembers, hrest⟩ := ih h' (by rw [(List.cons.inj hi).2]) rfl hr hr'
          cases hmembers
          exact ⟨rfl, hrest⟩
      | _ => simp [Phrase.kind] at hi hp

/-- **A text has one value.** -/
theorem JsonText.unique {t : List Char} {v v' : Value} (h : JsonText t v) (h' : JsonText t v') :
    v = v' := by
  obtain ⟨r, hread, hend⟩ := h
  obtain ⟨r', hread', hend'⟩ := h'
  have hnil : Follows [] := fun c hc => by cases hc
  have hr : Follows r := follows_of_skipWs (hend ▸ hnil)
  have hr' : Follows r' := follows_of_skipWs (hend' ▸ hnil)
  have hsame := (hread.unique hread' rfl rfl hr hr').1
  cases hsame
  rfl

/-! ## Control characters -/

/-- The characters of a text: no control character but tabs and line ends. -/
def Printable (c : Char) : Prop := 32 ≤ c.toNat ∨ c = '\t' ∨ c = '\n' ∨ c = '\r'

theorem printable_of_ws {c : Char} (h : ws c = true) : Printable c := by
  simp only [ws, Bool.or_eq_true, beq_iff_eq] at h
  rcases h with ((rfl | rfl) | rfl) | rfl
  · exact .inl (by decide)
  · exact .inr (.inl rfl)
  · exact .inr (.inr (.inl rfl))
  · exact .inr (.inr (.inr rfl))

theorem le_toNat_of_hexDigit? {d : Char} (h : (hexDigit? d).isSome = true) : 32 ≤ d.toNat := by
  have hle : ∀ {c : Char}, c ≤ d → c.toNat ≤ d.toNat := fun h => UInt32.le_iff_toNat_le.mp h
  unfold hexDigit? at h
  split at h
  · next hd => exact (by decide : 32 ≤ '0'.toNat).trans (hle hd.1)
  · split at h
    · next hd => exact (by decide : 32 ≤ 'a'.toNat).trans (hle hd.1)
    · split at h
      · next hd => exact (by decide : 32 ≤ 'A'.toNat).trans (hle hd.1)
      · cases h

theorem le_toNat_of_isDigit {d : Char} (h : d.isDigit = true) : 32 ≤ d.toNat := by
  simp only [Char.isDigit, Bool.and_eq_true, decide_eq_true_eq] at h
  have := UInt32.le_iff_toNat_le.mp h.1
  change 48 ≤ d.val.toNat at this
  change 32 ≤ d.val.toNat
  omega

theorem Chars.le_toNat {b : List Char} (h : Chars b) : ∀ c ∈ b, 32 ≤ c.toNat := by
  induction h with
  | nil => simp
  | unescaped hc _ ih => exact List.forall_mem_cons.mpr ⟨hc.1, ih⟩
  | escaped he _ ih =>
      have hle : ∀ x ∈ escapes, 32 ≤ x.1.toNat := by decide
      exact List.forall_mem_cons.mpr ⟨by decide, List.forall_mem_cons.mpr ⟨hle _ he, ih⟩⟩
  | unicode hds _ ih =>
      have hdigits := fun d hd => le_toNat_of_hexDigit? (hds d hd)
      simp only [List.forall_mem_cons] at hdigits ⊢
      exact ⟨by decide, by decide, hdigits.1, hdigits.2.1, hdigits.2.2.1, hdigits.2.2.2.1, ih⟩

theorem Number.le_toNat {t : List Char} (h : Number t) : ∀ c ∈ t, 32 ≤ c.toNat := by
  intro c hc
  have hchar := h.chars c hc
  simp only [numberChar, Bool.or_eq_true] at hchar
  cases hchar with
  | inl hdigit => exact le_toNat_of_isDigit hdigit
  | inr hmark =>
      have hle : ∀ c ∈ ['-', '+', '.', 'e', 'E'], 32 ≤ c.toNat := by simp
      exact hle c (by simpa using hmark)

theorem printable_of_skipWs {m : List Char} (h : ∀ c ∈ skipWs m, Printable c) :
    ∀ c ∈ m, Printable c := by
  intro c hc
  rw [← List.takeWhile_append_dropWhile (p := ws) (l := m), List.mem_append] at hc
  cases hc with
  | inl hc => exact printable_of_ws (List.all_eq_true.mp List.all_takeWhile c hc)
  | inr hc => exact h c hc

/-- What a phrase adds to a text is printable. -/
theorem Reads.printable {p : Phrase} {i r : List Char} (h : Reads p i r)
    (hr : ∀ c ∈ r, Printable c) : ∀ c ∈ i, Printable c := by
  have hascii : ∀ {s : List Char}, (∀ c ∈ s, 32 ≤ c.toNat) → ∀ c ∈ s, Printable c :=
    fun h c hc => .inl (h c hc)
  have hcons : ∀ {c : Char} {l : List Char}, 32 ≤ c.toNat → (∀ c ∈ l, Printable c) →
      ∀ d ∈ c :: l, Printable d := fun hc hl => List.forall_mem_cons.mpr ⟨.inl hc, hl⟩
  induction h with
  | null | true | false | noElements | lastElement | noMembers | lastMember =>
      repeat' apply hcons (by decide)
      exact hr
  | number ht r => exact List.forall_mem_append.mpr ⟨hascii ht.le_toNat, hr⟩
  | string hb r =>
      exact hcons (by decide) (List.forall_mem_append.mpr
        ⟨hascii hb.le_toNat, hcons (by decide) hr⟩)
  | array _ ih | object _ ih | nextElement _ ih | nextMember _ ih =>
      exact hcons (by decide) (printable_of_skipWs (ih hr))
  | element _ _ ihv ih => exact ihv (printable_of_skipWs (ih hr))
  | member hb hcolon _ _ ihv ih =>
      have hvalue := printable_of_skipWs (ihv (printable_of_skipWs (ih hr)))
      have hrest := printable_of_skipWs (hcolon ▸ hcons (by decide) hvalue)
      exact hcons (by decide) (List.forall_mem_append.mpr
        ⟨hascii hb.le_toNat, hcons (by decide) hrest⟩)

/-- **Below the blank a text has tabs and line ends only.** -/
theorem JsonText.printable {t : List Char} {v : Value} (h : JsonText t v) :
    ∀ c ∈ t, Printable c := by
  obtain ⟨r, hread, hend⟩ := h
  have hr : ∀ c ∈ r, Printable c := printable_of_skipWs (by simp [hend])
  exact printable_of_skipWs (hread.printable hr)

/-! ## Writing objects -/

/-- The text of a value, whatever follows: nothing in front of it is skipped, and it is read whole. -/
structure Writes (t : List Char) (v : Value) : Prop where
  reads : ∀ r, Reads (.value v) (t ++ r) r
  skip : ∀ r, skipWs (t ++ r) = t ++ r

theorem Writes.null : Writes ['n', 'u', 'l', 'l'] .null := ⟨fun r => .null r, fun _ => rfl⟩

theorem Writes.bool (b : Bool) :
    Writes (if b then ['t', 'r', 'u', 'e'] else ['f', 'a', 'l', 's', 'e']) (.bool b) := by
  cases b with
  | true => exact ⟨fun r => .true r, fun _ => rfl⟩
  | false => exact ⟨fun r => .false r, fun _ => rfl⟩

theorem Writes.number {t : List Char} (h : Number t) : Writes t (.number t) := by
  refine ⟨fun r => .number h r, fun r => ?_⟩
  cases heq : t ++ r with
  | nil => rfl
  | cons c l =>
      have hws : ws c = false := by
        rcases h.head heq with rfl | hdigit
        · rfl
        · simp only [ws, Bool.or_eq_false_iff, beq_eq_false_iff_ne]
          refine ⟨⟨⟨?_, ?_⟩, ?_⟩, ?_⟩
          all_goals
            rintro rfl
            cases hdigit
      simp [skipWs, hws]

theorem Writes.string {b : List Char} (h : Chars b) : Writes ('"' :: (b ++ ['"'])) (.string b) := by
  refine ⟨fun r => ?_, fun r => rfl⟩
  have hread : Reads (.value (.string b)) ('"' :: (b ++ '"' :: r)) r := .string h r
  simpa using hread

/-- The text of a member. -/
def memberText (m : List Char × List Char) : List Char := '"' :: (m.1 ++ '"' :: ':' :: m.2)

/-- What follows the first member of an object. -/
def moreText : List (List Char × List Char) → List Char
  | [] => ['}']
  | m :: ms => ',' :: (memberText m ++ moreText ms)

/-- The text of an object with at least one member, without whitespace. -/
def objectText (m : List Char × List Char) (ms : List (List Char × List Char)) : List Char :=
  '{' :: (memberText m ++ moreText ms)

/-- A member is written as one. -/
structure WritesMember (m : List Char × List Char) (x : List Char × Value) : Prop where
  name : m.1 = x.1
  chars : Chars x.1
  value : Writes m.2 x.2

theorem WritesMember.reads {m : List Char × List Char} {x : List Char × Value}
    (h : WritesMember m x) {xs : List (List Char × Value)} {i r : List Char}
    (hrest : Reads (.moreMembers xs) i r) (hskip : skipWs i = i) :
    Reads (.members (x :: xs)) (memberText m ++ i) r := by
  have hread : Reads (.members (x :: xs)) ('"' :: (x.1 ++ '"' :: (':' :: (m.2 ++ i)))) r := by
    refine .member h.chars (i := m.2 ++ i) (n := i) rfl ?_ ?_
    · rw [h.value.skip]
      exact h.value.reads i
    · rwa [hskip]
  simpa [memberText, h.name] using hread

theorem reads_moreText {ms : List (List Char × List Char)} {xs : List (List Char × Value)}
    (h : List.Forall₂ WritesMember ms xs) : Reads (.moreMembers xs) (moreText ms) [] := by
  induction h with
  | nil => exact .lastMember []
  | @cons m x ms xs hm _ ih =>
      have hskip : skipWs (moreText ms) = moreText ms := by cases ms <;> rfl
      exact .nextMember (hm.reads ih hskip)

/-- **What is written as an object is read as it.** -/
theorem jsonText_objectText {m : List Char × List Char} {x : List Char × Value}
    {ms : List (List Char × List Char)} {xs : List (List Char × Value)} (hm : WritesMember m x)
    (h : List.Forall₂ WritesMember ms xs) : JsonText (objectText m ms) (.object (x :: xs)) := by
  have hskip : skipWs (moreText ms) = moreText ms := by cases ms <;> rfl
  exact ⟨[], .object (hm.reads (reads_moreText h) hskip), rfl⟩

/-! ## Texts as bytes -/

/-- A text in UTF-8, as it is exchanged. -/
def utf8 (t : List Char) : List UInt8 := t.flatMap String.utf8EncodeChar

@[simp] theorem utf8_append (t t' : List Char) : utf8 (t ++ t') = utf8 t ++ utf8 t' :=
  List.flatMap_append

theorem utf8_injective : Function.Injective utf8 := by
  intro t t' h
  have hbytes : t.utf8Encode = t'.utf8Encode := congrArg List.toByteArray h
  have hdecoded := congrArg ByteArray.utf8Decode? hbytes
  simpa using hdecoded

theorem utf8EncodeChar_of_lt {c : Char} (h : c.toNat < 128) :
    String.utf8EncodeChar c = [c.toUInt8] := by
  have hle : c.val.toNat ≤ 127 := Nat.le_of_lt_succ h
  simp only [String.utf8EncodeChar, if_pos hle]
  rfl

/-- The bytes of ASCII stand for nothing else. -/
theorem le_of_mem_utf8EncodeChar {c : Char} (h : 128 ≤ c.toNat) {b : UInt8}
    (hb : b ∈ String.utf8EncodeChar c) : 128 ≤ b := by
  have hlt : ¬ c.val.toNat ≤ 127 := not_le.mpr h
  have hhigh : ∀ n, 128 ≤ n → n < 256 → (128 : UInt8) ≤ UInt8.ofNat n := by
    intro n hn hlt
    rw [UInt8.le_iff_toNat_le, UInt8.toNat_ofNat', Nat.mod_eq_of_lt hlt]
    exact hn
  simp only [String.utf8EncodeChar, if_neg hlt] at hb
  split at hb
  · simp only [List.mem_cons, List.not_mem_nil, or_false] at hb
    rcases hb with rfl | rfl <;> exact hhigh _ (by omega) (by omega)
  · split at hb
    · simp only [List.mem_cons, List.not_mem_nil, or_false] at hb
      rcases hb with rfl | rfl | rfl <;> exact hhigh _ (by omega) (by omega)
    · simp only [List.mem_cons, List.not_mem_nil, or_false] at hb
      rcases hb with rfl | rfl | rfl | rfl <;> exact hhigh _ (by omega) (by omega)

/-- A JSON text as it is exchanged. -/
def JsonBytes (body : List UInt8) (v : Value) : Prop := ∃ t, utf8 t = body ∧ JsonText t v

theorem jsonBytes_utf8 {t : List Char} {v : Value} : JsonBytes (utf8 t) v ↔ JsonText t v := by
  constructor
  · rintro ⟨t', ht', h⟩
    rwa [← utf8_injective ht']
  · exact fun h => ⟨t, rfl, h⟩

end Json
