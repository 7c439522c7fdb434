import Mathlib.Data.List.Chain
import Synapse.Floating.Format
import Synapse.Inet.Text
import Synapse.Wire.Json

/-!
# JSON text

`JSON.stringify` and `JSON.parse`. A text is a sequence of tokens: punctuation, string literals, and
words, which are numbers and the names of constants. The tokens of a text are scanned character by
character, and a value is put together token by token, what encloses it waiting on a stack.

Both are loops over their input, so that what they do with a text is what they do with its pieces in
turn; a value is read back from its own tokens wherever they stand (`Reading.foldlM_tokens`), and
from its own text (`Json.parse_stringify`).

Strings are sequences of characters here: an escape that stands for half a surrogate pair only is
rejected. A number is rounded to a double.
-/

namespace Synapse

namespace JsonText

inductive Token
  | mark (c : Char)
  /-- The characters of a string. -/
  | str (chars : List Char)
  | word (chars : List Char)
  deriving DecidableEq

def quoteMark : Char := '\x22'

def backslash : Char := '\x5c'

/-- What is escaped with a letter or as itself: the character after the backslash, and the one that
is meant. -/
def escapes : List (Char × Char) :=
  [(quoteMark, quoteMark), (backslash, backslash), ('b', '\x08'), ('f', '\x0c'), ('n', '\n'),
    ('r', '\r'), ('t', '\t')]

/-! ## Writing -/

/-- A character of a string literal. -/
def escaped (c : Char) : List Char :=
  match escapes.find? fun e ↦ e.2 == c with
  | some (e, _) => [backslash, e]
  | none =>
    if c.toNat < 0x20 then
      [backslash, 'u', '0', '0', Nat.digitChar (c.toNat / 16), Nat.digitChar (c.toNat % 16)]
    else [c]

def Token.text : Token → List Char
  | .mark c => [c]
  | .str chars => quoteMark :: (chars.flatMap escaped ++ [quoteMark])
  | .word chars => chars

section Tokens

variable (R : Json.Rendering)

mutual

/-- The tokens of a value. -/
def tokens : Json → List Token
  | .null | .num (.infinity _) => [.word "null".toList]
  | .bool b => [.word (if b then "true" else "false").toList]
  | .num (.finite q) => [.word (R.number (.finite q)).toList]
  | .str s => [.str s.toList]
  | .arr items => .mark '[' :: (itemTokens items ++ [.mark ']'])
  | .obj fields => .mark '{' :: (fieldTokens fields ++ [.mark '}'])
  -- an `ArrayBuffer` has no fields
  | .binary _ => [.mark '{', .mark '}']

def itemTokens : List Json → List Token
  | [] => []
  | [v] => tokens v
  | v :: w :: vs => tokens v ++ .mark ',' :: itemTokens (w :: vs)

def fieldTokens : List (String × Json) → List Token
  | [] => []
  | [(key, v)] => .str key.toList :: .mark ':' :: tokens v
  | (key, v) :: f :: fs =>
    .str key.toList :: .mark ':' :: (tokens v ++ .mark ',' :: fieldTokens (f :: fs))

end

end Tokens

/-! ## Scanning -/

def isSpace (c : Char) : Bool := [' ', '\t', '\n', '\r'].contains c

def isMark (c : Char) : Bool := ['[', ']', '{', '}', ',', ':'].contains c

/-- The characters of a string literal that have been read, the latest first, and half a surrogate
pair that waits for the other one. -/
structure Content where
  chars : List Char := []
  high : Option ℕ := none

namespace Content

variable (content : Content)

def addChar (c : Char) : Option Content :=
  if content.high = none then some { chars := c :: content.chars } else none

/-- Adds a code unit of UTF-16. -/
def addUnit (unit : ℕ) : Option Content :=
  match content.high with
  | some high =>
    if 0xdc00 ≤ unit ∧ unit < 0xe000 then
      some { chars := Char.ofNat (0x10000 + (high - 0xd800) * 0x400 + (unit - 0xdc00))
        :: content.chars }
    else none
  | none =>
    if 0xd800 ≤ unit ∧ unit < 0xdc00 then some { content with high := some unit }
    else if 0xdc00 ≤ unit ∧ unit < 0xe000 then none
    else some { chars := Char.ofNat unit :: content.chars }

end Content

/-- What is under way between two characters of a text. -/
inductive Current
  | between
  | word (chars : List Char)
  | str (content : Content)
  /-- After a backslash. -/
  | escape (content : Content)
  /-- After `\u` and some of its four digits. -/
  | unicode (content : Content) (digits : List Char)

/-- The tokens of a text that have been read, the latest first, and the one under way. -/
structure Scan where
  tokens : List Token := []
  current : Current := .between

namespace Scan

/-- A character that belongs to no token under way. -/
def start (tokens : List Token) (c : Char) : Scan :=
  if isSpace c then ⟨tokens, .between⟩
  else if isMark c then ⟨.mark c :: tokens, .between⟩
  else if c = quoteMark then ⟨tokens, .str {}⟩
  else ⟨tokens, .word [c]⟩

def step (s : Scan) (c : Char) : Option Scan :=
  match s.current with
  | .between => some (start s.tokens c)
  | .word chars =>
    if isSpace c ∨ isMark c ∨ c = quoteMark then some (start (.word chars.reverse :: s.tokens) c)
    else some ⟨s.tokens, .word (c :: chars)⟩
  | .str content =>
    if c = quoteMark then
      if content.high = none then some ⟨.str content.chars.reverse :: s.tokens, .between⟩ else none
    else if c = backslash then some ⟨s.tokens, .escape content⟩
    else if c.toNat < 0x20 then none
    else (content.addChar c).map fun content ↦ ⟨s.tokens, .str content⟩
  | .escape content =>
    if c = 'u' then some ⟨s.tokens, .unicode content []⟩
    else do
      let meant ← (('/', '/') :: escapes).lookup c
      let content ← content.addChar meant
      some ⟨s.tokens, .str content⟩
  | .unicode content digits =>
    if Inet.isHexDigit c then
      if digits.length < 3 then some ⟨s.tokens, .unicode content (digits ++ [c])⟩
      else do
        let content ← content.addUnit (Inet.bigEndian 16 ((digits ++ [c]).map Inet.hexValue))
        some ⟨s.tokens, .str content⟩
    else none

/-- The tokens of a text that ends here. -/
def close (s : Scan) : Option (List Token) :=
  match s.current with
  | .between => some s.tokens.reverse
  | .word chars => some (.word chars.reverse :: s.tokens).reverse
  | _ => none

end Scan

def lex (text : List Char) : Option (List Token) := (text.foldlM Scan.step {}).bind Scan.close

/-! ## Reading -/

/-- The digits in front, at least one, and the rest. -/
def digitsOf (chars : List Char) : Option (List Char × List Char) :=
  match chars.span Char.isDigit with
  | ([], _) => none
  | (digits, rest) => some (digits, rest)

/-- The fraction of a numeral, and the rest. -/
def fractionOf : List Char → Option (List Char × List Char)
  | '.' :: chars => digitsOf chars
  | chars => some ([], chars)

/-- The exponent of a numeral, with which it ends. -/
def exponentOf : List Char → Option ℤ
  | [] => some 0
  | e :: chars =>
    let (sign, chars) : ℤ × List Char :=
      match chars with
      | '-' :: chars => (-1, chars)
      | '+' :: chars => (1, chars)
      | chars => (1, chars)
    if (e = 'e' ∨ e = 'E') ∧ chars ≠ [] ∧ chars.all Char.isDigit then
      some (sign * Nat.ofDigitChars 10 chars 0)
    else none

/-- The number that a numeral stands for. -/
def numeral (chars : List Char) : Option ℚ := do
  let negative := chars.head? = some '-'
  let (whole, rest) ← digitsOf (if negative then chars.tail else chars)
  let (fraction, rest) ← fractionOf rest
  let exponent ← exponentOf rest
  -- no zero in front of other digits
  if whole.head? = some '0' ∧ whole ≠ ['0'] then none
  else
    some ((if negative then -1 else 1) * Nat.ofDigitChars 10 (whole ++ fraction) 0 *
      10 ^ (exponent - fraction.length))

/-- The double next to a number. -/
def toDouble (q : ℚ) : JsNumber :=
  let rounded := Floating.binary64.round q
  if |rounded| ≤ Floating.binary64.maxFinite then .finite rounded
  else .infinity (decide (q < 0))

/-- The value of a word. -/
def wordValue (chars : List Char) : Option Json :=
  if chars = "null".toList then some .null
  else if chars = "true".toList then some (.bool true)
  else if chars = "false".toList then some (.bool false)
  else (numeral chars).map fun q ↦ .num (toDouble q)

/-- What encloses the value under way, as far as it has been read. -/
inductive Frame
  | arr (items : List Json)
  | obj (fields : List (String × Json))
  /-- An object, and the name of the field under way. -/
  | field (fields : List (String × Json)) (key : String)

/-- What has to come next. -/
inductive Next
  | value
  | valueOrEnd
  | key
  | keyOrEnd
  | colon
  | commaOrEnd
  /-- Nothing: this is the value. -/
  | done (v : Json)

/-- Sets a field; the later one of two fields of a name counts, in the place of the earlier. -/
def setField (key : String) (v : Json) : List (String × Json) → List (String × Json)
  | [] => [(key, v)]
  | f :: fields => if f.1 = key then (key, v) :: fields else f :: setField key v fields

structure Reading where
  stack : List Frame := []
  next : Next := .value

namespace Reading

/-- A value has been read. -/
def give (v : Json) : List Frame → Option Reading
  | [] => some ⟨[], .done v⟩
  | .arr items :: stack => some ⟨.arr (items ++ [v]) :: stack, .commaOrEnd⟩
  | .field fields key :: stack => some ⟨.obj (setField key v fields) :: stack, .commaOrEnd⟩
  | .obj _ :: _ => none

def onValue (stack : List Frame) : Token → Option Reading
  | .mark c =>
    if c = '[' then some ⟨.arr [] :: stack, .valueOrEnd⟩
    else if c = '{' then some ⟨.obj [] :: stack, .keyOrEnd⟩
    else none
  | .str chars => give (.str (String.ofList chars)) stack
  | .word chars => do
    let v ← wordValue chars
    give v stack

def onKey (stack : List Frame) (t : Token) : Option Reading :=
  match stack, t with
  | .obj fields :: stack, .str chars => some ⟨.field fields (String.ofList chars) :: stack, .colon⟩
  | _, _ => none

def onEnd (stack : List Frame) (t : Token) : Option Reading :=
  match stack with
  | .arr items :: stack => if t = .mark ']' then give (.arr items) stack else none
  | .obj fields :: stack => if t = .mark '}' then give (.obj fields) stack else none
  | _ => none

def onComma : List Frame → Option Reading
  | .arr items :: stack => some ⟨.arr items :: stack, .value⟩
  | .obj fields :: stack => some ⟨.obj fields :: stack, .key⟩
  | _ => none

def step (r : Reading) (t : Token) : Option Reading :=
  match r.next with
  | .value => onValue r.stack t
  | .valueOrEnd => if t = .mark ']' then onEnd r.stack t else onValue r.stack t
  | .key => onKey r.stack t
  | .keyOrEnd => if t = .mark '}' then onEnd r.stack t else onKey r.stack t
  | .colon => if t = .mark ':' then some { r with next := .value } else none
  | .commaOrEnd => if t = .mark ',' then onComma r.stack else onEnd r.stack t
  | .done _ => none

def result (r : Reading) : Option Json :=
  match r.next with
  | .done v => some v
  | _ => none

end Reading

end JsonText

namespace JsonText

/-! ## Loops that may fail -/

section Loops

variable {α σ : Type*} {f : σ → α → Option σ} {s s' : σ} {a : α}

theorem foldlM_cons_of_eq_some (h : f s a = some s') (as : List α) :
    (a :: as).foldlM f s = as.foldlM f s' := by
  rw [List.foldlM_cons, h, Option.bind_eq_bind, Option.bind_some]

theorem foldlM_append_of_eq_some {as : List α} (h : as.foldlM f s = some s') (bs : List α) :
    (as ++ bs).foldlM f s = bs.foldlM f s' := by
  rw [List.foldlM_append, h, Option.bind_eq_bind, Option.bind_some]

end Loops

/-! ## What is scanned of a string literal -/

theorem lookup_of_mem_escapes {e : Char × Char} (he : e ∈ escapes) :
    (('/', '/') :: escapes).lookup e.1 = some e.2 ∧ e.1 ≠ 'u' := by
  have hall : escapes.all (fun e ↦ decide ((('/', '/') :: escapes).lookup e.1 = some e.2 ∧
      e.1 ≠ 'u')) = true := rfl
  exact of_decide_eq_true (List.all_eq_true.mp hall e he)

theorem isHexDigit_digitChar {d : ℕ} (hd : d < 16) :
    Inet.isHexDigit (Nat.digitChar d) = true ∧ Inet.hexValue (Nat.digitChar d) = d := by
  have hall : ∀ d < 16, Inet.isHexDigit (Nat.digitChar d) = true ∧
      Inet.hexValue (Nat.digitChar d) = d := by decide
  exact hall d hd

section Literal

variable (acc : List Token) (chars : List Char)

theorem foldlM_control {c : Char} (hc : c.toNat < 0x20) :
    [backslash, 'u', '0', '0', Nat.digitChar (c.toNat / 16),
        Nat.digitChar (c.toNat % 16)].foldlM Scan.step ⟨acc, .str ⟨chars, none⟩⟩
      = some ⟨acc, .str ⟨c :: chars, none⟩⟩ := by
  obtain ⟨hhex₁, hvalue₁⟩ := isHexDigit_digitChar (d := c.toNat / 16) (by omega)
  obtain ⟨hhex₂, hvalue₂⟩ := isHexDigit_digitChar (d := c.toNat % 16) (by omega)
  have hunit : Inet.bigEndian 16 ((['0', '0', Nat.digitChar (c.toNat / 16)] ++
      [Nat.digitChar (c.toNat % 16)]).map Inet.hexValue) = c.toNat := by
    have hzero : Inet.hexValue '0' = 0 := by decide
    simp only [List.cons_append, List.nil_append, List.map_cons, List.map_nil,
      Inet.bigEndian_cons, Inet.bigEndian_nil, hvalue₁, hvalue₂, hzero, List.length_cons,
      List.length_nil]
    omega
  have hadd : Content.addUnit ⟨chars, none⟩ c.toNat = some ⟨c :: chars, none⟩ := by
    rw [Content.addUnit]
    dsimp only
    rw [if_neg (by omega), if_neg (by omega), Char.ofNat_toNat]
  have hzeros : [backslash, 'u', '0', '0'].foldlM Scan.step ⟨acc, .str ⟨chars, none⟩⟩
      = some ⟨acc, .unicode ⟨chars, none⟩ ['0', '0']⟩ := rfl
  have hthird : Scan.step ⟨acc, .unicode ⟨chars, none⟩ ['0', '0']⟩ (Nat.digitChar (c.toNat / 16))
      = some ⟨acc, .unicode ⟨chars, none⟩ ['0', '0', Nat.digitChar (c.toNat / 16)]⟩ := by
    simp only [Scan.step, hhex₁]
    rfl
  have hfourth : Scan.step ⟨acc, .unicode ⟨chars, none⟩ ['0', '0', Nat.digitChar (c.toNat / 16)]⟩
      (Nat.digitChar (c.toNat % 16)) = some ⟨acc, .str ⟨c :: chars, none⟩⟩ := by
    simp only [Scan.step, hhex₂, hunit, hadd]
    rfl
  have hsplit : [backslash, 'u', '0', '0', Nat.digitChar (c.toNat / 16),
      Nat.digitChar (c.toNat % 16)] = [backslash, 'u', '0', '0'] ++
        [Nat.digitChar (c.toNat / 16), Nat.digitChar (c.toNat % 16)] := rfl
  rw [hsplit, foldlM_append_of_eq_some hzeros, foldlM_cons_of_eq_some hthird,
    foldlM_cons_of_eq_some hfourth]
  rfl

theorem foldlM_escaped (c : Char) : (escaped c).foldlM Scan.step ⟨acc, .str ⟨chars, none⟩⟩
    = some ⟨acc, .str ⟨c :: chars, none⟩⟩ := by
  rw [escaped]
  cases hfind : escapes.find? fun e ↦ e.2 == c with
  | some e =>
    have hmem := List.mem_of_find?_eq_some hfind
    have hc : e.2 = c := by simpa using List.find?_some hfind
    obtain ⟨hlookup, hu⟩ := lookup_of_mem_escapes hmem
    have hbackslash : Scan.step ⟨acc, .str ⟨chars, none⟩⟩ backslash
        = some ⟨acc, .escape ⟨chars, none⟩⟩ := rfl
    have hletter : Scan.step ⟨acc, .escape ⟨chars, none⟩⟩ e.1
        = some ⟨acc, .str ⟨c :: chars, none⟩⟩ := by
      simp only [Scan.step, if_neg hu, hlookup, hc]
      rfl
    dsimp only
    rw [foldlM_cons_of_eq_some hbackslash, foldlM_cons_of_eq_some hletter]
    rfl
  | none =>
    have hplain := List.find?_eq_none.mp hfind
    dsimp only
    split_ifs with hcontrol
    · exact foldlM_control acc chars hcontrol
    · have hquote : c ≠ quoteMark := by
        rintro rfl
        exact hplain (quoteMark, quoteMark) List.mem_cons_self (beq_self_eq_true _)
      have hbackslash : c ≠ backslash := by
        rintro rfl
        exact hplain (backslash, backslash) (List.mem_cons_of_mem _ List.mem_cons_self)
          (beq_self_eq_true _)
      have hstep : Scan.step ⟨acc, .str ⟨chars, none⟩⟩ c = some ⟨acc, .str ⟨c :: chars, none⟩⟩ := by
        simp only [Scan.step, if_neg hquote, if_neg hbackslash, if_neg hcontrol]
        rfl
      exact foldlM_cons_of_eq_some hstep []

theorem foldlM_flatMap_escaped (cs : List Char) :
    (cs.flatMap escaped).foldlM Scan.step ⟨acc, .str ⟨chars, none⟩⟩
      = some ⟨acc, .str ⟨cs.reverse ++ chars, none⟩⟩ := by
  induction cs generalizing chars with
  | nil => rfl
  | cons c cs ih =>
    rw [List.flatMap_cons, foldlM_append_of_eq_some (foldlM_escaped acc chars c), ih,
      List.reverse_cons, List.append_assoc]
    rfl

end Literal

/-! ## Scanning tokens back -/

/-- A character that no word has. -/
def Delimits (c : Char) : Prop := isSpace c = true ∨ isMark c = true ∨ c = quoteMark

/-- A token that a text can have. -/
def Token.Legible : Token → Prop
  | .mark c => isMark c = true
  | .str _ => True
  | .word chars => chars ≠ [] ∧ ∀ c ∈ chars, ¬ Delimits c

/-- Whether the text of a token goes on as long as there are no delimiters. -/
def Token.isWord : Token → Bool
  | .word _ => true
  | _ => false

/-- Tokens that need no space between them. -/
def Apart (t t' : Token) : Prop := t.isWord = false ∨ t'.isWord = false

namespace Scan

/-- The scan when the text of a token has been read. -/
def after (acc : List Token) : Token → Scan
  | .word chars => ⟨acc, .word chars.reverse⟩
  | t => ⟨t :: acc, .between⟩

variable {acc : List Token} {t : Token} {c : Char}

theorem isSpace_of_isMark (h : isMark c = true) : isSpace c = false := by
  have hmem : c ∈ ['[', ']', '{', '}', ',', ':'] := by simpa [isMark] using h
  simp only [List.mem_cons, List.not_mem_nil, or_false] at hmem
  rcases hmem with rfl | rfl | rfl | rfl | rfl | rfl <;> rfl

theorem foldlM_word {chars read : List Char} (h : ∀ c ∈ chars, ¬ Delimits c) :
    chars.foldlM step ⟨acc, .word read⟩ = some ⟨acc, .word (chars.reverse ++ read)⟩ := by
  induction chars generalizing read with
  | nil => rfl
  | cons c chars ih =>
    have hstep : step ⟨acc, .word read⟩ c = some ⟨acc, .word (c :: read)⟩ :=
      if_neg (h c List.mem_cons_self)
    rw [foldlM_cons_of_eq_some hstep, ih fun d hd ↦ h d (List.mem_cons_of_mem _ hd),
      List.reverse_cons, List.append_assoc]
    rfl

theorem foldlM_text (ht : t.Legible) : t.text.foldlM step ⟨acc, .between⟩ = some (after acc t) := by
  cases t with
  | mark c =>
    have hspace : ¬ isSpace c = true := by rw [isSpace_of_isMark ht]; exact Bool.false_ne_true
    have hstart : start acc c = ⟨.mark c :: acc, .between⟩ := by
      rw [start, if_neg hspace]
      exact if_pos ht
    exact foldlM_cons_of_eq_some (congrArg some hstart) []
  | str chars =>
    have hopen : step ⟨acc, .between⟩ quoteMark = some ⟨acc, .str {}⟩ := rfl
    have hclose : step ⟨acc, .str ⟨chars.reverse ++ [], none⟩⟩ quoteMark
        = some ⟨.str chars :: acc, .between⟩ := by
      rw [List.append_nil]
      simp [step]
    rw [Token.text, foldlM_cons_of_eq_some hopen,
      foldlM_append_of_eq_some (foldlM_flatMap_escaped acc [] chars), foldlM_cons_of_eq_some hclose]
    rfl
  | word chars =>
    obtain ⟨hne, hchars⟩ := ht
    obtain ⟨c, chars, rfl⟩ := List.exists_cons_of_ne_nil hne
    have hc : ¬ Delimits c := hchars c List.mem_cons_self
    have hstart : start acc c = ⟨acc, .word [c]⟩ := by
      rw [start, if_neg fun h ↦ hc (.inl h), if_neg fun h ↦ hc (.inr (.inl h)),
        if_neg fun h ↦ hc (.inr (.inr h))]
    have hstep : step ⟨acc, .between⟩ c = some ⟨acc, .word [c]⟩ := congrArg some hstart
    rw [Token.text, foldlM_cons_of_eq_some hstep,
      foldlM_word fun d hd ↦ hchars d (List.mem_cons_of_mem _ hd), after, List.reverse_cons]

/-- A token that ends only where another begins is not affected by its text. -/
theorem foldlM_after {t' : Token} (ht' : t'.Legible) (hapart : Apart t t') :
    t'.text.foldlM step (after acc t) = t'.text.foldlM step ⟨t :: acc, .between⟩ := by
  cases t with
  | mark c => rfl
  | str chars => rfl
  | word chars =>
    have hdelimits : ∀ c, Delimits c → step (after acc (.word chars)) c
        = step ⟨.word chars :: acc, .between⟩ c := by
      intro c hc
      have hstep : step (after acc (.word chars)) c
          = some (start (.word chars.reverse.reverse :: acc) c) := if_pos hc
      rw [hstep, List.reverse_reverse]
      rfl
    cases t' with
    | mark c => rw [Token.text, List.foldlM_cons, List.foldlM_cons, hdelimits c (.inr (.inl ht'))]
    | str chars' =>
      rw [Token.text, List.foldlM_cons, List.foldlM_cons, hdelimits quoteMark (.inr (.inr rfl))]
    | word chars' => exact absurd hapart (by simp [Apart, Token.isWord])

theorem close_after : close (after acc t) = some (t :: acc).reverse := by
  cases t with
  | mark c => rfl
  | str chars => rfl
  | word chars => simp [close, after]

end Scan

theorem foldlM_flatMap_text {ts : List Token} (hlegible : ∀ t ∈ ts, t.Legible)
    (hapart : ts.IsChain Apart) (acc : List Token) :
    ((ts.flatMap Token.text).foldlM Scan.step ⟨acc, .between⟩).bind Scan.close
      = some (acc.reverse ++ ts) := by
  induction ts generalizing acc with
  | nil => simp [Scan.close]
  | cons t ts ih =>
    have hrest := ih (fun t' ht' ↦ hlegible t' (List.mem_cons_of_mem _ ht')) hapart.tail (t :: acc)
    rw [List.flatMap_cons,
      foldlM_append_of_eq_some (Scan.foldlM_text (hlegible t List.mem_cons_self))]
    cases ts with
    | nil =>
      simp [Scan.close_after]
    | cons t' ts =>
      have ht' := hlegible t' (List.mem_cons_of_mem _ List.mem_cons_self)
      rw [List.flatMap_cons, List.foldlM_append] at hrest ⊢
      rw [Scan.foldlM_after ht' (List.isChain_cons_cons.mp hapart).1, hrest, List.reverse_cons,
        List.append_assoc, List.singleton_append]

/-- A text is its tokens. -/
theorem lex_flatMap_text {ts : List Token} (hlegible : ∀ t ∈ ts, t.Legible)
    (hapart : ts.IsChain Apart) : lex (ts.flatMap Token.text) = some ts :=
  foldlM_flatMap_text hlegible hapart []

/-! ## The tokens of a value -/

/-- Tokens that a text is scanned back to. -/
def Spelled (ts : List Token) : Prop := (∀ t ∈ ts, t.Legible) ∧ ts.IsChain Apart

namespace Spelled

variable {ts ts' : List Token} {t : Token} {c : Char}

theorem nil : Spelled [] := ⟨fun _ h ↦ absurd h List.not_mem_nil, List.isChain_nil⟩

theorem singleton (ht : t.Legible) : Spelled [t] :=
  ⟨fun _ h ↦ List.mem_singleton.mp h ▸ ht, List.isChain_singleton t⟩

theorem join (h : Spelled ts) (h' : Spelled ts') (hc : isMark c = true) :
    Spelled (ts ++ .mark c :: ts') := by
  refine ⟨fun t ht ↦ ?_, h.2.append ?_ fun t _ t' ht' ↦ ?_⟩
  · rcases List.mem_append.mp ht with ht | ht
    · exact h.1 t ht
    · rcases List.mem_cons.mp ht with rfl | ht
      · exact hc
      · exact h'.1 t ht
  · exact (List.isChain_singleton _).append h'.2 fun t ht _ _ ↦ .inl (by
      rw [List.getLast?_singleton, Option.mem_some_iff] at ht
      rw [← ht]
      rfl)
  · rw [List.head?_cons, Option.mem_some_iff] at ht'
    exact .inr (by rw [← ht']; rfl)

theorem enclose (h : Spelled ts) {d : Char} (hc : isMark c = true) (hd : isMark d = true) :
    Spelled (.mark c :: (ts ++ [.mark d])) :=
  nil.join (h.join nil hd) hc

theorem intercalate {pieces : List (List Token)} (h : ∀ piece ∈ pieces, Spelled piece) :
    Spelled ([.mark ','].intercalate pieces) := by
  induction pieces with
  | nil => exact nil
  | cons piece pieces ih =>
    have hrest := ih fun p hp ↦ h p (List.mem_cons_of_mem _ hp)
    cases pieces with
    | nil =>
      rw [List.intercalate_singleton]
      exact h piece List.mem_cons_self
    | cons piece' pieces =>
      rw [List.intercalate_cons_cons, List.append_assoc]
      exact (h piece List.mem_cons_self).join hrest rfl

end Spelled

variable {R : Json.Rendering}

/-- A value that is read back from its tokens: its numbers are, and the fields of its objects have
different names. -/
inductive Readable (R : Json.Rendering) : Json → Prop
  | null : Readable R .null
  | bool (b : Bool) : Readable R (.bool b)
  | str (s : String) : Readable R (.str s)
  | num {q : ℚ} (hlegible : (Token.word (R.number (.finite q)).toList).Legible)
      (hvalue : wordValue (R.number (.finite q)).toList = some (.num (.finite q))) :
      Readable R (.num (.finite q))
  | arr {items : List Json} (h : ∀ v ∈ items, Readable R v) : Readable R (.arr items)
  | obj {fields : List (String × Json)} (hnodup : (fields.map Prod.fst).Nodup)
      (h : ∀ f ∈ fields, Readable R f.2) : Readable R (.obj fields)

/-- The tokens of a field. -/
def fieldPiece (R : Json.Rendering) (f : String × Json) : List Token :=
  .str f.1.toList :: .mark ':' :: tokens R f.2

theorem itemTokens_eq (items : List Json) :
    itemTokens R items = [.mark ','].intercalate (items.map (tokens R)) := by
  induction items with
  | nil => rw [itemTokens, List.map_nil, List.intercalate_nil]
  | cons v items ih =>
    cases items with
    | nil => rw [itemTokens, List.map_cons, List.map_nil, List.intercalate_singleton]
    | cons w items =>
      rw [itemTokens, ih, List.map_cons, List.map_cons, List.map_cons,
        List.intercalate_cons_cons, List.append_assoc, List.singleton_append]

theorem fieldTokens_eq (fields : List (String × Json)) :
    fieldTokens R fields = [.mark ','].intercalate (fields.map (fieldPiece R)) := by
  induction fields with
  | nil => rw [fieldTokens, List.map_nil, List.intercalate_nil]
  | cons f fields ih =>
    cases fields with
    | nil =>
      rw [fieldTokens, List.map_cons, List.map_nil, List.intercalate_singleton]
      rfl
    | cons g fields =>
      rw [fieldTokens, ih, List.map_cons, List.map_cons, List.map_cons,
        List.intercalate_cons_cons, List.append_assoc, List.singleton_append]
      rfl

theorem not_delimits_of_isAlpha {c : Char} (h : c.isAlpha = true) : ¬ Delimits c := by
  rintro (hspace | hmark | rfl)
  · have hmem : c ∈ [' ', '\t', '\n', '\r'] := by simpa [isSpace] using hspace
    simp only [List.mem_cons, List.not_mem_nil, or_false] at hmem
    rcases hmem with rfl | rfl | rfl | rfl <;> exact absurd h (by decide)
  · have hmem : c ∈ ['[', ']', '{', '}', ',', ':'] := by simpa [isMark] using hmark
    simp only [List.mem_cons, List.not_mem_nil, or_false] at hmem
    rcases hmem with rfl | rfl | rfl | rfl | rfl | rfl <;> exact absurd h (by decide)
  · exact absurd h (by decide)

theorem legible_of_isAlpha {chars : List Char} (hne : chars ≠ [])
    (h : chars.all Char.isAlpha = true) : (Token.word chars).Legible :=
  ⟨hne, fun c hc ↦ not_delimits_of_isAlpha (List.all_eq_true.mp h c hc)⟩

theorem spelled_tokens {v : Json} (h : Readable R v) : Spelled (tokens R v) := by
  induction h with
  | null =>
    rw [tokens]
    exact .singleton (legible_of_isAlpha (by decide) rfl)
  | bool b =>
    rw [tokens]
    cases b with
    | true => exact .singleton (legible_of_isAlpha (by decide) rfl)
    | false => exact .singleton (legible_of_isAlpha (by decide) rfl)
  | str s =>
    rw [tokens]
    exact .singleton trivial
  | num hlegible hvalue =>
    rw [tokens]
    exact .singleton hlegible
  | arr h ih =>
    rw [tokens, itemTokens_eq]
    refine Spelled.enclose (.intercalate fun piece hpiece ↦ ?_) rfl rfl
    obtain ⟨v, hv, rfl⟩ := List.mem_map.mp hpiece
    exact ih v hv
  | obj hnodup h ih =>
    rw [tokens, fieldTokens_eq]
    refine Spelled.enclose (.intercalate fun piece hpiece ↦ ?_) rfl rfl
    obtain ⟨f, hf, rfl⟩ := List.mem_map.mp hpiece
    have hkey : Spelled [.str f.1.toList] := .singleton trivial
    exact hkey.join (ih f hf) rfl

/-! ## Reading a value back -/

theorem setField_of_not_mem {key : String} {v : Json} {fields : List (String × Json)}
    (h : key ∉ fields.map Prod.fst) : setField key v fields = fields ++ [(key, v)] := by
  induction fields with
  | nil => rfl
  | cons f fields ih =>
    rw [List.map_cons, List.mem_cons, not_or] at h
    rw [setField, if_neg (Ne.symm h.1), ih h.2]
    rfl

namespace Reading

variable {stack : List Frame}

/-- Pieces between commas are read in turn, if each is read where the ones before it have been. -/
theorem foldlM_intercalate {α : Type*} {piece : α → List Token} {xs : List α}
    (before behind : List α → Reading)
    (hpiece : ∀ read x, read ++ [x] <+: xs →
      (piece x).foldlM step (before read) = some (behind (read ++ [x])))
    (hcomma : ∀ read, step (behind read) (.mark ',') = some (before read)) {read rest : List α}
    (hne : rest ≠ []) (hxs : read ++ rest = xs) :
    ([.mark ','].intercalate (rest.map piece)).foldlM step (before read) = some (behind xs) := by
  induction rest generalizing read with
  | nil => exact absurd rfl hne
  | cons x rest ih =>
    have hsplit : (read ++ [x]) ++ rest = xs := by
      rw [List.append_assoc]
      exact hxs
    have hx := hpiece read x ⟨rest, hsplit⟩
    cases rest with
    | nil =>
      rw [List.map_cons, List.map_nil, List.intercalate_singleton, hx, ← hsplit, List.append_nil]
    | cons y rest =>
      rw [List.map_cons, List.map_cons, List.intercalate_cons_cons, List.append_assoc,
        foldlM_append_of_eq_some hx, List.singleton_append, foldlM_cons_of_eq_some (hcomma _)]
      exact ih (List.cons_ne_nil _ _) hsplit

theorem head_tokens (R : Json.Rendering) (v : Json) :
    ∃ t ts, tokens R v = t :: ts ∧ t ≠ .mark ']' := by
  cases v with
  | num n => cases n <;> exact ⟨_, _, by rw [tokens], by simp⟩
  | _ => exact ⟨_, _, by rw [tokens], by simp⟩

theorem intercalate_cons_eq (t : Token) (ts : List Token) (pieces : List (List Token)) :
    ∃ ts', [.mark ','].intercalate ((t :: ts) :: pieces) = t :: ts' := by
  cases pieces with
  | nil => exact ⟨ts, List.intercalate_singleton⟩
  | cons piece pieces => exact ⟨_, List.intercalate_cons_cons⟩

theorem foldlM_singleton (r : Reading) (t : Token) : [t].foldlM step r = step r t := by
  rw [List.foldlM_cons]
  exact bind_pure _

theorem foldlM_cons_congr {r r' : Reading} {t : Token} (h : step r t = step r' t)
    (ts : List Token) : (t :: ts).foldlM step r = (t :: ts).foldlM step r' := by
  rw [List.foldlM_cons, h, ← List.foldlM_cons]

theorem foldlM_itemTokens {R : Json.Rendering} {items : List Json} (hne : items ≠ [])
    (ih : ∀ v ∈ items, ∀ stack, (tokens R v).foldlM step ⟨stack, .value⟩ = give v stack)
    (stack : List Frame) : (itemTokens R items).foldlM step ⟨.arr [] :: stack, .valueOrEnd⟩
      = some ⟨.arr items :: stack, .commaOrEnd⟩ := by
  have hitems : (itemTokens R items).foldlM step ⟨.arr [] :: stack, .value⟩
      = some ⟨.arr items :: stack, .commaOrEnd⟩ := by
    rw [itemTokens_eq]
    refine foldlM_intercalate (fun read ↦ ⟨.arr read :: stack, .value⟩)
      (fun read ↦ ⟨.arr read :: stack, .commaOrEnd⟩) (fun read v hread ↦ ?_) (fun _ ↦ rfl) hne rfl
    exact ih v (hread.subset (List.mem_append_right _ List.mem_cons_self)) _
  -- the first token of an item does not end the array
  obtain ⟨v, rest, rfl⟩ := List.exists_cons_of_ne_nil hne
  obtain ⟨t, ts, htokens, ht⟩ := head_tokens R v
  obtain ⟨ts', hstart⟩ := intercalate_cons_eq t ts (rest.map (tokens R))
  rw [itemTokens_eq, List.map_cons, htokens, hstart] at hitems ⊢
  have hstep : step ⟨.arr [] :: stack, .valueOrEnd⟩ t = step ⟨.arr [] :: stack, .value⟩ t :=
    if_neg ht
  exact (foldlM_cons_congr hstep ts').trans hitems

theorem foldlM_fieldTokens {R : Json.Rendering} {fields : List (String × Json)} (hne : fields ≠ [])
    (hnodup : (fields.map Prod.fst).Nodup)
    (ih : ∀ f ∈ fields, ∀ stack, (tokens R f.2).foldlM step ⟨stack, .value⟩ = give f.2 stack)
    (stack : List Frame) : (fieldTokens R fields).foldlM step ⟨.obj [] :: stack, .keyOrEnd⟩
      = some ⟨.obj fields :: stack, .commaOrEnd⟩ := by
  have hfields : (fieldTokens R fields).foldlM step ⟨.obj [] :: stack, .key⟩
      = some ⟨.obj fields :: stack, .commaOrEnd⟩ := by
    rw [fieldTokens_eq]
    refine foldlM_intercalate (fun read ↦ ⟨.obj read :: stack, .key⟩)
      (fun read ↦ ⟨.obj read :: stack, .commaOrEnd⟩) (fun read f hread ↦ ?_) (fun _ ↦ rfl) hne rfl
    have hf : f ∈ fields := hread.subset (List.mem_append_right _ List.mem_cons_self)
    have hnew : f.1 ∉ read.map Prod.fst := by
      have hsub := hnodup.sublist (hread.sublist.map Prod.fst)
      rw [List.map_append, List.nodup_append] at hsub
      exact fun hmem ↦ hsub.2.2 _ hmem _ (List.mem_singleton_self _) rfl
    have hkey : step ⟨.obj read :: stack, .key⟩ (.str f.1.toList)
        = some ⟨.field read f.1 :: stack, .colon⟩ := by
      simp [step, onKey]
    have hcolon : step ⟨.field read f.1 :: stack, .colon⟩ (.mark ':')
        = some ⟨.field read f.1 :: stack, .value⟩ := rfl
    rw [fieldPiece, foldlM_cons_of_eq_some hkey, foldlM_cons_of_eq_some hcolon, ih f hf, give,
      setField_of_not_mem hnew]
  -- the first token of a field does not end the object
  obtain ⟨f, rest, rfl⟩ := List.exists_cons_of_ne_nil hne
  obtain ⟨ts', hstart⟩ := intercalate_cons_eq (.str f.1.toList) (.mark ':' :: tokens R f.2)
    (rest.map (fieldPiece R))
  rw [fieldTokens_eq, List.map_cons, fieldPiece, hstart] at hfields ⊢
  have hstep : step ⟨.obj [] :: stack, .keyOrEnd⟩ (.str f.1.toList)
      = step ⟨.obj [] :: stack, .key⟩ (.str f.1.toList) := rfl
  exact (foldlM_cons_congr hstep ts').trans hfields

/-- A value is read from its tokens wherever one may stand. -/
theorem foldlM_tokens {R : Json.Rendering} {v : Json} (h : Readable R v) (stack : List Frame) :
    (tokens R v).foldlM step ⟨stack, .value⟩ = give v stack := by
  induction h generalizing stack with
  | null =>
    rw [tokens, foldlM_singleton]
    rfl
  | bool b =>
    rw [tokens, foldlM_singleton]
    cases b <;> rfl
  | str s =>
    rw [tokens, foldlM_singleton]
    simp [step, onValue]
  | num hlegible hvalue =>
    rw [tokens, foldlM_singleton]
    simp [step, onValue, hvalue]
  | @arr items h ih =>
    have hopen : step ⟨stack, .value⟩ (.mark '[') = some ⟨.arr [] :: stack, .valueOrEnd⟩ := rfl
    rw [tokens, foldlM_cons_of_eq_some hopen]
    by_cases hne : items = []
    · rw [hne, itemTokens, List.nil_append, foldlM_singleton]
      rfl
    · rw [foldlM_append_of_eq_some (foldlM_itemTokens hne ih stack), foldlM_singleton]
      rfl
  | @obj fields hnodup h ih =>
    have hopen : step ⟨stack, .value⟩ (.mark '{') = some ⟨.obj [] :: stack, .keyOrEnd⟩ := rfl
    rw [tokens, foldlM_cons_of_eq_some hopen]
    by_cases hne : fields = []
    · rw [hne, fieldTokens, List.nil_append, foldlM_singleton]
      rfl
    · rw [foldlM_append_of_eq_some (foldlM_fieldTokens hne hnodup ih stack), foldlM_singleton]
      rfl

end Reading

end JsonText

namespace Json

open JsonText

/-- `JSON.stringify`. -/
def stringify (R : Rendering) (v : Json) : String :=
  String.ofList ((tokens R v).flatMap Token.text)

/-- `JSON.parse`, or nothing where that throws. -/
def parse (text : String) : Option Json := do
  let ts ← lex text.toList
  let r ← ts.foldlM Reading.step {}
  r.result

/-- **JSON there and back.** What is written of a value is read as that value. -/
theorem parse_stringify {R : Rendering} {v : Json} (h : Readable R v) :
    parse (stringify R v) = some v := by
  obtain ⟨hlegible, hapart⟩ := spelled_tokens h
  have hread : (tokens R v).foldlM Reading.step {} = some ⟨[], .done v⟩ :=
    Reading.foldlM_tokens h []
  rw [parse, stringify, String.toList_ofList, lex_flatMap_text hlegible hapart,
    Option.bind_eq_bind, Option.bind_some, hread]
  rfl

end Json

end Synapse
