import Mathlib.Data.List.Basic
import Mathlib.Order.Basic

/-!
# The meaning of a parameterized INSERT

The text of `INSERT INTO … VALUES …, … ON CONFLICT … DO NOTHING` with positional parameters, read
into its parts: the table, the columns, the rows of expressions, and the columns of the conflict.
A parameter `$n` stands for the `n`-th of the values that are sent with the text, counted from one.

A text is a sequence of tokens (`lex`), and those are read from the left, one comma-separated list
after the other (`sepBy`). What casts, quotients and functions do to a value is left to a `Dialect`.

## Reading back

The readers are functions, so that a statement can be run. For each there is a lemma that gives its
result on the tokens of what it reads, whatever follows; a text is understood by computing its
tokens and applying these from the inside out.
-/

namespace Sql

/-! ## Tokens -/

inductive Token
  /-- An identifier, a keyword or a numeral. -/
  | word (chars : List Char)
  /-- A parameter `$n`. -/
  | param (n : ℕ)
  | mark (c : Char)
  deriving DecidableEq

/-- The tokens that have been read, the latest first, and the one under way. -/
structure Scan where
  tokens : List Token := []
  current : Option Token := none

namespace Scan

/-- The token under way ends. -/
def close (s : Scan) : Scan := ⟨s.current.toList ++ s.tokens, none⟩

/-- A token begins with the character. -/
def start (s : Scan) (c : Char) : Scan :=
  if c = ' ' then s
  else if c = '$' then { s with current := some (.param 0) }
  else if c.isAlphanum ∨ c = '_' then { s with current := some (.word [c]) }
  else { s with tokens := .mark c :: s.tokens }

def step (s : Scan) (c : Char) : Scan :=
  match s.current with
  | some (.param n) =>
    if c.isDigit then { s with current := some (.param (10 * n + (c.toNat - '0'.toNat))) }
    else s.close.start c
  | some (.word chars) =>
    if c.isAlphanum ∨ c = '_' ∨ c = '.' then { s with current := some (.word (chars ++ [c])) }
    else s.close.start c
  | _ => s.start c

def run (s : Scan) (text : List Char) : Scan := text.foldl step s

theorem run_append (s : Scan) (a b : List Char) : s.run (a ++ b) = (s.run a).run b :=
  List.foldl_append

theorem run_digits {tokens : List Token} {digits : List Char} (h : ∀ c ∈ digits, c.isDigit = true)
    (n : ℕ) : Scan.run ⟨tokens, some (.param n)⟩ digits
      = ⟨tokens, some (.param (Nat.ofDigitChars 10 digits n))⟩ := by
  induction digits generalizing n with
  | nil => rfl
  | cons c digits ih =>
    have hstep : Scan.step ⟨tokens, some (.param n)⟩ c
        = ⟨tokens, some (.param (10 * n + (c.toNat - '0'.toNat)))⟩ :=
      if_pos (h c List.mem_cons_self)
    change Scan.run (Scan.step _ c) digits = _
    rw [hstep, ih fun d hd ↦ h d (List.mem_cons_of_mem _ hd)]
    rfl

theorem run_toDigits (tokens : List Token) (n : ℕ) :
    Scan.run ⟨tokens, some (.param 0)⟩ (Nat.toDigits 10 n) = ⟨tokens, some (.param n)⟩ := by
  rw [run_digits fun c hc ↦ Nat.isDigit_of_mem_toDigits (by decide) (by decide) hc,
    Nat.ofDigitChars_ten_toDigits]

end Scan

/-- The tokens of a text. -/
def lex (text : String) : List Token := (Scan.run {} text.toList).close.tokens.reverse

def Token.param? : Token → Option ℕ
  | .param n => some n
  | _ => none

/-- The numbers of the parameters in a text, in order. -/
def placeholders (text : String) : List ℕ := (lex text).filterMap Token.param?

/-! ## Statements -/

/-- The expressions that are read. -/
inductive Expr
  | param (n : ℕ)
  /-- `e::type`. -/
  | cast (e : Expr) (type : List Char)
  /-- `e / numeral`. -/
  | quotient (e : Expr) (numeral : List Char)
  /-- `f(e)`. -/
  | call (f : List Char) (e : Expr)
  deriving DecidableEq

structure Insert where
  table : List Char
  columns : List (List Char)
  rows : List (List Expr)
  /-- The columns of `ON CONFLICT`. -/
  conflict : List (List Char)
  deriving DecidableEq

/-- Reads something from the left, and leaves the rest. -/
abbrev Reader (α : Type*) := List Token → Option (α × List Token)

section Readers

variable {α : Type*}

/-- The words in turn. -/
def words : List String → List Token → Option (List Token)
  | [], ts => some ts
  | w :: ws, .word chars :: ts => if chars = w.toList then words ws ts else none
  | _ :: _, _ => none

def name : Reader (List Char)
  | .word chars :: ts => some (chars, ts)
  | _ => none

/-- A parameter, and what is done to it. -/
def term : Reader Expr
  | .param n :: .mark ':' :: .mark ':' :: .word type :: ts => some (.cast (.param n) type, ts)
  | .param n :: .mark '/' :: .word numeral :: ts => some (.quotient (.param n) numeral, ts)
  | .param n :: ts => some (.param n, ts)
  | _ => none

def expr : Reader Expr
  | .word f :: .mark '(' :: ts =>
    match term ts with
    | some (e, .mark ')' :: ts) => some (.call f e, ts)
    | _ => none
  | ts => term ts

/-- At most `fuel` items, with commas between them. -/
def sepBy (item : Reader α) : ℕ → Reader (List α)
  | 0, _ => none
  | fuel + 1, ts =>
    match item ts with
    | some (a, .mark ',' :: ts) => (sepBy item fuel ts).map fun (as, ts) ↦ (a :: as, ts)
    | some (a, ts) => some ([a], ts)
    | none => none

/-- A list of items in parentheses. -/
def tuple (item : Reader α) : Reader (List α)
  | .mark '(' :: ts =>
    match sepBy item ts.length ts with
    | some (as, .mark ')' :: ts) => some (as, ts)
    | _ => none
  | _ => none

end Readers

/-- The statement that a text is. -/
def read (text : String) : Option Insert := do
  let ts ← words ["INSERT", "INTO"] (lex text)
  let (table, ts) ← name ts
  let (columns, ts) ← tuple name ts
  let ts ← words ["VALUES"] ts
  let (rows, ts) ← sepBy (tuple expr) ts.length ts
  let ts ← words ["ON", "CONFLICT"] ts
  let (conflict, ts) ← tuple name ts
  let ts ← words ["DO", "NOTHING"] ts
  if ts = [] then some { table, columns, rows, conflict } else none

/-! ## What the readers read -/

section Reading

variable {α : Type*} {item : Reader α} {tokens : α → List Token} {as : List α}

/-- The tokens of a list of items. -/
def commaSep (tokens : α → List Token) (as : List α) : List Token :=
  List.intercalate [.mark ','] (as.map tokens)

theorem commaSep_cons_cons (a b : α) (as : List α) :
    commaSep tokens (a :: b :: as) = tokens a ++ .mark ',' :: commaSep tokens (b :: as) := by
  rw [commaSep, List.map_cons, List.map_cons, List.intercalate_cons_cons, List.append_assoc]
  rfl

theorem length_le_length_commaSep (h : ∀ a ∈ as, tokens a ≠ []) :
    as.length ≤ (commaSep tokens as).length := by
  induction as with
  | nil => exact Nat.zero_le _
  | cons a as ih =>
    have ha : 0 < (tokens a).length := List.length_pos_iff.mpr (h a List.mem_cons_self)
    have hrest := ih fun b hb ↦ h b (List.mem_cons_of_mem _ hb)
    cases as with
    | nil => simpa [commaSep] using Nat.succ_le_of_lt ha
    | cons b as =>
      rw [commaSep_cons_cons, List.length_append]
      simp only [List.length_cons] at hrest ⊢
      omega

/-- A list is read back when each of its items is, in front of a comma and of what follows. -/
theorem sepBy_commaSep {rest : List Token} (hne : as ≠ [])
    (hcomma : ∀ a ∈ as, ∀ ts, item (tokens a ++ .mark ',' :: ts) = some (a, .mark ',' :: ts))
    (hrest : ∀ a ∈ as, item (tokens a ++ rest) = some (a, rest))
    (hstop : ∀ ts, rest ≠ .mark ',' :: ts) {fuel : ℕ} (hfuel : as.length ≤ fuel) :
    sepBy item fuel (commaSep tokens as ++ rest) = some (as, rest) := by
  induction as generalizing fuel with
  | nil => exact absurd rfl hne
  | cons a as ih =>
    obtain ⟨fuel, rfl⟩ : ∃ k, fuel = k + 1 :=
      ⟨fuel - 1, (Nat.succ_pred_eq_of_pos (Nat.lt_of_lt_of_le (Nat.succ_pos _) hfuel)).symm⟩
    cases as with
    | nil =>
      have hsingle : commaSep tokens [a] = tokens a := by simp [commaSep]
      rw [hsingle, sepBy, hrest a List.mem_cons_self]
      split
      · next a' ts heq =>
        obtain ⟨-, hts⟩ := Prod.mk.inj (Option.some.inj heq)
        exact absurd hts (hstop ts)
      · next a' ts _ heq =>
        obtain ⟨rfl, rfl⟩ := Prod.mk.inj (Option.some.inj heq)
        rfl
      · next heq => cases heq
    | cons b as =>
      rw [commaSep_cons_cons, List.append_assoc, List.cons_append, sepBy,
        hcomma a List.mem_cons_self]
      simp only
      rw [ih (List.cons_ne_nil _ _) (fun c hc ↦ hcomma c (List.mem_cons_of_mem _ hc))
        (fun c hc ↦ hrest c (List.mem_cons_of_mem _ hc)) (Nat.le_of_succ_le_succ hfuel)]
      rfl

/-- The tokens of a list in parentheses. -/
def paren (tokens : α → List Token) (as : List α) : List Token :=
  .mark '(' :: commaSep tokens as ++ [.mark ')']

theorem tuple_paren (hne : as ≠ []) (htokens : ∀ a ∈ as, tokens a ≠ [])
    (hcomma : ∀ a ∈ as, ∀ ts, item (tokens a ++ .mark ',' :: ts) = some (a, .mark ',' :: ts))
    (hclose : ∀ a ∈ as, ∀ ts, item (tokens a ++ .mark ')' :: ts) = some (a, .mark ')' :: ts))
    (rest : List Token) : tuple item (paren tokens as ++ rest) = some (as, rest) := by
  have hlen : as.length ≤ (commaSep tokens as ++ .mark ')' :: rest).length := by
    rw [List.length_append]
    exact Nat.le_add_right_of_le (length_le_length_commaSep htokens)
  rw [paren, List.cons_append, List.cons_append, List.append_assoc, List.singleton_append, tuple,
    sepBy_commaSep hne hcomma (fun a ha ↦ hclose a ha rest) (by simp) hlen]
  rfl

end Reading

theorem read_eq_some {text : String} {stmt : Insert} {ts₁ ts₂ ts₃ ts₄ ts₅ ts₆ ts₇ : List Token}
    (hinsert : words ["INSERT", "INTO"] (lex text) = some ts₁)
    (htable : name ts₁ = some (stmt.table, ts₂))
    (hcolumns : tuple name ts₂ = some (stmt.columns, ts₃))
    (hvalues : words ["VALUES"] ts₃ = some ts₄)
    (hrows : sepBy (tuple expr) ts₄.length ts₄ = some (stmt.rows, ts₅))
    (hon : words ["ON", "CONFLICT"] ts₅ = some ts₆)
    (hconflict : tuple name ts₆ = some (stmt.conflict, ts₇))
    (hdo : words ["DO", "NOTHING"] ts₇ = some []) : read text = some stmt := by
  rw [read, hinsert, Option.bind_eq_bind, Option.bind_some, htable]
  simp only [hcolumns, hvalues, hrows, hon, hconflict, hdo, Option.bind_eq_bind, Option.bind_some,
    if_true]

/-- The tokens of an expression. -/
def Expr.tokens : Expr → List Token
  | .param n => [.param n]
  | .cast e type => e.tokens ++ [.mark ':', .mark ':', .word type]
  | .quotient e numeral => e.tokens ++ [.mark '/', .word numeral]
  | .call f e => .word f :: .mark '(' :: e.tokens ++ [.mark ')']

theorem Expr.tokens_ne_nil (e : Expr) : e.tokens ≠ [] := by
  cases e <;> simp [tokens]

/-- A list that is written with commas has the tokens of its items, with commas between them. -/
theorem Scan.run_intercalate {α : Type*} {text : α → String} {tokens : α → List Token}
    (h : ∀ a ts, Scan.run ⟨ts, none⟩ (text a).toList = ⟨(tokens a).reverse ++ ts, none⟩)
    (as : List α) (ts : List Token) :
    Scan.run ⟨ts, none⟩ (String.intercalate ", " (as.map text)).toList
      = ⟨(commaSep tokens as).reverse ++ ts, none⟩ := by
  rw [String.toList_intercalate]
  induction as generalizing ts with
  | nil => rfl
  | cons a as ih =>
    cases as with
    | nil => simpa [commaSep] using h a ts
    | cons b as =>
      have hcomma : ∀ ts, Scan.run ⟨ts, none⟩ ", ".toList = ⟨.mark ',' :: ts, none⟩ := fun _ ↦ rfl
      simp only [List.map_cons] at ih ⊢
      rw [List.intercalate_cons_cons, Scan.run_append, Scan.run_append, h, hcomma, ih,
        commaSep_cons_cons]
      simp

/-! ## Binding -/

/-- What is done to values. -/
structure Dialect (V : Type*) where
  cast : List Char → V → Option V
  quotient : List Char → V → Option V
  call : List Char → V → Option V

section Binding

variable {V : Type*} (D : Dialect V) (values : List V)

/-- The value of an expression: `$n` is the `n`-th of the values. -/
def Expr.eval : Expr → Option V
  | .param 0 => none
  | .param (n + 1) => values[n]?
  | .cast e type => e.eval.bind (D.cast type)
  | .quotient e numeral => e.eval.bind (D.quotient numeral)
  | .call f e => e.eval.bind (D.call f)

/-- The values of a row, each with its column. -/
def bindRow (columns : List (List Char)) (row : List Expr) : Option (List (List Char × V)) :=
  if row.length = columns.length then (row.mapM (Expr.eval D values)).map columns.zip else none

/-- The rows of a statement. -/
def Insert.bind (stmt : Insert) : Option (List (List (List Char × V))) :=
  stmt.rows.mapM (bindRow D values stmt.columns)

theorem mapM_of_forall₂ {α β : Type*} {f : α → Option β} {as : List α} {bs : List β}
    (h : List.Forall₂ (fun a b ↦ f a = some b) as bs) : as.mapM f = some bs := by
  induction h with
  | nil => rfl
  | cons hab _ ih =>
    rw [List.mapM_cons, hab, ih]
    rfl

end Binding

end Sql
