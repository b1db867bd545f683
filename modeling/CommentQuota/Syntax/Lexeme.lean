/-
  CommentQuota.Syntax.Lexeme — C source cut into lexemes.

  Every character of the source belongs to one lexeme, blanks included, so the source is the
  concatenation of its lexemes (`lex_text`).

  - A line comment runs to before the next line feed that no backslash joins to the next row.
  - A block comment runs to its closing mark, and a string or character literal to its quote,
    where a backslash takes the next character with it.
  - A hash that is first on its row starts a directive, which runs to the end of the row.
  - Letters, digits and underscores make words; any other character is a symbol.
-/

import CommentQuota.Text.Rows

namespace CommentQuota

inductive LexemeKind where
  | blank
  | word
  | literal
  | comment
  | directive
  | symbol
  deriving DecidableEq, Repr

structure Lexeme where
  kind : LexemeKind
  text : Text
  deriving DecidableEq, Repr

namespace Lexeme

/-- The blanks of C source. -/
def isSpace (c : Char) : Bool := c == ' ' || (decide ('\t' ≤ c) && decide (c ≤ '\r'))

def isWordChar (c : Char) : Bool := c.isAlphanum || c == '_'

/-- What stands directly before a line feed: a backslash, a backslash and a carriage return, or
    neither; the first two join the rows. -/
inductive Joint where
  | none
  | slash
  | slashReturn
  deriving DecidableEq

def Joint.next (j : Joint) (c : Char) : Joint :=
  if c = '\\' then .slash else if c = '\r' ∧ j = .slash then .slashReturn else .none

/-- The rest of a line comment, and what follows it. -/
def lineTail (j : Joint) : Text → Text × Text
  | [] => ([], [])
  | c :: cs =>
    if c = '\n' ∧ j = .none then ([], c :: cs)
    else
      let r := lineTail (j.next c) cs
      (c :: r.1, r.2)

/-- The rest of a block comment, and what follows it; `star` says that a star stands before. -/
def blockTail (star : Bool) : Text → Text × Text
  | [] => ([], [])
  | c :: cs =>
    if star ∧ c = '/' then ([c], cs)
    else
      let r := blockTail (c == '*') cs
      (c :: r.1, r.2)

/-- The rest of a literal with a quote, and what follows it; `escaped` says that a backslash takes
    the next character. -/
def literalTail (quote : Char) (escaped : Bool) : Text → Text × Text
  | [] => ([], [])
  | c :: cs =>
    if escaped then
      let r := literalTail quote false cs
      (c :: r.1, r.2)
    else if c = quote then ([c], cs)
    else
      let r := literalTail quote (c == '\\') cs
      (c :: r.1, r.2)

/-- The rest of a lexeme of characters with a property, and what follows it. -/
def runTail (p : Char → Bool) (t : Text) : Text × Text := (t.takeWhile p, t.dropWhile p)

/-- The kind of the lexeme that starts with `c`, the rest of its characters and what follows it;
    `fresh` says that only blanks stand before it on its row. -/
def scan (fresh : Bool) (c : Char) (cs : Text) : LexemeKind × Text × Text :=
  if isSpace c then (.blank, [], cs)
  else if c = '/' ∧ cs.head? = some '/' then (.comment, lineTail .none cs)
  else if c = '/' ∧ cs.head? = some '*' then
    let r := blockTail false cs.tail
    (.comment, cs.take 1 ++ r.1, r.2)
  else if c = '"' ∨ c = '\'' then (.literal, literalTail c false cs)
  else if c = '#' ∧ fresh then (.directive, runTail (· != '\n') cs)
  else if isWordChar c then (.word, runTail isWordChar cs)
  else (.symbol, [], cs)

/-! ## Nothing is lost -/

theorem lineTail_append (j : Joint) (t : Text) : (lineTail j t).1 ++ (lineTail j t).2 = t := by
  induction t generalizing j with
  | nil => rfl
  | cons c cs ih =>
    unfold lineTail
    split
    · rfl
    · simp [ih]

theorem blockTail_append (star : Bool) (t : Text) : (blockTail star t).1 ++ (blockTail star t).2 = t := by
  induction t generalizing star with
  | nil => rfl
  | cons c cs ih =>
    unfold blockTail
    split
    · rfl
    · simp [ih]

theorem literalTail_append (quote : Char) (escaped : Bool) (t : Text) :
    (literalTail quote escaped t).1 ++ (literalTail quote escaped t).2 = t := by
  induction t generalizing escaped with
  | nil => rfl
  | cons c cs ih =>
    unfold literalTail
    split
    · simp [ih]
    · split
      · rfl
      · simp [ih]

theorem runTail_append (p : Char → Bool) (t : Text) : (runTail p t).1 ++ (runTail p t).2 = t :=
  List.takeWhile_append_dropWhile

theorem scan_append (fresh : Bool) (c : Char) (cs : Text) :
    (scan fresh c cs).2.1 ++ (scan fresh c cs).2.2 = cs := by
  unfold scan
  split
  · rfl
  split
  · exact lineTail_append _ _
  split
  · rename_i h
    cases cs with
    | nil => simp at h
    | cons d ds => simp [blockTail_append]
  split
  · exact literalTail_append _ _ _
  split
  · exact runTail_append _ _
  split
  · exact runTail_append _ _
  · rfl

theorem scan_rest_le (fresh : Bool) (c : Char) (cs : Text) :
    (scan fresh c cs).2.2.length ≤ cs.length := by
  have h := congrArg List.length (scan_append fresh c cs)
  rw [List.length_append] at h
  omega

/-- Only blanks stand on the row after a lexeme. -/
def freshAfter (fresh : Bool) (kind : LexemeKind) (c : Char) : Bool :=
  kind == .blank && (fresh || c == '\n')

end Lexeme

/-- The lexemes of a text; `fresh` says that only blanks stand before it on its row. -/
def lex (fresh : Bool) : Text → List Lexeme
  | [] => []
  | c :: cs =>
    let s := Lexeme.scan fresh c cs
    ⟨s.1, c :: s.2.1⟩ :: lex (Lexeme.freshAfter fresh s.1 c) s.2.2
termination_by t => t.length
decreasing_by
  have := Lexeme.scan_rest_le fresh c cs
  simp only [List.length_cons]
  omega

/-- The source is the concatenation of its lexemes. -/
theorem lex_text (fresh : Bool) (t : Text) : (lex fresh t).flatMap (·.text) = t := by
  fun_induction lex fresh t with
  | case1 => rfl
  | case2 fresh c cs s ih =>
    have := Lexeme.scan_append fresh c cs
    simp only [List.flatMap_cons, ih, List.cons_append, s, this]

/-! ## Places -/

/-- The place after a character. -/
def Position.after (p : Position) (c : Char) : Position :=
  if c = '\n' then ⟨p.row + 1, 0⟩ else ⟨p.row, p.column + c.utf8Size⟩

/-- The place after a text. -/
def Position.afterText (p : Position) (t : Text) : Position := t.foldl Position.after p

/-- A lexeme with its first place and the place after its last character. -/
structure Token where
  kind : LexemeKind
  text : Text
  start : Position
  stop : Position
  deriving Repr

/-- Gives lexemes their places, the first one starting at `p`. -/
def place (p : Position) : List Lexeme → List Token
  | [] => []
  | l :: ls =>
    let q := p.afterText l.text
    ⟨l.kind, l.text, p, q⟩ :: place q ls

/-- The tokens of a document. -/
def tokens (t : Text) : List Token := place ⟨0, 0⟩ (lex true t)

end CommentQuota
