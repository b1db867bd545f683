/-
  CommentQuota.Syntax.Functions — the function definitions of C source.

  Only what the rest needs is kept of the grammar. The source is a sequence of items. Inside an
  item, groups in parentheses are passed over as a whole, and the word before the first of them is
  remembered; a semicolon ends the item. A brace directly after a group opens the body of a
  function, which ends with the matching brace and ends the item; any other group in braces is
  passed over.

  - `functionSpans`: the functions of a sequence of tokens.
  - `parse`: the syntax tree of a document: a root, its functions, and in each its name, its body
    and the comments that start in it.
-/

import CommentQuota.Syntax.Lexeme
import CommentQuota.Syntax.Tree

namespace CommentQuota

namespace Token

/-- The token is a given symbol. -/
def isSymbol (t : Token) (c : Char) : Bool := t.kind == .symbol && t.text == [c]

/-- The token takes part in the structure of the source. -/
def isStructural (t : Token) : Bool := t.kind == .word || t.kind == .literal || t.kind == .symbol

end Token

/-- A function definition: its first token, its name, the brace that opens its body and the one
    that closes it. -/
structure FunctionSpan where
  first : Token
  name : Text
  opening : Token
  closing : Token

namespace Functions

def openBrace : Char := '\x7b'

def closeBrace : Char := '\x7d'

/-- Passes over a group whose opening mark has been read: the closing mark, if there is one, and
    what follows it. -/
def closeGroup (opening closing : Char) : Nat → List Token → Option Token × List Token
  | _, [] => (none, [])
  | depth, t :: ts =>
    if t.isSymbol opening then closeGroup opening closing (depth + 1) ts
    else if t.isSymbol closing then
      match depth with
      | 0 => (some t, ts)
      | d + 1 => closeGroup opening closing d ts
    else closeGroup opening closing depth ts

theorem closeGroup_rest_le (opening closing : Char) (depth : Nat) (ts : List Token) :
    (closeGroup opening closing depth ts).2.length ≤ ts.length := by
  induction ts generalizing depth with
  | nil => simp [closeGroup]
  | cons t ts ih =>
    unfold closeGroup
    simp only [List.length_cons]
    split
    · have := ih (depth + 1); omega
    · split
      · split
        · simp
        · rename_i d; have := ih d; omega
      · have := ih depth; omega

/-- What has been read of an item: its first token, the token before the next one, the name before
    its first group, and whether a group stands directly before the next token. -/
structure Item where
  first : Option Token := none
  before : Option Token := none
  name : Option Text := none
  afterGroup : Bool := false

/-- The functions of a sequence of tokens, the first of which continue an item. -/
def spans (item : Item) : List Token → List FunctionSpan
  | [] => []
  | t :: ts =>
    let first := item.first.getD t
    if t.isSymbol ';' then spans {} ts
    else if t.isSymbol '(' then
      let r := closeGroup '(' ')' 0 ts
      let name := item.name.getD ((item.before.map (·.text)).getD [])
      spans ⟨some first, r.1, some name, true⟩ r.2
    else if t.isSymbol openBrace then
      let r := closeGroup openBrace closeBrace 0 ts
      match item.afterGroup, r.1 with
      | true, some closing => ⟨first, item.name.getD [], t, closing⟩ :: spans {} r.2
      | _, closing => spans ⟨some first, closing, item.name, false⟩ r.2
    else spans ⟨some first, some t, item.name, false⟩ ts
termination_by ts => ts.length
decreasing_by
  all_goals simp only [List.length_cons]
  · omega
  · have := closeGroup_rest_le '(' ')' 0 ts; omega
  · have := closeGroup_rest_le openBrace closeBrace 0 ts; omega
  · have := closeGroup_rest_le openBrace closeBrace 0 ts; omega
  · omega

end Functions

/-- The functions of a sequence of tokens. -/
def functionSpans (ts : List Token) : List FunctionSpan :=
  Functions.spans {} (ts.filter Token.isStructural)

namespace FunctionSpan

/-- The token starts inside the function. -/
def contains (f : FunctionSpan) (t : Token) : Bool :=
  let s := t.start
  (decide (f.first.start.row < s.row) ||
      (s.row == f.first.start.row && decide (f.first.start.column ≤ s.column))) &&
    (decide (s.row < f.closing.stop.row) ||
      (s.row == f.closing.stop.row && decide (s.column < f.closing.stop.column)))

/-- The node of a comment. -/
def commentNode (t : Token) : Node :=
  ⟨Node.commentKind, t.start, t.stop, true, none, String.ofList t.text, []⟩

/-- The node of a function, with the comments that start in it. -/
def node (f : FunctionSpan) (comments : List Token) : Node :=
  let name : Node :=
    ⟨"identifier", f.first.start, f.first.start, true, some "declarator", String.ofList f.name, []⟩
  let opening : Node := ⟨"\x7b", f.opening.start, f.opening.stop, false, none, "", []⟩
  let body : Node :=
    ⟨"compound_statement", f.opening.start, f.closing.stop, true, some "body", "", [opening]⟩
  ⟨Node.functionKind, f.first.start, f.closing.stop, true, none, "",
    name :: body :: (comments.filter f.contains).map commentNode⟩

end FunctionSpan

/-- The syntax tree of a document. -/
def parse (t : Text) : Node :=
  let ts := tokens t
  let comments := ts.filter (·.kind == .comment)
  ⟨"document", ⟨0, 0⟩, (⟨0, 0⟩ : Position).afterText t, true, none, "",
    (functionSpans ts).map (·.node comments)⟩

end CommentQuota
