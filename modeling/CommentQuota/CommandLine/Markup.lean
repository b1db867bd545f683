/-
  CommentQuota.CommandLine.Markup — what a console without colours shows of marked-up text.

  A style tag is a bracket, a small letter or one of three signs, and anything without an opening
  bracket up to the next closing bracket. Backslashes before a tag come in pairs, each pair standing
  for one; one more makes the tag plain text.

  - `escape`: text in which no tag is left, written as markup.
  - `stripTags`: the text of markup, its tags left out.
  - `shown`: the line that a console prints for markup. Some control characters are dropped, and tabs
    fill up to the next multiple of eight.
-/

import CommentQuota.Text.Blank

namespace CommentQuota.Markup

/-- A character that may start the name in a tag. -/
def startsTag (c : Char) : Bool :=
  (decide ('a' ≤ c) && decide (c ≤ 'z')) || c == '#' || c == '/' || c == '@'

/-- The characters up to a closing bracket, and what follows it. -/
def closeTag : Text → Option (Text × Text)
  | [] => none
  | c :: cs =>
    if c = ']' then some ([c], cs)
    else if c = '[' then none
    else (closeTag cs).map fun (tag, rest) => (c :: tag, rest)

/-- The tag a text starts with, and what follows it. -/
def splitTag : Text → Option (Text × Text)
  | '[' :: c :: cs =>
    if startsTag c then (closeTag cs).map fun (tag, rest) => ('[' :: c :: tag, rest) else none
  | _ => none

/-- A piece of markup: a character, or a tag with the number of backslashes before it. -/
inductive Piece where
  | plain (c : Char)
  | tag (backslashes : Nat) (text : Text)

/-- The pieces of markup, `pending` backslashes having been read. The count of characters bounds the
    number of steps. -/
def piecesFrom : Nat → Nat → Text → List Piece
  | 0, pending, t => List.replicate pending (.plain '\\') ++ t.map .plain
  | steps + 1, pending, t =>
    match t with
    | [] => List.replicate pending (.plain '\\')
    | c :: cs =>
      if c = '\\' then piecesFrom steps (pending + 1) cs
      else match splitTag t with
        | some (tag, rest) => .tag pending tag :: piecesFrom steps 0 rest
        | none => List.replicate pending (.plain '\\') ++ .plain c :: piecesFrom steps 0 cs

def pieces (t : Text) : List Piece := piecesFrom t.length 0 t

def backslashes (n : Nat) : Text := List.replicate n '\\'

/-- A piece of text as markup. -/
def Piece.escaped : Piece → Text
  | plain c => [c]
  | tag n text => backslashes (2 * n + 1) ++ text

/-- Text as markup. A lone backslash at the end is doubled, since a tag may follow. -/
def escape (t : Text) : Text :=
  let escaped := (pieces t).flatMap Piece.escaped
  match escaped.reverse with
  | '\\' :: '\\' :: _ => escaped
  | '\\' :: _ => escaped ++ ['\\']
  | _ => escaped

/-- Plain text, in which a backslash before a bracket is left out. -/
def unescape : Text → Text
  | [] => []
  | c :: cs => if c = '\\' ∧ cs.head? = some '[' then unescape cs else c :: unescape cs

/-- The text of pieces, `before` being the plain characters read since the last tag. -/
def strip (before : Text) : List Piece → Text
  | [] => unescape before
  | .plain c :: ps => strip (before ++ [c]) ps
  | .tag n text :: ps =>
    unescape before ++ backslashes (n / 2) ++ (if n % 2 = 1 then text else []) ++ strip [] ps

/-- The text of markup without its tags. -/
def stripTags (t : Text) : Text := strip [] (pieces t)

/-- The control characters a console does not print. -/
def isDropped (c : Char) : Bool := [7, 8, 11, 12, 13].contains c.toNat

/-- Text with blanks for tabs, `column` characters standing before it on its line. -/
def expandTabs (column : Nat) : Text → Text
  | [] => []
  | c :: cs =>
    if c = '\n' then c :: expandTabs 0 cs
    else if c = '\t' then
      let width := 8 - column % 8
      List.replicate width ' ' ++ expandTabs (column + width) cs
    else c :: expandTabs (column + 1) cs

/-- The line a console prints for markup. -/
def shown (t : Text) : Text := expandTabs 0 ((stripTags t).filter (!isDropped ·)) ++ ['\n']

/-- Text in a style. -/
def styled (style : String) (t : Text) : Text :=
  ("[" ++ style ++ "]").toList ++ t ++ ("[/" ++ style ++ "]").toList

end CommentQuota.Markup
