/-
  CommentQuota.Text.Rows — the rows of a document and the positions in it.

  A row ends at a line feed, and a carriage return directly before the line feed belongs to the
  line break. A position is a row and a column, and columns count bytes.

  - `rows`: the rows without their line breaks; there is always one.
  - `rowStarts`: the offset of the first character of each row.
  - `offsetAt`: the character offset of a position, or why the position is not in the document.
  - `followedByText`: there is more than blanks between a position and the end of its row.
-/

import CommentQuota.Text.Blank

namespace CommentQuota

/-- A place in a document, counted from zero; the column counts bytes. -/
structure Position where
  row : Int
  column : Int
  deriving DecidableEq, Repr

/-- Why a position is not in a document. -/
inductive Misplacement where
  | rowOutside
  | columnOutside
  | insideCharacter
  deriving DecidableEq

def Misplacement.reason : Misplacement → String
  | rowOutside => "row outside document"
  | columnOutside => "column outside line"
  | insideCharacter => "column splits a character"

namespace Text

/-- Puts a character in front of the first row. -/
def consHead (c : Char) : List Text → List Text
  | [] => [[c]]
  | r :: rs => (c :: r) :: rs

def rows : Text → List Text
  | [] => [[]]
  | c :: cs =>
    if c = '\n' then [] :: rows cs
    else if c = '\r' ∧ cs.head? = some '\n' then rows cs
    else consHead c (rows cs)

/-- The characters before the first line break. -/
def firstRow : Text → Text
  | [] => []
  | c :: cs =>
    if c = '\n' ∨ (c = '\r' ∧ cs.head? = some '\n') then [] else c :: firstRow cs

/-- The first line break, or a line feed if there is none. -/
def lineEnding : Text → Text
  | [] => ['\n']
  | c :: cs =>
    if c = '\n' then ['\n']
    else if c = '\r' ∧ cs.head? = some '\n' then ['\r', '\n']
    else lineEnding cs

/-- The offsets directly after each line feed. -/
def breakEnds (offset : Nat) : Text → List Nat
  | [] => []
  | c :: cs =>
    if c = '\n' then (offset + 1) :: breakEnds (offset + 1) cs else breakEnds (offset + 1) cs

def rowStarts (t : Text) : List Nat := 0 :: breakEnds 0 t

/-- The number of bytes of a text. -/
def byteLength : Text → Nat
  | [] => 0
  | c :: cs => c.utf8Size + byteLength cs

/-- How many characters fill the first `bytes` bytes, unless one of them is cut. -/
def charsIn : Text → Nat → Option Nat
  | _, 0 => some 0
  | [], _ + 1 => none
  | c :: cs, n + 1 =>
    if n + 1 < c.utf8Size then none else (charsIn cs (n + 1 - c.utf8Size)).map (· + 1)

/-- The character offset of a position. -/
def offsetAt (t : Text) (p : Position) : Except Misplacement Nat :=
  if p.row < 0 then .error .rowOutside
  else match (rowStarts t)[p.row.toNat]? with
    | none => .error .rowOutside
    | some start =>
      let row := firstRow (t.drop start)
      if p.column < 0 ∨ (byteLength row : Int) < p.column then .error .columnOutside
      else match charsIn row p.column.toNat with
        | none => .error .insideCharacter
        | some n => .ok (start + n)

/-- Something other than blanks stands between a position and the end of its row. -/
def followedByText (t : Text) (p : Position) : Except Misplacement Bool :=
  (offsetAt t p).map fun offset => hasContent (firstRow (t.drop offset))

end Text

end CommentQuota
