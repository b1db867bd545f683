/-
  CommentQuota.Edit — batches of insertions into a document.

  An edit puts a text at a position of the document as it was before the batch. All positions of a
  batch are resolved before any text is inserted, so a batch is applied as a whole or not at all.

  - `placeholders`: the edits that add a number of comment rows at a position.
  - `Edit.insertion`: an edit by character offset, or the fault of its position.
  - `arrange`: insertions by ascending offset; those at one offset keep their order.
  - `splice`: the text with arranged insertions put in.
  - `applyEdits`: a batch applied to a text.
-/

import CommentQuota.Settings
import CommentQuota.Text.Rows

namespace CommentQuota

/-- A text to insert at a position. -/
structure Edit where
  position : Position
  text : Text
  deriving DecidableEq

/-! ## Placeholder comments -/

/-- A text repeated. -/
def repeated (n : Nat) (t : Text) : Text := (List.replicate n t).flatten

/-- What every placeholder comment says. -/
def Settings.placeholder (s : Settings) : Text := s.lead.toList ++ s.comment.toList

/-- The texts that add comment rows, each row starting with a line break. A single insertion holds
    all of them; iterative insertions hold one each, tagged with its index. -/
def Settings.placeholderTexts (s : Settings) (count : Nat) (lineBreak : Text) : List Text :=
  match s.insertion with
  | .single => [repeated count (lineBreak ++ s.placeholder)]
  | .iterative =>
    (List.range count).map fun i => lineBreak ++ s.placeholder ++ ' ' :: (toString i).toList

/-- Appends a text to the last of several. -/
def appendToLast (suffix : Text) : List Text → List Text
  | [] => []
  | [t] => [t ++ suffix]
  | t :: u :: ts => t :: appendToLast suffix (u :: ts)

/-- The edits that add `count` comment rows at a position. If the row is to be closed, what follows
    the position moves to a row of its own. -/
def placeholders (s : Settings) (p : Position) (count : Int) (lineBreak : Text) (closeRow : Bool) :
    List Edit :=
  if count ≤ 0 then []
  else
    let texts := s.placeholderTexts count.toNat lineBreak
    (if closeRow then appendToLast lineBreak texts else texts).map (Edit.mk p)

/-! ## Application -/

/-- A text to insert at a character offset. -/
structure Insertion where
  offset : Nat
  text : Text
  deriving DecidableEq

/-- The insertion an edit asks for. -/
def Edit.insertion (t : Text) (e : Edit) : Except Fault Insertion :=
  match t.offsetAt e.position with
  | .ok offset => .ok ⟨offset, e.text⟩
  | .error m => .error (.misplacedEdit e.position.row e.position.column m.reason)

/-- The insertions of a batch, or the fault of its first misplaced edit. -/
def insertions (t : Text) : List Edit → Except Fault (List Insertion)
  | [] => .ok []
  | e :: es => do
    let i ← e.insertion t
    let is ← insertions t es
    return i :: is

/-- Puts an insertion before the first one that has no smaller offset. -/
def Insertion.place (i : Insertion) : List Insertion → List Insertion
  | [] => [i]
  | j :: js => if i.offset ≤ j.offset then i :: j :: js else j :: i.place js

def arrange : List Insertion → List Insertion
  | [] => []
  | i :: is => i.place (arrange is)

/-- Puts ascending insertions into a text whose first character has the offset `base`. -/
def splice (base : Nat) (t : Text) : List Insertion → Text
  | [] => t
  | i :: is =>
    t.take (i.offset - base) ++ i.text ++ splice i.offset (t.drop (i.offset - base)) is

/-- The text after a batch of edits. -/
def applyEdits (t : Text) (edits : List Edit) : Except Fault Text :=
  (insertions t edits).map fun is => splice 0 t (arrange is)

end CommentQuota
