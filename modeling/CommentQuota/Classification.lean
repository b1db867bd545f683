/-
  CommentQuota.Classification — which rows of a function are comments and which are code.

  The rows of a comment are comment rows, blank ones included. Any other row that a named node
  covers is a code row if it has content. The rest of the function's span is blank.

  - `firstPass` / `twoPhase`: the two ways to count.
  - `Classification.blanks`: the rows of the span in neither set.
-/

import CommentQuota.Policy
import CommentQuota.RowSet
import CommentQuota.Syntax.Tree

namespace CommentQuota

/-- The comment rows and the code rows of a function that spans the rows `start` to `stop`. -/
structure Classification where
  comments : RowSet
  code : RowSet
  start : Int
  stop : Int

namespace Classification

/-- Comment rows and code rows together. -/
def total (c : Classification) : Nat := c.code.size + c.comments.size

/-- The share of comment rows; zero for a function without rows. -/
def ratio (c : Classification) : Binary64 :=
  if c.total = 0 then .zero else .ofQuotient false c.comments.size c.total

/-- The rows of the span that are neither code nor comment, ascending. -/
def blanks (c : Classification) : List Int :=
  ((List.range (c.stop + 1 - c.start).toNat).map fun (i : Nat) => c.start + i).filter fun r =>
    !decide (r ∈ c.code) && !decide (r ∈ c.comments)

/-- A row of the document that is not blank. -/
def hasText (rows : List Text) (row : Int) : Bool :=
  if row < 0 then false
  else match rows[row.toNat]? with
    | some r => Text.hasContent r
    | none => false

/-- The rows found so far. -/
structure Marks where
  comments : RowSet := .empty
  code : RowSet := .empty

/-- Marks a row of a comment, taking it back from code. -/
def Marks.comment (m : Marks) (row : Int) : Marks := ⟨m.comments.insert row, m.code.erase row⟩

/-- Marks a row of code unless it is a comment row or blank. -/
def Marks.codeRow (rows : List Text) (m : Marks) (row : Int) : Marks :=
  if row ∈ m.comments then m
  else if hasText rows row then { m with code := m.code.insert row }
  else m

/-- Marks the rows of one visited node. -/
def Marks.node (rows : List Text) (m : Marks) (n : Node) : Marks :=
  if n.kind = Node.commentKind then n.rowSpan.foldl Marks.comment m
  else if n.named then n.rowSpan.foldl (Marks.codeRow rows) m
  else m

/-- Counts with one pass over the nodes. -/
def firstPass (fn : Node) (rows : List Text) : Classification :=
  let m := (walk (some fn)).foldl (Marks.node rows) {}
  ⟨m.comments, m.code, fn.start.row, fn.stop.row⟩

/-- The rows of all comments. -/
def commentRows (fn : Node) : RowSet :=
  (walk (some fn)).foldl
    (fun s n => if n.kind = Node.commentKind then n.rowSpan.foldl RowSet.insert s else s) .empty

/-- Rows already claimed, and those of them claimed for code. -/
structure Claims where
  claimed : RowSet
  code : RowSet := .empty

def Claims.row (c : Claims) (row : Int) : Claims :=
  if row ∈ c.claimed then c else ⟨c.claimed.insert row, c.code.insert row⟩

def Claims.node (c : Claims) (n : Node) : Claims :=
  if n.named then n.rowSpan.foldl Claims.row c else c

/-- Counts with a pass for comments and one for code over the rows left. -/
def twoPhase (fn : Node) (rows : List Text) : Classification :=
  let comments := commentRows fn
  let claims := (walk (some fn)).foldl Claims.node { claimed := comments }
  ⟨comments, claims.code.filter (hasText rows), fn.start.row, fn.stop.row⟩

end Classification

/-- Counts the rows of a function by a policy. -/
def classify (policy : ClassificationPolicy) (fn : Node) (rows : List Text) : Classification :=
  match policy with
  | .firstPass => Classification.firstPass fn rows
  | .twoPhase => Classification.twoPhase fn rows

end CommentQuota
