/-
  CommentQuota.Patch — the difference of two documents in the unified format.

  Changes are shown with up to three shared lines around them. Changes with at most six shared lines
  between them stand in one hunk.

  - `hunks`: the hunks of an alignment.
  - `unifiedDiff`: the difference of two documents as text, empty if there is none.
-/

import CommentQuota.Patch.Alignment

namespace CommentQuota.Patch

/-- How many shared lines stand around a change. -/
def context : Nat := 3

/-- A stretch of changes with its surroundings: the indices of its first lines and its segments. -/
structure Hunk where
  left : Nat
  right : Nat
  segments : List Segment

/-- The last lines of a list. -/
def lastLines (n : Nat) (ls : List Text) : List Text := ls.drop (ls.length - n)

/-- The hunks from an open one on, `i` and `j` being the indices of the lines that follow. -/
def hunksFrom (i j : Nat) (current : Hunk) : List Segment → List Hunk
  | [] => [current]
  | .change removed added :: rest =>
    hunksFrom (i + removed.length) (j + added.length)
      { current with segments := current.segments ++ [.change removed added] } rest
  | [.same ls] => [{ current with segments := current.segments ++ [.same (ls.take context)] }]
  | .same ls :: rest =>
    if 2 * context < ls.length then
      { current with segments := current.segments ++ [.same (ls.take context)] } ::
        hunksFrom (i + ls.length) (j + ls.length)
          ⟨i + ls.length - context, j + ls.length - context, [.same (lastLines context ls)]⟩ rest
    else
      hunksFrom (i + ls.length) (j + ls.length)
        { current with segments := current.segments ++ [.same ls] } rest

/-- The hunks of an alignment; without a change there are none. -/
def hunks : List Segment → List Hunk
  | [] => []
  | [.same _] => []
  | .same ls :: rest =>
    let skipped := ls.length - context
    hunksFrom ls.length ls.length ⟨skipped, skipped, [.same (lastLines context ls)]⟩ rest
  | segments => hunksFrom 0 0 ⟨0, 0, []⟩ segments

/-! ## Text -/

def Segment.leftSize : Segment → Nat
  | same ls => ls.length
  | change removed _ => removed.length

def Segment.rightSize : Segment → Nat
  | same ls => ls.length
  | change _ added => added.length

/-- The number of lines that segments have in the old document. -/
def leftTotal (segments : List Segment) : Nat := segments.foldr (fun s n => s.leftSize + n) 0

/-- The number of lines that segments have in the new document. -/
def rightTotal (segments : List Segment) : Nat := segments.foldr (fun s n => s.rightSize + n) 0

/-- Lines with a mark before each. -/
def marked (mark : Char) (ls : List Text) : Text := (ls.map (mark :: ·)).flatten

def Segment.render : Segment → Text
  | same ls => marked ' ' ls
  | change removed added => marked '-' removed ++ marked '+' added

/-- A range of lines counted from one: an empty one names the line before it, and the size of a
    single line is left out. -/
def range (start size : Nat) : String :=
  if size = 1 then toString (start + 1)
  else if size = 0 then toString start ++ ",0"
  else toString (start + 1) ++ "," ++ toString size

def Hunk.render (h : Hunk) : Text :=
  ("@@ -" ++ range h.left (leftTotal h.segments) ++
    " +" ++ range h.right (rightTotal h.segments) ++ " @@\n").toList ++
    (h.segments.map Segment.render).flatten

end CommentQuota.Patch

namespace CommentQuota

/-- The difference of two documents as text, under a name. -/
def unifiedDiff (before after : Text) (name : String) : Text :=
  match Patch.hunks (Patch.align (Patch.lines before) (Patch.lines after)) with
  | [] => []
  | hs => ("--- a/" ++ name ++ "\n+++ b/" ++ name ++ "\n").toList ++ (hs.map Patch.Hunk.render).flatten

end CommentQuota
