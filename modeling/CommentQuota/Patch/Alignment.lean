/-
  CommentQuota.Patch.Alignment — which lines two documents share.

  The longest run of lines that both documents have is kept, and what stands before it and after it
  is aligned in the same way. Lines that are very frequent in a long document say little about where
  it was changed: a run is not found by them, but it extends over them.

  - `lines`: the lines of a document with their line breaks. Besides line feeds and carriage
    returns, other separators end a line here.
  - `Segment`: a stretch of shared lines, or of lines taken out and put in.
  - `align`: the segments that lead from one list of lines to another.
-/

import CommentQuota.Text.Blank

namespace CommentQuota.Patch

/-! ## Lines -/

/-- The characters that end a line. -/
def isLineBreak (c : Char) : Bool :=
  let n := c.toNat
  (0x0A ≤ n && n ≤ 0x0D) || (0x1C ≤ n && n ≤ 0x1E) || n == 0x85 || n == 0x2028 || n == 0x2029

/-- The lines of a text, each with its line break; a carriage return and a line feed are one. -/
def lines : Text → List Text
  | [] => []
  | c :: cs =>
    if isLineBreak c && !(c == '\r' && cs.head? == some '\n') then [c] :: lines cs
    else match lines cs with
      | [] => [[c]]
      | l :: ls => (c :: l) :: ls

/-! ## Longest common runs -/

/-- A run of equal lines: where it starts in either list and how many lines it has. -/
structure Run where
  left : Nat
  right : Nat
  size : Nat
  deriving DecidableEq

/-- How long the runs are that end at a line and at each line of the other list, from those that end
    at the line before. Runs do not pass over a frequent line. -/
def runLengths (frequent : List Text) (x : Text) (ys : List Text) (before : List Nat) : List Nat :=
  List.zipWith (fun y n => if x = y ∧ y ∉ frequent then n + 1 else 0) ys (0 :: before)

/-- The better of a run and those that end at the line with index `i`: only a longer run wins. -/
def betterRun (i : Nat) (best : Run) (j : Nat) : List Nat → Run
  | [] => best
  | n :: ns =>
    betterRun i (if best.size < n then ⟨i + 1 - n, j + 1 - n, n⟩ else best) (j + 1) ns

/-- The first of the longest runs, starting with the lines from index `i` on. -/
def bestRun (frequent : List Text) (ys : List Text) (i : Nat) (before : List Nat) (best : Run) :
    List Text → Run
  | [] => best
  | x :: xs =>
    let lengths := runLengths frequent x ys before
    bestRun frequent ys (i + 1) lengths (betterRun i best 0 lengths) xs

/-- The number of equal lines that two lists start with. -/
def sharedHead : List Text → List Text → Nat
  | x :: xs, y :: ys => if x = y then sharedHead xs ys + 1 else 0
  | _, _ => 0

/-- A run together with the equal lines around it. -/
def Run.extend (r : Run) (xs ys : List Text) : Run :=
  let before := sharedHead (xs.take r.left).reverse (ys.take r.right).reverse
  let after := sharedHead (xs.drop (r.left + r.size)) (ys.drop (r.right + r.size))
  ⟨r.left - before, r.right - before, before + r.size + after⟩

/-- The run that two lists are aligned at. -/
def anchor (frequent : List Text) (xs ys : List Text) : Run :=
  (bestRun frequent ys 0 (List.replicate ys.length 0) ⟨0, 0, 0⟩ xs).extend xs ys

/-! ## Alignment -/

/-- A stretch of two documents. -/
inductive Segment where
  | same (lines : List Text)
  | change (removed added : List Text)
  deriving DecidableEq

/-- The lines of a long document that are in more than one in a hundred of its places. -/
def frequentLines (ys : List Text) : List Text :=
  if ys.length < 200 then []
  else (ys.filter fun y => decide (ys.length / 100 + 1 < ys.count y)).eraseDups

/-- Puts a segment in front, joining shared stretches and dropping empty ones. -/
def Segment.join (s : Segment) (rest : List Segment) : List Segment :=
  match s, rest with
  | .change [] [], _ => rest
  | .same ls, .same ms :: segments => .same (ls ++ ms) :: segments
  | s, _ => s :: rest

/-- The segments that lead from one list to another, followed by those of `rest`. An anchor lies
    within the list, so the second condition only shows that the alignment ends. -/
def alignWith (frequent : List Text) (xs ys : List Text) (rest : List Segment) : List Segment :=
  let r := anchor frequent xs ys
  if _h : 0 < r.size ∧ r.left + r.size ≤ xs.length then
    alignWith frequent (xs.take r.left) (ys.take r.right)
      (Segment.join (.same ((xs.drop r.left).take r.size))
        (alignWith frequent (xs.drop (r.left + r.size)) (ys.drop (r.right + r.size)) rest))
  else Segment.join (.change xs ys) rest
termination_by xs.length
decreasing_by
  · have hr : r = anchor frequent xs ys := rfl
    rw [hr] at _h; simp only [List.length_drop]; omega
  · have hr : r = anchor frequent xs ys := rfl
    rw [hr] at _h; simp only [List.length_take]; omega

/-- The segments that lead from one list of lines to another. -/
def align (xs ys : List Text) : List Segment := alignWith (frequentLines ys) xs ys []

end CommentQuota.Patch
