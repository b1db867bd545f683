/-
  CommentQuota.Analysis — the report on one function.

  - `Analysis.ofClassification`: the report from counted rows and a minimum.
  - `Analysis.report`: the one-line summary, the share in percent with one place.
  - `Analysis.record`: the report as a record of named values.
-/

import CommentQuota.Classification
import CommentQuota.Quota

namespace CommentQuota

/-- A share of rows, as a whole or a floating point number. -/
inductive Share where
  | whole (n : Int)
  | real (x : Binary64)

namespace Share

def value : Share → Value
  | whole n => .int n
  | real x => .float x

/-- The share in a value, a truth value counting as zero or one. -/
def ofValue? : Value → Option Share
  | .bool b => some (whole (if b then 1 else 0))
  | .int n => some (whole n)
  | .float x => some (real x)
  | _ => none

/-- The share in percent with one place; the product with a hundred is rounded for itself. -/
def percent : Share → Except Fault String
  | real x => .ok ((x.times 100).fixed1 ++ "%")
  | whole n =>
    match Binary64.ofInt? (n * 100) with
    | some x => .ok (x.fixed1 ++ "%")
    | none => .error .outOfRange

end Share

structure Analysis where
  codeRows : Int
  commentRows : Int
  total : Int
  ratio : Share
  needed : Int
  minimum : Value := .float (.ofQuotient false 1 4)
  name : String := ""
  startRow : Int := 0
  stopRow : Int := 0

namespace Analysis

/-- The function has enough comments. -/
def meetsMinimum (a : Analysis) : Bool := a.needed == 0

/-- The report on counted rows. -/
def ofClassification (c : Classification) (minimum : Value) (name : String) : Except Fault Analysis := do
  let needed ← CommentQuota.needed c.comments.size c.total minimum
  return { codeRows := c.code.size, commentRows := c.comments.size, total := c.total,
           ratio := .real c.ratio, needed, minimum, name, startRow := c.start, stopRow := c.stop }

/-- The summary in one line. -/
def report (a : Analysis) : Except Fault String := do
  let percent ← a.ratio.percent
  return "Code lines: " ++ toString a.codeRows ++ ", Comment lines: " ++ toString a.commentRows ++
    ", Comment ratio: " ++ percent ++ ", Needed comment lines: " ++ toString a.needed

/-- The report with rows counted from one. -/
def record (a : Analysis) : List (String × Value) :=
  [("codeLines", .int a.codeRows), ("commentLines", .int a.commentRows), ("total", .int a.total),
   ("ratio", a.ratio.value), ("needComment", .int a.needed), ("minCommentRatio", a.minimum),
   ("function", .text a.name), ("startLine", .int (a.startRow + 1)), ("endLine", .int (a.stopRow + 1))]

end Analysis

end CommentQuota
