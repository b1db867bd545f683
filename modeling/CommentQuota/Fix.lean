/-
  CommentQuota.Fix — measuring the function under the cursor and adding the comments it lacks.

  A document, a cursor row and settings lead to a report on the enclosing function, and, where the
  report asks for comments, to a batch of edits directly after the brace that opens its body. What
  a user is expected to run into is an outcome; every other fault stays a fault.

  - `locate`: the function under the cursor.
  - `analyze`: the report on it.
  - `Target.plan`: the edits that add the missing comments.
  - `fix`: all of it, with its outcome.
  - `fixJournal`: the records of a fix, in the order of its steps.
  - `session`: fixes in turn, each on the text the one before left.
-/

import CommentQuota.Analysis
import CommentQuota.Edit
import CommentQuota.Journal
import CommentQuota.Syntax.Functions

namespace CommentQuota

/-- What turns a document into a syntax tree; no root means that nothing was recognised. -/
abbrev Parser := Text → Except Fault (Option Node)

/-- The parser of C source, which always finds a root. -/
def sourceParser : Parser := fun text => .ok (some (parse text))

/-- A function in its document. -/
structure Target where
  source : Text
  function : Node

/-! ## The function under the cursor -/

/-- The function that encloses a cursor row. -/
def locate (parser : Parser) (source : Option Text) (line : Option Int) : Except Fault Target :=
  match source, line with
  | some text, some row =>
    if row < 0 then .error (.noContext ("invalid cursor line " ++ toString row))
    else
      match parser text with
      | .error e => .error e
      | .ok root =>
        match enclosingFunction root row with
        | some function => .ok ⟨text, function⟩
        | none => .error (.outsideFunction row)
  | _, _ => .error (.noContext "no document or cursor")

namespace Target

/-- The counted rows of the function. -/
def classification (t : Target) (s : Settings) : Classification :=
  classify s.classification t.function t.source.rows

/-- The report on the function. -/
def analyze (t : Target) (s : Settings) : Except Fault Analysis := do
  s.ensureValid
  Analysis.ofClassification (t.classification s) s.minimum t.function.functionName

/-- The edits that add the comments a report asks for. -/
def plan (t : Target) (s : Settings) (a : Analysis) : Except Fault (List Edit) :=
  match t.function.bodyStart with
  | none => .error (.malformedBody a.name "no opening brace")
  | some p =>
    match t.source.followedByText p with
    | .error m => .error (.misplacedEdit p.row p.column m.reason)
    | .ok followed => .ok (placeholders s p a.needed t.source.lineEnding followed)

/-- The planned edits and the document with them. -/
def mend (t : Target) (s : Settings) (a : Analysis) : Except Fault (List Edit × Text) := do
  let edits ← t.plan s a
  let text ← applyEdits t.source edits
  return (edits, text)

end Target

/-- The report on the function that encloses a cursor row. -/
def analyze (s : Settings) (parser : Parser) (source : Option Text) (line : Option Int) :
    Except Fault Analysis := do
  (← locate parser source line).analyze s

/-! ## Outcomes -/

/-- How a fix ends. -/
inductive Outcome where
  /-- There is no document or no cursor. -/
  | noContext
  /-- The cursor row lies in no function. -/
  | outsideFunction
  /-- The settings cannot be used. -/
  | invalidSettings (reason : String)
  /-- The document could not be parsed. -/
  | parserError (reason : String)
  /-- The function has enough comments. -/
  | notNeeded (analysis : Analysis) (report : String)
  /-- The function has no place for comments. -/
  | malformedBody (analysis : Analysis) (report : String)
  /-- The missing comments are in `text`. -/
  | applied (analysis : Analysis) (report : String) (edits : List Edit) (text : Text)

namespace Outcome

def status : Outcome → String
  | noContext => "no_context"
  | outsideFunction => "outside_function"
  | invalidSettings _ => "invalid_config"
  | parserError _ => "parser_error"
  | notNeeded _ _ => "not_needed"
  | malformedBody _ _ => "malformed_body"
  | applied _ _ _ _ => "applied"

/-- What the user is told. -/
def message : Outcome → String
  | noContext => ""
  | outsideFunction => "Cursor is not inside a function"
  | invalidSettings reason => reason
  | parserError reason => reason
  | notNeeded _ report => report
  | malformedBody _ report => report
  | applied _ report _ _ => report

def analysis? : Outcome → Option Analysis
  | notNeeded a _ => some a
  | malformedBody a _ => some a
  | applied a _ _ _ => some a
  | _ => none

def edits : Outcome → List Edit
  | applied _ _ edits _ => edits
  | _ => []

/-- The document after the fix. -/
def newText? : Outcome → Option Text
  | applied _ _ _ text => some text
  | _ => none

/-- There is something to write. -/
def changed (o : Outcome) : Bool := !o.edits.isEmpty

/-- The user has to mend something before the fix can work. -/
def isFailure : Outcome → Bool
  | invalidSettings _ => true
  | parserError _ => true
  | _ => false

/-- The document to go on with: the new one if there is something to write. -/
def textAfter (o : Outcome) (before : Text) : Text :=
  if o.changed then o.newText?.getD before else before

end Outcome

/-- An edit as a record, its row counted from one. -/
def Edit.record (e : Edit) : Value :=
  .record [("line", .int (e.position.row + 1)), ("column", .int e.position.column),
    ("text", .text (String.ofList e.text))]

/-- An outcome as a record. -/
def Outcome.record (o : Outcome) : Value :=
  .record
    [("status", .text o.status), ("message", .text o.message),
     ("analysis", match o.analysis? with
       | some a => .record a.record
       | none => .null),
     ("edits", .list (o.edits.map Edit.record))]

/-! ## The fix -/

/-- The outcome that a fault met before the report stands for; other faults stay faults. -/
def Fault.outcome : Fault → Except Fault Outcome
  | .noContext _ => .ok .noContext
  | .outsideFunction _ => .ok .outsideFunction
  | .invalidSetting field value reason =>
    .ok (.invalidSettings (Fault.invalidSetting field value reason).message)
  | .parserUnavailable reason => .ok (.parserError (Fault.parserUnavailable reason).message)
  | e => .error e

/-- The fault means that the function has no place for comments. -/
def Fault.spoilsEdit : Fault → Bool
  | .malformedBody _ _ => true
  | .misplacedEdit _ _ _ => true
  | _ => false

/-- Adds to a function the comments its report asks for. -/
def Target.fix (t : Target) (s : Settings) (a : Analysis) : Except Fault Outcome := do
  let report ← a.report
  if a.needed ≤ 0 then return .notNeeded a report
  match t.mend s a with
  | .ok (edits, text) => return .applied a report edits text
  | .error e => if e.spoilsEdit then return .malformedBody a report else throw e

/-- Measures the function under the cursor and adds the comments it lacks. -/
def fix (s : Settings) (parser : Parser) (source : Option Text) (line : Option Int) :
    Except Fault Outcome :=
  match locate parser source line with
  | .error e => e.outcome
  | .ok t =>
    match t.analyze s with
    | .error e => e.outcome
    | .ok a => t.fix s a

/-! ## Records of a fix -/

/-- The records of a fault met before the report. -/
def Fault.journal (e : Fault) : Journal :=
  match e with
  | .noContext _ => [⟨.debug, "Nothing to do: " ++ e.message⟩]
  | .outsideFunction line =>
    [⟨.debug, "No function definition contains row " ++ toString line⟩, ⟨.info, e.message⟩]
  | .invalidSetting _ _ _ => [⟨.warning, "Configuration rejected: " ++ e.message⟩]
  | .parserUnavailable _ => [⟨.error, "Parser failure: " ++ e.message⟩]
  | _ => []

/-- Rows as they stand in a record. -/
def RowSet.shown (rows : RowSet) : String := (Value.list (rows.toList.map Value.int)).quoted

def Classification.entry (c : Classification) (policy : ClassificationPolicy) : Record :=
  ⟨.debug, "Classified rows " ++ toString c.start ++ "-" ++ toString c.stop ++ " (" ++ policy.name ++
    "): code=" ++ c.code.shown ++ " comment=" ++ c.comments.shown⟩

/-- The records of adding comments. -/
def Target.mendJournal (t : Target) (s : Settings) (a : Analysis) : Journal :=
  (match t.function.bodyStart with
    | some p =>
      [⟨.debug, "Inserting " ++ toString a.needed ++ " comment line(s) after " ++
        toString (p.row + 1) ++ ":" ++ toString p.column⟩]
    | none => []) ++
  match t.mend s a with
  | .ok (edits, _) =>
    if edits.isEmpty then [] else [⟨.debug, "Applied " ++ toString edits.length ++ " edit(s)"⟩]
  | .error e => [⟨.warning, "Skipping edit: " ++ e.message⟩]

/-- The records of the report and of what it leads to. -/
def Target.fixJournal (t : Target) (s : Settings) (a : Analysis) : Journal :=
  match a.report with
  | .error _ => []
  | .ok report =>
    ⟨.info, a.name ++ ": " ++ report⟩ :: if a.needed ≤ 0 then [] else t.mendJournal s a

/-- The records of a fix. -/
def fixJournal (s : Settings) (parser : Parser) (source : Option Text) (line : Option Int) : Journal :=
  match locate parser source line with
  | .error e => e.journal
  | .ok t =>
    match s.ensureValid with
    | .error e => e.journal
    | .ok _ =>
      (t.classification s).entry s.classification ::
        match t.analyze s with
        | .error e => e.journal
        | .ok a => t.fixJournal s a

/-! ## Sessions -/

/-- One fix of a session. -/
structure Request where
  settings : Settings
  parser : Parser
  line : Option Int

/-- Fixes in turn, each on the text left by those before it; a step whose request could not be made
    is passed over with its fault. -/
def session (text : Text) : List (Except Fault Request) → List (Except Fault Outcome)
  | [] => []
  | .error e :: steps => .error e :: session text steps
  | .ok r :: steps =>
    match fix r.settings r.parser (some text) r.line with
    | .error e => .error e :: session text steps
    | .ok o => .ok o :: session (o.textAfter text) steps

end CommentQuota
