/-
  CommentQuota.CommandLine.Options — what a command line asks for.

  Arguments are taken from left to right: the first operand is the file, and a later flag wins over
  an earlier one of its kind. Help ends the reading where it is met. What is missing is complained
  about before what is too much.

  - `readOptions`: the options of a command line, or why there are none.
-/

import CommentQuota.CommandLine.Flag
import CommentQuota.Number.Reader
import CommentQuota.Policy
import CommentQuota.Settings

namespace CommentQuota

/-- What a command line asks for. -/
structure Options where
  file : String
  line : Int
  settings : Option String := none
  minimum : Option Binary64 := none
  comment : Option String := none
  classification : Option ClassificationPolicy := none
  insertion : Option InsertionPolicy := none
  dryRun : Bool := false
  diff : Bool := false
  json : Bool := false
  backupDir : Option String := none
  verbose : Bool := false
  debug : Bool := false
  quiet : Bool := false

/-- Why a command line leads to no run. -/
inductive Stop where
  | help
  | misuse (reason : Misuse)

/-- The line that says what is wrong; for help there is none. -/
def Stop.message : Stop → String
  | help => ""
  | misuse reason => "comment-density: error: " ++ reason.message

/-- The exit code after a stop. -/
def Stop.exitCode : Stop → Nat
  | help => 0
  | misuse _ => 2

/-- What has been read so far: the options with no file or line yet, and what is too much. -/
structure Reading where
  file : Option String := none
  line : Option Int := none
  options : Options := { file := "", line := 0 }
  extras : List String := []

namespace Reading

/-- One of several named choices. -/
def choose {α : Type} (f : Flag) (value : String) (choices : List (String × α)) : Except Stop α :=
  match choices.find? (·.1 == value) with
  | some c => .ok c.2
  | none => .error (.misuse (.notAChoice f value (choices.map (·.1))))

/-- Takes one flag with its value. -/
def take (r : Reading) (f : Flag) (value : String) : Except Stop Reading :=
  let o := r.options
  match f with
  | .help => .error .help
  | .line =>
    match readInt value.toList with
    | some n => .ok { r with line := some n }
    | none => .error (.misuse (.notWhole f value))
  | .settings => .ok { r with options := { o with settings := some value } }
  | .minRatio =>
    match readFloat value.toList with
    | some x => .ok { r with options := { o with minimum := some x } }
    | none => .error (.misuse (.notNumber f value))
  | .commentValue => .ok { r with options := { o with comment := some value } }
  | .policy => do
    let p ← choose f value (ClassificationPolicy.all.map fun p => (p.name, p))
    return { r with options := { o with classification := some p } }
  | .insertMode => do
    let p ← choose f value (InsertionPolicy.all.map fun p => (p.name, p))
    return { r with options := { o with insertion := some p } }
  | .dryRun => .ok { r with options := { o with dryRun := true } }
  | .diff => .ok { r with options := { o with diff := true } }
  | .json => .ok { r with options := { o with json := true } }
  | .backupDir => .ok { r with options := { o with backupDir := some value } }
  | .verbose => .ok { r with options := { o with verbose := true } }
  | .debug => .ok { r with options := { o with debug := true } }
  | .quiet => .ok { r with options := { o with quiet := true } }

/-- Takes the flags of one argument. -/
def takeAll (r : Reading) (e : Expansion) : Except Stop Reading :=
  e.flags.foldlM (fun r f => r.take f.1 f.2) { r with extras := r.extras ++ e.leftover }

/-- Takes an operand: the file, or one too much. -/
def operand (r : Reading) (s : String) : Reading :=
  match r.file with
  | none => { r with file := some s }
  | some _ => { r with extras := r.extras ++ [s] }

/-- The operand that arguments start with. -/
def nextOperand : List Argument → Option String
  | .operand s :: _ => some s
  | _ => none

/-- The arguments after a flag and its value. -/
def afterFlag (e : Expansion) (rest : List Argument) : List Argument :=
  if e.usesNext then rest.tail else rest

theorem length_afterFlag_le (e : Expansion) (rest : List Argument) :
    (afterFlag e rest).length ≤ rest.length := by
  unfold afterFlag
  split
  · rw [List.length_tail]; omega
  · exact Nat.le_refl _

/-- Takes arguments from left to right. A divider next to the operand that is the file belongs to
    it; any other divider is too much. -/
def consume (r : Reading) (arguments : List Argument) : Except Stop Reading :=
  match arguments with
  | [] => .ok r
  | .operand s :: .divider :: rest =>
    if r.file.isNone then consume (r.operand s) rest
    else consume { r with extras := r.extras ++ [s, "--"] } rest
  | .operand s :: rest => consume (r.operand s) rest
  | .divider :: rest =>
    if r.file.isNone && (nextOperand rest).isSome then consume r rest
    else consume { r with extras := r.extras ++ ["--"] } rest
  | .unknown s :: rest => consume { r with extras := r.extras ++ [s] } rest
  | .flag f long attached :: rest =>
    match f.expand long attached (nextOperand rest) with
    | .error m => .error (.misuse m)
    | .ok e =>
      match r.takeAll e with
      | .error stop => .error stop
      | .ok r => consume r (afterFlag e rest)
termination_by arguments.length
decreasing_by
  all_goals have := fun e => length_afterFlag_le e rest
  all_goals grind

/-- The options, once all arguments are taken. -/
def finish (r : Reading) : Except Misuse Options :=
  match r.file, r.line with
  | some file, some line =>
    if r.extras.isEmpty then .ok { r.options with file, line }
    else .error (.unrecognized r.extras)
  | file, line =>
    .error (.missing ((if file.isNone then ["file"] else []) ++
      (if line.isNone then [Flag.line.title] else [])))

end Reading

/-- The options of a command line. -/
def readOptions (arguments : List String) : Except Stop Options :=
  match readArguments arguments with
  | .error m => .error (.misuse m)
  | .ok as =>
    match Reading.consume {} as with
    | .error stop => .error stop
    | .ok r =>
      match r.finish with
      | .error m => .error (.misuse m)
      | .ok o => .ok o

namespace Options

/-- The settings given by flags. -/
def overrides (o : Options) : Overrides where
  minimum := o.minimum.map .float
  comment := o.comment
  classification := o.classification.map fun p => .text p.name
  insertion := o.insertion.map fun p => .text p.name

end Options

end CommentQuota
