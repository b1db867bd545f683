/-
  CommentQuota.CommandLine.Flag — the flags of the command line and how arguments name them.

  A long flag may be cut short as long as one flag is meant, and takes its value after an equals sign
  or from the next argument. Short flags may stand in one argument, and the last of them may have
  its value there too. What looks like a negative number or has a space in it is an operand, and so
  is everything after a divider of two dashes.

  - `Flag.spellings`, `Flag.takesValue`: the flags.
  - `Misuse`: what is wrong with a command line; `Misuse.message` says it.
  - `readArguments`: what each argument is.
  - `Flag.expand`: the flags in one argument, with their values.
-/

import CommentQuota.Text.Blank
import CommentQuota.Text.DecimalDigit
import CommentQuota.Text.Quoted

namespace CommentQuota

inductive Flag where
  | help
  | line
  | settings
  | minRatio
  | commentValue
  | policy
  | insertMode
  | dryRun
  | diff
  | json
  | backupDir
  | verbose
  | debug
  | quiet
  deriving DecidableEq

namespace Flag

/-- All flags in the order they are listed. -/
def all : List Flag :=
  [help, line, settings, minRatio, commentValue, policy, insertMode, dryRun, diff, json, backupDir,
   verbose, debug, quiet]

def spellings : Flag → List String
  | help => ["-h", "--help"]
  | line => ["-l", "--line"]
  | settings => ["--settings"]
  | minRatio => ["--min-ratio"]
  | commentValue => ["--comment-value"]
  | policy => ["--policy"]
  | insertMode => ["--insert-mode"]
  | dryRun => ["--dry-run"]
  | diff => ["--diff"]
  | json => ["--json"]
  | backupDir => ["--backup-dir"]
  | verbose => ["-v", "--verbose"]
  | debug => ["-D", "--debug"]
  | quiet => ["--quiet"]

def takesValue : Flag → Bool
  | line | settings | minRatio | commentValue | policy | insertMode | backupDir => true
  | _ => false

/-- A flag as messages name it. -/
def title (f : Flag) : String := "/".intercalate f.spellings

/-- Every spelling with its flag. -/
def table : List (String × Flag) := all.flatMap fun f => f.spellings.map fun s => (s, f)

def ofSpelling? (s : String) : Option Flag := (table.find? (·.1 == s)).map (·.2)

end Flag

/-! ## Misuse -/

/-- What is wrong with a command line. -/
inductive Misuse where
  | ambiguous (given : String) (meant : List String)
  | valueMissing (flag : Flag)
  | valueIgnored (flag : Flag) (value : String)
  | notWhole (flag : Flag) (value : String)
  | notNumber (flag : Flag) (value : String)
  | notAChoice (flag : Flag) (value : String) (choices : List String)
  | missing (names : List String)
  | unrecognized (arguments : List String)

/-- A message about one flag. -/
def Flag.complaint (f : Flag) (message : String) : String := "argument " ++ f.title ++ ": " ++ message

def Misuse.message : Misuse → String
  | ambiguous given meant =>
    "ambiguous option: " ++ given ++ " could match " ++ ", ".intercalate meant
  | valueMissing f => f.complaint "expected one argument"
  | valueIgnored f value => f.complaint ("ignored explicit argument " ++ quoted value)
  | notWhole f value => f.complaint ("invalid int value: " ++ quoted value)
  | notNumber f value => f.complaint ("invalid float value: " ++ quoted value)
  | notAChoice f value choices =>
    f.complaint ("invalid choice: " ++ quoted value ++ " (choose from " ++
      ", ".intercalate (choices.map quoted) ++ ")")
  | missing names => "the following arguments are required: " ++ ", ".intercalate names
  | unrecognized arguments => "unrecognized arguments: " ++ " ".intercalate arguments

/-! ## Arguments -/

/-- A value in the same argument as its flag. -/
structure Attached where
  afterEquals : Bool
  value : Text

/-- What an argument is. -/
inductive Argument where
  | operand (text : String)
  | divider
  | unknown (text : String)
  | flag (f : Flag) (long : Bool) (attached : Option Attached)

/-- What stands before the first equals sign, and what stands after it. -/
def splitEquals : Text → Text × Option Text
  | [] => ([], none)
  | c :: cs =>
    if c = '=' then ([], some cs)
    else
      let (before, after) := splitEquals cs
      (c :: before, after)

/-- A text starts with two dashes. -/
def isLong : Text → Bool
  | '-' :: '-' :: _ => true
  | _ => false

/-- A dash and decimal digits, with a point among or before them. A line feed may follow. -/
def looksNegative (t : Text) : Bool :=
  let t := if t.getLast? = some '\n' then t.dropLast else t
  match t with
  | '-' :: cs =>
    match cs.dropWhile isDecimalDigit with
    | [] => !cs.isEmpty
    | '.' :: fraction => !fraction.isEmpty && fraction.all isDecimalDigit
    | _ => false
  | _ => false

/-- The flags an argument may stand for that does not spell one out, with their spellings. -/
def candidates (t : Text) : List (String × Argument) :=
  match t with
  | '-' :: '-' :: _ =>
    let (before, after) := splitEquals t
    (Flag.table.filter fun e => before.isPrefixOf e.1.toList).map fun e =>
      (e.1, .flag e.2 true (after.map (Attached.mk true)))
  | '-' :: c :: cs =>
    (Flag.table.filter fun e => e.1.toList == ['-', c]).map fun e =>
      (e.1, .flag e.2 false (some ⟨false, cs⟩))
  | _ => []

/-- What an argument before the divider is. -/
def readArgument (s : String) : Except Misuse Argument :=
  let t := s.toList
  if t.head? ≠ some '-' then .ok (.operand s)
  else match Flag.ofSpelling? s with
    | some f => .ok (.flag f (isLong t) none)
    | none =>
      if t.length = 1 then .ok (.operand s)
      else
        let (before, after) := splitEquals t
        match after, Flag.ofSpelling? (String.ofList before) with
        | some value, some f => .ok (.flag f (isLong before) (some ⟨true, value⟩))
        | _, _ =>
          match candidates t with
          | [(_, a)] => .ok a
          | [] => .ok (if looksNegative t || t.contains ' ' then .operand s else .unknown s)
          | several => .error (.ambiguous s (several.map (·.1)))

/-- What each argument is. -/
def readArguments : List String → Except Misuse (List Argument)
  | [] => .ok []
  | s :: rest =>
    if s = "--" then .ok (.divider :: rest.map .operand)
    else do
      let a ← readArgument s
      let others ← readArguments rest
      return a :: others

/-! ## Flags in an argument -/

/-- The flags of one argument with their values, what of it is no flag, and whether the last flag
    has its value in the next argument. -/
structure Expansion where
  flags : List (Flag × String)
  leftover : List String := []
  usesNext : Bool := false

/-- One more flag without a value in front. -/
def Expansion.cons (f : Flag) (e : Expansion) : Expansion := { e with flags := (f, "") :: e.flags }

namespace Flag

/-- A flag without an attached value; `next` is the operand that follows, if one does. -/
def alone (f : Flag) (next : Option String) : Except Misuse Expansion :=
  if f.takesValue then
    match next with
    | some value => .ok ⟨[(f, value)], [], true⟩
    | none => .error (.valueMissing f)
  else .ok ⟨[(f, "")], [], false⟩

/-- A short flag with an attached text: its value, or more short flags. -/
def cluster (f : Flag) (next : Option String) (afterEquals : Bool) (t : Text) : Except Misuse Expansion :=
  if f.takesValue then .ok ⟨[(f, String.ofList t)], [], false⟩
  else match t with
    | [] => .error (.valueIgnored f "")
    | c :: rest =>
      if afterEquals || c = '-' then .error (.valueIgnored f (String.ofList t))
      else match ofSpelling? (String.ofList ['-', c]) with
        | none => .ok ⟨[(f, "")], [String.ofList ('-' :: t)], false⟩
        | some g =>
          (match rest with
            | [] => g.alone next
            | d :: more =>
              if d = '=' then cluster g next true more else cluster g next false (d :: more)).map
            (Expansion.cons f)

/-- The flags in an argument. -/
def expand (f : Flag) (long : Bool) (attached : Option Attached) (next : Option String) :
    Except Misuse Expansion :=
  match attached with
  | none => f.alone next
  | some a =>
    if !long then f.cluster next a.afterEquals a.value
    else if f.takesValue then .ok ⟨[(f, String.ofList a.value)], [], false⟩
    else .error (.valueIgnored f (String.ofList a.value))

end Flag

end CommentQuota
