/-
  CommentQuota.Policy — the choices between ways of counting rows and of inserting comments.

  A policy is chosen by name, in any case and with blanks around it; no value at all chooses the
  default.
-/

import CommentQuota.Fault

namespace CommentQuota

/-- How rows covered both by comments and by code are told apart. -/
inductive ClassificationPolicy where
  /-- One pass over the nodes, a comment taking a row back from code. -/
  | firstPass
  /-- A pass for comments, then one for code over the rows the comments left. -/
  | twoPhase
  deriving DecidableEq, Repr

/-- How missing comments are put into edits. -/
inductive InsertionPolicy where
  /-- One edit with all comment lines. -/
  | single
  /-- One edit for each comment line, tagged with its index. -/
  | iterative
  deriving DecidableEq, Repr

namespace ClassificationPolicy

def all : List ClassificationPolicy := [firstPass, twoPhase]

def name : ClassificationPolicy → String
  | firstPass => "first_pass"
  | twoPhase => "two_phase"

/-- The policy a value names; dashes count as underscores. -/
def ofValue : Value → Except Fault ClassificationPolicy
  | .null => .ok firstPass
  | v =>
    let cleaned := (Text.lower (Text.trim v.display.toList)).map fun c => if c = '-' then '_' else c
    match all.find? fun p => p.name == String.ofList cleaned with
    | some p => .ok p
    | none => .error (.unknownPolicy "classification" v.display (all.map name))

end ClassificationPolicy

namespace InsertionPolicy

def all : List InsertionPolicy := [single, iterative]

def name : InsertionPolicy → String
  | single => "single"
  | iterative => "iterative"

/-- The policy a value names. -/
def ofValue : Value → Except Fault InsertionPolicy
  | .null => .ok single
  | v =>
    let cleaned := Text.lower (Text.trim v.display.toList)
    match all.find? fun p => p.name == String.ofList cleaned with
    | some p => .ok p
    | none => .error (.unknownPolicy "insertion" v.display (all.map name))

end InsertionPolicy

end CommentQuota
