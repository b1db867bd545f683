/-
  CommentQuota.Journal — the records a run leaves for the operator.

  A record has a level and a message. A journal keeps the records in the order they were made, and
  is shown from a chosen level on.
-/

namespace CommentQuota

/-- How much a record matters. -/
inductive Level where
  | debug
  | info
  | warning
  | error
  deriving DecidableEq

namespace Level

def name : Level → String
  | debug => "DEBUG"
  | info => "INFO"
  | warning => "WARNING"
  | error => "ERROR"

/-- The place of a level, the least important one first. -/
def rank : Level → Nat
  | debug => 0
  | info => 1
  | warning => 2
  | error => 3

end Level

/-- One record. -/
structure Record where
  level : Level
  message : String
  deriving DecidableEq

/-- A record as it is shown. -/
def Record.line (r : Record) : String := r.level.name ++ " - " ++ r.message

/-- Records in the order they were made. -/
abbrev Journal := List Record

/-- The records of at least a level. -/
def Journal.atLeast (j : Journal) (least : Level) : Journal :=
  j.filter fun r => decide (least.rank ≤ r.level.rank)

end CommentQuota
