/-
  CommentQuota.Settings — what a user can choose.

  Settings are drafted from values of any kind and settled once: the length limit must be a whole
  number of at least one, the policies must exist, and the comment value is cut to the limit. The
  minimum share is kept as given, also when it cannot be used, and refused where it is needed.

  - `Draft.settle`: settings from a draft.
  - `Overrides.ofNamed`: settings to replace, given by name.
  - `Settings.merge`: settings with some of them replaced, settled again.
  - `Settings.ofPairs` / `Settings.ofEnvironment`: settings from an editor's settings and from
    environment variables.
  - `Settings.warnings` / `Settings.ensureValid`: what is doubtful, and what cannot be used.
-/

import CommentQuota.Number.Reader
import CommentQuota.Policy
import CommentQuota.Quota

namespace CommentQuota

/-- Settings in use. `lead` starts every comment and `comment` is what it says. -/
structure Settings where
  minimum : Value
  comment : String
  maxLength : Value
  lead : String
  classification : ClassificationPolicy
  insertion : InsertionPolicy

/-- Settings as given; no comment at all counts as an empty one. -/
structure Draft where
  minimum : Value := .float (.ofQuotient false 1 4)
  comment : Option String := some "fix METRICS-19"
  maxLength : Value := .int 60
  lead : String := "// "
  classification : Value := .null
  insertion : Value := .null

/-- The whole number in a value, a truth value counting as zero or one. -/
def Value.whole? : Value → Option Int
  | .int n => some n
  | .bool b => some (if b then 1 else 0)
  | _ => none

namespace Draft

/-- The length limit, if it is a whole number of at least one. -/
def limit? (d : Draft) : Option Nat :=
  match d.maxLength.whole? with
  | some n => if 1 ≤ n then some n.toNat else none
  | none => none

/-- The comment value cut to a number of characters. -/
def cut (limit : Nat) (s : String) : String := String.ofList (s.toList.take limit)

/-- Settings from a draft. -/
def settle (d : Draft) : Except Fault Settings :=
  match d.limit? with
  | none =>
    .error (.invalidSetting "max_comment_value_length" d.maxLength "must be an integer >= 1")
  | some limit => do
    let classification ← ClassificationPolicy.ofValue d.classification
    let insertion ← InsertionPolicy.ofValue d.insertion
    return ⟨d.minimum, cut limit (d.comment.getD ""), d.maxLength, d.lead, classification, insertion⟩

/-- The length of the comment value and the limit it is cut to, if it is cut. -/
def truncation? (d : Draft) : Option (Nat × Nat) :=
  match d.limit? with
  | some limit =>
    let n := (d.comment.getD "").length
    if limit < n then some (n, limit) else none
  | none => none

end Draft

/-- Settings to replace; those not given stay. -/
structure Overrides where
  minimum : Option Value := none
  comment : Option String := none
  maxLength : Option Value := none
  lead : Option String := none
  classification : Option Value := none
  insertion : Option Value := none

/-- The text in a value, if it is one. -/
def Value.text? : Value → Option String
  | .text s => some s
  | _ => none

namespace Overrides

/-- One setting more, given by its name. Nothing at all replaces nothing, and other names are passed over. The comment value
    and the lead are texts. -/
def give (o : Overrides) (name : String) : Value → Overrides
  | .null => o
  | v =>
    match name with
    | "min_comment_ratio" => { o with minimum := some v }
    | "auto_insert_comment_value" => { o with comment := v.text?.or o.comment }
    | "max_comment_value_length" => { o with maxLength := some v }
    | "comment_prefix" => { o with lead := v.text?.or o.lead }
    | "classification_policy" => { o with classification := some v }
    | "insertion_policy" => { o with insertion := some v }
    | _ => o

/-- Settings given by their names. -/
def ofNamed (named : List (String × Value)) : Overrides := named.foldl (fun o given => o.give given.1 given.2) {}

end Overrides

namespace Draft

/-- A draft with some of it replaced. -/
def override (d : Draft) (o : Overrides) : Draft where
  minimum := o.minimum.getD d.minimum
  comment := o.comment.or d.comment
  maxLength := o.maxLength.getD d.maxLength
  lead := o.lead.getD d.lead
  classification := o.classification.getD d.classification
  insertion := o.insertion.getD d.insertion

end Draft

namespace Settings

/-- Settings as a draft of the same settings. -/
def draft (s : Settings) : Draft where
  minimum := s.minimum
  comment := some s.comment
  maxLength := s.maxLength
  lead := s.lead
  classification := .text s.classification.name
  insertion := .text s.insertion.name

/-- Settings with some of them replaced. -/
def merge (s : Settings) (o : Overrides) : Except Fault Settings := (s.draft.override o).settle

/-! ## Editor settings -/

/-- The name space that may stand before a key. -/
def nameSpace : String := "fixStaticCheck."

/-- A key without the name space. -/
def shortKey (key : String) : String :=
  if nameSpace.toList.isPrefixOf key.toList then String.ofList (key.toList.drop nameSpace.length)
  else key

/-- The floating point number in a value, or the fault `notANumber` if it holds none. -/
def toFloat (notANumber : Fault) : Value → Except Fault Binary64
  | .bool b => .ok (if b then .one else .zero)
  | .int n => (Binary64.ofInt? n).elim (.error .outOfRange) .ok
  | .float x => .ok x
  | .text s => (readFloat s.toList).elim (.error notANumber) .ok
  | _ => .error notANumber

/-- A value as text, nothing staying nothing. -/
def textOrNull : Value → Value
  | .null => .null
  | v => .text v.display

/-- One editor setting; keys of no setting here are passed over. -/
def applyPair (d : Draft) (pair : String × Value) : Except Fault Draft :=
  let v := pair.2
  match shortKey pair.1 with
  | "minCommentRatio" =>
    (toFloat (.invalidSetting "min_comment_ratio" v "must be a number") v).map fun x =>
      { d with minimum := .float x }
  | "autoInsertCommentValue" =>
    .ok { d with comment := match v with
      | .null => none
      | v => some v.display }
  | "classificationPolicy" => .ok { d with classification := textOrNull v }
  | "insertionPolicy" => .ok { d with insertion := textOrNull v }
  | _ => .ok d

/-- A draft from editor settings in their order; the last of several for one setting counts. -/
def draftOfPairs (pairs : List (String × Value)) : Except Fault Draft := pairs.foldlM applyPair {}

def ofPairs (pairs : List (String × Value)) : Except Fault Settings := do
  (← draftOfPairs pairs).settle

/-! ## Environment -/

/-- The settings in environment variables. -/
def environmentOverrides (env : String → Option String) : Except Fault Overrides := do
  let minimum ← match env "COMMENT_DENSITY_MIN_RATIO" with
    | none => pure none
    | some s =>
      let unread := Fault.invalidSetting "min_comment_ratio" (.text s)
        "cannot parse COMMENT_DENSITY_MIN_RATIO"
      (toFloat unread (.text s)).map fun x => some (Value.float x)
  return { minimum,
           comment := env "COMMENT_DENSITY_COMMENT_VALUE",
           classification := (env "COMMENT_DENSITY_POLICY").map .text,
           insertion := (env "COMMENT_DENSITY_INSERT_MODE").map .text }

/-- Settings with those of the environment in place of a base, the defaults if there is none. -/
def ofEnvironment (base : Option Settings) (env : String → Option String) : Except Fault Settings := do
  let o ← environmentOverrides env
  match base with
  | some s => s.merge o
  | none => (Draft.override {} o).settle

/-! ## Doubts -/

/-- What is doubtful about the minimum. -/
def minimumWarnings (v : Value) : Except Fault (List String) :=
  match v with
  | .bool b => .ok (if b then ["min_comment_ratio must be < 1, got " ++ v.display] else [])
  | .int n =>
    match Binary64.ofInt? n with
    | none => .error .outOfRange
    | some _ =>
      .ok (if n < 0 then ["min_comment_ratio must be >= 0, got " ++ v.display]
        else if 1 ≤ n then ["min_comment_ratio must be < 1, got " ++ v.display]
        else [])
  | .float x =>
    .ok (if x.isNaN then ["min_comment_ratio must be a number, got " ++ v.quoted]
      else if x.isNegative then ["min_comment_ratio must be >= 0, got " ++ v.display]
      else if x.atLeastOne then ["min_comment_ratio must be < 1, got " ++ v.display]
      else [])
  | _ => .ok ["min_comment_ratio must be a number, got " ++ v.quoted]

def warnings (s : Settings) : Except Fault (List String) := do
  let doubts ← minimumWarnings s.minimum
  return doubts ++
    if Text.hasContent s.comment.toList then []
    else ["auto_insert_comment_value is empty; placeholder comments will be bare"]

/-- Refuses settings whose minimum cannot be used. -/
def ensureValid (s : Settings) : Except Fault Unit := Minimum.check s.minimum

end Settings

end CommentQuota
