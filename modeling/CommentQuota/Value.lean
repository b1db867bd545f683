/-
  CommentQuota.Value — the values that settings can hold.

  Settings come from files, the environment and callers, so a setting may hold a value of the wrong
  kind; it is kept as it was given, to be shown in a message.

  - `display`: the value as text, a text value as it is.
  - `quoted`: the value as it stands in a message about it, texts in quotes.
-/

import CommentQuota.Number.Notation
import CommentQuota.Text.Quoted

namespace CommentQuota

inductive Value where
  | null
  | bool (b : Bool)
  | int (n : Int)
  | float (x : Binary64)
  | text (s : String)
  | list (items : List Value)
  | record (fields : List (String × Value))

namespace Value

mutual

/-- A value as it stands in a message. -/
def quoted : Value → String
  | null => "None"
  | bool b => if b then "True" else "False"
  | int n => toString n
  | float x => x.text
  | text s => CommentQuota.quoted s
  | list items => "[" ++ ", ".intercalate (quotedItems items) ++ "]"
  | record fields => "\x7b" ++ ", ".intercalate (quotedFields fields) ++ "\x7d"

def quotedItems : List Value → List String
  | [] => []
  | v :: vs => quoted v :: quotedItems vs

def quotedFields : List (String × Value) → List String
  | [] => []
  | (k, v) :: fs => (CommentQuota.quoted k ++ ": " ++ quoted v) :: quotedFields fs

end

/-- A value as text. -/
def display : Value → String
  | text s => s
  | v => quoted v

end Value

end CommentQuota
