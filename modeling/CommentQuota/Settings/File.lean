/-
  CommentQuota.Settings.File — settings from a file.

  A settings file holds one object of editor settings. A file that cannot be read or is no such
  object is refused with the reason.

  - `unifyBreaks`: every line break becomes a line feed.
  - `Settings.draftOfFile`: a draft of the settings in a file.
-/

import CommentQuota.Json.Reader
import CommentQuota.Settings
import CommentQuota.Store

namespace CommentQuota

/-- The text with a line feed for every line break, also for a lone carriage return. -/
def unifyBreaks : Text → Text
  | [] => []
  | c :: cs =>
    if c = '\r' then
      if cs.head? = some '\n' then unifyBreaks cs else '\n' :: unifyBreaks cs
    else c :: unifyBreaks cs

namespace Settings

/-- The pairs of the object a text stands for. -/
def pairsOfText (refuse : String → Fault) (text : Text) : Except Fault (List (String × Value)) :=
  match Json.read text with
  | .ok (.record pairs) => .ok pairs
  | .ok _ => .error (refuse "top level must be an object")
  | .error (.malformed problem offset) => .error (refuse (problem.message text offset))
  | .error (.tooManyDigits count) => .error (.tooManyDigits Numeral.maxDigits count)

/-- A draft of the settings in a file. -/
def draftOfFile (s : Store) (given : String) : Except Fault Draft :=
  let refuse := Fault.invalidSetting "settings_file" (.text given)
  match s.read (Path.ofString given) with
  | .error (.store failure) => .error (refuse failure.message)
  | .error e => .error e
  | .ok bytes =>
    match Utf8.decode bytes with
    | .error run => .error (.badEncoding run)
    | .ok text => do draftOfPairs (← pairsOfText refuse (unifyBreaks text))

def ofFile (s : Store) (given : String) : Except Fault Settings := do
  (← draftOfFile s given).settle

end Settings

end CommentQuota
