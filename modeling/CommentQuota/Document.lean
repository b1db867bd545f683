/-
  CommentQuota.Document — documents in a store.

  A document is the text of a file. A new version is prepared in a temporary file beside it and then
  moved over it, so the document holds either all of a change or none of it. A backup keeps the
  first copy of a document.

  - `readDocument`: the text of a file, line breaks as they are.
  - `replaceDocument`: a new version of a file that exists.
  - `backUpDocument`: a copy in another directory, unless there is one.
-/

import CommentQuota.Journal
import CommentQuota.Store

namespace CommentQuota

/-- The text of a file, or the reason why there is no document. -/
def readDocument (s : Store) (given : String) : Except Fault Text :=
  match s.at? (Path.ofString given) with
  | some (.file bytes) =>
    match Utf8.decode bytes with
    | .ok text => .ok text
    | .error run => .error (.noContext ("cannot read " ++ given ++ ": " ++ run.message))
  | _ => .error (.noContext ("file not found: " ++ given))

/-- Puts a new version in place of a file. A temporary file of its name is overwritten, and does not
    stay. -/
def replaceDocument (s : Store) (p : Path) (text : Text) : Attempt Unit :=
  if p.name = "" then ⟨s, .error (.emptyName p.text)⟩
  else match s.write p.temporary (Utf8.encode text) with
    | .error e => ⟨s, .error e⟩
    | .ok s =>
      match s.moveOver p.temporary p with
      | .ok s => ⟨s, .ok ()⟩
      | .error e => ⟨s.remove p.temporary, .error e⟩

/-- Where a copy of a file stands, and whether it was there before. -/
structure Backup where
  path : Path
  present : Bool

/-- Copies a file into a directory, which is made if needed. A copy that is there stays. -/
def backUpDocument (s : Store) (p directory : Path) : Attempt Backup :=
  let copy := directory.child p.name
  match s.makeDirectories copy.parent with
  | ⟨s, .error e⟩ => ⟨s, .error e⟩
  | ⟨s, .ok _⟩ =>
    if (s.at? copy).isSome then ⟨s, .ok ⟨copy, true⟩⟩
    else match s.read p with
      | .error e => ⟨s, .error e⟩
      | .ok bytes =>
        match s.write copy bytes with
        | .error e => ⟨s, .error e⟩
        | .ok s => ⟨s, .ok ⟨copy, false⟩⟩

/-- The record of a backup of a file. -/
def Backup.entry (b : Backup) (p : Path) : Record :=
  if b.present then ⟨.info, "Backup already present at " ++ b.path.text⟩
  else ⟨.info, "Backed up " ++ p.text ++ " to " ++ b.path.text⟩

end CommentQuota
