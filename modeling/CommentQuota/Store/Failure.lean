/-
  CommentQuota.Store.Failure — why a file operation fails, and the text that says so.
-/

import CommentQuota.Text.Quoted

namespace CommentQuota

/-- The reasons a file system gives. -/
inductive StoreReason where
  | missing
  | alreadyThere
  | notDirectory
  | isDirectory
  | busy
  deriving DecidableEq

/-- The number and the wording of a reason. -/
def StoreReason.wording : StoreReason → String
  | missing => "[Errno 2] No such file or directory"
  | alreadyThere => "[Errno 17] File exists"
  | notDirectory => "[Errno 20] Not a directory"
  | isDirectory => "[Errno 21] Is a directory"
  | busy => "[Errno 16] Device or resource busy"

/-- A failed file operation: the reason, the path and, for a move, where it should have gone. -/
structure StoreFailure where
  reason : StoreReason
  path : String
  target : Option String := none
  deriving DecidableEq

def StoreFailure.message (f : StoreFailure) : String :=
  f.reason.wording ++ ": " ++ quoted f.path ++
    match f.target with
    | some t => " -> " ++ quoted t
    | none => ""

end CommentQuota
