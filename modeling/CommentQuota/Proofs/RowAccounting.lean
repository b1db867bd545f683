/-
  CommentQuota.Proofs.RowAccounting — the report after an applied fix.

  The fix adds the rows of the comments, and one more if text follows the brace, for the text moves to
  a row of its own. That row counts as code where the brace's row counted for both, so that the
  comments of the fix may fall short of the minimum for the longer function.

  - `total_after` / `commentRows_after`: the numbers of rows in the report on the fixed function.
  - `needed_after_eq_zero_iff`: when nothing is missing afterwards.
  - `fix_rowAccounting`: what an applied fix does to the report.
  - `fix_reachesMinimum_iff`: when a second fix finds that nothing is missing.
  - `fix_falls_short`: a document for which it is not so.
-/

import CommentQuota.Proofs.Mending
import CommentQuota.Proofs.Shortfall

namespace CommentQuota

open Lexeme

namespace Widening

variable {w : Widening}

/-! ## The place of the comments -/

theorem source_eq (w : Widening) : w.source = (textOf w.front ++ ['\x7b']) ++ (w.gap ++ w.rest) := by
  simp [source]

theorem target_eq (w : Widening) :
    w.target = (textOf w.front ++ ['\x7b']) ++ (w.lineBreak ++ (w.comments.flatMap (· ++ ['\n']) ++ w.rest)) := by
  simp [target]

theorem followedByText_source (w : Widening) : w.source.followedByText w.site = .ok (decide (w.gap = [])) := by
  rw [source_eq, site, Text.followedByText_after (Text.not_partsBreak _ (by simp))]
  congr 1
  rcases w.gap_cases with ⟨e, hcontent⟩ | ⟨u, e, hu, hblank⟩
  · simp [e, hcontent]
  · have hno : Text.hasContent u = false := by
      simpa [Text.hasContent] using hblank
    rw [e, List.append_assoc, List.singleton_append, Text.hasContent_firstRow _ hu, hno]
    simp

/-- Afterwards, nothing follows the brace on its row. -/
theorem followedByText_target (w : Widening) : w.target.followedByText w.site = .ok false := by
  rw [target_eq, site, Text.followedByText_after (Text.not_partsBreak _ (by simp))]
  congr 1
  rcases w.lineBreak_cases with e | e <;> rw [e] <;> simp [Text.firstRow, Text.hasContent]

theorem bodyStart_before {f : FunctionSpan} {gs : List FunctionSpan} (h : w.Opens f gs) :
    (w.before f).function.bodyStart = some w.site := by
  rw [before, FunctionSpan.bodyStart_node, h.opening_eq]
  rfl

theorem bodyStart_after {f : FunctionSpan} {gs : List FunctionSpan} (h : w.Opens f gs) :
    (w.after f).function.bodyStart = some w.site := by
  rw [after, FunctionSpan.bodyStart_node, h.map_eq]
  rfl

end Widening

/-- Comments of a function stand on both sides of a place on its row. -/
def Node.CommentsFlank (fn : Node) (p : Position) : Prop :=
  (∃ c ∈ walk (some fn), c.kind = Node.commentKind ∧ ¬ p.Before c.stop ∧ c.stop.row = p.row) ∧
    ∃ c ∈ walk (some fn), c.kind = Node.commentKind ∧ ¬ c.start.Before p ∧ c.start.row = p.row

namespace Widening

variable {w : Widening} {f : FunctionSpan}

theorem commentsFlank_before : (w.before f).function.CommentsFlank w.site ↔ w.Flanked f := by
  rw [Node.CommentsFlank, before, FunctionSpan.exists_comment_walk_node, FunctionSpan.exists_comment_walk_node]
  refine and_congr ⟨?_, ?_⟩ ⟨?_, ?_⟩
  · rintro ⟨u, hu, hk, hc, hstop, hrow⟩
    have hspan := (start_before_stop hu).row_le
    rcases w.comment_mem_source hu hk with hmem | hmem
    · exact ⟨u, hmem, hk, hc, Int.le_trans hspan (Int.le_of_eq hrow), Int.le_of_eq hrow.symm⟩
    · -- a comment behind the brace ends behind it
      have hstart : ¬ u.start.Before w.site :=
        Position.not_before_trans w.not_origin_before_site (place_bounds hmem).1
      exact absurd ((start_before_stop hu).of_not_before hstart) hstop
  · rintro ⟨u, hu, hk, hc, hstart, hstop⟩
    have hle := Position.row_le_of_not_before (w.front_before_site hu)
    exact ⟨u, w.mem_source_of_front hu, hk, hc, w.front_before_site hu, Int.le_antisymm hle hstop⟩
  · rintro ⟨u, hu, hk, hc, hstart, hrow⟩
    have hspan := (start_before_stop hu).row_le
    rcases w.comment_mem_source hu hk with hmem | hmem
    · -- a comment before the brace starts before it
      exact absurd ((start_before_stop hu).trans_not_before (w.front_before_site hmem)) hstart
    · exact ⟨u, hmem, hk, hc, Int.le_of_eq hrow, Int.le_trans (Int.le_of_eq hrow.symm) hspan⟩
  · rintro ⟨u, hu, hk, hc, hstart, hstop⟩
    have hbehind : ¬ u.start.Before w.site :=
      Position.not_before_trans w.not_origin_before_site (place_bounds hu).1
    have hle := Position.row_le_of_not_before hbehind
    exact ⟨u, w.mem_source_of_rest hu, hk, hc, hbehind, Int.le_antisymm hstart hle⟩

theorem gap_eq_nil_of_flanked (h : w.Flanked f) : w.gap = [] := by
  have hle := le_rest_row h.2
  have hsite := w.site_row_le
  exact w.gap_eq_nil_iff.mpr (Int.le_antisymm hle hsite)

/-! ## The report -/

theorem name_after (w : Widening) (f : FunctionSpan) (s : Settings) (p q : Nat) :
    ((w.after f).measured s p q).name = ((w.before f).measured s p q).name := by
  simp [Target.measured, after, before, FunctionSpan.map]

namespace Mends

variable {s : Settings} {line : Option Int} {p q : Nat} (h : w.Mends s line f p q)

include h

theorem analyze_after : (w.after f).analyze s = .ok ((w.after f).measured s p q) :=
  Target.analyze_eq_ok.mpr ⟨h.checked, p, q, h.fraction_eq, rfl⟩

theorem startRow_after : ((w.after f).measured s p q).startRow = ((w.before f).measured s p q).startRow := by
  obtain ⟨gs, hopens⟩ := h.opens
  simp only [Target.measured, Target.classification, classify_start, after, before, hopens.map_eq]
  rfl

theorem stopRow_after :
    ((w.after f).measured s p q).stopRow = ((w.before f).measured s p q).stopRow + w.growth := by
  obtain ⟨gs, hopens⟩ := h.opens
  simp only [Target.measured, Target.classification, classify_stop, after, before, hopens.map_eq]
  rfl

theorem total_after : ((w.after f).measured s p q).total = ((w.before f).measured s p q).total + w.growth := by
  obtain ⟨gs, hopens⟩ := h.opens
  exact hopens.total_target s.classification

theorem commentRows_after : ((w.after f).measured s p q).commentRows =
    ((w.before f).measured s p q).commentRows + w.comments.length + if w.Flanked f then 1 else 0 := by
  obtain ⟨gs, hopens⟩ := h.opens
  have hsize := hopens.size_comments_target s.classification
  simp only [Target.measured, Target.classification, after, before, hsize]
  split <;> simp

theorem growth_eq : w.growth = ((w.before f).measured s p q).needed + (decide (w.gap = [])).toNat := by
  rw [h.needed_eq, growth]
  split <;> rename_i hgap <;> simp [hgap]

/-- The minimum is met unless text that moves to a row of its own takes the share below it. -/
theorem needed_after_eq_zero_iff : ((w.after f).measured s p q).needed = 0 ↔
    w.gap ≠ [] ∨ w.Flanked f ∨
      (p : Int) * (((w.before f).measured s p q).total + ((w.before f).measured s p q).needed + 1) ≤
        q * (((w.before f).measured s p q).commentRows + ((w.before f).measured s p q).needed) := by
  have htotal := h.total_after
  have hcomments := h.commentRows_after
  have hpos := List.length_pos_iff.mpr w.comments_ne_nil
  rw [h.growth_eq] at htotal
  rw [← h.needed_eq] at hcomments
  have hneeded := h.needed_eq
  -- the reports hold natural numbers
  simp only [Target.measured] at htotal hcomments hneeded ⊢
  generalize ((w.before f).classification s).total = total at *
  generalize ((w.before f).classification s).comments.size = comments at *
  generalize ((w.after f).classification s).total = total' at *
  generalize ((w.after f).classification s).comments.size = comments' at *
  have hlt : p < q := @lt_of_leastAddition_pos comments total p q (by omega)
  have hreach := @leastAddition_reaches comments total p q hlt
  generalize leastAddition comments total p q = n at *
  rw [Int.natCast_eq_zero, leastAddition_eq_zero_iff hlt]
  by_cases hgap : w.gap = []
  · by_cases hflanked : w.Flanked f
    · obtain rfl : total' = total + n + 1 := by simp [hgap] at htotal; omega
      obtain rfl : comments' = comments + n + 1 := by simp [hflanked] at hcomments; omega
      refine iff_of_true ?_ (.inr (.inl hflanked))
      rw [Nat.mul_add, Nat.mul_add q]
      omega
    · obtain rfl : total' = total + n + 1 := by simp [hgap] at htotal; omega
      obtain rfl : comments' = comments + n := by simp [hflanked] at hcomments; omega
      simp only [hgap, hflanked, ne_eq, not_true, false_or]
      exact_mod_cast Iff.rfl
  · have hflanked : ¬ w.Flanked f := fun e => hgap (gap_eq_nil_of_flanked e)
    obtain rfl : total' = total + n := by simp [hgap] at htotal; omega
    obtain rfl : comments' = comments + n := by simp [hflanked] at hcomments; omega
    exact iff_of_true hreach (.inl hgap)

end Mends

end Widening

/-! ## A function on one row -/

/-- Settings that ask for a comment on every second row. -/
def halfSettings : Settings := ⟨.float (.ofQuotient false 1 2), "todo", .int 60, "// ", .firstPass, .single⟩

theorem plainComment_halfSettings : halfSettings.PlainComment := ⟨rfl, by decide, by decide, fun _ => by decide⟩

/-- A function on one row. -/
def oneRow : Text := "int g(void) \x7b return 0; \x7d\n".toList

/-- The function with the comment it lacks, its body on a row of its own. -/
def oneRowFixed : Text := "int g(void) \x7b\n// todo\n return 0; \x7d\n".toList

theorem hashesLead_oneRow : HashesLead oneRow := by decide +kernel

theorem fix_oneRow : ∃ a report edits,
    fix halfSettings sourceParser (some oneRow) (some 0) = .ok (.applied a report edits oneRowFixed) :=
  exists_applied (by decide +kernel)

/-! ## What an applied fix does -/

section applied

variable {s : Settings} {t t' : Text} {line : Option Int} {a : Analysis} {report : String} {edits : List Edit}

/-- After an applied fix the report is on the same function, which has as many rows more as comments
    were missing, and one more if text follows the brace. Of the source it takes no more than that
    hashes lead their rows. -/
theorem fix_rowAccounting (hs : s.PlainComment) (ht : HashesLead t)
    (h : fix s sourceParser (some t) line = .ok (.applied a report edits t')) :
    ∃ target p followed a', locate sourceParser (some t) line = .ok target ∧
      target.function.bodyStart = some p ∧ t.followedByText p = .ok followed ∧
      analyze s sourceParser (some t') line = .ok a' ∧
      a'.name = a.name ∧ a'.startRow = a.startRow ∧
      a'.stopRow = a.stopRow + a.needed + followed.toNat ∧
      a'.total = a.total + a.needed + followed.toNat ∧
      (a'.commentRows = a.commentRows + a.needed ∨ a'.commentRows = a.commentRows + a.needed + followed.toNat) ∧
      (followed = false → a'.codeRows = a.codeRows ∧ a'.commentRows = a.commentRows + a.needed) := by
  obtain ⟨w, f, p, q, hmends, rfl, rfl, rfl⟩ := exists_mends hs ht h
  obtain ⟨gs, hopens⟩ := hmends.opens
  have hstop := hmends.stopRow_after
  have htotal := hmends.total_after
  have hcomments := hmends.commentRows_after
  rw [hmends.growth_eq] at hstop htotal
  rw [← hmends.needed_eq] at hcomments
  have hanalyze : analyze s sourceParser (some w.target) line = .ok ((w.after f).measured s p q) := by
    simp only [analyze, hmends.locate_after, bind, Except.bind]
    exact hmends.analyze_after
  refine ⟨w.before f, w.site, decide (w.gap = []), _, hmends.locate_before, Widening.bodyStart_before hopens,
    w.followedByText_source, hanalyze, w.name_after f s p q, hmends.startRow_after, by omega, by omega, ?_, ?_⟩
  · by_cases hflanked : w.Flanked f
    · right
      rw [hcomments, if_pos hflanked, decide_eq_true (Widening.gap_eq_nil_of_flanked hflanked)]
      rfl
    · left
      rw [hcomments, if_neg hflanked, Int.add_zero]
  · intro hgap
    have hflanked : ¬ w.Flanked f := by
      intro e
      simp [Widening.gap_eq_nil_of_flanked e] at hgap
    rw [if_neg hflanked, Int.add_zero] at hcomments
    refine ⟨?_, hcomments⟩
    have hbefore := (w.before f).total_measured s p q
    have hafter := (w.after f).total_measured s p q
    rw [hgap] at htotal
    simp only [Bool.toNat_false] at htotal
    omega

theorem fix_rowAccounting_oneRow : ∃ a report edits a',
    fix halfSettings sourceParser (some oneRow) (some 0) = .ok (.applied a report edits oneRowFixed) ∧
      analyze halfSettings sourceParser (some oneRowFixed) (some 0) = .ok a' ∧ a'.name = a.name ∧
      a'.total = a.total + a.needed + 1 := by
  obtain ⟨a, report, edits, h⟩ := fix_oneRow
  obtain ⟨target, p, followed, a', hlocate, hbody, hfollowed, hanalyze, hname, -, -, htotal, -⟩ :=
    fix_rowAccounting plainComment_halfSettings hashesLead_oneRow h
  -- the body goes on behind its brace
  have hplace : (locate sourceParser (some oneRow) (some 0)).toOption.bind (·.function.bodyStart) = some ⟨0, 13⟩ := by
    decide +kernel
  have htext : (oneRow.followedByText ⟨0, 13⟩).toOption = some true := by decide +kernel
  rw [hlocate] at hplace
  obtain rfl : p = ⟨0, 13⟩ := Option.some.inj (hbody.symm.trans hplace)
  rw [hfollowed] at htext
  obtain rfl : followed = true := Option.some.inj htext
  exact ⟨a, report, edits, a', h, hanalyze, hname, htotal⟩

/-- Where a second fix finds nothing missing: no text follows the brace, or comments stand on both
    sides of it on its row, or the minimum allows for one more row of code. -/
theorem fix_reachesMinimum_iff (hs : s.PlainComment) (ht : HashesLead t)
    (h : fix s sourceParser (some t) line = .ok (.applied a report edits t')) :
    ∃ target p followed num den, locate sourceParser (some t) line = .ok target ∧
      target.function.bodyStart = some p ∧ t.followedByText p = .ok followed ∧
      Minimum.fraction s.minimum = .ok (num, den) ∧
      ((∃ a' report', fix s sourceParser (some t') line = .ok (.notNeeded a' report')) ↔
        followed = false ∨ target.function.CommentsFlank p ∨
          (num : Int) * (a.total + a.needed + 1) ≤ den * (a.commentRows + a.needed)) := by
  obtain ⟨w, f, p, q, hmends, rfl, rfl, rfl⟩ := exists_mends hs ht h
  obtain ⟨gs, hopens⟩ := hmends.opens
  refine ⟨w.before f, w.site, decide (w.gap = []), p, q, hmends.locate_before, Widening.bodyStart_before hopens,
    w.followedByText_source, hmends.fraction_eq, ?_⟩
  rw [Widening.commentsFlank_before, decide_eq_false_iff_not, ← ne_eq, ← hmends.needed_after_eq_zero_iff]
  have hnonneg : 0 ≤ ((w.after f).measured s p q).needed := Int.natCast_nonneg _
  rcases fix_located hmends.locate_after hmends.analyze_after with ⟨hneeded, report', hfix⟩ | ⟨hneeded, r, e, x, hfix⟩
  · exact iff_of_true ⟨_, _, hfix⟩ (by omega)
  · refine iff_of_false ?_ (by omega)
    rintro ⟨a', report', hfix'⟩
    rw [hfix] at hfix'
    cases hfix'

theorem fix_reachesMinimum_iff_oneRow : ∃ a report edits,
    fix halfSettings sourceParser (some oneRow) (some 0) = .ok (.applied a report edits oneRowFixed) ∧
      ∃ target p followed num den, locate sourceParser (some oneRow) (some 0) = .ok target ∧
        target.function.bodyStart = some p ∧ oneRow.followedByText p = .ok followed ∧
        Minimum.fraction halfSettings.minimum = .ok (num, den) ∧
        ((∃ a' report', fix halfSettings sourceParser (some oneRowFixed) (some 0) = .ok (.notNeeded a' report')) ↔
          followed = false ∨ target.function.CommentsFlank p ∨
            (num : Int) * (a.total + a.needed + 1) ≤ den * (a.commentRows + a.needed)) := by
  obtain ⟨a, report, edits, h⟩ := fix_oneRow
  exact ⟨a, report, edits, h, fix_reachesMinimum_iff plainComment_halfSettings hashesLead_oneRow h⟩

/-- A function on one row lacks one comment. The fix that adds it leaves two rows of code where there
    was one, and so one comment is missing again. -/
theorem fix_falls_short : halfSettings.PlainComment ∧ HashesLead oneRow ∧
    (∃ a report edits, fix halfSettings sourceParser (some oneRow) (some 0) = .ok (.applied a report edits oneRowFixed)) ∧
    ¬ ∃ a report, fix halfSettings sourceParser (some oneRowFixed) (some 0) = .ok (.notNeeded a report) := by
  refine ⟨plainComment_halfSettings, hashesLead_oneRow, fix_oneRow, ?_⟩
  rintro ⟨a, report, h⟩
  have happlied : ((fix halfSettings sourceParser (some oneRowFixed) (some 0)).toOption.bind
      Outcome.newText?).isSome = true := by decide +kernel
  rw [h] at happlied
  simp [Except.toOption, Outcome.newText?] at happlied

end applied

end CommentQuota
