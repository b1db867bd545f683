/-
  CommentQuota.Proofs.PolicyAgreement — both ways of counting rows come to the same rows.

  The pass that takes rows back from code depends on the order of its nodes only on the way: what it
  ends with is told by the nodes reached and the rows of the document, and so is what the two passes
  end with. This holds of any tree, also of one whose nodes lie outside their parents or outside the
  document.

  - `trim_eq_nil_iff`: a row without content is empty once trimmed.
  - `policies_agree`: the rows that either policy finds.
-/

import CommentQuota.Proofs.Counting
import CommentQuota.Proofs.Traversal
import Mathlib.Data.List.TakeWhile

namespace CommentQuota

/-! ## Sets of rows -/

theorem RowSet.eq_of_mem_iff {s u : RowSet} (h : ∀ r, r ∈ s ↔ r ∈ u) : s = u := by
  have hperm : s.toList.Perm u.toList := (List.perm_ext_iff_of_nodup s.nodup u.nodup).mpr h
  have hlists : s.toList = u.toList :=
    hperm.eq_of_pairwise (fun a b _ _ hab hba => absurd hab (Int.lt_asymm hba)) s.ordered u.ordered
  cases s
  cases u
  simp only at hlists
  subst hlists
  rfl

/-! ## Rows of a document -/

theorem Text.trimStart_eq_nil_iff {t : Text} : t.trimStart = [] ↔ ∀ c ∈ t, isBlank c = true :=
  List.dropWhile_eq_nil_iff

theorem Text.trimStart_trimStart (t : Text) : t.trimStart.trimStart = t.trimStart :=
  List.dropWhile_eq_self_iff.mpr (List.dropWhile_get_zero_not isBlank t)

theorem Text.trim_eq_nil_iff {t : Text} : t.trim = [] ↔ t.hasContent = false := by
  have hblank : (∀ c ∈ t.trimStart.reverse, isBlank c = true) ↔ ∀ c ∈ t, isBlank c = true := by
    simp only [List.mem_reverse]
    rw [← trimStart_eq_nil_iff, trimStart_trimStart, trimStart_eq_nil_iff]
  rw [trim, List.reverse_eq_nil_iff, trimStart_eq_nil_iff, hblank, hasContent, List.any_eq_false]
  simp

/-- A row of the document that is not empty once trimmed. -/
def FilledRow (rows : List Text) (r : Int) : Prop :=
  0 ≤ r ∧ ∃ line, rows[r.toNat]? = some line ∧ Text.trim line ≠ []

theorem hasText_iff_filledRow {rows : List Text} {r : Int} :
    Classification.hasText rows r = true ↔ FilledRow rows r := by
  unfold Classification.hasText FilledRow
  by_cases hr : r < 0
  · simp [hr, Int.not_le.mpr hr]
  · rw [if_neg hr]
    cases hline : rows[r.toNat]? with
    | none => simp
    | some line => simp [Text.trim_eq_nil_iff, Int.not_lt.mp hr]

/-! ## Rows of a function -/

namespace Node

/-- A row is in the span of a node; a span that runs backwards has no rows. -/
def Spans (n : Node) (r : Int) : Prop := n.start.row ≤ r ∧ r ≤ n.stop.row

instance (n : Node) (r : Int) : Decidable (n.Spans r) := inferInstanceAs (Decidable (_ ∧ _))

/-- A comment reached from the function spans the row. -/
def CommentSpans (fn : Node) (r : Int) : Prop := ∃ n, fn.Reaches n ∧ n.kind = commentKind ∧ n.Spans r

/-- A named node reached from the function spans the row. -/
def NamedSpans (fn : Node) (r : Int) : Prop := ∃ n, fn.Reaches n ∧ n.named = true ∧ n.Spans r

theorem commentRow_walk {fn : Node} {r : Int} :
    Classification.CommentRow (walk (some fn)) r ↔ fn.CommentSpans r := by
  simp only [Classification.CommentRow, CommentSpans, mem_walk, mem_rowSpan, Spans]

theorem namedRow_walk {fn : Node} {r : Int} :
    Classification.NamedRow (walk (some fn)) r ↔ fn.NamedSpans r := by
  simp only [Classification.NamedRow, NamedSpans, mem_walk, mem_rowSpan, Spans]

end Node

theorem mem_comments_iff_commentSpans (policy : ClassificationPolicy) (fn : Node) (rows : List Text) (r : Int) :
    r ∈ (classify policy fn rows).comments ↔ fn.CommentSpans r := by
  rw [mem_comments, Node.commentRow_walk]

theorem mem_code_iff_namedSpans (policy : ClassificationPolicy) (fn : Node) (rows : List Text) (r : Int) :
    r ∈ (classify policy fn rows).code ↔ fn.NamedSpans r ∧ ¬ fn.CommentSpans r ∧ FilledRow rows r := by
  rw [mem_code, Node.commentRow_walk, Node.namedRow_walk, hasText_iff_filledRow]

/-- Whatever the tree and the rows of the document, both policies find the same: the comment rows are
    those that a comment spans, and the code rows those that a named node spans, no comment spans, and
    that are rows of the document with content. -/
theorem policies_agree (fn : Node) (rows : List Text) :
    Classification.firstPass fn rows = Classification.twoPhase fn rows ∧
      ∀ policy,
        (∀ r, r ∈ (classify policy fn rows).comments ↔ fn.CommentSpans r) ∧
        (∀ r, r ∈ (classify policy fn rows).code ↔ fn.NamedSpans r ∧ ¬ fn.CommentSpans r ∧ FilledRow rows r) ∧
        (classify policy fn rows).start = fn.start.row ∧ (classify policy fn rows).stop = fn.stop.row := by
  refine ⟨?_, fun policy => ⟨mem_comments_iff_commentSpans policy fn rows, mem_code_iff_namedSpans policy fn rows,
    classify_start policy fn rows, classify_stop policy fn rows⟩⟩
  have hcomments : (classify .firstPass fn rows).comments = (classify .twoPhase fn rows).comments :=
    RowSet.eq_of_mem_iff fun r => by rw [mem_comments_iff_commentSpans, mem_comments_iff_commentSpans]
  have hcode : (classify .firstPass fn rows).code = (classify .twoPhase fn rows).code :=
    RowSet.eq_of_mem_iff fun r => by rw [mem_code_iff_namedSpans, mem_code_iff_namedSpans]
  calc Classification.firstPass fn rows
      = ⟨(classify .firstPass fn rows).comments, (classify .firstPass fn rows).code, fn.start.row, fn.stop.row⟩ := rfl
    _ = ⟨(classify .twoPhase fn rows).comments, (classify .twoPhase fn rows).code, fn.start.row, fn.stop.row⟩ := by
        rw [hcomments, hcode]
    _ = Classification.twoPhase fn rows := rfl

end CommentQuota
