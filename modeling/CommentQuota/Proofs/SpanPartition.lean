/-
  CommentQuota.Proofs.SpanPartition — comment rows, code rows and blank rows share a function's rows.

  The blank rows are those of the span that are in neither of the other sets, so the three sets cover
  the span once comment rows and code rows stay apart and inside it. They stay apart in any tree, and
  inside where no node that is reached spans rows outside the function. The number of rows that are
  counted is then the length of the span less the number of blank rows.

  - `Classification.total_add_blanks`: counted rows and blank rows together are as many as the span has.
  - `mem_blanks_of_named`: the blank rows of a named function have no content and no comment.
  - `classify_partitionsSpan`: the three sets partition the span.
  - `blanks_aboveDocument`: a row above the document is blank, also where the document has no blank row.
-/

import CommentQuota.Proofs.PolicyAgreement

namespace CommentQuota

/-! ## The rows of a span -/

namespace Classification

variable {c : Classification}

/-- The row is counted, as code or as a comment. -/
def counts (c : Classification) (r : Int) : Bool := decide (r ∈ c.code) || decide (r ∈ c.comments)

theorem counts_iff {r : Int} : c.counts r = true ↔ r ∈ c.code ∨ r ∈ c.comments := by
  rw [counts, Bool.or_eq_true, decide_eq_true_iff, decide_eq_true_iff]

theorem blanks_eq_filter (c : Classification) : c.blanks = (rowsBetween c.start c.stop).filter (!c.counts ·) := by
  simp only [counts, Bool.not_or]
  rfl

theorem mem_blanks {r : Int} : r ∈ c.blanks ↔ (c.start ≤ r ∧ r ≤ c.stop) ∧ r ∉ c.code ∧ r ∉ c.comments := by
  rw [blanks_eq_filter, List.mem_filter, mem_rowsBetween, Bool.not_eq_true', ← Bool.not_eq_true, counts_iff, not_or]

theorem ascending_blanks (c : Classification) : c.blanks.Pairwise (· < ·) :=
  (ascending_rowsBetween c.start c.stop).filter _

/-- Where comment rows and code rows stay apart and inside the span, the rows counted are those of the span that are
    not blank. -/
theorem total_add_blanks (hapart : ∀ r, r ∈ c.code → r ∉ c.comments)
    (hinside : ∀ r, r ∈ c.code ∨ r ∈ c.comments → c.start ≤ r ∧ r ≤ c.stop) :
    c.total + c.blanks.length = (c.stop + 1 - c.start).toNat := by
  have hnodup : ((rowsBetween c.start c.stop).filter c.counts).Nodup :=
    ((ascending_rowsBetween c.start c.stop).imp Int.ne_of_lt).filter _
  have htotal : c.total = ((rowsBetween c.start c.stop).filter c.counts).length := by
    rw [← List.toFinset_card_of_nodup hnodup]
    apply RowSet.size_add_size hapart
    intro r
    rw [List.mem_toFinset, List.mem_filter, mem_rowsBetween, counts_iff]
    exact ⟨fun h => ⟨hinside r h, h⟩, fun h => h.2⟩
  rw [htotal, blanks_eq_filter, ← List.length_eq_length_filter_add, length_rowsBetween]

end Classification

/-! ## Rows without content -/

/-- The row is behind the last row of the document. -/
def PastEnd (rows : List Text) (r : Int) : Prop := (rows.length : Int) ≤ r

instance (rows : List Text) (r : Int) : Decidable (PastEnd rows r) := inferInstanceAs (Decidable (_ ≤ _))

/-- The row is one of the document and empty once trimmed. -/
def EmptyRow (rows : List Text) (r : Int) : Prop := ∃ i : Nat, r = i ∧ ∃ line, rows[i]? = some line ∧ Text.trim line = []

/-- A row without content is above the document, behind it, or an empty row of it. -/
theorem not_filledRow_iff {rows : List Text} {r : Int} :
    ¬ FilledRow rows r ↔ r < 0 ∨ PastEnd rows r ∨ EmptyRow rows r := by
  rcases Int.lt_or_le r 0 with hneg | hnonneg
  · exact iff_of_true (fun h => by have := h.1; omega) (.inl hneg)
  · lift r to Nat using hnonneg
    have hfilled : FilledRow rows r ↔ ∃ line, rows[r]? = some line ∧ Text.trim line ≠ [] := by
      simp [FilledRow]
    have hempty : EmptyRow rows r ↔ ∃ line, rows[r]? = some line ∧ Text.trim line = [] := by
      simp only [EmptyRow, Int.natCast_inj, exists_eq_left']
    have hpast : PastEnd rows r ↔ rows[r]? = none := by
      rw [PastEnd, List.getElem?_eq_none_iff, Int.ofNat_le]
    rw [hfilled, hempty, hpast]
    cases rows[r]? with
    | none => simp
    | some line => simp

/-! ## The partition -/

section classify

variable (policy : ClassificationPolicy) {fn : Node} (rows : List Text)

/-- Every node that is reached spans rows of the function only. -/
def Node.SpansInside (fn : Node) : Prop := ∀ n, fn.Reaches n → ∀ r, n.Spans r → fn.Spans r

theorem Node.spansInside_iff : fn.SpansInside ↔ ∀ n ∈ fn.preorder, ∀ r, n.Spans r → fn.Spans r := by
  simp only [SpansInside, ← mem_walk, walk_eq_preorder]

theorem Node.commentSpans_iff {r : Int} :
    fn.CommentSpans r ↔ ∃ n ∈ fn.preorder, n.kind = commentKind ∧ n.Spans r := by
  simp only [CommentSpans, ← mem_walk, walk_eq_preorder]

theorem spans_of_counted (hinside : fn.SpansInside) {r : Int}
    (h : r ∈ (classify policy fn rows).code ∨ r ∈ (classify policy fn rows).comments) : fn.Spans r := by
  rcases h with hcode | hcomment
  · obtain ⟨⟨n, hn, -, hspans⟩, -⟩ := (mem_code_iff_namedSpans policy fn rows r).mp hcode
    exact hinside n hn r hspans
  · obtain ⟨n, hn, -, hspans⟩ := (mem_comments_iff_commentSpans policy fn rows r).mp hcomment
    exact hinside n hn r hspans

theorem spans_of_mem_blanks {r : Int} (h : r ∈ (classify policy fn rows).blanks) : fn.Spans r := by
  have hspan := (Classification.mem_blanks.mp h).1
  rwa [classify_start, classify_stop] at hspan

theorem not_mem_comments_of_code {r : Int} (h : r ∈ (classify policy fn rows).code) :
    r ∉ (classify policy fn rows).comments := by
  rw [mem_comments_iff_commentSpans]
  exact ((mem_code_iff_namedSpans policy fn rows r).mp h).2.1

/-- In a named function, every row of the span is spanned by a named node, the function itself. -/
theorem mem_blanks_of_named (hnamed : fn.named = true) {r : Int} :
    r ∈ (classify policy fn rows).blanks ↔
      fn.Spans r ∧ ¬ fn.CommentSpans r ∧ (r < 0 ∨ PastEnd rows r ∨ EmptyRow rows r) := by
  rw [Classification.mem_blanks, classify_start, classify_stop, mem_code_iff_namedSpans, mem_comments_iff_commentSpans,
    ← not_filledRow_iff]
  have hself : fn.Spans r → fn.NamedSpans r := fun h => ⟨fn, .root, hnamed, h⟩
  constructor
  · rintro ⟨hspans, hcode, hcomment⟩
    exact ⟨hspans, hcomment, fun hfilled => hcode ⟨hself hspans, hcomment, hfilled⟩⟩
  · rintro ⟨hspans, hcomment, hfilled⟩
    exact ⟨hspans, fun hcode => hfilled hcode.2.2, hcomment⟩

end classify

/-- Where no node that is reached spans rows outside the function, comment rows, code rows and blank rows are apart and
    together are the rows of the function, each counted once. The blank rows of a named function are those that no
    comment spans and that are above the document, behind it, or empty. -/
theorem classify_partitionsSpan {fn : Node} (hrows : fn.start.row ≤ fn.stop.row) (hinside : fn.SpansInside)
    (rows : List Text) (policy : ClassificationPolicy) :
    let c := classify policy fn rows
    (∀ r, r ∈ c.code → r ∉ c.comments) ∧ (∀ r, r ∈ c.blanks → r ∉ c.code ∧ r ∉ c.comments) ∧
    (∀ r, (r ∈ c.comments ∨ r ∈ c.code ∨ r ∈ c.blanks) ↔ fn.Spans r) ∧
    c.blanks.Nodup ∧ (c.total + c.blanks.length : Int) = fn.stop.row - fn.start.row + 1 ∧
    (fn.named = true → ∀ r, r ∈ c.blanks ↔
      fn.Spans r ∧ ¬ fn.CommentSpans r ∧ (r < 0 ∨ PastEnd rows r ∨ EmptyRow rows r)) := by
  intro c
  have hapart : ∀ r, r ∈ c.code → r ∉ c.comments := fun r => not_mem_comments_of_code policy rows
  have hspan : ∀ r, r ∈ c.code ∨ r ∈ c.comments → c.start ≤ r ∧ r ≤ c.stop := by
    intro r hr
    rw [classify_start, classify_stop]
    exact spans_of_counted policy rows hinside hr
  refine ⟨hapart, fun r hr => (Classification.mem_blanks.mp hr).2, fun r => ?_,
    (c.ascending_blanks).imp Int.ne_of_lt, ?_, fun hnamed r => mem_blanks_of_named policy rows hnamed⟩
  · constructor
    · rintro (hcomment | hcode | hblank)
      · exact spans_of_counted policy rows hinside (.inr hcomment)
      · exact spans_of_counted policy rows hinside (.inl hcode)
      · exact spans_of_mem_blanks policy rows hblank
    · intro hr
      by_cases hcomment : r ∈ c.comments
      · exact .inl hcomment
      by_cases hcode : r ∈ c.code
      · exact .inr (.inl hcode)
      · exact .inr (.inr (Classification.mem_blanks.mpr ⟨by rwa [classify_start, classify_stop], hcode, hcomment⟩))
  · have htotal := Classification.total_add_blanks hapart hspan
    rw [classify_start, classify_stop] at htotal
    omega

/-- A function with a comment on its rows 1 to 3, the second of which is empty. Its row 4 is empty as well, and its last
    row lies behind the document: five rows are counted and two are blank. -/
theorem classify_partitionsSpan_commented :
    let comment : Node := ⟨Node.commentKind, ⟨1, 0⟩, ⟨3, 4⟩, true, none, "", []⟩
    let fn : Node := ⟨Node.functionKind, ⟨0, 0⟩, ⟨6, 1⟩, true, none, "", [comment]⟩
    let rows : List Text := ["g() \x7b", "/* a", "", "b */ x;", " ", "\x7d"].map String.toList
    (fn.start.row ≤ fn.stop.row ∧ fn.SpansInside ∧ fn.named = true) ∧
      ∀ policy, let c := classify policy fn rows
        (c.total + c.blanks.length : Int) = 7 ∧ 2 ∉ c.blanks ∧ 4 ∈ c.blanks ∧ 6 ∈ c.blanks := by
  intro comment fn rows
  have hpreorder : fn.preorder = [fn, comment] := rfl
  have hinside : fn.SpansInside := by
    rw [Node.spansInside_iff, hpreorder]
    simp only [List.forall_mem_cons, Node.Spans, fn, comment]
    refine ⟨fun r h => h, fun r h => ?_, List.forall_mem_nil _⟩
    omega
  have hcomment : ∀ r, fn.CommentSpans r ↔ 1 ≤ r ∧ r ≤ 3 := by
    intro r
    rw [Node.commentSpans_iff, hpreorder]
    simp [fn, comment, Node.functionKind, Node.commentKind, Node.Spans]
  refine ⟨⟨by decide, hinside, rfl⟩, fun policy => ?_⟩
  obtain ⟨-, -, -, -, htotal, hblanks⟩ := classify_partitionsSpan (by decide) hinside rows policy
  have hblanks := hblanks rfl
  refine ⟨htotal, ?_, (hblanks 4).mpr ?_, (hblanks 6).mpr ?_⟩
  · rw [hblanks, hcomment]
    omega
  · rw [hcomment]
    exact ⟨by decide, by decide, .inr (.inr ⟨4, rfl, [' '], rfl, rfl⟩)⟩
  · rw [hcomment]
    exact ⟨by decide, by decide, .inr (.inl (by decide))⟩

/-- The first row of this function lies above the document. It is blank, although no comment spans it, it is not behind
    the document, and the document has no empty row. -/
theorem blanks_aboveDocument :
    let fn : Node := ⟨Node.functionKind, ⟨-1, 0⟩, ⟨0, 2⟩, true, none, "", []⟩
    let rows : List Text := ["x;".toList]
    fn.start.row ≤ fn.stop.row ∧ fn.SpansInside ∧ fn.named = true ∧
      ¬ fn.CommentSpans (-1) ∧ ¬ PastEnd rows (-1) ∧ (∀ r, ¬ EmptyRow rows r) ∧
      ∀ policy, -1 ∈ (classify policy fn rows).blanks := by
  intro fn rows
  have hpreorder : fn.preorder = [fn] := rfl
  have hcomment : ¬ fn.CommentSpans (-1) := by
    rw [Node.commentSpans_iff, hpreorder]
    simp [fn, Node.functionKind, Node.commentKind]
  refine ⟨by decide, ?_, rfl, hcomment, by decide, ?_, fun policy => ?_⟩
  · rw [Node.spansInside_iff, hpreorder]
    exact List.forall_mem_singleton.mpr fun r h => h
  · rintro r ⟨i, -, line, hline, hempty⟩
    obtain rfl := List.mem_singleton.mp (List.mem_of_getElem? hline)
    cases hempty
  · rw [mem_blanks_of_named policy rows rfl]
    exact ⟨by decide, hcomment, .inl (by decide)⟩

end CommentQuota
