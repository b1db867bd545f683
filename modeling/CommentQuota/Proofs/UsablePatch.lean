/-
  CommentQuota.Proofs.UsablePatch — when the printed difference of two documents is a patch.

  The difference is empty exactly if the documents are the same. As long as every line that it may have to print, but for the
  very last, ends in a line feed, a reader makes the new document of the old one with it. A line that ends in something else
  runs together with the next: a form feed or a lone carriage return ends a line here too, and the last line of a document
  may have no line break at all. Where only line feeds break lines, nothing else can go wrong.

  - `unifiedDiff_eq`: a difference is its two headings and the lines of its hunks.
  - `changes_eq_nil_iff`: documents without a change are the same.
  - `patched_of_apart`: entries on lines of their own make a patch.
  - `patched_of_closed`: documents whose lines all end in line feeds.
  - `shown_of_opened`: where only line feeds break lines, what runs together is shown by the last hunk.
  - `unifiedDiff_isPatch`: when the difference is a patch, in one statement.
  - `diff_runsTogether`: documents whose difference no reader takes.
-/

import CommentQuota.Proofs.PatchReading

namespace CommentQuota.Patch

/-! ## Lines of a document -/

theorem lines_flatten (t : Text) : (lines t).flatten = t := by
  fun_induction lines t with
  | case1 => rfl
  | case2 c cs hbreak ih => rw [List.flatten_cons, ih, List.singleton_append]
  | case3 c cs hinside hnone ih =>
    rw [hnone, List.flatten_nil] at ih
    rw [← ih]
    rfl
  | case4 c cs hinside l ls hsome ih =>
    rw [hsome, List.flatten_cons] at ih
    rw [List.flatten_cons, List.cons_append, ih]

/-- A line feed ends a line whatever stands behind it. -/
theorem ne_feed_of_inside {c : Char} {cs : Text} (h : ¬ (isLineBreak c && !(c == '\r' && cs.head? == some '\n')) = true) :
    c ≠ '\n' := by
  intro hc
  subst hc
  exact h rfl

theorem isLine_of_mem_lines {t : Text} : ∀ l ∈ lines t, IsLine l := by
  fun_induction lines t with
  | case1 => simp
  | case2 c cs hbreak ih =>
    refine List.forall_mem_cons.mpr ⟨?_, ih⟩
    by_cases hc : c = '\n'
    · exact hc ▸ @IsLine.closed [] (by simp)
    · exact .opened (by simp) (by simpa using Ne.symm hc)
  | case3 c cs hinside hnone ih =>
    exact List.forall_mem_singleton.mpr (.opened (by simp) (by simpa using (ne_feed_of_inside hinside).symm))
  | case4 c cs hinside l ls hsome ih =>
    rw [hsome, List.forall_mem_cons] at ih
    exact List.forall_mem_cons.mpr ⟨ih.1.cons (ne_feed_of_inside hinside), ih.2⟩

theorem feedLines_eq_lines {t : Text} (h : Separated (lines t)) : feedLines t = lines t := by
  conv => lhs; rw [← lines_flatten t]
  rw [feedLines_flatten isLine_of_mem_lines, fuse_eq_self h]

/-! ## Scripts -/

/-- The lines of two documents, each with what becomes of it. -/
def script (before after : Text) : List Entry := entriesOf (align (lines before) (lines after))

/-- The hunks between two documents. -/
def changes (before after : Text) : List Hunk := hunks (align (lines before) (lines after))

theorem oldSide_script (before after : Text) : oldSide (script before after) = lines before := by
  rw [script, oldSide_entriesOf, leftLines_align]

theorem newSide_script (before after : Text) : newSide (script before after) = lines after := by
  rw [script, newSide_entriesOf, rightLines_align]

/-- Every line of a script is a line of one of the documents. -/
theorem line_mem_of_mem_script {before after : Text} {e : Entry} (he : e ∈ script before after) :
    e.line ∈ lines before ∨ e.line ∈ lines after := by
  by_cases hmark : e.mark = .added
  · right
    rw [← newSide_script before after]
    exact line_mem_linesWithout he (by simp [hmark])
  · left
    rw [← oldSide_script before after]
    exact line_mem_linesWithout he hmark

theorem isLine_of_mem_script {before after : Text} {e : Entry} (he : e ∈ script before after) : IsLine e.line :=
  (line_mem_of_mem_script he).elim (isLine_of_mem_lines _) (isLine_of_mem_lines _)

theorem mem_shown {h : Hunk} {hs : List Hunk} (hh : h ∈ hs) : (entriesOf h.segments).Sublist (shown hs) :=
  List.sublist_flatten_of_mem (List.mem_map_of_mem hh)

theorem isLine_of_mem_changes {before after : Text} {h : Hunk} (hh : h ∈ changes before after) {e : Entry}
    (he : e ∈ entriesOf h.segments) : IsLine e.line :=
  isLine_of_mem_script ((shown_hunks_sublist _).subset ((mem_shown hh).subset he))

/-- Documents without a change are the same. -/
theorem changes_eq_nil_iff (before after : Text) : changes before after = [] ↔ before = after := by
  constructor
  · intro hnone
    have hlines := lines_eq_of_hunks_eq_nil hnone
    rw [leftLines_align, rightLines_align] at hlines
    rw [← lines_flatten before, hlines, lines_flatten]
  · intro hsame
    subst hsame
    rw [changes, align_self]
    split <;> rfl

/-! ## The printed difference -/

theorem marked_eq (m : Mark) (ls : List Text) : marked m.char ls = ((ls.map (⟨m, ·⟩)).map Entry.print).flatten := by
  rw [marked, List.map_map]
  rfl

theorem render_eq (h : Hunk) : h.render = h.header ++ ((entriesOf h.segments).map Entry.print).flatten := by
  have hsegment : ∀ s : Segment, s.render = (s.entries.map Entry.print).flatten := by
    intro s
    cases s with
    | same ls => exact marked_eq .kept ls
    | change removed added =>
      rw [Segment.entries, List.map_append, List.flatten_append, ← marked_eq, ← marked_eq]
      rfl
  rw [Hunk.render, Hunk.header, List.append_cancel_left_eq]
  induction h.segments with
  | nil => rfl
  | cons s rest ih => simp [hsegment, ih]

theorem flatten_printed (hs : List Hunk) : (printed hs).flatten = (hs.map Hunk.render).flatten := by
  induction hs with
  | nil => rfl
  | cons h hs ih =>
    rw [List.map_cons, List.flatten_cons, render_eq, ← ih]
    simp [printed]

/-- A difference is its two headings and the lines of its hunks. -/
theorem unifiedDiff_eq {before after : Text} (h : before ≠ after) (name : String) :
    unifiedDiff before after name =
      "--- a/".toList ++ name.toList ++ "\n+++ b/".toList ++ name.toList ++ '\n' :: (printed (changes before after)).flatten := by
  have hsome : changes before after ≠ [] := fun hnone => h ((changes_eq_nil_iff before after).mp hnone)
  rw [unifiedDiff, flatten_printed]
  unfold changes at hsome ⊢
  split
  case h_1 hnone => exact absurd hnone hsome
  case h_2 => simp

theorem unifiedDiff_eq_nil_iff (before after : Text) (name : String) : unifiedDiff before after name = [] ↔ before = after := by
  by_cases h : before = after
  · have hnone := (changes_eq_nil_iff before after).mpr h
    unfold changes at hnone
    exact iff_of_true (by rw [unifiedDiff, hnone]) h
  · simp [unifiedDiff_eq h, h]

/-- A difference is read as its hunks if their entries stand on lines of their own, and else refused. -/
theorem readPatch_unifiedDiff {before after : Text} (h : before ≠ after) {name : String} (hname : '\n' ∉ name.toList)
    (hends : EndsClosed (changes before after)) :
    readPatch (unifiedDiff before after name) =
      if ∀ h ∈ changes before after, Apart (entriesOf h.segments) then some ((changes before after).map Hunk.marked)
      else none := by
  rw [unifiedDiff_eq h, readPatch_printed hname (fun _ hh _ he => isLine_of_mem_changes hh he) hends]

/-! ## Entries on lines of their own -/

theorem Apart.sublist {fs es : List Entry} (hsub : fs.Sublist es) (h : Apart es) : Apart fs :=
  Separated.sublist (hsub.map _) h

theorem apart_append {es fs : List Entry} (hfs : fs ≠ []) : Apart (es ++ fs) ↔ (∀ e ∈ es, Closed e.line) ∧ Apart fs := by
  induction es with
  | nil => simp
  | cons e es ih => rw [List.cons_append, apart_cons, ih, List.forall_mem_cons]; simp [hfs, and_assoc]

theorem closed_of_apart {es : List Entry} (h : Apart es) (hlast : ∀ e ∈ es.getLast?, Closed e.line) :
    ∀ e ∈ es, Closed e.line := by
  rcases List.eq_nil_or_concat' es with rfl | ⟨front, e, rfl⟩
  · simp
  · intro f hf
    rcases List.mem_append.mp hf with hfront | hend
    · exact ((apart_append (by simp)).mp h).1 f hfront
    · rw [List.mem_singleton.mp hend]
      exact hlast e (by simp)

theorem apart_shown {hs : List Hunk} (hends : EndsClosed hs) (h : ∀ h ∈ hs, Apart (entriesOf h.segments)) : Apart (shown hs) := by
  induction hs with
  | nil => exact apart_nil
  | cons k hs ih =>
    obtain ⟨hk, hhs⟩ := List.forall_mem_cons.mp h
    obtain ⟨hlast, hends⟩ := (endsClosed_cons k hs).mp hends
    rw [shown_cons]
    rcases hlast with rfl | hlast
    · simpa using hk
    · by_cases hnone : shown hs = []
      · simpa [hnone] using hk
      · exact (apart_append hnone).mpr ⟨closed_of_apart hk hlast, ih hends hhs⟩

theorem endsClosed_of_apart {hs : List Hunk} (hsome : ∀ h ∈ hs.tail, entriesOf h.segments ≠ []) (h : Apart (shown hs)) :
    EndsClosed hs := by
  induction hs with
  | nil => simp [EndsClosed]
  | cons k hs ih =>
    rw [shown_cons] at h
    refine (endsClosed_cons k hs).mpr ⟨?_, ?_⟩
    · cases hs with
      | nil => exact .inl rfl
      | cons m hs =>
        have hbehind : shown (m :: hs) ≠ [] := by
          simp [hsome m List.mem_cons_self]
        exact .inr fun e he => ((apart_append hbehind).mp h).1 e (List.mem_of_getLast? he)
    · exact ih (fun m hm => hsome m (List.mem_of_mem_tail hm)) (h.sublist (List.sublist_append_right _ _))

/-- With entries on lines of their own a reader makes the new document of the old one. -/
theorem patched_of_apart {before after : Text} (h : before ≠ after) {name : String} (hname : '\n' ∉ name.toList)
    (hscript : Apart (script before after)) : patched (unifiedDiff before after name) before = some after := by
  have hshown : Apart (shown (changes before after)) := hscript.sublist (shown_hunks_sublist _)
  have hhunks : ∀ h ∈ changes before after, Apart (entriesOf h.segments) := fun _ hh => hshown.sublist (mem_shown hh)
  have hends := endsClosed_of_apart (fun _ hh => entries_ne_nil_of_mem_tail_hunks hh) hshown
  have hbefore : Separated (lines before) := by
    rw [← oldSide_script before after]
    exact Separated.sublist (List.filter_sublist.map _) hscript
  rw [patched, readPatch_unifiedDiff h hname hends, if_pos hhunks, feedLines_eq_lines hbefore]
  have happlied := applyFrom_hunks (align (lines before) (lines after))
  rw [leftLines_align, rightLines_align] at happlied
  rw [Option.bind_some, changes, happlied, Option.map_some, lines_flatten]

/-- Documents whose lines all end in line feeds have a difference that is a patch. -/
theorem patched_of_closed {before after : Text} (h : before ≠ after) {name : String} (hname : '\n' ∉ name.toList)
    (hbefore : ∀ l ∈ lines before, Closed l) (hafter : ∀ l ∈ lines after, Closed l) :
    patched (unifiedDiff before after name) before = some after := by
  refine patched_of_apart h hname ?_
  intro l hl
  obtain ⟨e, he, rfl⟩ := List.mem_map.mp (List.dropLast_subset _ hl)
  exact (line_mem_of_mem_script he).elim (hbefore _) (hafter _)

/-! ## Documents that only line feeds break -/

/-- Every line of a text but the last ends in a line feed. -/
def FeedsOnly (t : Text) : Prop := Separated (lines t)

instance (t : Text) : Decidable (FeedsOnly t) := inferInstanceAs (Decidable (Separated _))

theorem Separated.nil_of_opened {front behind : List Text} {l : Text} (h : Separated (front ++ l :: behind)) (hl : ¬ Closed l) :
    behind = [] := by
  by_contra hne
  refine hl (h l ?_)
  simp [List.dropLast_cons_of_ne_nil hne]

theorem exists_opened {es : List Entry} (h : ¬ Apart es) :
    ∃ front e behind, es = front ++ e :: behind ∧ (∀ f ∈ front, Closed f.line) ∧ ¬ Closed e.line ∧ behind ≠ [] := by
  induction es with
  | nil => exact absurd apart_nil h
  | cons e es ih =>
    by_cases hclosed : Closed e.line
    · have hbehind : ¬ Apart es := by simpa [apart_cons, hclosed] using h
      obtain ⟨front, f, behind, rfl, hfront, hf⟩ := ih hbehind
      exact ⟨e :: front, f, behind, rfl, List.forall_mem_cons.mpr ⟨hclosed, hfront⟩, hf⟩
    · refine ⟨[], e, es, rfl, by simp, hclosed, ?_⟩
      intro hnone
      exact h (by simp [hnone, apart_cons, apart_nil])

/-- A line without a line feed is the last of its document, so nothing of that document stands behind it. -/
theorem mark_of_opened {m : Mark} {front behind : List Entry} {e : Entry}
    (hlines : Separated (linesWithout m (front ++ e :: behind))) (he : ¬ Closed e.line) (hmark : e.mark ≠ m) :
    ∀ f ∈ behind, f.mark = m := by
  rw [linesWithout_append, linesWithout_cons, if_neg hmark] at hlines
  intro f hf
  by_contra hother
  have hmem := line_mem_linesWithout hf hother
  rw [hlines.nil_of_opened he] at hmem
  exact List.not_mem_nil hmem

/-- What stands behind a line without a line feed belongs to the other document. -/
theorem noneKept_of_opened {before after : Text} (hbefore : FeedsOnly before) (hafter : FeedsOnly after)
    {front behind : List Entry} {e : Entry} (hscript : script before after = front ++ e :: behind) (he : ¬ Closed e.line)
    (hbehind : behind ≠ []) : ∀ f ∈ e :: behind, f.mark ≠ .kept := by
  unfold FeedsOnly at hbefore hafter
  rw [← oldSide_script before after, hscript] at hbefore
  rw [← newSide_script before after, hscript] at hafter
  have hold : e.mark ≠ .added → ∀ f ∈ behind, f.mark = .added := mark_of_opened hbefore he
  have hnew : e.mark ≠ .removed → ∀ f ∈ behind, f.mark = .removed := mark_of_opened hafter he
  obtain ⟨g, hg⟩ := List.exists_mem_of_ne_nil behind hbehind
  intro f hf hkept
  rcases List.mem_cons.mp hf with rfl | hf
  · have hadded := hold (by simp [hkept]) g hg
    have hremoved := hnew (by simp [hkept]) g hg
    simp [hadded] at hremoved
  · by_cases hmark : e.mark = .added
    · simp [hnew (by simp [hmark]) f hf] at hkept
    · simp [hold hmark f hf] at hkept

/-- Where only line feeds break lines, entries that run together are shown, and no two hunks run together. -/
theorem shown_of_opened {before after : Text} (hbefore : FeedsOnly before) (hafter : FeedsOnly after)
    (hscript : ¬ Apart (script before after)) :
    EndsClosed (changes before after) ∧ ¬ Apart (shown (changes before after)) := by
  obtain ⟨front, e, behind, hsplit, hfront, he, hbehind⟩ := exists_opened hscript
  have hnone := noneKept_of_opened hbefore hafter hsplit he hbehind
  have hshown : e :: behind <:+ shown (changes before after) := by
    refine suffix_shown_hunks hnone ?_
    show e :: behind <:+ script before after
    rw [hsplit]
    exact List.suffix_append _ _
  obtain ⟨shownFront, hshown⟩ := hshown
  have hclosed : ∀ f ∈ shownFront, Closed f.line := by
    have hsub : (shown (changes before after)).Sublist (script before after) := shown_hunks_sublist _
    rw [← hshown, hsplit, List.append_sublist_append_right] at hsub
    exact fun f hf => hfront f (hsub.subset hf)
  constructor
  · intro h hh f hf
    have hkept := kept_of_mem_dropLast_hunks hh hf
    have hmem := (mem_shown (List.dropLast_subset _ hh)).subset (List.mem_of_getLast? hf)
    rw [← hshown] at hmem
    rcases List.mem_append.mp hmem with hin | hin
    · exact hclosed f hin
    · exact absurd hkept (hnone f hin)
  · intro hapart
    rw [← hshown] at hapart
    have hend := ((apart_append (List.cons_ne_nil e behind)).mp hapart).2
    exact he (((apart_cons e behind).mp hend).1.resolve_left hbehind)

end CommentQuota.Patch

namespace CommentQuota

open Patch

/-- The difference of two documents is empty exactly if they are the same. Otherwise it is a patch that makes the one of the
    other, if every line of theirs but the last in the script ends in a line feed; it is refused if lines of a hunk run
    together; and where only line feeds break lines, it is a patch in no other case. -/
theorem unifiedDiff_isPatch (before after : Text) (name : String) (hname : '\n' ∉ name.toList) :
    (unifiedDiff before after name = [] ↔ before = after) ∧
    (before ≠ after → Apart (script before after) → patched (unifiedDiff before after name) before = some after) ∧
    (before ≠ after → EndsClosed (changes before after) →
      ((readPatch (unifiedDiff before after name)).isSome ↔ ∀ h ∈ changes before after, Apart (entriesOf h.segments))) ∧
    (before ≠ after → FeedsOnly before → FeedsOnly after →
      (patched (unifiedDiff before after name) before = some after ↔ Apart (script before after))) := by
  refine ⟨unifiedDiff_eq_nil_iff before after name, fun h => patched_of_apart h hname, ?_, ?_⟩
  · intro h hends
    rw [readPatch_unifiedDiff h hname hends]
    split <;> simp_all
  · intro h hbefore hafter
    refine ⟨?_, patched_of_apart h hname⟩
    intro hpatched
    by_contra hscript
    obtain ⟨hends, hopened⟩ := shown_of_opened hbefore hafter hscript
    rw [patched, readPatch_unifiedDiff h hname hends, if_neg (fun hall => hopened (apart_shown hends hall))] at hpatched
    exact absurd hpatched (by simp)

theorem unifiedDiff_isPatch_lastLine :
    '\n' ∉ "source".toList ∧ "a\nb\n".toList ≠ "a\nc".toList ∧ FeedsOnly "a\nb\n".toList ∧ FeedsOnly "a\nc".toList ∧
    EndsClosed (changes "a\nb\n".toList "a\nc".toList) ∧ Apart (script "a\nb\n".toList "a\nc".toList) ∧
    patched (unifiedDiff "a\nb\n".toList "a\nc".toList "source") "a\nb\n".toList = some "a\nc".toList ∧
    (readPatch (unifiedDiff "a\nb\n".toList "a\nc".toList "source")).isSome := by
  have hname : '\n' ∉ "source".toList := by decide
  have hne : "a\nb\n".toList ≠ "a\nc".toList := by decide
  have hscript : Apart (script "a\nb\n".toList "a\nc".toList) := by decide +kernel
  have hends : EndsClosed (changes "a\nb\n".toList "a\nc".toList) := by decide +kernel
  obtain ⟨_, hpatched, hread, _⟩ := unifiedDiff_isPatch "a\nb\n".toList "a\nc".toList "source" hname
  exact ⟨hname, hne, by decide, by decide, hends, hscript, hpatched hne hscript, (hread hne hends).mpr (by decide +kernel)⟩

/-- A form feed ends a line here, and so does the end of a document. No line feed follows, so that the head of the hunk speaks
    of more lines than there are. -/
theorem diff_runsTogether :
    unifiedDiff "a\x0cb\n".toList "a\x0cc\n".toList "source" =
      "--- a/source\n+++ b/source\n@@ -1,2 +1,2 @@\n a\x0c-b\n+c\n".toList ∧
    readPatch (unifiedDiff "a\x0cb\n".toList "a\x0cc\n".toList "source") = none ∧
    unifiedDiff "a".toList "b".toList "source" = "--- a/source\n+++ b/source\n@@ -1 +1 @@\n-a+b".toList ∧
    readPatch (unifiedDiff "a".toList "b".toList "source") = none := by
  decide +kernel

end CommentQuota
