/-
  CommentQuota.Proofs.Hunks — hunks applied to the old lines give the new ones.

  The entries of segments are their lines, each with a mark: kept, taken out or put in. A hunk is applied at the place it
  names: the lines in front of it are kept, its old lines must be there, and its new lines take their place. The lines that
  are left out between two hunks are shared ones, so both documents have as many of them, and the hunks of an alignment lead
  from the one document to the other.

  - `applyFrom_hunks`: the hunks of segments, applied to the old lines.
  - `shown_hunks_sublist`: hunks leave entries out and change none.
  - `suffix_shown_hunks`: changes that end a script end what its hunks show.
  - `kept_of_mem_dropLast_hunks`: a hunk that others follow ends in a kept line.
  - `entries_ne_nil_of_mem_tail_hunks`: a hunk that follows another has entries.
-/

import CommentQuota.Patch
import CommentQuota.Proofs.Alignment
import Mathlib.Data.List.Basic

namespace CommentQuota.Patch

/-! ## Entries -/

/-- What becomes of a line. -/
inductive Mark where
  | kept
  | removed
  | added
  deriving DecidableEq

structure Entry where
  mark : Mark
  line : Text
  deriving DecidableEq

@[simp]
def Segment.entries : Segment → List Entry
  | same ls => ls.map (⟨.kept, ·⟩)
  | change removed added => removed.map (⟨.removed, ·⟩) ++ added.map (⟨.added, ·⟩)

def entriesOf (segments : List Segment) : List Entry := segments.flatMap Segment.entries

/-- The lines of the entries that are marked otherwise. -/
def linesWithout (m : Mark) (es : List Entry) : List Text := (es.filter (·.mark ≠ m)).map (·.line)

/-- The lines that entries have in the old document. -/
def oldSide (es : List Entry) : List Text := linesWithout .added es

/-- The lines that entries have in the new document. -/
def newSide (es : List Entry) : List Text := linesWithout .removed es

@[simp]
theorem linesWithout_nil (m : Mark) : linesWithout m [] = [] := rfl

theorem linesWithout_cons (m : Mark) (e : Entry) (es : List Entry) :
    linesWithout m (e :: es) = if e.mark = m then linesWithout m es else e.line :: linesWithout m es := by
  by_cases h : e.mark = m <;> simp [linesWithout, h]

@[simp]
theorem linesWithout_append (m : Mark) (es fs : List Entry) : linesWithout m (es ++ fs) = linesWithout m es ++ linesWithout m fs := by
  simp [linesWithout]

@[simp]
theorem linesWithout_map (m k : Mark) (ls : List Text) : linesWithout m (ls.map (⟨k, ·⟩)) = if k = m then [] else ls := by
  induction ls with
  | nil => simp
  | cons l ls ih =>
    rw [List.map_cons, linesWithout_cons, ih]
    split <;> rfl

theorem line_mem_linesWithout {m : Mark} {e : Entry} {es : List Entry} (he : e ∈ es) (h : e.mark ≠ m) : e.line ∈ linesWithout m es :=
  List.mem_map_of_mem (List.mem_filter.mpr ⟨he, by simpa using h⟩)

@[simp]
theorem entriesOf_nil : entriesOf [] = [] := rfl

@[simp]
theorem entriesOf_cons (s : Segment) (rest : List Segment) : entriesOf (s :: rest) = s.entries ++ entriesOf rest := rfl

@[simp]
theorem entriesOf_append (ss ts : List Segment) : entriesOf (ss ++ ts) = entriesOf ss ++ entriesOf ts :=
  List.flatMap_append

theorem oldSide_entriesOf (segments : List Segment) : oldSide (entriesOf segments) = leftLines segments := by
  induction segments with
  | nil => rfl
  | cons s segments ih =>
    rw [entriesOf_cons, leftLines_cons, oldSide, linesWithout_append, ← ih, oldSide]
    cases s <;> simp

theorem newSide_entriesOf (segments : List Segment) : newSide (entriesOf segments) = rightLines segments := by
  induction segments with
  | nil => rfl
  | cons s segments ih =>
    rw [entriesOf_cons, rightLines_cons, newSide, linesWithout_append, ← ih, newSide]
    cases s <;> simp

theorem leftTotal_eq (segments : List Segment) : leftTotal segments = (leftLines segments).length := by
  induction segments with
  | nil => rfl
  | cons s segments ih =>
    rw [leftTotal, List.foldr_cons, ← leftTotal, ih]
    cases s <;> simp [Segment.leftSize]

theorem rightTotal_eq (segments : List Segment) : rightTotal segments = (rightLines segments).length := by
  induction segments with
  | nil => rfl
  | cons s segments ih =>
    rw [rightTotal, List.foldr_cons, ← rightTotal, ih]
    cases s <;> simp [Segment.rightSize]

/-! ## Applying hunks -/

/-- A hunk as a reader has it: the indices of its first lines in either document, and its entries. -/
structure MarkedHunk where
  oldStart : Nat
  newStart : Nat
  entries : List Entry
  deriving DecidableEq

def Hunk.marked (h : Hunk) : MarkedHunk := ⟨h.left, h.right, entriesOf h.segments⟩

/-- The new lines from old ones and hunks, `i` and `j` being the indices of the lines that come next in either document. A hunk
    that does not fit where it says is refused. -/
def applyFrom (i j : Nat) (old : List Text) : List MarkedHunk → Option (List Text)
  | [] => some old
  | h :: hs =>
    let skipped := old.take (h.oldStart - i)
    let rest := old.drop (h.oldStart - i)
    if h.oldStart = i + skipped.length ∧ h.newStart = j + skipped.length ∧ oldSide h.entries <+: rest then
      (applyFrom (h.oldStart + (oldSide h.entries).length) (h.newStart + (newSide h.entries).length)
        (rest.drop (oldSide h.entries).length) hs).map (skipped ++ newSide h.entries ++ ·)
    else none

/-- A hunk that names its place and has the lines there. -/
theorem applyFrom_cons (i j : Nat) (skipped rest : List Text) (es : List Entry) (hs : List MarkedHunk) :
    applyFrom i j (skipped ++ (oldSide es ++ rest)) (⟨i + skipped.length, j + skipped.length, es⟩ :: hs) =
      (applyFrom (i + skipped.length + (oldSide es).length) (j + skipped.length + (newSide es).length) rest hs).map
        (skipped ++ newSide es ++ ·) := by
  rw [applyFrom]
  simp only [Nat.add_sub_cancel_left, List.take_left, List.drop_left]
  exact if_pos ⟨trivial, trivial, List.prefix_append _ _⟩

/-- The lines of a long stretch: those that the hunk in front of it shows, those that no hunk shows, and those that the next
    hunk starts with. -/
theorem stretch_parts {ls : List Text} (h : 2 * context < ls.length) :
    ∃ hidden, hidden.length = ls.length - 2 * context ∧ ls = ls.take context ++ (hidden ++ lastLines context ls) := by
  refine ⟨(ls.drop context).take (ls.length - 2 * context), ?_, ?_⟩
  · exact List.length_take_of_le (by rw [List.length_drop]; omega)
  · have hlast : lastLines context ls = (ls.drop context).drop (ls.length - 2 * context) := by
      rw [lastLines, List.drop_drop]
      congr 1
      simp only [context] at *
      omega
    rw [hlast, List.take_append_drop, List.take_append_drop]

/-- The hunks from an open one on, whose first lines come behind `skipped` lines that no hunk shows. -/
theorem applyFrom_hunksFrom {i j i₀ j₀ : Nat} {current : Hunk} {segments : List Segment} (skipped : List Text)
    (hleft : current.left = i₀ + skipped.length) (hright : current.right = j₀ + skipped.length)
    (hi : i = current.left + (leftLines current.segments).length)
    (hj : j = current.right + (rightLines current.segments).length) :
    applyFrom i₀ j₀ (skipped ++ (leftLines current.segments ++ leftLines segments))
        ((hunksFrom i j current segments).map Hunk.marked) =
      some (skipped ++ (rightLines current.segments ++ rightLines segments)) := by
  fun_induction hunksFrom i j current segments generalizing i₀ j₀ skipped with
  | case1 i j current =>
    rw [List.map_singleton, Hunk.marked, hleft, hright, ← oldSide_entriesOf, applyFrom_cons]
    simp [applyFrom, newSide_entriesOf]
  | case2 i j current removed added rest ih =>
    have happlied := ih skipped hleft hright (by simp [hi, Nat.add_assoc]) (by simp [hj, Nat.add_assoc])
    simpa using happlied
  | case3 i j current ls =>
    have hshown : leftLines current.segments ++ leftLines [.same ls] =
        leftLines (current.segments ++ [.same (ls.take context)]) ++ ls.drop context := by simp
    rw [List.map_singleton, Hunk.marked, hleft, hright, hshown, ← oldSide_entriesOf, applyFrom_cons, newSide_entriesOf]
    simp [applyFrom]
  | case4 i j current ls rest hrest hlong ih =>
    obtain ⟨hidden, hcount, hlines⟩ := stretch_parts hlong
    have hends : (ls.take context).length = context ∧ (lastLines context ls).length = context := by
      simp only [List.length_take, lastLines, List.length_drop, context] at *
      omega
    generalize ls.take context = shown, lastLines context ls = last at *
    subst hlines
    have happlied := @ih (i₀ + skipped.length + (leftLines (current.segments ++ [.same shown])).length)
      (j₀ + skipped.length + (rightLines (current.segments ++ [.same shown])).length) hidden
      (by simp at *; omega) (by simp at *; omega) (by simp at *; omega) (by simp at *; omega)
    have hshown : leftLines current.segments ++ leftLines (.same (shown ++ (hidden ++ last)) :: rest) =
        leftLines (current.segments ++ [.same shown]) ++ (hidden ++ (leftLines [.same last] ++ leftLines rest)) := by simp
    rw [List.map_cons, Hunk.marked, hleft, hright, hshown, ← oldSide_entriesOf, applyFrom_cons, oldSide_entriesOf,
      newSide_entriesOf, happlied]
    simp
  | case5 i j current ls rest hrest hshort ih =>
    have happlied := ih skipped hleft hright (by simp [hi, Nat.add_assoc]) (by simp [hj, Nat.add_assoc])
    simpa using happlied

/-- The hunks of segments lead from the old lines to the new ones. -/
theorem applyFrom_hunks (segments : List Segment) :
    applyFrom 0 0 (leftLines segments) ((hunks segments).map Hunk.marked) = some (rightLines segments) := by
  unfold hunks
  split
  case h_1 => rfl
  case h_2 ls => simp [applyFrom]
  case h_3 ls rest _ =>
    have hlines : ls.take (ls.length - context) ++ lastLines context ls = ls := List.take_append_drop _ _
    have hlength : (ls.take (ls.length - context)).length = ls.length - context := by simp
    have happlied := @applyFrom_hunksFrom ls.length ls.length 0 0
      ⟨ls.length - context, ls.length - context, [.same (lastLines context ls)]⟩ rest (ls.take (ls.length - context))
      (by simp) (by simp) (by simp [lastLines]) (by simp [lastLines])
    simpa [← List.append_assoc, hlines] using happlied
  case h_4 =>
    exact @applyFrom_hunksFrom 0 0 0 0 ⟨0, 0, []⟩ segments [] rfl rfl rfl rfl

/-- Without a change the documents are the same. -/
theorem lines_eq_of_hunks_eq_nil {segments : List Segment} (h : hunks segments = []) :
    leftLines segments = rightLines segments := by
  have happlied := applyFrom_hunks segments
  rw [h, List.map_nil, applyFrom] at happlied
  exact Option.some.inj happlied

/-! ## Entries shown -/

/-- The entries of hunks. -/
def shown (hs : List Hunk) : List Entry := hs.flatMap fun h => entriesOf h.segments

@[simp]
theorem shown_nil : shown [] = [] := rfl

@[simp]
theorem shown_cons (h : Hunk) (hs : List Hunk) : shown (h :: hs) = entriesOf h.segments ++ shown hs := rfl

/-- The ends of a long stretch in their order. -/
theorem ends_sublist {ls : List Text} (h : 2 * context < ls.length) (f : Text → Entry) :
    ((ls.take context).map f ++ (lastLines context ls).map f).Sublist (ls.map f) := by
  obtain ⟨hidden, _, hlines⟩ := stretch_parts h
  rw [← List.map_append]
  apply List.Sublist.map
  conv => rhs; rw [hlines]
  exact List.Sublist.append_left (List.sublist_append_right _ _) _

/-- Hunks leave entries out and change none. -/
theorem shown_hunksFrom_sublist (i j : Nat) (current : Hunk) (segments : List Segment) :
    (shown (hunksFrom i j current segments)).Sublist (entriesOf current.segments ++ entriesOf segments) := by
  fun_induction hunksFrom i j current segments with
  | case1 i j current => simp
  | case2 i j current removed added rest ih => simpa using ih
  | case3 i j current ls =>
    have hfirst : ((ls.take context).map (⟨.kept, ·⟩ : Text → Entry)).Sublist (ls.map (⟨.kept, ·⟩)) :=
      (List.take_sublist _ _).map _
    simpa using hfirst
  | case4 i j current ls rest hrest hlong ih =>
    have hends := (ends_sublist hlong (⟨.kept, ·⟩)).append_right (entriesOf rest)
    rw [List.append_assoc] at hends
    simpa using (List.Sublist.append_left (by simpa using ih) _).trans hends
  | case5 i j current ls rest hrest hshort ih => simpa using ih

theorem shown_hunks_sublist (segments : List Segment) : (shown (hunks segments)).Sublist (entriesOf segments) := by
  unfold hunks
  split
  case h_1 => simp
  case h_2 => simp
  case h_3 ls rest _ =>
    have hlast : ((lastLines context ls).map (⟨.kept, ·⟩ : Text → Entry)).Sublist (ls.map (⟨.kept, ·⟩)) :=
      (List.drop_sublist _ _).map _
    refine (shown_hunksFrom_sublist _ _ _ _).trans ?_
    simpa using hlast
  case h_4 => exact shown_hunksFrom_sublist 0 0 ⟨0, 0, []⟩ segments

/-! ## The last hunk -/

/-- Changes that end a script stand behind the kept lines. -/
theorem suffix_of_noneKept {es before behind : List Entry} {ls : List Text} (hes : ∀ e ∈ es, e.mark ≠ .kept)
    (h : es <:+ before ++ (ls.map (⟨.kept, ·⟩) ++ behind)) : ls = [] ∨ es <:+ behind := by
  rcases List.eq_nil_or_concat' ls with rfl | ⟨front, l, rfl⟩
  · exact .inl rfl
  · right
    have hsplit : before ++ ((front ++ [l]).map (⟨.kept, ·⟩) ++ behind) =
        (before ++ front.map (⟨.kept, ·⟩)) ++ ⟨.kept, l⟩ :: behind := by simp
    rw [hsplit] at h
    by_cases hlength : es.length ≤ behind.length
    · exact List.suffix_of_suffix_length_le h ((List.suffix_cons _ _).trans (List.suffix_append _ _)) hlength
    · have hmore : (⟨.kept, l⟩ :: behind : List Entry) <:+ es :=
        List.suffix_of_suffix_length_le (List.suffix_append _ _) h (by simp; omega)
      exact absurd rfl (hes _ (hmore.subset List.mem_cons_self))

/-- Changes that end a script are shown by its last hunk. -/
theorem suffix_shown_hunksFrom {i j : Nat} {current : Hunk} {segments : List Segment} {es : List Entry}
    (hes : ∀ e ∈ es, e.mark ≠ .kept) (h : es <:+ entriesOf current.segments ++ entriesOf segments) :
    es <:+ shown (hunksFrom i j current segments) := by
  fun_induction hunksFrom i j current segments with
  | case1 i j current => simpa using h
  | case2 i j current removed added rest ih => exact ih (by simpa using h)
  | case3 i j current ls =>
    rcases suffix_of_noneKept hes h with rfl | hnone
    · simpa using h
    · rw [List.suffix_nil.mp hnone]
      exact List.nil_suffix
  | case4 i j current ls rest hrest hlong ih =>
    rcases suffix_of_noneKept hes h with rfl | hbehind
    · exact absurd hlong (Nat.not_lt_zero _)
    · exact (ih (hbehind.trans (List.suffix_append _ _))).trans (List.suffix_append _ _)
  | case5 i j current ls rest hrest hshort ih => exact ih (by simpa using h)

theorem suffix_shown_hunks {segments : List Segment} {es : List Entry} (hes : ∀ e ∈ es, e.mark ≠ .kept)
    (h : es <:+ entriesOf segments) : es <:+ shown (hunks segments) := by
  unfold hunks
  split
  case h_1 => exact h
  case h_2 ls =>
    rcases @suffix_of_noneKept es [] [] ls hes (by simpa using h) with rfl | hnone
    · exact h
    · exact hnone
  case h_3 ls rest _ =>
    apply suffix_shown_hunksFrom hes
    rcases @suffix_of_noneKept es [] (entriesOf rest) ls hes (by simpa using h) with rfl | hbehind
    · simpa [lastLines] using h
    · exact hbehind.trans (List.suffix_append _ _)
  case h_4 => exact suffix_shown_hunksFrom hes h

theorem hunksFrom_ne_nil (i j : Nat) (current : Hunk) (segments : List Segment) : hunksFrom i j current segments ≠ [] := by
  fun_induction hunksFrom i j current segments with
  | case1 => simp
  | case2 i j current removed added rest ih => exact ih
  | case3 => simp
  | case4 => simp
  | case5 i j current ls rest hrest hshort ih => exact ih

/-- A hunk that others follow ends in a kept line. -/
theorem kept_of_mem_dropLast_hunksFrom {i j : Nat} {current : Hunk} {segments : List Segment} {h : Hunk}
    (hh : h ∈ (hunksFrom i j current segments).dropLast) {e : Entry} (he : e ∈ (entriesOf h.segments).getLast?) :
    e.mark = .kept := by
  fun_induction hunksFrom i j current segments with
  | case1 => simp at hh
  | case2 i j current removed added rest ih => exact ih hh
  | case3 => simp at hh
  | case4 i j current ls rest hrest hlong ih =>
    rw [List.dropLast_cons_of_ne_nil (hunksFrom_ne_nil _ _ _ _), List.mem_cons] at hh
    rcases hh with rfl | hlater
    · have hne : (ls.take context).map (⟨.kept, ·⟩ : Text → Entry) ≠ [] := by
        intro hnil
        have hlength := congrArg List.length hnil
        simp only [List.length_map, List.length_take, List.length_nil, context] at hlength hlong
        omega
      simp only [entriesOf_append, entriesOf_cons, entriesOf_nil, Segment.entries, List.append_nil,
        List.getLast?_append_of_ne_nil _ hne] at he
      obtain ⟨l, _, rfl⟩ := List.mem_map.mp (List.mem_of_getLast? he)
      rfl
    · exact ih hlater
  | case5 i j current ls rest hrest hshort ih => exact ih hh

theorem kept_of_mem_dropLast_hunks {segments : List Segment} {h : Hunk} (hh : h ∈ (hunks segments).dropLast) {e : Entry}
    (he : e ∈ (entriesOf h.segments).getLast?) : e.mark = .kept := by
  unfold hunks at hh
  split at hh
  case h_1 => simp at hh
  case h_2 => simp at hh
  case h_3 => exact kept_of_mem_dropLast_hunksFrom hh he
  case h_4 => exact kept_of_mem_dropLast_hunksFrom hh he

/-! ## No empty hunk behind another -/

theorem entries_ne_nil_of_long {ls : List Text} (h : 2 * context < ls.length) :
    entriesOf [.same (lastLines context ls)] ≠ [] := by
  simp [lastLines, context] at *
  omega

theorem entries_ne_nil_of_mem_hunksFrom {i j : Nat} {current : Hunk} {segments : List Segment}
    (hcurrent : entriesOf current.segments ≠ []) {h : Hunk} (hh : h ∈ hunksFrom i j current segments) :
    entriesOf h.segments ≠ [] := by
  fun_induction hunksFrom i j current segments with
  | case1 i j current =>
    rw [List.mem_singleton] at hh
    exact hh ▸ hcurrent
  | case2 i j current removed added rest ih => exact ih (by simp [hcurrent]) hh
  | case3 i j current ls =>
    rw [List.mem_singleton] at hh
    simp [hh, hcurrent]
  | case4 i j current ls rest hrest hlong ih =>
    rcases List.mem_cons.mp hh with rfl | hlater
    · simp [hcurrent]
    · exact ih (entries_ne_nil_of_long hlong) hlater
  | case5 i j current ls rest hrest hshort ih => exact ih (by simp [hcurrent]) hh

theorem entries_ne_nil_of_mem_tail_hunksFrom {i j : Nat} {current : Hunk} {segments : List Segment} {h : Hunk}
    (hh : h ∈ (hunksFrom i j current segments).tail) : entriesOf h.segments ≠ [] := by
  fun_induction hunksFrom i j current segments with
  | case1 => simp at hh
  | case2 i j current removed added rest ih => exact ih hh
  | case3 => simp at hh
  | case4 i j current ls rest hrest hlong ih =>
    exact entries_ne_nil_of_mem_hunksFrom (entries_ne_nil_of_long hlong) hh
  | case5 i j current ls rest hrest hshort ih => exact ih hh

/-- A hunk that follows another has entries. -/
theorem entries_ne_nil_of_mem_tail_hunks {segments : List Segment} {h : Hunk} (hh : h ∈ (hunks segments).tail) :
    entriesOf h.segments ≠ [] := by
  unfold hunks at hh
  split at hh
  case h_1 => simp at hh
  case h_2 => simp at hh
  case h_3 => exact entries_ne_nil_of_mem_tail_hunksFrom hh
  case h_4 => exact entries_ne_nil_of_mem_tail_hunksFrom hh

end CommentQuota.Patch
