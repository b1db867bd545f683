/-
  CommentQuota.Proofs.Insertion — the text that the edits of a fix put in.

  All edits of a fix stand at one place, so they are applied in their order, one behind the other.

  - `applyEdits_at`: edits at one place put their texts there.
  - `applyEdits_placeholders`: with the edits of a fix, the placeholder comments stand there, each
    behind a line break, and a line break closes the last row if text follows.
  - `isLineComment_placeholderAt`: a placeholder comment is a line comment.
-/

import CommentQuota.Edit
import CommentQuota.Proofs.Lexing

namespace CommentQuota

open Lexeme

/-! ## Edits at one place -/

theorem insertions_at {t : Text} {p : Position} {k : Nat} (h : t.offsetAt p = .ok k) (ts : List Text) :
    insertions t (ts.map (Edit.mk p)) = .ok (ts.map (Insertion.mk k)) := by
  induction ts with
  | nil => rfl
  | cons x xs ih =>
    have hx : Edit.insertion t ⟨p, x⟩ = .ok ⟨k, x⟩ := by rw [Edit.insertion, h]
    rw [List.map_cons, insertions, hx, ih]
    rfl

theorem arrange_at (k : Nat) (ts : List Text) : arrange (ts.map (Insertion.mk k)) = ts.map (Insertion.mk k) := by
  induction ts with
  | nil => rfl
  | cons x xs ih =>
    rw [List.map_cons, arrange, ih]
    cases xs with
    | nil => rfl
    | cons y ys => rw [List.map_cons, Insertion.place, if_pos (Nat.le_refl k)]

theorem splice_at (k : Nat) (t : Text) (ts : List Text) : splice k t (ts.map (Insertion.mk k)) = ts.flatten ++ t := by
  induction ts with
  | nil => rfl
  | cons x xs ih => simp [splice, ih]

theorem applyEdits_at {t : Text} {p : Position} {k : Nat} (h : t.offsetAt p = .ok k) {ts : List Text} (hne : ts ≠ []) :
    applyEdits t (ts.map (Edit.mk p)) = .ok (t.take k ++ (ts.flatten ++ t.drop k)) := by
  obtain ⟨x, xs, rfl⟩ := List.exists_cons_of_ne_nil hne
  rw [applyEdits, insertions_at h, Except.map, arrange_at, List.map_cons, splice, splice_at]
  simp

/-! ## Placeholder comments -/

namespace Settings

/-- The placeholder comment with an index, which is left out if one edit holds them all. -/
def placeholderAt (s : Settings) (i : Nat) : Text :=
  match s.insertion with
  | .single => s.placeholder
  | .iterative => s.placeholder ++ ' ' :: (toString i).toList

theorem flatten_placeholderTexts (s : Settings) (n : Nat) (lineBreak : Text) :
    (s.placeholderTexts n lineBreak).flatten = (List.range n).flatMap fun i => lineBreak ++ s.placeholderAt i := by
  cases hs : s.insertion with
  | single =>
    simp [placeholderTexts, placeholderAt, hs, repeated, List.flatMap_def, List.map_const']
  | iterative => simp [placeholderTexts, placeholderAt, hs, List.flatMap_def]

theorem placeholderTexts_ne_nil (s : Settings) {n : Nat} (h : 0 < n) (lineBreak : Text) :
    s.placeholderTexts n lineBreak ≠ [] := by
  unfold placeholderTexts
  split
  · exact List.cons_ne_nil _ _
  · simp
    omega

end Settings

theorem appendToLast_ne_nil {suffix : Text} {ts : List Text} (h : ts ≠ []) : appendToLast suffix ts ≠ [] := by
  fun_cases appendToLast suffix ts <;> simp_all

theorem flatten_appendToLast {suffix : Text} {ts : List Text} (h : ts ≠ []) :
    (appendToLast suffix ts).flatten = ts.flatten ++ suffix := by
  fun_induction appendToLast suffix ts with
  | case1 => exact absurd rfl h
  | case2 t => simp
  | case3 t u ts ih => simp [ih]

/-- The edits of a fix stand at its position, and their texts are the comments, each behind a line break,
    with a line break behind the last of them if the row is to be closed. -/
theorem exists_placeholderEdits (s : Settings) (p : Position) {n : Int} (hn : 0 < n) (lineBreak : Text) (closeRow : Bool) :
    ∃ ts : List Text, placeholders s p n lineBreak closeRow = ts.map (Edit.mk p) ∧ ts ≠ [] ∧
      ts.flatten = ((List.range n.toNat).flatMap fun i => lineBreak ++ s.placeholderAt i) ++
        if closeRow then lineBreak else [] := by
  have hne := s.placeholderTexts_ne_nil (n := n.toNat) (by omega) lineBreak
  rw [placeholders, if_neg (by omega), ← s.flatten_placeholderTexts]
  cases closeRow with
  | true => exact ⟨_, rfl, appendToLast_ne_nil hne, flatten_appendToLast hne⟩
  | false => exact ⟨_, rfl, hne, by simp⟩

theorem placeholders_ne_nil (s : Settings) (p : Position) {n : Int} (hn : 0 < n) (lineBreak : Text) (closeRow : Bool) :
    placeholders s p n lineBreak closeRow ≠ [] := by
  obtain ⟨ts, hedits, hne, -⟩ := exists_placeholderEdits s p hn lineBreak closeRow
  simp [hedits, hne]

/-- The edits of a fix put every placeholder comment on a row of its own, and what follows on the row
    behind the last of them if it is to be closed. -/
theorem applyEdits_placeholders (s : Settings) {t : Text} {p : Position} {k : Nat} (h : t.offsetAt p = .ok k) {n : Int}
    (hn : 0 < n) (lineBreak : Text) (closeRow : Bool) :
    applyEdits t (placeholders s p n lineBreak closeRow) =
      .ok (t.take k ++ (((List.range n.toNat).flatMap fun i => lineBreak ++ s.placeholderAt i) ++
        ((if closeRow then lineBreak else []) ++ t.drop k))) := by
  obtain ⟨ts, hedits, hne, htexts⟩ := exists_placeholderEdits s p hn lineBreak closeRow
  rw [hedits, applyEdits_at h hne, htexts, List.append_assoc _ _ (t.drop k)]

/-! ## Comments that stay line comments -/

/-- Placeholder comments are line comments: they start with the mark of one, hold no line break, and
    do not end in a backslash, which an index behind the comment value prevents. -/
structure Settings.PlainComment (s : Settings) : Prop where
  lead_eq : s.lead = "// "
  noReturn : '\r' ∉ s.comment.toList
  noBreak : '\n' ∉ s.comment.toList
  noSlash : s.insertion = .single → s.comment.toList.getLast? ≠ some '\\'

theorem not_mem_toString {c : Char} (h : c.isDigit = false) (n : Nat) : c ∉ (toString n).toList := by
  intro hc
  have hc : c ∈ Nat.toDigits 10 n := by simpa [Nat.repr] using hc
  have := Nat.isDigit_of_mem_toDigits (by decide) (by decide) hc
  simp [h] at this

theorem Settings.PlainComment.isLineComment_placeholderAt {s : Settings} (h : s.PlainComment) (i : Nat) :
    IsLineComment (s.placeholderAt i) := by
  have hlead : s.placeholder = '/' :: '/' :: ' ' :: s.comment.toList := by
    rw [placeholder, h.lead_eq]; rfl
  have hbreak : '\n' ∉ s.placeholder := by simp [hlead, h.noBreak]
  cases hs : s.insertion with
  | single =>
    simp only [placeholderAt, hs]
    refine ⟨⟨_, hlead⟩, hbreak, ?_⟩
    -- the last character is that of the comment value, or the blank in front of an empty one
    rw [hlead]
    rcases List.eq_nil_or_concat s.comment.toList with e | ⟨u, c, e⟩
    · rw [e]; rfl
    · have hslash : c ≠ '\\' := by
        have := h.noSlash hs
        simpa [e] using this
      have hreturn : c ≠ '\r' := by
        have := h.noReturn
        rintro rfl
        simp [e] at this
      rw [e, List.concat_eq_append]
      exact Joint.after_concat .none ('/' :: '/' :: ' ' :: u) hslash hreturn
  | iterative =>
    simp only [placeholderAt, hs]
    refine ⟨⟨_, by rw [hlead]; rfl⟩, ?_, ?_⟩
    · rw [List.mem_append, List.mem_cons, not_or, not_or]
      exact ⟨hbreak, by decide, not_mem_toString (by decide) i⟩
    · have hdigits := Joint.after_noSlash (not_mem_toString (c := '\\') (by decide) i)
      have hblank := Joint.after_concat .none s.placeholder (c := ' ') (by decide) (by decide)
      have e : s.placeholder ++ ' ' :: (toString i).toList = s.placeholder ++ [' '] ++ (toString i).toList := by simp
      rw [e, Joint.after_append, hblank, hdigits]

end CommentQuota
