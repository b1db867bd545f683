/-
  CommentQuota.Proofs.RowViews — the rows, the row starts and the positions of a text agree.

  The rows of a text, the offsets at which they start, the offset of a position and what follows a position on its row are
  found by separate passes over the text. They tell the same story also where carriage returns stand in a row, where the
  last row is empty and where characters have several bytes.

  - `exists_rowEnd`: a row ends where a line break or the end of the text follows.
  - `exists_offsetAt_iff_outsideBreak`: the offsets of positions are all but those inside a line break.
  - `followedByText_row`: what follows a position is the rest of its row.
  - `viewsAgree`: all of it, for every text.
-/

import CommentQuota.Proofs.EditedRows
import CommentQuota.Proofs.PolicyAgreement
import CommentQuota.Proofs.Positions

namespace CommentQuota

namespace Text

/-- A text that follows a row: nothing, or a line break and the rows behind it. -/
def EndsRow (rest : Text) : Prop := rest = [] ∨ ['\n'] <+: rest ∨ ['\r', '\n'] <+: rest

/-- The offset lies between the carriage return and the line feed of a line break. -/
def InsideBreak (t : Text) (k : Nat) : Prop := ∃ a b, t = a ++ '\r' :: '\n' :: b ∧ k = a.length + 1

theorem length_rowStarts (t : Text) : t.rowStarts.length = t.count '\n' + 1 := by
  rw [rowStarts, List.length_cons, length_breakEnds]

theorem exists_rowEnd (t : Text) : ∃ rest, t = firstRow t ++ rest ∧ EndsRow rest := by
  induction t with
  | nil => exact ⟨[], rfl, .inl rfl⟩
  | cons c cs ih =>
    rw [firstRow]
    split
    · rename_i hbreak
      refine ⟨c :: cs, rfl, .inr ?_⟩
      rcases hbreak with hfeed | ⟨hreturn, hfeed⟩
      · exact .inl ⟨cs, by rw [hfeed]; rfl⟩
      · obtain ⟨ds, hds⟩ := List.head?_eq_some_iff.mp hfeed
        exact .inr ⟨ds, by rw [hreturn, hds]; rfl⟩
    · obtain ⟨rest, hrest, hends⟩ := ih
      exact ⟨rest, by rw [List.cons_append, ← hrest], hends⟩

/-- From the start of a row on, the text is the row and what may follow a row. -/
theorem drop_rowStart {t row : Text} {i start : Nat} (hrow : t.rows[i]? = some row) (hstart : t.rowStarts[i]? = some start) :
    start ≤ t.length ∧ ∃ rest, t.drop start = row ++ rest ∧ EndsRow rest := by
  rw [rows_eq_map_rowStarts, List.getElem?_map, hstart, Option.map_some] at hrow
  obtain rfl := Option.some.inj hrow
  obtain ⟨u, rest, rfl, rfl, -⟩ := exists_rowStart hstart
  exact ⟨by simp, exists_rowEnd _⟩

theorem partsBreak_iff_insideBreak {a b : Text} : PartsBreak a b ↔ InsideBreak (a ++ b) a.length := by
  constructor
  · intro h
    obtain ⟨front, rfl⟩ := List.getLast?_eq_some_iff.mp h.1
    obtain ⟨back, rfl⟩ := List.head?_eq_some_iff.mp h.2
    exact ⟨front, back, by simp, by simp⟩
  · intro h
    obtain ⟨front, back, hsplit, hlength⟩ := h
    have hsplit : a ++ b = (front ++ ['\r']) ++ '\n' :: back := by rw [hsplit]; simp
    obtain ⟨rfl, rfl⟩ := List.append_inj hsplit (by simp [hlength])
    exact ⟨List.getLast?_concat, rfl⟩

theorem exists_offsetAt_iff_outsideBreak {t : Text} {k : Nat} :
    (∃ p, t.offsetAt p = .ok k) ↔ k ≤ t.length ∧ ¬ t.InsideBreak k := by
  simp only [offsetAt_eq_ok_iff]
  constructor
  · intro h
    obtain ⟨p, a, b, rfl, rfl, -, hwhole⟩ := h
    exact ⟨by simp, mt partsBreak_iff_insideBreak.mpr hwhole⟩
  · intro h
    obtain ⟨hk, houtside⟩ := h
    have hlength : (t.take k).length = k := List.length_take_of_le hk
    refine ⟨_, t.take k, t.drop k, (List.take_append_drop k t).symm, hlength, rfl, ?_⟩
    rwa [partsBreak_iff_insideBreak, List.take_append_drop, hlength]

/-- A position cuts its row, its column counting the bytes of the first part, and what follows it is the second part. -/
theorem followedByText_row {t : Text} {p : Position} {k : Nat} (h : t.offsetAt p = .ok k) :
    ∃ head tail, t.rows[p.row.toNat]? = some (head ++ tail) ∧ ((Utf8.encode head).length : Int) = p.column ∧
      t.followedByText p = .ok (decide (trim tail ≠ [])) := by
  obtain ⟨a, b, rfl, rfl, rfl, hwhole⟩ := offsetAt_eq_ok_iff.mp h
  obtain ⟨front, head, -, hrows, hplace⟩ := rows_at hwhole
  refine ⟨head, firstRow b, ?_, ?_, ?_⟩
  · rw [hplace, hrows]
    simp
  · rw [hplace, Utf8.length_encode]
  · rw [followedByText_after hwhole]
    cases hcontent : hasContent (firstRow b) <;> simp [trim_eq_nil_iff, hcontent]

/-- The rows of a text, the offsets of their first characters, the offsets of its positions and what follows a position on its
    row are views of the same rows. -/
structure ViewsAgree (t : Text) : Prop where
  rowCount : t.rows.length = t.count '\n' + 1
  startCount : t.rowStarts.length = t.count '\n' + 1
  rowAtStart : ∀ (i start : Nat) (row : Text), t.rows[i]? = some row → t.rowStarts[i]? = some start →
    start ≤ t.length ∧ ∃ rest, t.drop start = row ++ rest ∧ EndsRow rest
  /-- Offsets grow with the row and, on a row, with the column. -/
  ordered : ∀ p q j k, t.offsetAt p = .ok j → t.offsetAt q = .ok k → (p.Before q ↔ j < k)
  distinct : ∀ p q k, t.offsetAt p = .ok k → t.offsetAt q = .ok k → p = q
  offsets : ∀ k, (∃ p, t.offsetAt p = .ok k) ↔ k ≤ t.length ∧ ¬ t.InsideBreak k
  follows : ∀ p k, t.offsetAt p = .ok k → ∃ head tail, t.rows[p.row.toNat]? = some (head ++ tail) ∧
    ((Utf8.encode head).length : Int) = p.column ∧ t.followedByText p = .ok (decide (trim tail ≠ []))

theorem viewsAgree (t : Text) : t.ViewsAgree where
  rowCount := length_rows t
  startCount := length_rowStarts t
  rowAtStart _ _ _ hrow hstart := drop_rowStart hrow hstart
  ordered _ _ _ _ hp hq := (offset_lt_iff hp hq).symm
  distinct _ _ _ hp hq := by rw [← afterText_take_of_offsetAt hp, ← afterText_take_of_offsetAt hq]
  offsets _ := exists_offsetAt_iff_outsideBreak
  follows _ _ h := followedByText_row h

end Text

end CommentQuota
