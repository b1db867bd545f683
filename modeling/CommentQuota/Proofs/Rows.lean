/-
  CommentQuota.Proofs.Rows — rows and places of a text that is put together from two.

  - `rows_append`: the rows of a text behind another go on in its last row, unless a line break is parted.
  - `rows_line`: a line feed closes the row in front of it and opens the rows of what follows.
  - `offsetAt_after` / `followedByText_after`: the place behind a text leads to the offset behind it,
    and what follows on its row is the first row of what follows the text.
  - `exists_offsetAt_iff`: which positions a text has.
  - `offsetAt_eq_ok_iff`: a position is the place behind what stands in front of it.
-/

import CommentQuota.Syntax.Lexeme

namespace CommentQuota

namespace Text

/-! ## Rows -/

theorem rows_eq (t : Text) : rows t = firstRow t :: (rows t).tail := by
  induction t with
  | nil => rfl
  | cons c cs ih =>
    by_cases hn : c = '\n'
    · simp [rows, firstRow, hn]
    by_cases hr : c = '\r' ∧ cs.head? = some '\n'
    · obtain ⟨ds, rfl⟩ : ∃ ds, cs = '\n' :: ds := by
        cases cs with
        | nil => simp at hr
        | cons d ds => exact ⟨ds, by simpa using hr.2⟩
      simp [rows, firstRow, hr]
    · rw [rows, firstRow, if_neg hn, if_neg hr, if_neg (by simp [hn, hr]), ih]
      rfl

theorem rows_ne_nil (t : Text) : rows t ≠ [] := by
  rw [rows_eq]; exact List.cons_ne_nil _ _

/-- A carriage return at the end of the first text makes a line break with a line feed at the start of the second. -/
def PartsBreak (a b : Text) : Prop := a.getLast? = some '\r' ∧ b.head? = some '\n'

theorem not_partsBreak {a : Text} (b : Text) (h : a.getLast? ≠ some '\r') : ¬ PartsBreak a b := fun e => h e.1

theorem not_partsBreak_behind {u v b : Text} (h : ¬ PartsBreak (u ++ v) b) : ¬ PartsBreak v b := by
  intro e
  apply h
  rw [PartsBreak, List.getLast?_append, e.1]
  exact ⟨rfl, e.2⟩

/-- Whether a carriage return is one of a line break does not depend on what stands behind a cut that parts none. -/
theorem head?_append_of_return {a b : Text} (h : ¬ PartsBreak ('\r' :: a) b) :
    (a ++ b).head? = some '\n' ↔ a.head? = some '\n' := by
  cases a with
  | nil => exact iff_of_false (fun e => h ⟨rfl, e⟩) (by simp)
  | cons d ds => exact Iff.rfl

theorem rows_append {a b : Text} (h : ¬ PartsBreak a b) :
    rows (a ++ b) = (rows a).dropLast ++ ((rows a).getLastD [] ++ firstRow b) :: (rows b).tail := by
  induction a with
  | nil => exact rows_eq b
  | cons c cs ih =>
    have ih := ih (@not_partsBreak_behind [c] cs b h)
    obtain ⟨x, xs, hx⟩ := List.exists_cons_of_ne_nil (rows_ne_nil cs)
    by_cases hn : c = '\n'
    · simp only [List.cons_append, rows, hn, if_true, ih]
      rw [hx]; rfl
    -- the row break of a carriage return lies inside `a`, for the cut parts none
    have hreturn : (c = '\r' ∧ (cs ++ b).head? = some '\n') ↔ (c = '\r' ∧ cs.head? = some '\n') := by
      refine and_congr_right ?_
      intro e
      exact head?_append_of_return (e ▸ h)
    by_cases hr : c = '\r' ∧ cs.head? = some '\n'
    · simp only [List.cons_append, rows]
      rw [if_neg hn, if_neg hn, if_pos hr, if_pos (hreturn.mpr hr), ih]
    · simp only [List.cons_append, rows]
      rw [if_neg hn, if_neg hn, if_neg hr, if_neg (mt hreturn.mp hr), ih, hx]
      cases xs with
      | nil => rfl
      | cons y ys => simp [consHead]

theorem rows_line {c : Text} (t : Text) (h : '\n' ∉ c) :
    rows (c ++ '\n' :: t) = firstRow (c ++ ['\n']) :: rows t := by
  induction c with
  | nil => simp [rows, firstRow]
  | cons d ds ih =>
    simp only [List.mem_cons, not_or] at h
    have ih := ih h.2
    have hd : d ≠ '\n' := fun e => h.1 e.symm
    simp only [List.cons_append, rows, firstRow, if_neg hd]
    cases ds with
    | nil => by_cases hr : d = '\r' <;> simp [rows, firstRow, hr, hd, consHead]
    | cons e es =>
      have he : e ≠ '\n' := by rintro rfl; exact h.2 (by simp)
      rw [if_neg (by simp [he]), if_neg (by simp [hd, he]), ih]
      rfl

theorem length_rows (t : Text) : (rows t).length = t.count '\n' + 1 := by
  induction t with
  | nil => rfl
  | cons c cs ih =>
    by_cases hn : c = '\n'
    · simp [rows, hn, ih]
    rw [rows, if_neg hn, List.count_cons_of_ne (by simpa using hn), ← ih]
    split
    · rfl
    · rw [rows_eq cs]; rfl

theorem firstRow_of_noBreak {t : Text} (h : '\n' ∉ t) : firstRow t = t := by
  induction t with
  | nil => rfl
  | cons c cs ih =>
    simp only [List.mem_cons, not_or] at h
    have hbreak : ¬ (c = '\n' ∨ (c = '\r' ∧ cs.head? = some '\n')) := by
      rintro (rfl | ⟨-, e⟩)
      · exact h.1 rfl
      · exact h.2 (List.mem_of_head? e)
    rw [firstRow, if_neg hbreak, ih h.2]

/-- Rows are blank or not as their characters up to the line feed are: a carriage return is blank. -/
theorem hasContent_firstRow {c : Text} (t : Text) (h : '\n' ∉ c) :
    hasContent (firstRow (c ++ '\n' :: t)) = hasContent c := by
  induction c with
  | nil => simp [firstRow]
  | cons d ds ih =>
    simp only [List.mem_cons, not_or] at h
    have hd : d ≠ '\n' := fun e => h.1 e.symm
    by_cases hr : d = '\r' ∧ (ds ++ '\n' :: t).head? = some '\n'
    · obtain rfl : ds = [] := by
        cases ds with
        | nil => rfl
        | cons e es => exact absurd (by simpa using hr.2) (by rintro rfl; exact h.2 (by simp) : e ≠ '\n')
      simp [firstRow, hr.1, hasContent, isBlank]
    · simp only [List.cons_append, firstRow, if_neg (not_or.mpr ⟨hd, hr⟩)]
      have := ih h.2
      unfold hasContent at this ⊢
      rw [List.any_cons, List.any_cons, this]

/-! ## Offsets -/

theorem breakEnds_append (offset : Nat) (a b : Text) :
    breakEnds offset (a ++ b) = breakEnds offset a ++ breakEnds (offset + a.length) b := by
  induction a generalizing offset with
  | nil => rfl
  | cons c cs ih =>
    have e : offset + 1 + cs.length = offset + (cs.length + 1) := by omega
    simp only [List.cons_append, breakEnds, ih, List.length_cons, e]
    split <;> rfl

theorem length_breakEnds (offset : Nat) (t : Text) : (breakEnds offset t).length = t.count '\n' := by
  induction t generalizing offset with
  | nil => rfl
  | cons c cs ih =>
    by_cases hn : c = '\n'
    · simp [breakEnds, hn, ih]
    · rw [breakEnds, if_neg hn, ih, List.count_cons_of_ne (by simpa using hn)]

theorem byteLength_append (a b : Text) : byteLength (a ++ b) = byteLength a + byteLength b := by
  induction a with
  | nil => simp [byteLength]
  | cons c cs ih => simp only [List.cons_append, byteLength, ih]; omega

theorem charsIn_byteLength (a b : Text) : charsIn (a ++ b) (byteLength a) = some a.length := by
  induction a with
  | nil => cases b <;> simp [byteLength, charsIn]
  | cons c cs ih =>
    have hc := c.utf8Size_pos
    obtain ⟨n, hn⟩ : ∃ n, byteLength (c :: cs) = n + 1 := ⟨c.utf8Size + byteLength cs - 1, by simp only [byteLength]; omega⟩
    have hrest : n + 1 - c.utf8Size = byteLength cs := by rw [← hn]; simp only [byteLength]; omega
    have hle : ¬ n + 1 < c.utf8Size := by rw [← hn]; simp only [byteLength]; omega
    rw [hn, List.cons_append, charsIn, if_neg hle, hrest, ih]
    rfl

end Text

/-! ## Places -/

namespace Position

@[simp] theorem afterText_nil (p : Position) : p.afterText [] = p := rfl

@[simp] theorem afterText_cons (p : Position) (c : Char) (t : Text) :
    p.afterText (c :: t) = (p.after c).afterText t := rfl

theorem afterText_append (p : Position) (a b : Text) :
    p.afterText (a ++ b) = (p.afterText a).afterText b := List.foldl_append

theorem afterText_row (p : Position) (t : Text) : (p.afterText t).row = p.row + t.count '\n' := by
  induction t generalizing p with
  | nil => simp
  | cons c cs ih =>
    by_cases hn : c = '\n'
    · simp only [afterText_cons, ih, after, hn, if_true, List.count_cons_self]; omega
    · rw [afterText_cons, ih, after, if_neg hn, List.count_cons_of_ne (by simpa using hn)]

theorem afterText_of_noBreak (p : Position) {t : Text} (h : '\n' ∉ t) :
    p.afterText t = ⟨p.row, p.column + t.byteLength⟩ := by
  induction t generalizing p with
  | nil => simp [Text.byteLength]
  | cons c cs ih =>
    simp only [List.mem_cons, not_or] at h
    have hc : c ≠ '\n' := fun e => h.1 e.symm
    rw [afterText_cons, ih _ h.2, after, if_neg hc]
    simp only [Text.byteLength, mk.injEq, true_and]
    omega

theorem afterText_line (p : Position) (t : Text) :
    p.afterText (t ++ ['\n']) = ⟨p.row + t.count '\n' + 1, 0⟩ := by
  rw [afterText_append, afterText_cons, afterText_nil, after, if_pos rfl, afterText_row]

end Position

namespace Text

/-- A text is whole rows and a part of one. -/
theorem exists_lastRow (t : Text) :
    ∃ u v : Text, t = u ++ v ∧ '\n' ∉ v ∧ (u = [] ∨ ∃ w, u = w ++ ['\n']) := by
  induction t with
  | nil => exact ⟨[], [], rfl, by simp, .inl rfl⟩
  | cons c cs ih =>
    obtain ⟨u, v, rfl, hv, rfl | ⟨w, rfl⟩⟩ := ih
    · by_cases hc : c = '\n'
      · exact ⟨['\n'], v, by simp [hc], hv, .inr ⟨[], rfl⟩⟩
      · exact ⟨[], c :: v, rfl, by simp [hv, Ne.symm hc], .inl rfl⟩
    · exact ⟨c :: (w ++ ['\n']), v, by simp, hv, .inr ⟨c :: w, rfl⟩⟩

theorem firstRow_append {v b : Text} (hv : '\n' ∉ v) (h : ¬ PartsBreak v b) : firstRow (v ++ b) = v ++ firstRow b := by
  induction v with
  | nil => rfl
  | cons c cs ih =>
    simp only [List.mem_cons, not_or] at hv
    have hc : c ≠ '\n' := fun e => hv.1 e.symm
    have hbreak : ¬ (c = '\r' ∧ (cs ++ b).head? = some '\n') := by
      rintro ⟨rfl, e⟩
      exact hv.2 (List.mem_of_head? ((head?_append_of_return h).mp e))
    simp only [List.cons_append, firstRow, if_neg (not_or.mpr ⟨hc, hbreak⟩), ih hv.2 (@not_partsBreak_behind [c] cs b h)]

theorem partsBreak_lastRow {u v b : Text} (hu : u = [] ∨ ∃ w, u = w ++ ['\n']) (h : PartsBreak (u ++ v) b) :
    PartsBreak v b := by
  rcases hu with rfl | ⟨w, rfl⟩
  · exact h
  · rcases List.eq_nil_or_concat v with rfl | ⟨x, c, rfl⟩
    · exact absurd h.1 (by simp)
    · have hlast := h.1
      rw [List.concat_eq_append, ← List.append_assoc, List.getLast?_concat] at hlast
      exact ⟨by rw [List.concat_eq_append, List.getLast?_concat, hlast], h.2⟩

/-- The start of the row that a prefix ends in, and the place behind the prefix. -/
theorem rowStarts_after (u v b : Text) (hv : '\n' ∉ v) (hu : u = [] ∨ ∃ w, u = w ++ ['\n']) :
    (rowStarts (u ++ v ++ b))[u.count '\n']? = some u.length ∧
      (⟨0, 0⟩ : Position).afterText (u ++ v) = ⟨u.count '\n', v.byteLength⟩ := by
  rw [Position.afterText_append, Position.afterText_of_noBreak _ hv]
  rcases hu with rfl | ⟨w, rfl⟩
  · simp [rowStarts]
  · constructor
    · have hk : (w ++ ['\n']).count '\n' = (breakEnds 0 w).length + 1 := by
        rw [length_breakEnds, List.count_append]; rfl
      rw [hk, List.append_assoc, List.append_assoc, rowStarts, List.getElem?_cons_succ, breakEnds_append,
        List.getElem?_append_right (Nat.le_refl _)]
      simp [breakEnds]
    · rw [Position.afterText_line]
      simp [List.count_append]

theorem offsetAt_after {a b : Text} (h : ¬ PartsBreak a b) :
    (a ++ b).offsetAt ((⟨0, 0⟩ : Position).afterText a) = .ok a.length := by
  obtain ⟨u, v, rfl, hv, hu⟩ := exists_lastRow a
  obtain ⟨hstart, hplace⟩ := rowStarts_after u v b hv hu
  have hrow : firstRow ((u ++ v ++ b).drop u.length) = v ++ firstRow b := by
    rw [List.append_assoc, List.drop_left, firstRow_append hv (not_partsBreak_behind h)]
  have hcol : ¬ ((v.byteLength : Int) < 0 ∨ ((v ++ firstRow b).byteLength : Int) < v.byteLength) := by
    rw [byteLength_append]; omega
  rw [hplace, offsetAt, if_neg (by simp)]
  simp only [Int.toNat_natCast, hstart, hrow, if_neg hcol, charsIn_byteLength, List.length_append]

theorem followedByText_after {a b : Text} (h : ¬ PartsBreak a b) :
    (a ++ b).followedByText ((⟨0, 0⟩ : Position).afterText a) = .ok (hasContent (firstRow b)) := by
  rw [followedByText, offsetAt_after h]
  simp [Except.map]

/-! ## Positions -/

theorem map_breakEnds (a t : Text) :
    (breakEnds a.length t).map (fun k => firstRow ((a ++ t).drop k)) = (rows t).tail := by
  induction t generalizing a with
  | nil => rfl
  | cons c cs ih =>
    have ih := ih (a ++ [c])
    rw [List.length_append, List.length_singleton, List.append_assoc, List.singleton_append] at ih
    rw [breakEnds, rows]
    by_cases hn : c = '\n'
    · have hdrop : (a ++ c :: cs).drop (a.length + 1) = cs := by simp
      rw [if_pos hn, if_pos hn, List.map_cons, ih, hdrop, List.tail_cons, rows_eq cs, List.tail_cons]
    · rw [if_neg hn, if_neg hn, ih]
      split
      · rfl
      · cases rows cs <;> rfl

/-- A row stands between its start and the next line break. -/
theorem rows_eq_map_rowStarts (t : Text) : rows t = (rowStarts t).map fun k => firstRow (t.drop k) := by
  rw [rowStarts, List.map_cons, rows_eq]
  congr 1
  exact (map_breakEnds [] t).symm

theorem exists_charsIn_iff {t : Text} {n : Nat} :
    (∃ k, charsIn t n = some k) ↔ ∃ head tail, t = head ++ tail ∧ byteLength head = n := by
  constructor
  · rintro ⟨k, h⟩
    induction t generalizing n k with
    | nil =>
      cases n with
      | zero => exact ⟨[], [], rfl, rfl⟩
      | succ n => simp [charsIn] at h
    | cons c cs ih =>
      cases n with
      | zero => exact ⟨[], c :: cs, rfl, rfl⟩
      | succ n =>
        rw [charsIn] at h
        split at h
        · cases h
        rename_i hle
        obtain ⟨j, hj, -⟩ := Option.map_eq_some_iff.mp h
        obtain ⟨head, tail, rfl, hbytes⟩ := ih j hj
        refine ⟨c :: head, tail, rfl, ?_⟩
        rw [byteLength, hbytes]
        omega
  · rintro ⟨head, tail, rfl, rfl⟩
    exact ⟨_, charsIn_byteLength head tail⟩

/-- The position stands in front of or behind a character of a row. -/
def HasPosition (t : Text) (p : Position) : Prop :=
  0 ≤ p.row ∧ ∃ head tail : Text, t.rows[p.row.toNat]? = some (head ++ tail) ∧ (head.byteLength : Int) = p.column

theorem exists_offsetAt_iff {t : Text} {p : Position} : (∃ k, t.offsetAt p = .ok k) ↔ t.HasPosition p := by
  unfold offsetAt HasPosition
  by_cases hrow : p.row < 0
  · simp [hrow, Int.not_le.mpr hrow]
  rw [if_neg hrow, rows_eq_map_rowStarts, List.getElem?_map]
  cases hstart : (rowStarts t)[p.row.toNat]? with
  | none => simp
  | some start =>
    simp only [Option.map_some, Option.some.injEq]
    by_cases hcolumn : p.column < 0 ∨ ((firstRow (t.drop start)).byteLength : Int) < p.column
    · rw [if_pos hcolumn]
      refine iff_of_false (by simp) ?_
      rintro ⟨-, head, tail, hsplit, hbytes⟩
      rw [hsplit, byteLength_append] at hcolumn
      omega
    · rw [if_neg hcolumn]
      have hchars := exists_charsIn_iff (t := firstRow (t.drop start)) (n := p.column.toNat)
      constructor
      · rintro ⟨k, hk⟩
        split at hk
        · cases hk
        rename_i n hn
        obtain ⟨head, tail, hsplit, hbytes⟩ := hchars.mp ⟨n, hn⟩
        exact ⟨by omega, head, tail, hsplit, by omega⟩
      · rintro ⟨-, head, tail, hsplit, hbytes⟩
        obtain ⟨n, hn⟩ := hchars.mpr ⟨head, tail, hsplit, by omega⟩
        exact ⟨start + n, by rw [hn]⟩

/-! ## What stands in front of a position -/

theorem exists_breakEnd {t : Text} {offset i k : Nat} (h : (breakEnds offset t)[i]? = some k) :
    ∃ w rest, t = w ++ '\n' :: rest ∧ w.count '\n' = i ∧ k = offset + w.length + 1 := by
  induction t generalizing offset i with
  | nil => simp [breakEnds] at h
  | cons c cs ih =>
    by_cases hn : c = '\n'
    · rw [breakEnds, if_pos hn] at h
      cases i with
      | zero => exact ⟨[], cs, by simp [hn], rfl, by simpa using h.symm⟩
      | succ i =>
        rw [List.getElem?_cons_succ] at h
        obtain ⟨w, rest, rfl, hcount, rfl⟩ := ih h
        exact ⟨c :: w, rest, rfl, by rw [hn, List.count_cons_self, hcount], by rw [List.length_cons]; omega⟩
    · rw [breakEnds, if_neg hn] at h
      obtain ⟨w, rest, rfl, hcount, rfl⟩ := ih h
      exact ⟨c :: w, rest, rfl, by rw [List.count_cons_of_ne (by simpa using hn), hcount], by rw [List.length_cons]; omega⟩

theorem exists_rowStart {t : Text} {i start : Nat} (h : (rowStarts t)[i]? = some start) :
    ∃ u rest, t = u ++ rest ∧ u.length = start ∧ u.count '\n' = i ∧ (u = [] ∨ ∃ w, u = w ++ ['\n']) := by
  cases i with
  | zero => exact ⟨[], t, rfl, by simpa [rowStarts] using h, rfl, .inl rfl⟩
  | succ i =>
    rw [rowStarts, List.getElem?_cons_succ] at h
    obtain ⟨w, rest, rfl, hcount, rfl⟩ := exists_breakEnd h
    exact ⟨w ++ ['\n'], rest, by simp, by simp, by simp [List.count_append, hcount], .inr ⟨w, rfl⟩⟩

/-- A row ends where a line break starts, and no carriage return of the line break belongs to it. -/
theorem exists_firstRow (t : Text) : ∃ rest, t = firstRow t ++ rest ∧ '\n' ∉ firstRow t ∧ ¬ PartsBreak (firstRow t) rest := by
  induction t with
  | nil => exact ⟨[], rfl, by simp [firstRow], by simp [firstRow, PartsBreak]⟩
  | cons c cs ih =>
    obtain ⟨rest, hrest, hfree, hwhole⟩ := ih
    rw [firstRow]
    split
    · exact ⟨c :: cs, rfl, by simp, by simp [PartsBreak]⟩
    · rename_i hbreak
      refine ⟨rest, by rw [List.cons_append, ← hrest], ?_, ?_⟩
      · rw [List.mem_cons, not_or]
        exact ⟨fun e => hbreak (.inl e.symm), hfree⟩
      · intro hparts
        cases hrow : firstRow cs with
        | nil =>
          -- the carriage return would be the one in front of the rest
          rw [hrow, List.nil_append] at hrest
          rw [hrow] at hparts
          exact hbreak (.inr ⟨by simpa using hparts.1, by rw [hrest]; exact hparts.2⟩)
        | cons d ds =>
          rw [hrow] at hparts hwhole
          exact hwhole ⟨by simpa [List.getLast?_cons_cons] using hparts.1, hparts.2⟩

/-- The positions of a text are the places behind its first characters, unless that parts a line break. -/
theorem offsetAt_eq_ok_iff {t : Text} {p : Position} {k : Nat} :
    t.offsetAt p = .ok k ↔ ∃ a b, t = a ++ b ∧ a.length = k ∧ (⟨0, 0⟩ : Position).afterText a = p ∧ ¬ PartsBreak a b := by
  constructor
  · intro h
    unfold offsetAt at h
    split at h
    · cases h
    rename_i hrow
    split at h
    · cases h
    rename_i start hstart
    obtain ⟨u, rest, rfl, rfl, hcount, hu⟩ := exists_rowStart hstart
    simp only [List.drop_left] at h
    split at h
    · cases h
    rename_i hcolumn
    split at h
    · cases h
    rename_i n hchars
    obtain ⟨v, tail, hv, hbytes⟩ := exists_charsIn_iff.mp ⟨n, hchars⟩
    obtain ⟨more, hmore, hfree, hwhole⟩ := exists_firstRow rest
    rw [hv] at hmore hfree hwhole hchars
    have hn : v.length = n := by
      rw [← hbytes, charsIn_byteLength] at hchars
      exact Option.some.inj hchars
    have hbreak : '\n' ∉ v := fun hmem => hfree (List.mem_append_left tail hmem)
    refine ⟨u ++ v, tail ++ more, by rw [hmore]; simp, by rw [List.length_append, hn]; exact Except.ok.inj h, ?_, ?_⟩
    · rw [(rowStarts_after u v [] hbreak hu).2, hcount, hbytes]
      cases p
      simp only [Position.mk.injEq] at *
      omega
    · intro hparts
      have hparts := partsBreak_lastRow hu hparts
      cases tail with
      | nil => exact hwhole (by simpa using hparts)
      | cons d ds => exact hfree (List.mem_append_right _ (List.mem_of_head? hparts.2))
  · intro h
    obtain ⟨a, b, rfl, rfl, rfl, hwhole⟩ := h
    exact offsetAt_after hwhole

/-- A position of a text is the place behind what stands in front of it. -/
theorem afterText_take_of_offsetAt {t : Text} {p : Position} {k : Nat} (h : t.offsetAt p = .ok k) :
    (⟨0, 0⟩ : Position).afterText (t.take k) = p := by
  obtain ⟨a, b, rfl, rfl, hplace, -⟩ := offsetAt_eq_ok_iff.mp h
  rw [List.take_left, hplace]

end Text

end CommentQuota
