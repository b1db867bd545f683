/-
  CommentQuota.Proofs.Places — the order of places, and texts moved down a document.

  The tokens of a document lie one behind the other. When what follows a place is moved to the start
  of a later row, a token on the row of that place loses the columns in front of it, and a token
  further down keeps its column.

  - `place_eq_append_cons`: a token among the tokens of lexemes is the token of one of them.
  - `place_bounds`: tokens lie between the place they start from and the place behind their texts.
  - `place_shift`: tokens placed from a moved place are the moved tokens.
  - `before_shift`: moving keeps the order of places.
-/

import CommentQuota.Proofs.Lexing

namespace CommentQuota

namespace Position

/-! ## Order -/

/-- A place lies before another, on an earlier row or further to the left. -/
def Before (p q : Position) : Prop := p.row < q.row ∨ (p.row = q.row ∧ p.column < q.column)

instance (p q : Position) : Decidable (p.Before q) := inferInstanceAs (Decidable (_ ∨ _))

theorem Before.trans {p q r : Position} (h : p.Before q) (h' : q.Before r) : p.Before r := by
  unfold Before at *; omega

/-- What a place not behind another one is before. -/
theorem Before.of_not_before {p q r : Position} (h : ¬ q.Before p) (h' : q.Before r) : p.Before r := by
  unfold Before at *; omega

theorem Before.trans_not_before {p q r : Position} (h : p.Before q) (h' : ¬ r.Before q) : p.Before r := by
  unfold Before at *; omega

theorem Before.not_before {p q : Position} (h : p.Before q) : ¬ q.Before p := by
  unfold Before at *; omega

theorem not_before_trans {p q r : Position} (h : ¬ q.Before p) (h' : ¬ r.Before q) : ¬ r.Before p := by
  unfold Before at *; omega

theorem not_before_self (p : Position) : ¬ p.Before p := by
  unfold Before; omega

theorem Before.ne {p q : Position} (h : p.Before q) : p ≠ q := by
  intro e
  exact not_before_self q (e ▸ h)

theorem before_of_ne {p q : Position} (h : q ≠ p) (h' : ¬ q.Before p) : p.Before q := by
  unfold Before at *
  by_cases hrow : p.row = q.row
  · have hcolumn : q.column ≠ p.column := by
      intro e
      apply h
      cases p
      cases q
      simp_all
    omega
  · omega

theorem Before.row_le {p q : Position} (h : p.Before q) : p.row ≤ q.row := by
  unfold Before at h; omega

theorem row_le_of_not_before {p q : Position} (h : ¬ q.Before p) : p.row ≤ q.row := by
  unfold Before at h; omega

theorem before_after (p : Position) (c : Char) : p.Before (p.after c) := by
  have := c.utf8Size_pos
  unfold Before after
  split
  · left; show p.row < p.row + 1; omega
  · right; exact ⟨rfl, by show p.column < p.column + c.utf8Size; omega⟩

theorem not_afterText_before (p : Position) (t : Text) : ¬ (p.afterText t).Before p := by
  induction t generalizing p with
  | nil => exact not_before_self p
  | cons c cs ih => exact not_before_trans (before_after p c).not_before (ih (p.after c))

theorem before_afterText (p : Position) {t : Text} (h : t ≠ []) : p.Before (p.afterText t) := by
  cases t with
  | nil => exact absurd rfl h
  | cons c cs => exact (before_after p c).trans_not_before (not_afterText_before _ cs)

/-! ## Moving down -/

/-- A place when what follows `o` moves to the start of the row `k` rows further down. -/
def shift (p o : Position) (k : Int) : Position :=
  ⟨p.row + k, if p.row = o.row then p.column - o.column else p.column⟩

@[simp] theorem shift_row (p o : Position) (k : Int) : (p.shift o k).row = p.row + k := rfl

theorem shift_self (o : Position) (k : Int) : o.shift o k = ⟨o.row + k, 0⟩ := by
  simp [shift]

theorem before_shift {p q o : Position} {k : Int} : (p.shift o k).Before (q.shift o k) ↔ p.Before q := by
  simp only [Before, shift]
  split <;> split <;> omega

theorem after_shift {p o : Position} (h : o.row ≤ p.row) (k : Int) (c : Char) :
    (p.shift o k).after c = (p.after c).shift o k := by
  by_cases hc : c = '\n'
  · have hne : p.row + 1 ≠ o.row := by omega
    have e : p.row + k + 1 = p.row + 1 + k := by omega
    simp [shift, after, hc, hne, e]
  · simp only [after, if_neg hc, shift, mk.injEq, true_and]
    split <;> omega

theorem afterText_shift {p o : Position} (h : o.row ≤ p.row) (k : Int) (t : Text) :
    (p.shift o k).afterText t = (p.afterText t).shift o k := by
  induction t generalizing p with
  | nil => rfl
  | cons c cs ih =>
    rw [afterText_cons, afterText_cons, after_shift h]
    exact ih (Int.le_trans h (before_after p c).row_le)

end Position

/-! ## Tokens -/

theorem place_append (p : Position) (as bs : List Lexeme) :
    place p (as ++ bs) = place p as ++ place (p.afterText (textOf as)) bs := by
  induction as generalizing p with
  | nil => rfl
  | cons l ls ih =>
    rw [List.cons_append, place, ih, place, textOf_cons, Position.afterText_append, List.cons_append]

/-- A token of lexemes, with the lexemes before and behind it. -/
theorem place_eq_append_cons {p : Position} {ls : List Lexeme} {A B : List Token} {t : Token}
    (h : place p ls = A ++ t :: B) :
    ∃ as l bs, ls = as ++ l :: bs ∧ A = place p as ∧ B = place t.stop bs ∧
      t = ⟨l.kind, l.text, p.afterText (textOf as), (p.afterText (textOf as)).afterText l.text⟩ := by
  induction A generalizing p ls with
  | nil =>
    cases ls with
    | nil => simp [place] at h
    | cons l ls =>
      rw [place, List.nil_append, List.cons.injEq] at h
      obtain ⟨rfl, rfl⟩ := h
      exact ⟨[], l, ls, rfl, rfl, rfl, rfl⟩
  | cons a A ih =>
    cases ls with
    | nil => simp [place] at h
    | cons l ls =>
      rw [place, List.cons_append, List.cons.injEq] at h
      obtain ⟨rfl, hrest⟩ := h
      obtain ⟨as, m, bs, rfl, rfl, hB, ht⟩ := ih hrest
      exact ⟨l :: as, m, bs, rfl, rfl, hB, by rw [textOf_cons, Position.afterText_append]; exact ht⟩

theorem place_bounds {p : Position} {ls : List Lexeme} {t : Token} (h : t ∈ place p ls) :
    ¬ t.start.Before p ∧ ¬ (p.afterText (textOf ls)).Before t.stop ∧ t.stop = t.start.afterText t.text := by
  obtain ⟨A, B, hAB⟩ := List.append_of_mem h
  obtain ⟨as, l, bs, rfl, -, -, rfl⟩ := place_eq_append_cons hAB
  refine ⟨Position.not_afterText_before _ _, ?_, rfl⟩
  simp only [textOf_append, textOf_cons, Position.afterText_append]
  exact Position.not_afterText_before _ _

theorem mem_lexeme_of_mem_place {p : Position} {ls : List Lexeme} {t : Token} (h : t ∈ place p ls) :
    ⟨t.kind, t.text⟩ ∈ ls := by
  obtain ⟨A, B, hAB⟩ := List.append_of_mem h
  obtain ⟨as, l, bs, rfl, -, -, rfl⟩ := place_eq_append_cons hAB
  simp

/-- No lexeme is empty. -/
theorem text_ne_nil_of_mem_lex {fresh : Bool} {t : Text} {l : Lexeme} (h : l ∈ lex fresh t) : l.text ≠ [] := by
  fun_induction lex fresh t with
  | case1 => cases h
  | case2 fresh c cs s ih =>
    rcases List.mem_cons.mp h with rfl | h
    · exact List.cons_ne_nil _ _
    · exact ih h

theorem start_before_stop {p : Position} {fresh : Bool} {s : Text} {t : Token} (h : t ∈ place p (lex fresh s)) :
    t.start.Before t.stop := by
  rw [(place_bounds h).2.2]
  exact Position.before_afterText _ (text_ne_nil_of_mem_lex (mem_lexeme_of_mem_place h))

namespace Token

/-- A token when what follows `o` moves to the start of the row `k` rows further down. -/
def shift (t : Token) (o : Position) (k : Int) : Token :=
  { t with start := t.start.shift o k, stop := t.stop.shift o k }

end Token

theorem place_shift {p o : Position} (h : o.row ≤ p.row) (k : Int) (ls : List Lexeme) :
    place (p.shift o k) ls = (place p ls).map (·.shift o k) := by
  induction ls generalizing p with
  | nil => rfl
  | cons l ls ih =>
    have hrow : o.row ≤ (p.afterText l.text).row :=
      Int.le_trans h (Position.row_le_of_not_before (Position.not_afterText_before p l.text))
    rw [place, Position.afterText_shift h, ih hrow]
    rfl

end CommentQuota
