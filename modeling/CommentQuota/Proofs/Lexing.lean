/-
  CommentQuota.Proofs.Lexing — how the lexemes of a text depend on what surrounds them.

  A lexeme looks one character past its end and no further, so the lexemes up to a brace stay what
  they are whatever stands behind the brace. Behind it, whole comment rows and blank rest of a row
  are lexemes of their own, and whether a row starts afresh matters to a hash only.

  - `lex_upTo`: the lexemes up to a brace or a line feed, with any text behind it.
  - `lex_commentRow`: a line comment up to the line feed that ends it.
  - `lex_blankRow`: the blank rest of a row and its line feed.
  - `lex_fresh`: a text lexes on a fresh row as behind code if no hash stands loose in it.
-/

import CommentQuota.Proofs.Rows

namespace CommentQuota

/-- The characters of lexemes. -/
def textOf (ls : List Lexeme) : Text := ls.flatMap (·.text)

@[simp] theorem textOf_nil : textOf [] = [] := rfl

@[simp] theorem textOf_cons (l : Lexeme) (ls : List Lexeme) : textOf (l :: ls) = l.text ++ textOf ls := rfl

@[simp] theorem textOf_append (as bs : List Lexeme) : textOf (as ++ bs) = textOf as ++ textOf bs :=
  List.flatMap_append

theorem textOf_lex (fresh : Bool) (t : Text) : textOf (lex fresh t) = t := lex_text fresh t

namespace Lexeme

/-! ## One character of look-ahead -/

/-- What a scanner takes is settled by the first character it leaves. -/
def LooksOneAhead (f : Text → Text × Text) : Prop :=
  ∀ taken d x y, f (taken ++ d :: x) = (taken, d :: x) → f (taken ++ d :: y) = (taken, d :: y)

theorem lineTail_looksOneAhead (j : Joint) : LooksOneAhead (lineTail j) := by
  intro taken d x y h
  induction taken generalizing j with
  | nil =>
    simp only [List.nil_append, lineTail] at h ⊢
    split at h
    · rename_i hd; rw [if_pos hd]
    · simp at h
  | cons c cs ih =>
    simp only [List.cons_append, lineTail] at h ⊢
    split at h
    · simp at h
    · rename_i hc
      simp only [Prod.mk.injEq, List.cons.injEq, true_and] at h
      rw [if_neg hc, ih _ (Prod.ext h.1 h.2)]

theorem blockTail_looksOneAhead (star : Bool) : LooksOneAhead (blockTail star) := by
  intro taken d x y h
  induction taken generalizing star with
  | nil =>
    simp only [List.nil_append, blockTail] at h
    split at h <;> simp at h
  | cons c cs ih =>
    simp only [List.cons_append, blockTail] at h ⊢
    split at h
    · rename_i hc
      obtain rfl : cs = [] := by simpa using (Prod.mk.inj h).1
      rw [if_pos hc]; rfl
    · rename_i hc
      simp only [Prod.mk.injEq, List.cons.injEq, true_and] at h
      rw [if_neg hc, ih _ (Prod.ext h.1 h.2)]

theorem literalTail_looksOneAhead (quote : Char) (escaped : Bool) :
    LooksOneAhead (literalTail quote escaped) := by
  intro taken d x y h
  induction taken generalizing escaped with
  | nil =>
    simp only [List.nil_append, literalTail] at h
    split at h
    · simp at h
    · split at h <;> simp at h
  | cons c cs ih =>
    simp only [List.cons_append, literalTail] at h ⊢
    split at h
    · rename_i hc
      simp only [Prod.mk.injEq, List.cons.injEq, true_and] at h
      rw [if_pos hc, ih _ (Prod.ext h.1 h.2)]
    · rename_i hc
      rw [if_neg hc]
      split at h
      · rename_i hq
        obtain rfl : cs = [] := by simpa using (Prod.mk.inj h).1
        rw [if_pos hq]; rfl
      · rename_i hq
        simp only [Prod.mk.injEq, List.cons.injEq, true_and] at h
        rw [if_neg hq, ih _ (Prod.ext h.1 h.2)]

theorem runTail_looksOneAhead (p : Char → Bool) : LooksOneAhead (runTail p) := by
  intro taken d x y h
  induction taken with
  | nil =>
    have hd : ¬ p d = true := by
      intro hd
      simp [runTail, hd] at h
    simp [runTail, hd]
  | cons c cs ih =>
    simp only [runTail, List.cons_append, List.takeWhile_cons, List.dropWhile_cons] at h ih ⊢
    split at h
    · rename_i hc
      simp only [Prod.mk.injEq, List.cons.injEq, true_and] at h
      have := ih (Prod.ext h.1 h.2)
      simp only [Prod.mk.injEq] at this
      simp only [if_pos hc, this]
    · simp at h

theorem scan_looksOneAhead (fresh : Bool) (c : Char) (kind : LexemeKind) (taken : Text) (d : Char) (x y : Text)
    (h : scan fresh c (taken ++ d :: x) = (kind, taken, d :: x)) :
    scan fresh c (taken ++ d :: y) = (kind, taken, d :: y) := by
  have hhead : ∀ z : Text, (taken ++ d :: z).head? = (taken ++ [d]).head? := by
    intro z; cases taken <;> rfl
  simp only [scan, hhead] at h ⊢
  -- each branch is chosen by `c` and the first character behind it, which `x` and `y` share
  split at h
  · simp only [Prod.mk.injEq] at h
    obtain ⟨rfl, rfl, -⟩ := h
    rename_i hc; rw [if_pos hc]; rfl
  rename_i h1; rw [if_neg h1]
  split at h
  · rename_i hc
    rw [if_pos hc]
    simp only [Prod.mk.injEq] at h
    rw [lineTail_looksOneAhead _ taken d x y h.2, h.1]
  rename_i h2; rw [if_neg h2]
  split at h
  · rename_i hc
    rw [if_pos hc]
    simp only [Prod.mk.injEq] at h
    obtain ⟨hk, ht, hr⟩ := h
    cases taken with
    | nil => simp at ht
    | cons e es =>
      simp only [List.cons_append, List.tail_cons, List.take_succ_cons, List.take_zero, List.nil_append,
        List.cons.injEq, true_and] at ht hr ⊢
      rw [blockTail_looksOneAhead _ es d x y (Prod.ext ht hr), hk]
  rename_i h3; rw [if_neg h3]
  split at h
  · rename_i hc
    rw [if_pos hc]
    simp only [Prod.mk.injEq] at h
    rw [literalTail_looksOneAhead _ _ taken d x y h.2, h.1]
  rename_i h4; rw [if_neg h4]
  split at h
  · rename_i hc
    rw [if_pos hc]
    simp only [Prod.mk.injEq] at h
    rw [runTail_looksOneAhead _ taken d x y h.2, h.1]
  rename_i h5; rw [if_neg h5]
  split at h
  · rename_i hc
    rw [if_pos hc]
    simp only [Prod.mk.injEq] at h
    rw [runTail_looksOneAhead _ taken d x y h.2, h.1]
  · rename_i hc
    rw [if_neg hc]
    simp only [Prod.mk.injEq] at h
    obtain ⟨rfl, rfl, -⟩ := h
    rfl

/-- The lexeme of an opening brace. -/
def brace : Lexeme := ⟨.symbol, ['\x7b']⟩

end Lexeme

open Lexeme

theorem lex_brace (fresh : Bool) (t : Text) : lex fresh ('\x7b' :: t) = brace :: lex false t := by
  have hs : scan fresh '\x7b' t = (.symbol, [], t) := by simp [scan, isSpace, isWordChar]
  rw [lex, hs]; rfl

/-- The lexemes up to a character that is a lexeme for itself do not depend on what stands behind it. -/
theorem lex_upTo {b : Char} {l : Lexeme} {behind : Bool} (hb : ∀ fresh t, lex fresh (b :: t) = l :: lex behind t)
    (hl : l.text = [b]) {fresh : Bool} {t : Text} {ls rest : List Lexeme} (h : lex fresh t = ls ++ l :: rest)
    (post : Text) : lex fresh (textOf ls ++ b :: post) = ls ++ l :: lex behind post := by
  induction ls generalizing fresh t with
  | nil => exact hb fresh post
  | cons k ls ih =>
    cases t with
    | nil => simp [lex] at h
    | cons c cs =>
      rw [lex, List.cons_append, List.cons.injEq] at h
      obtain ⟨rfl, hrest⟩ := h
      -- some character of the prefix follows the first lexeme, so that lexeme is the same again
      obtain ⟨d, z, hz⟩ : ∃ d z, textOf ls ++ [b] = d :: z := List.exists_cons_of_ne_nil (by simp)
      have hleft : (scan fresh c cs).2.2 = d :: (z ++ textOf rest) := by
        rw [← textOf_lex (freshAfter fresh (scan fresh c cs).1 c) (scan fresh c cs).2.2, hrest, textOf_append,
          ← List.cons_append, ← hz, textOf_cons, hl, List.append_assoc]
      have hcs : cs = (scan fresh c cs).2.1 ++ d :: (z ++ textOf rest) := by
        rw [← hleft, scan_append]
      have hscan := scan_looksOneAhead fresh c (scan fresh c cs).1 (scan fresh c cs).2.1 d _ (z ++ post)
        (by rw [← hcs, ← hleft])
      have hnew : textOf ls ++ b :: post = d :: (z ++ post) := by
        rw [← List.cons_append, ← hz, List.append_assoc]; rfl
      rw [textOf_cons, List.append_assoc, List.cons_append, hnew, lex, hscan, List.cons_append, ← hnew, ih hrest]

theorem lex_upToBrace {fresh : Bool} {t : Text} {ls rest : List Lexeme} (h : lex fresh t = ls ++ brace :: rest)
    (post : Text) : lex fresh (textOf ls ++ '\x7b' :: post) = ls ++ brace :: lex false post :=
  lex_upTo lex_brace rfl h post

theorem lex_afterBrace {fresh : Bool} {t : Text} {ls rest : List Lexeme} (h : lex fresh t = ls ++ brace :: rest) :
    rest = lex false (textOf rest) := by
  have ht : t = textOf ls ++ '\x7b' :: textOf rest := by
    rw [← textOf_lex fresh t, h, textOf_append, textOf_cons]; rfl
  have := lex_upToBrace h (textOf rest)
  rw [← ht, h] at this
  exact (List.cons.inj (List.append_cancel_left this)).2

/-! ## Line comments -/

/-- What stands at the end of a text directly before a line feed. -/
def Lexeme.Joint.after (j : Joint) (t : Text) : Joint := t.foldl Joint.next j

theorem Lexeme.Joint.after_append (j : Joint) (a b : Text) : j.after (a ++ b) = (j.after a).after b :=
  List.foldl_append

theorem Lexeme.Joint.after_noSlash {t : Text} (h : '\\' ∉ t) : Joint.none.after t = .none := by
  induction t with
  | nil => rfl
  | cons c cs ih =>
    simp only [List.mem_cons, not_or] at h
    have hc : Joint.next .none c = .none := by simp [Joint.next, Ne.symm h.1]
    simp only [after, List.foldl_cons, hc]
    exact ih h.2

theorem Lexeme.Joint.after_concat (j : Joint) (t : Text) {c : Char} (hs : c ≠ '\\') (hr : c ≠ '\r') :
    j.after (t ++ [c]) = .none := by
  rw [after_append]
  simp [after, Joint.next, hs, hr]

theorem Lexeme.lineTail_line {j : Joint} {t : Text} (rest : Text) (hn : '\n' ∉ t) (hj : j.after t = .none) :
    lineTail j (t ++ '\n' :: rest) = (t, '\n' :: rest) := by
  induction t generalizing j with
  | nil =>
    have hj : j = .none := hj
    simp [lineTail, hj]
  | cons c cs ih =>
    simp only [List.mem_cons, not_or] at hn
    have hc : ¬ (c = '\n' ∧ j = .none) := fun e => hn.1 e.1.symm
    rw [List.cons_append, lineTail, if_neg hc, ih hn.2 hj]

/-- A text that is one line comment up to the next line feed: it starts with the comment mark, has no
    line feed, and does not end in a backslash, with or without a carriage return behind it. -/
structure Lexeme.IsLineComment (c : Text) : Prop where
  mark : ∃ body, c = '/' :: '/' :: body
  noBreak : '\n' ∉ c
  open_ : Joint.none.after c = .none

/-- A text with the comment mark that ends in no backslash stays a line comment when text without a
    backslash or a line feed is put behind it. -/
theorem Lexeme.IsLineComment.append {c w : Text} (h : IsLineComment c) (hn : '\n' ∉ w) (hs : '\\' ∉ w) :
    IsLineComment (c ++ w) where
  mark := by
    obtain ⟨body, rfl⟩ := h.mark
    exact ⟨body ++ w, rfl⟩
  noBreak := by simp [h.noBreak, hn]
  open_ := by rw [Joint.after_append, h.open_, Joint.after_noSlash hs]

theorem lex_blank (fresh : Bool) {c : Char} (h : isSpace c = true) (t : Text) :
    lex fresh (c :: t) = ⟨.blank, [c]⟩ :: lex (fresh || c == '\n') t := by
  have hs : scan fresh c t = (.blank, [], t) := by simp [scan, h]
  rw [lex, hs]
  simp [freshAfter]

theorem lex_newline (fresh : Bool) (t : Text) : lex fresh ('\n' :: t) = ⟨.blank, ['\n']⟩ :: lex true t := by
  rw [lex_blank fresh (by decide)]
  simp

theorem lex_commentRow (fresh : Bool) {c : Text} (h : IsLineComment c) (t : Text) :
    lex fresh (c ++ '\n' :: t) = ⟨.comment, c⟩ :: ⟨.blank, ['\n']⟩ :: lex true t := by
  obtain ⟨⟨body, rfl⟩, hn, hj⟩ := h
  have hn : '\n' ∉ '/' :: body := fun e => hn (List.mem_cons_of_mem _ e)
  have htail := lineTail_line (j := .none) t hn hj
  have hs : scan fresh '/' ('/' :: body ++ '\n' :: t) = (.comment, '/' :: body, '\n' :: t) := by
    rw [scan, if_neg (by decide), if_pos ⟨rfl, rfl⟩, htail]
  rw [List.cons_append, lex, hs, ← lex_newline false t]
  rfl

/-- Comment rows, each closed by a line feed. -/
theorem lex_commentRows (fresh : Bool) {cs : List Text} (h : ∀ c ∈ cs, IsLineComment c) (t : Text) :
    lex fresh (cs.flatMap (· ++ ['\n']) ++ t) =
      cs.flatMap (fun c => [⟨.comment, c⟩, ⟨.blank, ['\n']⟩]) ++ lex (fresh || !cs.isEmpty) t := by
  induction cs generalizing fresh with
  | nil => simp
  | cons c cs ih =>
    have hc := h c (by simp)
    have hcs : ∀ d ∈ cs, IsLineComment d := fun d hd => h d (by simp [hd])
    have := lex_commentRow fresh hc (cs.flatMap (· ++ ['\n']) ++ t)
    simp only [List.flatMap_cons, List.append_assoc, List.cons_append, List.nil_append] at this ⊢
    rw [this, ih true hcs]
    simp

/-! ## Blanks -/

/-- A blank character of a row: a blank of the source, or a symbol that opens and closes nothing. -/
def Lexeme.ofBlank (c : Char) : Lexeme := ⟨if isSpace c then .blank else .symbol, [c]⟩

theorem textOf_map_ofBlank (t : Text) : textOf (t.map ofBlank) = t := by
  induction t with
  | nil => rfl
  | cons c cs ih => simp [ofBlank, ih]

theorem Lexeme.not_wordChar_of_blank {c : Char} (h : isBlank c = true) : isWordChar c = false := by
  rw [Bool.eq_false_iff]
  intro hw
  simp only [isBlank, Bool.or_eq_true, Bool.and_eq_true, decide_eq_true_eq, beq_iff_eq] at h
  rw [isWordChar, Bool.or_eq_true, beq_iff_eq] at hw
  rcases hw with hw | rfl
  · delta Char.isAlphanum Char.isAlpha Char.isUpper Char.isLower Char.isDigit at hw
    simp only [Bool.or_eq_true, Bool.and_eq_true, decide_eq_true_eq, UInt32.le_iff_toNat_le, ge_iff_le] at hw
    change ((65 ≤ c.toNat ∧ c.toNat ≤ 90) ∨ (97 ≤ c.toNat ∧ c.toNat ≤ 122)) ∨ (48 ≤ c.toNat ∧ c.toNat ≤ 57) at hw
    omega
  · simp at h

theorem lex_blankChar (fresh : Bool) {c : Char} (hb : isBlank c = true) (t : Text) :
    ∃ fresh', lex fresh (c :: t) = ofBlank c :: lex fresh' t := by
  by_cases hs : isSpace c = true
  · exact ⟨_, by rw [lex_blank fresh hs, ofBlank, if_pos hs]⟩
  have hne : ∀ d : Char, isBlank d = false → c ≠ d := by
    rintro d hd rfl; simp [hb] at hd
  have hw := not_wordChar_of_blank hb
  have hscan : scan fresh c t = (.symbol, [], t) := by
    rw [scan, if_neg hs, if_neg (fun e => hne '/' (by decide) e.1), if_neg (fun e => hne '/' (by decide) e.1),
      if_neg (not_or.mpr ⟨hne '"' (by decide), hne '\'' (by decide)⟩), if_neg (fun e => hne '#' (by decide) e.1),
      if_neg (by simp [hw])]
  exact ⟨_, by rw [lex, hscan, ofBlank, if_neg hs]⟩

/-- The blank rest of a row is lexed character by character, and the next row starts afresh. -/
theorem lex_blankRow (fresh : Bool) {w : Text} (hb : ∀ c ∈ w, isBlank c = true) (t : Text) :
    lex fresh (w ++ '\n' :: t) = w.map ofBlank ++ ⟨.blank, ['\n']⟩ :: lex true t := by
  induction w generalizing fresh with
  | nil => exact lex_newline fresh t
  | cons c cs ih =>
    obtain ⟨fresh', hlex⟩ := lex_blankChar fresh (hb c (by simp)) (cs ++ '\n' :: t)
    rw [List.cons_append, hlex, ih fresh' (fun d hd => hb d (by simp [hd]))]
    rfl

/-! ## Fresh rows -/

/-- A hash that does not stand first on its row. -/
def Lexeme.looseHash : Lexeme := ⟨.symbol, ['#']⟩

/-- Every hash outside comments and literals is first on its row, and so starts a directive. -/
def HashesLead (t : Text) : Prop := looseHash ∉ lex true t

instance (t : Text) : Decidable (HashesLead t) := inferInstanceAs (Decidable (_ ∉ _))

theorem lex_fresh {t : Text} (h : looseHash ∉ lex false t) : lex true t = lex false t := by
  induction t with
  | nil => simp [lex]
  | cons c cs ih =>
    by_cases hs : isSpace c = true
    · rw [lex_blank false hs] at h
      rw [lex_blank true hs, lex_blank false hs]
      by_cases hc : c = '\n'
      · simp [hc]
      · simp only [Bool.true_or, Bool.false_or, beq_eq_false_iff_ne.mpr hc] at h ⊢
        rw [ih (fun e => h (List.mem_cons_of_mem _ e))]
    · -- behind a lexeme that is no blank, no row is fresh
      have hc : c ≠ '#' := by
        rintro rfl
        have hscan : scan false '#' cs = (.symbol, [], cs) := by simp [scan, isSpace, isWordChar]
        rw [lex, hscan] at h
        exact h (by simp [looseHash])
      have hscan : scan true c cs = scan false c cs := by simp [scan, hc]
      have hkind : (scan false c cs).1 ≠ .blank := by
        unfold scan
        rw [if_neg hs]
        repeat' split
        all_goals simp
      have hfresh : ∀ b, freshAfter b (scan false c cs).1 c = false := by
        intro b; simp [freshAfter, hkind]
      rw [lex, lex, hscan, hfresh, hfresh]

end CommentQuota
