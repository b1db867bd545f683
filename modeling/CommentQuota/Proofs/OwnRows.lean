/-
  CommentQuota.Proofs.OwnRows — texts that fill their rows with comments and blanks.

  Such a text may hold line feeds, and it may end in a comment that a line feed closes. What matters is
  that the line feed behind it stands for itself: a comment that takes the line feed in goes on in the
  next row. A text that fills its rows does so with any document behind the line feed, with more
  blanks at its end, and, if it ends in digits, with other digits there.

  - `lineTail_append_cases` / `blockTail_append_cases`: a comment ends in the first of two texts, or
    goes on in the second.
  - `lex_exchange`: one end of a text for another.
  - `ownRows_lineComment_iff`: which texts of one row with the comment mark fill it.
-/

import CommentQuota.Proofs.Lexing
import CommentQuota.Proofs.Places

namespace CommentQuota

open Lexeme

namespace Lexeme

/-- The lexeme of a line feed. -/
def lineFeed : Lexeme := ⟨.blank, ['\n']⟩

/-- Blanks and comments, which are no part of the program. -/
def IsTrivia (l : Lexeme) : Prop := l.kind = .blank ∨ l.kind = .comment

instance (l : Lexeme) : Decidable l.IsTrivia := inferInstanceAs (Decidable (_ ∨ _))

end Lexeme

/-- With a line feed behind it, the text is comments and blanks, and the line feed is none of them. -/
def OwnRows (c : Text) : Prop :=
  (lex true (c ++ ['\n'])).getLast? = some lineFeed ∧ ∀ l ∈ lex true (c ++ ['\n']), l.IsTrivia

instance (c : Text) : Decidable (OwnRows c) := inferInstanceAs (Decidable (_ ∧ _))

theorem ownRows_iff {c : Text} :
    OwnRows c ↔ ∃ ls, lex true (c ++ ['\n']) = ls ++ [lineFeed] ∧ ∀ l ∈ ls, l.IsTrivia := by
  rw [OwnRows, List.getLast?_eq_some_iff]
  constructor
  · rintro ⟨⟨ls, hls⟩, htrivia⟩
    rw [hls] at htrivia
    exact ⟨ls, hls, fun l hl => htrivia l (List.mem_append_left _ hl)⟩
  · rintro ⟨ls, hls, htrivia⟩
    refine ⟨⟨ls, hls⟩, ?_⟩
    rw [hls]
    intro l hl
    rcases List.mem_append.mp hl with hl | hl
    · exact htrivia l hl
    · rw [List.mem_singleton.mp hl]
      exact .inl rfl

namespace Lexeme

/-! ## Where a comment ends -/

theorem lineTail_append_cases (j : Joint) (a : Text) :
    (∃ a₁ a₂, a = a₁ ++ '\n' :: a₂ ∧ ∀ y, lineTail j (a ++ y) = (a₁, '\n' :: (a₂ ++ y))) ∨
      ∀ y, lineTail j (a ++ y) = (a ++ (lineTail (j.after a) y).1, (lineTail (j.after a) y).2) := by
  induction a generalizing j with
  | nil => exact .inr fun y => rfl
  | cons c cs ih =>
    by_cases hc : c = '\n' ∧ j = .none
    · obtain ⟨rfl, rfl⟩ := hc
      exact .inl ⟨[], cs, rfl, fun y => by simp [lineTail]⟩
    · rcases ih (j.next c) with ⟨a₁, a₂, rfl, h⟩ | h
      · exact .inl ⟨c :: a₁, a₂, rfl, fun y => by rw [List.cons_append, lineTail, if_neg hc, h]⟩
      · exact .inr fun y => by rw [List.cons_append, lineTail, if_neg hc, h]; rfl

theorem blockTail_append_cases (star : Bool) (a : Text) :
    (∃ a₁ a₂, a = a₁ ++ a₂ ∧ ∀ y, blockTail star (a ++ y) = (a₁, a₂ ++ y)) ∨
      ∃ star', ∀ y, blockTail star (a ++ y) = (a ++ (blockTail star' y).1, (blockTail star' y).2) := by
  induction a generalizing star with
  | nil => exact .inr ⟨star, fun y => rfl⟩
  | cons c cs ih =>
    by_cases hc : star = true ∧ c = '/'
    · exact .inl ⟨[c], cs, rfl, fun y => by rw [List.cons_append, blockTail, if_pos hc]⟩
    · rcases ih (c == '*') with ⟨a₁, a₂, rfl, h⟩ | ⟨star', h⟩
      · exact .inl ⟨c :: a₁, a₂, rfl, fun y => by rw [List.cons_append, blockTail, if_neg hc, h]⟩
      · exact .inr ⟨star', fun y => by rw [List.cons_append, blockTail, if_neg hc, h]; rfl⟩

/-- A block comment needs a slash to end. -/
theorem blockTail_of_noSlash (star : Bool) {y : Text} (h : '/' ∉ y) : blockTail star y = (y, []) := by
  induction y generalizing star with
  | nil => rfl
  | cons c cs ih =>
    simp only [List.mem_cons, not_or] at h
    rw [blockTail, if_neg (fun e => h.1 e.2.symm), ih _ h.2]

/-- A line comment that leaves the line feed behind a text without one has no joint there. -/
theorem joint_of_lineTail {j : Joint} {u : Text} (hu : '\n' ∉ u) (h : (lineTail j (u ++ ['\n'])).2 ≠ []) :
    j.after u = .none := by
  rcases lineTail_append_cases j u with ⟨a₁, a₂, rfl, -⟩ | hcases
  · simp at hu
  · rw [hcases, lineTail] at h
    by_cases hj : j.after u = .none
    · exact hj
    · simp [hj, lineTail] at h

/-! ## Exchange of endings -/

theorem isBlank_of_isSpace {c : Char} (h : isSpace c = true) : isBlank c = true := by
  simp only [isSpace, Bool.or_eq_true, beq_iff_eq, Bool.and_eq_true, decide_eq_true_eq] at h
  rcases h with rfl | ⟨hlower, hupper⟩
  · decide
  · have hlower : 9 ≤ c.toNat := hlower
    have hupper : c.toNat ≤ 13 := hupper
    simp [isBlank, hlower, hupper]

/-- One end of a text may stand for another: `u` is digits, and `w` joins rows no more than `u` does, and
    is blank if `u` is empty. -/
structure Exchanges (u w : Text) : Prop where
  digits : ∀ c ∈ u, c.isDigit = true
  noBreak : '\n' ∉ w
  joint : ∀ j : Joint, j.after u = .none → j.after w = .none
  blank : u = [] → ∀ c ∈ w, isSpace c = true

namespace Exchanges

variable {u w : Text} (h : Exchanges u w)
include h

theorem not_mem {c : Char} (hc : c.isDigit = false) : c ∉ u := by
  intro e
  simp [h.digits c e] at hc

/-- What stands behind the first character is in front of `u`, if it is neither a digit nor the line feed. -/
theorem head_eq {cs : Text} {d : Char} (hd : d.isDigit = false) (hn : d ≠ '\n')
    (hhead : (cs ++ (u ++ ['\n'])).head? = some d) : ∃ ds, cs = d :: ds := by
  cases cs with
  | cons e ds =>
    obtain rfl : e = d := by simpa using hhead
    exact ⟨ds, rfl⟩
  | nil =>
    cases u with
    | nil => exact absurd (by simpa using hhead) (Ne.symm hn)
    | cons e es =>
      obtain rfl : e = d := by simpa using hhead
      exact absurd List.mem_cons_self (h.not_mem hd)

/-- A line comment in front of `u` ends before it, or takes it in. -/
theorem lineTail_cases {cs : Text} (hleft : (lineTail .none (cs ++ (u ++ ['\n']))).2 ≠ []) :
    (∃ taken left, cs = taken ++ left ∧ ∀ y, lineTail .none (cs ++ y) = (taken, left ++ y)) ∨
      ∀ rest, lineTail .none (cs ++ (w ++ '\n' :: rest)) = (cs ++ w, '\n' :: rest) := by
  rcases lineTail_append_cases .none cs with ⟨taken, left, rfl, hcs⟩ | hcs
  · exact .inl ⟨taken, '\n' :: left, rfl, hcs⟩
  · right
    intro rest
    rw [hcs] at hleft
    have hjoint := h.joint _ (joint_of_lineTail (h.not_mem (by decide)) hleft)
    rw [hcs, lineTail_line rest h.noBreak hjoint]

/-- A block comment in front of `u` ends before it. -/
theorem blockTail_cases {cs : Text} (hleft : (blockTail false (cs ++ (u ++ ['\n']))).2 ≠ []) :
    ∃ taken left, cs = taken ++ left ∧ ∀ y, blockTail false (cs ++ y) = (taken, left ++ y) := by
  rcases blockTail_append_cases false cs with hcs | ⟨star, hcs⟩
  · exact hcs
  · have hslash : '/' ∉ u ++ ['\n'] := by
      rw [List.mem_append, not_or]
      exact ⟨h.not_mem (by decide), by decide⟩
    rw [hcs, blockTail_of_noSlash star hslash] at hleft
    exact absurd rfl hleft

/-- A blank or comment in front of `u` ends before it, or is a comment that takes it in. -/
theorem scan_cases {fresh : Bool} {c : Char} {cs : Text}
    (htrivia : (scan fresh c (cs ++ (u ++ ['\n']))).1 = .blank ∨ (scan fresh c (cs ++ (u ++ ['\n']))).1 = .comment)
    (hleft : (scan fresh c (cs ++ (u ++ ['\n']))).2.2 ≠ []) :
    (∃ kind taken left, cs = taken ++ left ∧ ∀ y, scan fresh c (cs ++ y) = (kind, taken, left ++ y)) ∨
    ∀ rest, scan fresh c (cs ++ (w ++ '\n' :: rest)) = (.comment, cs ++ w, '\n' :: rest) := by
  by_cases hspace : isSpace c = true
  · exact .inl ⟨.blank, [], cs, rfl, fun y => by rw [scan, if_pos hspace]⟩
  by_cases hline : c = '/' ∧ (cs ++ (u ++ ['\n'])).head? = some '/'
  · obtain ⟨ds, rfl⟩ := h.head_eq (by decide) (by decide) hline.2
    have hscan : ∀ y, scan fresh c ('/' :: ds ++ y) = (.comment, lineTail .none ('/' :: ds ++ y)) := by
      intro y
      rw [scan, if_neg hspace, if_pos ⟨hline.1, rfl⟩]
    rw [hscan] at hleft
    rcases h.lineTail_cases hleft with ⟨taken, left, hcs, htail⟩ | htail
    · exact .inl ⟨.comment, taken, left, hcs, fun y => by rw [hscan, htail]⟩
    · exact .inr fun rest => by rw [hscan, htail]
  by_cases hblock : c = '/' ∧ (cs ++ (u ++ ['\n'])).head? = some '*'
  · obtain ⟨ds, rfl⟩ := h.head_eq (by decide) (by decide) hblock.2
    have hscan : ∀ y, scan fresh c ('*' :: ds ++ y) =
        (.comment, '*' :: (blockTail false (ds ++ y)).1, (blockTail false (ds ++ y)).2) := by
      intro y
      rw [scan, if_neg hspace, if_neg (by simp), if_pos ⟨hblock.1, rfl⟩]
      rfl
    rw [hscan] at hleft
    obtain ⟨taken, left, rfl, htail⟩ := h.blockTail_cases hleft
    exact .inl ⟨.comment, '*' :: taken, left, rfl, fun y => by rw [hscan, htail]⟩
  -- any other lexeme is part of the program
  · rw [scan, if_neg hspace, if_neg hline, if_neg hblock] at htrivia
    split at htrivia
    · simp at htrivia
    split at htrivia
    · simp at htrivia
    split at htrivia <;> simp at htrivia

/-- A digit starts a word. -/
theorem kind_of_head {fresh : Bool} {l : Lexeme} {ls : List Lexeme} (hlex : lex fresh (u ++ ['\n']) = l :: ls)
    (hu : u ≠ []) : l.kind = .word := by
  obtain ⟨d, ds, rfl⟩ := List.exists_cons_of_ne_nil hu
  have hd := h.digits d List.mem_cons_self
  have hne : ∀ c : Char, c.isDigit = false → d ≠ c := by
    rintro c hc rfl
    simp [hd] at hc
  have hword : isWordChar d = true := by simp [isWordChar, Char.isAlphanum, hd]
  have hspace : ¬ isSpace d = true := by
    intro hs
    simp [not_wordChar_of_blank (isBlank_of_isSpace hs)] at hword
  rw [List.cons_append, lex, List.cons.injEq] at hlex
  rw [← hlex.1]
  show (scan fresh d (ds ++ ['\n'])).1 = .word
  rw [scan, if_neg hspace, if_neg (fun e => hne '/' (by decide) e.1), if_neg (fun e => hne '/' (by decide) e.1),
    if_neg (not_or.mpr ⟨hne '"' (by decide), hne '\'' (by decide)⟩), if_neg (fun e => hne '#' (by decide) e.1),
    if_pos hword]

theorem lex_exchange {fresh : Bool} {p : Text} {ls : List Lexeme} (hlex : lex fresh (p ++ (u ++ ['\n'])) = ls ++ [lineFeed])
    (htrivia : ∀ l ∈ ls, l.IsTrivia) (rest : Text) :
    ∃ ls', lex fresh (p ++ (w ++ '\n' :: rest)) = ls' ++ lineFeed :: lex true rest ∧ ∀ l ∈ ls', l.IsTrivia := by
  induction ls generalizing fresh p with
  | nil =>
    have htext := textOf_lex fresh (p ++ (u ++ ['\n']))
    rw [hlex] at htext
    obtain ⟨rfl, rfl⟩ : p = [] ∧ u = [] := by
      have hlength := congrArg List.length htext
      simp only [List.nil_append, textOf_cons, textOf_nil, lineFeed, List.length_append, List.length_cons,
        List.length_nil] at hlength
      exact ⟨List.length_eq_zero_iff.mp (by omega), List.length_eq_zero_iff.mp (by omega)⟩
    have hspace := h.blank rfl
    refine ⟨w.map ofBlank, lex_blankRow fresh (fun c hc => isBlank_of_isSpace (hspace c hc)) rest, ?_⟩
    intro l hl
    obtain ⟨c, hc, rfl⟩ := List.mem_map.mp hl
    exact .inl (if_pos (hspace c hc))
  | cons l ls ih =>
    have hl := htrivia l List.mem_cons_self
    have hls : ∀ l ∈ ls, l.IsTrivia := fun k hk => htrivia k (List.mem_cons_of_mem _ hk)
    cases p with
    | nil =>
      by_cases hu : u = []
      · subst hu
        have hlength := congrArg List.length hlex
        simp [lex_newline, lex] at hlength
      · have hword := h.kind_of_head hlex hu
        simp [IsTrivia, hword] at hl
    | cons c cs =>
      rw [List.cons_append, lex, List.cons_append, List.cons.injEq] at hlex
      obtain ⟨rfl, hrest⟩ := hlex
      have hleft : (scan fresh c (cs ++ (u ++ ['\n']))).2.2 ≠ [] := by
        intro e
        rw [e, lex] at hrest
        simp at hrest
      rcases h.scan_cases hl hleft with ⟨kind, taken, left, rfl, hscan⟩ | hscan
      · rw [hscan] at hl hrest
        obtain ⟨ls', hlex', htrivia'⟩ := ih hrest hls
        refine ⟨⟨kind, c :: taken⟩ :: ls', ?_, ?_⟩
        · rw [List.cons_append, lex, hscan, List.cons_append, hlex']
        · simp only [List.mem_cons, forall_eq_or_imp]
          exact ⟨hl, htrivia'⟩
      · refine ⟨[⟨.comment, c :: (cs ++ w)⟩], ?_, ?_⟩
        · rw [List.cons_append, lex, hscan, lex_newline]
          rfl
        · simp [IsTrivia]

end Exchanges

/-! ## Rows of one comment -/

theorem concat_suffix_concat {l a : Text} {b c : Char} : l ++ [b] <:+ a ++ [c] ↔ b = c ∧ l <:+ a := by
  rw [List.suffix_concat_iff]
  constructor
  · rintro (h | ⟨t, h, ht⟩)
    · simp at h
    · obtain ⟨rfl, hlast⟩ := List.append_inj' h rfl
      exact ⟨by simpa using hlast, ht⟩
  · rintro ⟨rfl, h⟩
    exact .inr ⟨l, rfl, h⟩

theorem Joint.next_eq_slash_iff {j : Joint} {c : Char} : j.next c = .slash ↔ '\\' = c := by
  by_cases hc : c = '\\'
  · simp [next, hc]
  · rw [next, if_neg hc]
    split <;> simp [Ne.symm hc]

theorem Joint.next_eq_none_iff {j : Joint} {c : Char} :
    j.next c = .none ↔ ¬ '\\' = c ∧ ¬ ('\r' = c ∧ j = .slash) := by
  by_cases hc : c = '\\'
  · simp [next, hc]
  · rw [next, if_neg hc]
    split <;> simp_all [eq_comm]

theorem Joint.after_eq_slash_iff {t : Text} : Joint.none.after t = .slash ↔ ['\\'] <:+ t := by
  rcases List.eq_nil_or_concat t with rfl | ⟨a, c, rfl⟩
  · simp [after]
  · have hsuffix := concat_suffix_concat (l := []) (a := a) (b := '\\') (c := c)
    rw [List.nil_append, and_iff_left List.nil_suffix] at hsuffix
    rw [List.concat_eq_append, after_append, hsuffix]
    exact next_eq_slash_iff

/-- Rows are joined by a backslash at the end, also in front of a carriage return. -/
theorem Joint.after_eq_none_iff {t : Text} :
    Joint.none.after t = .none ↔ ¬ ['\\'] <:+ t ∧ ¬ ['\\', '\r'] <:+ t := by
  rcases List.eq_nil_or_concat t with rfl | ⟨a, c, rfl⟩
  · simp [after]
  · have hslash := concat_suffix_concat (l := []) (a := a) (b := '\\') (c := c)
    have hreturn := concat_suffix_concat (l := ['\\']) (a := a) (b := '\r') (c := c)
    rw [List.nil_append, and_iff_left List.nil_suffix] at hslash
    rw [List.singleton_append, ← after_eq_slash_iff] at hreturn
    rw [List.concat_eq_append, after_append, hslash, hreturn]
    exact next_eq_none_iff

end Lexeme

/-- A text of one row that starts with the comment mark fills the row unless its end joins the next one. -/
theorem ownRows_lineComment_iff {body : Text} (hn : '\n' ∉ body) :
    OwnRows ('/' :: '/' :: body) ↔ Joint.none.after body = .none := by
  have hmark : Joint.none.after ('/' :: body) = Joint.none.after body := rfl
  have hbreak : '\n' ∉ '/' :: body := by simpa using hn
  constructor
  · rintro ⟨hlast, -⟩
    have hscan : ∀ y, scan true '/' ('/' :: body ++ y) = (.comment, lineTail .none ('/' :: body ++ y)) := by
      intro y
      rw [scan, if_neg (by decide), if_pos ⟨rfl, rfl⟩]
    rw [← hmark]
    apply joint_of_lineTail hbreak
    intro hleft
    rw [List.cons_append, lex, hscan, hleft, lex] at hlast
    simp [lineFeed] at hlast
  · intro hjoint
    have hcomment : IsLineComment ('/' :: '/' :: body) := ⟨⟨body, rfl⟩, by simpa using hn, hjoint⟩
    rw [ownRows_iff]
    refine ⟨[⟨.comment, '/' :: '/' :: body⟩], ?_, by simp [IsTrivia]⟩
    rw [lex_commentRow true hcomment [], lex]
    rfl

/-! ## Rows before a document -/

/-- The text and a line feed behind it are comments and blanks, whatever document follows. -/
def FillsRows (c : Text) : Prop :=
  ∀ rest, ∃ ls, lex true (c ++ '\n' :: rest) = ls ++ lex true rest ∧ ∀ l ∈ ls, l.IsTrivia

theorem OwnRows.fillsRows {p u w : Text} (h : OwnRows (p ++ u)) (hx : Exchanges u w) : FillsRows (p ++ w) := by
  intro rest
  obtain ⟨ls, hlex, htrivia⟩ := ownRows_iff.mp h
  rw [List.append_assoc] at hlex
  obtain ⟨ls', hlex', htrivia'⟩ := hx.lex_exchange hlex htrivia rest
  refine ⟨ls' ++ [lineFeed], by rw [List.append_assoc, hlex']; simp, ?_⟩
  intro l hl
  rcases List.mem_append.mp hl with hl | hl
  · exact htrivia' l hl
  · rw [List.mem_singleton.mp hl]
    exact .inl rfl

theorem lex_fillsRows {cs : List Text} (h : ∀ c ∈ cs, FillsRows c) (rest : Text) :
    ∃ ls, lex true (cs.flatMap (· ++ ['\n']) ++ rest) = ls ++ lex true rest ∧ ∀ l ∈ ls, l.IsTrivia := by
  induction cs with
  | nil => exact ⟨[], by simp, by simp⟩
  | cons c cs ih =>
    obtain ⟨ls', hlex', htrivia'⟩ := ih fun d hd => h d (List.mem_cons_of_mem _ hd)
    obtain ⟨ls, hlex, htrivia⟩ := h c List.mem_cons_self (cs.flatMap (· ++ ['\n']) ++ rest)
    refine ⟨ls ++ ls', ?_, ?_⟩
    · rw [List.flatMap_cons, List.append_assoc, List.append_assoc, List.singleton_append, hlex, hlex', List.append_assoc]
    · intro l hl
      rcases List.mem_append.mp hl with hl | hl
      · exact htrivia l hl
      · exact htrivia' l hl

/-! ## Rows from the lexemes of a document -/

/-- What is left of a text is lexed for itself. -/
theorem lex_suffix {fresh : Bool} {t : Text} {A ls : List Lexeme} (h : lex fresh t = A ++ ls) :
    ∃ fresh', ls = lex fresh' (textOf ls) := by
  induction A generalizing fresh t with
  | nil =>
    rw [List.nil_append] at h
    exact ⟨fresh, by rw [← h, textOf_lex]⟩
  | cons a A ih =>
    cases t with
    | nil => simp [lex] at h
    | cons c cs =>
      rw [lex, List.cons_append, List.cons.injEq] at h
      exact ih h.2

namespace Lexeme

theorem head?_lineTail (j : Joint) (t : Text) {d : Char} (h : (lineTail j t).2.head? = some d) : d = '\n' := by
  induction t generalizing j with
  | nil => simp [lineTail] at h
  | cons c cs ih =>
    rw [lineTail] at h
    split at h
    · rename_i hc
      rw [← hc.1]
      exact (Option.some.inj h).symm
    · exact ih _ h

theorem getLast?_blockTail (star : Bool) (t : Text) (h : (blockTail star t).2 ≠ []) :
    (blockTail star t).1.getLast? = some '/' := by
  induction t generalizing star with
  | nil => simp [blockTail] at h
  | cons c cs ih =>
    rw [blockTail] at h ⊢
    split at h
    · rename_i hc
      rw [if_pos hc, hc.2]
      rfl
    · rename_i hc
      rw [if_neg hc, List.getLast?_cons, ih _ h]
      rfl

/-- A blank or comment that ends in a line feed, with more behind it on the next row, is the line feed. -/
theorem eq_lineFeed_of_scan {fresh : Bool} {c d : Char} {cs : Text}
    (htrivia : (scan fresh c cs).1 = .blank ∨ (scan fresh c cs).1 = .comment)
    (hlast : (c :: (scan fresh c cs).2.1).getLast? = some '\n') (hhead : (scan fresh c cs).2.2.head? = some d)
    (hd : d ≠ '\n') : (⟨(scan fresh c cs).1, c :: (scan fresh c cs).2.1⟩ : Lexeme) = lineFeed := by
  by_cases hspace : isSpace c = true
  · rw [scan, if_pos hspace] at hlast ⊢
    have hc : c = '\n' := by simpa using hlast
    rw [hc]
    rfl
  by_cases hline : c = '/' ∧ cs.head? = some '/'
  · rw [scan, if_neg hspace, if_pos hline] at hhead
    exact absurd (head?_lineTail _ _ hhead) hd
  by_cases hblock : c = '/' ∧ cs.head? = some '*'
  · rw [scan, if_neg hspace, if_neg hline, if_pos hblock] at hlast hhead
    have hne : (blockTail false cs.tail).2 ≠ [] := by
      intro e
      simp [e] at hhead
    simp [List.getLast?_cons, List.getLast?_append, getLast?_blockTail false cs.tail hne] at hlast
  -- any other lexeme is part of the program
  · rw [scan, if_neg hspace, if_neg hline, if_neg hblock] at htrivia
    split at htrivia
    · simp at htrivia
    split at htrivia
    · simp at htrivia
    split at htrivia <;> simp at htrivia

end Lexeme

/-- A text fills its rows if it is comments and blanks in front of a lexeme that starts the next row. -/
theorem ownRows_of_lex {c t : Text} {A B : List Lexeme} {k : Lexeme} {d : Char}
    (hlex : lex true (c ++ '\n' :: t) = A ++ k :: B) (htext : textOf A = c ++ ['\n']) (htrivia : ∀ l ∈ A, l.IsTrivia)
    (hhead : k.text.head? = some d) (hd : d ≠ '\n') : OwnRows c := by
  obtain ⟨A', l, rfl⟩ : ∃ A' l, A = A' ++ [l] := by
    rcases List.eq_nil_or_concat A with rfl | ⟨A', l, rfl⟩
    · simp at htext
    · exact ⟨A', l, by rw [List.concat_eq_append]⟩
  have hne := text_ne_nil_of_mem_lex (show l ∈ lex true (c ++ '\n' :: t) by rw [hlex]; simp)
  have hlast : l.text.getLast? = some '\n' := by
    have hends := congrArg List.getLast? htext
    obtain ⟨z, hz⟩ := Option.isSome_iff_exists.mp (List.getLast?_isSome.mpr hne)
    rw [textOf_append, textOf_cons, textOf_nil, List.append_nil, List.getLast?_append, hz] at hends
    rw [hz]
    simpa using hends
  have hfeed : l = lineFeed := by
    have hends : lex true (c ++ '\n' :: t) = A' ++ l :: k :: B := by rw [hlex]; simp
    obtain ⟨fresh, hsuffix⟩ := lex_suffix hends
    obtain ⟨e, es, he⟩ := List.exists_cons_of_ne_nil hne
    rw [textOf_cons, he, List.cons_append, lex, List.cons.injEq] at hsuffix
    obtain ⟨hl, hrest⟩ := hsuffix
    have hleft := congrArg (fun ls => (textOf ls).head?) hrest
    simp only [textOf_lex] at hleft
    rw [textOf_cons, List.head?_append, hhead] at hleft
    have hkind := htrivia l (by simp)
    rw [hl] at hlast hkind ⊢
    exact eq_lineFeed_of_scan hkind hlast hleft.symm hd
  subst hfeed
  have hc : textOf A' = c := by simpa [lineFeed] using htext
  have hfront : lex true (c ++ '\n' :: t) = A' ++ lineFeed :: (k :: B) := by rw [hlex]; simp
  have hrow := lex_upTo lex_newline rfl hfront []
  rw [ownRows_iff]
  refine ⟨A', ?_, fun l hl => htrivia l (List.mem_append_left _ hl)⟩
  rw [← hc, hrow, lex]
  rfl

end CommentQuota
