/-
  CommentQuota.Proofs.Enclosing — the function under the cursor, before and after a widening.

  The function whose body a widening widens ends further down afterwards, and the functions behind it
  start further down. So a row that lies in the function lies in it afterwards, and in none of the
  functions behind it.

  - `exists_body`: where the tokens of a function of a document stand.
  - `enclosingFunction_target`: the enclosing function of the target.
  - `commentCovers_target`: the rows of its comments: those it had, and those of the new ones.
-/

import CommentQuota.Proofs.Widening

namespace CommentQuota

open Lexeme

/-! ## Functions of a document -/

/-- A function of a document: the lexemes before the brace that opens its body, the text behind that
    brace, and the functions behind it. -/
structure FunctionSpan.BodyAt (t : Text) (f : FunctionSpan) (gs : List FunctionSpan) (front : List Lexeme)
    (post : Text) : Prop where
  text_eq : t = textOf front ++ '\x7b' :: post
  lexed : lex true t = front ++ brace :: lex false post
  opening_eq : f.opening = ⟨.symbol, ['\x7b'], (⟨0, 0⟩ : Position).afterText (textOf front),
    (⟨0, 0⟩ : Position).afterText (textOf front ++ ['\x7b'])⟩
  first_mem : f.first ∈ place ⟨0, 0⟩ front
  closing_mem : f.closing ∈ place f.opening.stop (lex false post)
  closes : f.closing.isSymbol Functions.closeBrace = true
  later : ∀ g ∈ gs, ¬ g.first.start.Before f.closing.stop

theorem exists_body {t : Text} {fs gs : List FunctionSpan} {f : FunctionSpan}
    (h : functionSpans (tokens t) = fs ++ f :: gs) : ∃ front post, f.BodyAt t gs front post := by
  obtain ⟨A, B, C, hsplit⟩ := Functions.spans_eq_append_cons _ _ fs (by simp) h
  -- the tokens between structural ones go with the structural token before them
  obtain ⟨P, Q, htokens, rfl, hQ⟩ := List.filter_eq_append_iff.mp hsplit.tokens_eq
  obtain ⟨P', Q', rfl, hP', -, hQ'⟩ := List.filter_eq_cons_iff.mp hQ
  obtain ⟨R, S, rfl, rfl, hS⟩ := List.filter_eq_append_iff.mp hQ'
  obtain ⟨S', U, rfl, hS', -, rfl⟩ := List.filter_eq_cons_iff.mp hS
  have htokens : place ⟨0, 0⟩ (lex true t) = (P ++ P') ++ f.opening :: ((R ++ S') ++ f.closing :: U) := by
    rw [← tokens, htokens]; simp
  obtain ⟨front, l, bs, hlex, hfront, hbs, hopening⟩ := place_eq_append_cons htokens
  obtain ⟨hkind, htext⟩ := Token.isSymbol_eq_true.mp hsplit.opens
  rw [hopening] at hkind htext
  have hl : l = brace := by
    cases l
    simp only at hkind htext
    rw [hkind, htext]
    rfl
  subst hl
  have hbehind := lex_afterBrace hlex
  obtain ⟨as, m, cs, -, -, hU, -⟩ := place_eq_append_cons hbs.symm
  refine ⟨front, textOf bs, ?_, by rw [hlex, ← hbehind], ?_, ?_, ?_, hsplit.closes, ?_⟩
  · rw [← textOf_lex true t, hlex, textOf_append, textOf_cons]
    rfl
  · rw [hopening, Position.afterText_append]
    rfl
  · rw [← hfront]
    exact List.mem_append_left _ (List.mem_filter.mp hsplit.first_mem_front).1
  · rw [← hbehind, ← hbs]
    simp
  · intro g hg
    obtain ⟨gs₁, gs₂, hgs⟩ := List.append_of_mem hg
    obtain ⟨A', B', C', hsplit'⟩ := Functions.spans_eq_append_cons _ _ gs₁ (by simp) (hsplit.later_eq.symm.trans hgs)
    have hmem : g.first ∈ U.filter Token.isStructural := by
      rw [hsplit'.tokens_eq]
      exact List.mem_append_left _ hsplit'.first_mem_front
    have hmem := (List.mem_filter.mp hmem).1
    rw [hU] at hmem
    exact (place_bounds hmem).1

/-! ## The function that is widened -/

namespace FunctionSpan

theorem contains_iff {f : FunctionSpan} {t : Token} :
    f.contains t = true ↔ ¬ t.start.Before f.first.start ∧ t.start.Before f.closing.stop := by
  simp only [contains, Position.Before, Bool.and_eq_true, Bool.or_eq_true, decide_eq_true_eq, beq_iff_eq]
  omega

/-- One of the tokens is a comment that starts in the function and covers the row. -/
def CommentCovers (f : FunctionSpan) (ts : List Token) (r : Int) : Prop :=
  ∃ t ∈ ts, t.kind = .comment ∧ f.contains t = true ∧ t.start.row ≤ r ∧ r ≤ t.stop.row

instance (f : FunctionSpan) (ts : List Token) (r : Int) : Decidable (f.CommentCovers ts r) :=
  inferInstanceAs (Decidable (∃ t ∈ ts, _))

theorem commentCovers_append {f : FunctionSpan} {ts us : List Token} {r : Int} :
    f.CommentCovers (ts ++ us) r ↔ f.CommentCovers ts r ∨ f.CommentCovers us r := by
  simp only [CommentCovers, List.mem_append, or_and_right, exists_or]

end FunctionSpan

namespace Widening

variable {w : Widening}

theorem commentCovers_source {f : FunctionSpan} {r : Int} :
    f.CommentCovers (tokens w.source) r ↔
      f.CommentCovers (place ⟨0, 0⟩ w.front) r ∨ f.CommentCovers (place w.origin (lex true w.rest)) r := by
  constructor
  · rintro ⟨t, ht, hk, hc⟩
    rcases w.comment_mem_source ht hk with hmem | hmem
    · exact .inl ⟨t, hmem, hk, hc⟩
    · exact .inr ⟨t, hmem, hk, hc⟩
  · rintro (⟨t, ht, hc⟩ | ⟨t, ht, hc⟩)
    · exact ⟨t, w.mem_source_of_front ht, hc⟩
    · exact ⟨t, w.mem_source_of_rest ht, hc⟩

theorem front_row_le {f : FunctionSpan} {r : Int} (h : f.CommentCovers (place ⟨0, 0⟩ w.front) r) : r ≤ w.site.row := by
  obtain ⟨t, ht, -, -, -, hle⟩ := h
  exact Int.le_trans hle (Position.row_le_of_not_before (w.front_before_site ht))

theorem le_rest_row {f : FunctionSpan} {r : Int} (h : f.CommentCovers (place w.origin (lex true w.rest)) r) :
    w.origin.row ≤ r := by
  obtain ⟨t, ht, -, -, hle, -⟩ := h
  exact Int.le_trans (Position.row_le_of_not_before (place_bounds ht).1) hle

/-- The brace opens the body of the function `f`, and the functions `gs` stand behind it. -/
structure Opens (w : Widening) (f : FunctionSpan) (gs : List FunctionSpan) : Prop where
  opening_eq : f.opening = w.braceToken
  first_mem : f.first ∈ place ⟨0, 0⟩ w.front
  closing_mem : f.closing ∈ place w.origin (lex true w.rest)
  later : ∀ g ∈ gs, ¬ g.first.start.Before f.closing.stop

theorem opens_of_bodyAt {f : FunctionSpan} {gs : List FunctionSpan}
    (h : f.BodyAt w.source gs w.front (w.gap ++ w.rest)) : w.Opens f gs := by
  have hopening : f.opening = w.braceToken := h.opening_eq
  refine ⟨hopening, h.first_mem, ?_, h.later⟩
  have hmem := h.closing_mem
  rw [hopening, lex_gap, place_append, List.mem_append, textOf_map_ofBlank] at hmem
  rcases hmem with hmem | hmem
  · -- no blank is a brace
    have := (w.inert_gap hmem).2.2.2
    simp [h.closes] at this
  · exact hmem

namespace Opens

variable {f : FunctionSpan} {gs : List FunctionSpan} (h : w.Opens f gs)

include h

theorem map_eq : f.map w.move = ⟨f.first, f.name, w.braceToken, f.closing.shift w.origin w.growth⟩ := by
  rw [FunctionSpan.map, w.move_front h.first_mem, h.opening_eq, w.move_brace, w.move_rest h.closing_mem]

theorem first_before_site : f.first.start.Before w.site :=
  (start_before_stop (w.mem_source_of_front h.first_mem)).trans_not_before (w.front_before_site h.first_mem)

theorem origin_before_closing : w.origin.Before f.closing.stop :=
  (start_before_stop h.closing_mem).of_not_before (place_bounds h.closing_mem).1

theorem coversRow_target {row : Int} (hrow : f.coversRow row = true) : (f.map w.move).coversRow row = true := by
  have := w.growth_pos
  rw [FunctionSpan.coversRow_iff] at hrow ⊢
  simp only [h.map_eq, Token.shift, Position.shift_row]
  omega

/-- The functions behind the one that covers a row are moved below the row. -/
theorem later_not_coversRow {row : Int} (hrow : f.coversRow row = true) {g : FunctionSpan} (hg : g ∈ gs) :
    (g.map w.move).coversRow row = false := by
  have hpos := w.growth_pos
  have hclosing := Position.row_le_of_not_before (h.later g hg)
  have hmove : w.move g.first = g.first.shift w.origin w.growth :=
    if_neg (Position.not_before_trans h.origin_before_closing.not_before (h.later g hg))
  rw [FunctionSpan.coversRow_iff] at hrow
  rw [Bool.eq_false_iff, ne_eq, FunctionSpan.coversRow_iff]
  simp only [FunctionSpan.map, hmove, Token.shift, Position.shift_row]
  omega

theorem enclosingFunction_target {fs : List FunctionSpan} {row : Int}
    (hspans : functionSpans (tokens w.source) = fs ++ f :: gs) (hrow : f.coversRow row = true) :
    enclosingFunction (some (parse w.target)) row = some ((f.map w.move).node (commentTokens w.target)) := by
  rw [enclosingFunction_parse_eq_some]
  refine ⟨fs.map (·.map w.move), f.map w.move, gs.map (·.map w.move), ?_, h.coversRow_target hrow, ?_, rfl⟩
  · rw [w.functionSpans_target, hspans, List.map_append, List.map_cons]
  · intro g' hg'
    obtain ⟨g, hg, rfl⟩ := List.mem_map.mp hg'
    exact h.later_not_coversRow hrow hg

/-! ## Its comments -/

theorem contains_front {t : Token} (ht : t ∈ place ⟨0, 0⟩ w.front) : (f.map w.move).contains t = f.contains t := by
  have hpos := w.growth_pos
  have hclosing := h.origin_before_closing
  have hclosing' : w.origin.Before (f.closing.stop.shift w.origin w.growth) := by
    left
    have := hclosing.row_le
    rw [Position.shift_row]
    omega
  have horigin : t.start.Before w.origin :=
    (start_before_stop (w.mem_source_of_front ht)).trans_not_before (w.front_before_origin ht)
  rw [Bool.eq_iff_iff, FunctionSpan.contains_iff, FunctionSpan.contains_iff, h.map_eq]
  exact and_congr_right fun _ => iff_of_true (horigin.trans hclosing') (horigin.trans hclosing)

theorem contains_rest {t : Token} (ht : t ∈ place w.origin (lex true w.rest)) :
    (f.map w.move).contains (t.shift w.origin w.growth) = f.contains t := by
  have hpos := w.growth_pos
  have hfirst : f.first.start.Before w.origin := h.first_before_site.trans_not_before w.not_origin_before_site
  have hstart : f.first.start.Before (t.start.shift w.origin w.growth) := by
    left
    have := hfirst.row_le
    have := Position.row_le_of_not_before (place_bounds ht).1
    rw [Position.shift_row]
    omega
  have hsource : ¬ t.start.Before f.first.start :=
    Position.not_before_trans hfirst.not_before (place_bounds ht).1
  rw [Bool.eq_iff_iff, FunctionSpan.contains_iff, FunctionSpan.contains_iff, h.map_eq]
  exact and_congr (iff_of_true hstart.not_before hsource) Position.before_shift

theorem contains_added {t : Token} (ht : t ∈ w.added) : (f.map w.move).contains t = true := by
  obtain ⟨i, hi, rfl⟩ := List.mem_mapIdx.mp ht
  have hfirst := h.first_before_site.row_le
  have hclosing := h.origin_before_closing.row_le
  have horigin := w.origin_row
  rw [FunctionSpan.contains_iff, h.map_eq]
  refine ⟨Position.Before.not_before (.inl ?_), .inl ?_⟩
  · show f.first.start.row < w.site.row + 1 + i
    omega
  · show w.site.row + 1 + i < f.closing.stop.row + w.growth
    omega

/-- The comments cover the rows that they covered, moved down behind the brace, and those added. -/
theorem commentCovers_target {r : Int} :
    (f.map w.move).CommentCovers (tokens w.target) r ↔
      f.CommentCovers (place ⟨0, 0⟩ w.front) r ∨ (w.site.row < r ∧ r ≤ w.site.row + w.comments.length) ∨
        f.CommentCovers (place w.origin (lex true w.rest)) (r - w.growth) := by
  have hfront : (f.map w.move).CommentCovers (place ⟨0, 0⟩ w.front) r ↔ f.CommentCovers (place ⟨0, 0⟩ w.front) r := by
    constructor
    · rintro ⟨t, ht, hk, hc, hr⟩
      exact ⟨t, ht, hk, by rwa [h.contains_front ht] at hc, hr⟩
    · rintro ⟨t, ht, hk, hc, hr⟩
      exact ⟨t, ht, hk, by rwa [h.contains_front ht], hr⟩
  have hrest : (f.map w.move).CommentCovers ((place w.origin (lex true w.rest)).map (·.shift w.origin w.growth)) r ↔
      f.CommentCovers (place w.origin (lex true w.rest)) (r - w.growth) := by
    constructor
    · rintro ⟨u, hu, hk, hc, hr1, hr2⟩
      obtain ⟨t, ht, rfl⟩ := List.mem_map.mp hu
      simp only [Token.shift, Position.shift_row] at hr1 hr2
      exact ⟨t, ht, hk, by rwa [h.contains_rest ht] at hc, by omega, by omega⟩
    · rintro ⟨t, ht, hk, hc, hr1, hr2⟩
      refine ⟨_, List.mem_map_of_mem ht, hk, by rwa [h.contains_rest ht], ?_, ?_⟩ <;>
        simp only [Token.shift, Position.shift_row] <;> omega
  have hadded : (f.map w.move).CommentCovers (w.braceToken :: place w.site w.inserted) r ↔
      w.site.row < r ∧ r ≤ w.site.row + w.comments.length := by
    constructor
    · rintro ⟨t, ht, hk, -, hr1, hr2⟩
      have ht : t ∈ place w.site w.inserted := by
        rcases List.mem_cons.mp ht with rfl | ht
        · simp [braceToken] at hk
        · exact ht
      obtain ⟨i, hi, rfl⟩ := List.mem_mapIdx.mp (w.mem_added.mpr ⟨ht, hk⟩)
      simp only at hr1 hr2
      omega
    · rintro ⟨hr1, hr2⟩
      have hi : (r - w.site.row - 1).toNat < w.comments.length := by omega
      obtain ⟨t, ht, hstart, hstop⟩ : ∃ t ∈ w.added, t.start.row = r ∧ t.stop.row = r :=
        ⟨_, List.mem_mapIdx.mpr ⟨_, hi, rfl⟩, by simp only; omega, by simp only; omega⟩
      obtain ⟨hmem, hk⟩ := w.mem_added.mp ht
      exact ⟨t, List.mem_cons_of_mem _ hmem, hk, h.contains_added ht, by omega, by omega⟩
  rw [tokens_target, ← List.cons_append, FunctionSpan.commentCovers_append, FunctionSpan.commentCovers_append, hfront,
    hadded, hrest]

end Opens

end Widening

end CommentQuota
