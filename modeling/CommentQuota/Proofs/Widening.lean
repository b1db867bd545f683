/-
  CommentQuota.Proofs.Widening — comment rows put behind an opening brace.

  A widening puts line comments, each on a row of its own, directly behind a brace. If text follows
  the brace on its row, the text moves to a row behind the comments. If not, the last comment takes
  the blank rest of the row, so that the next row is the row behind the comments.

  - `lex_source` / `lex_target`: the lexemes on both sides of a widening.
  - `tokens_source` / `tokens_target`: their places. What stands behind the brace's row moves down by
    the rows of the widening, and what stands on it moves to the start of a row.
  - `functionSpans_target`: the functions stay the same, with their tokens at the moved places.
  - `filter_inserted`: the new tokens are the comments, each at the start of a row.
-/

import CommentQuota.Proofs.Spans
import CommentQuota.Proofs.Traversal

namespace CommentQuota

open Lexeme

/-- Comment rows put behind a brace. `front` are the lexemes before the brace, `gap` is what the last
    comment takes in of the brace's row, and `rest` is what follows. -/
structure Widening where
  front : List Lexeme
  gap : Text
  rest : Text
  lineBreak : Text
  comments : List Text
  lexed : lex true (textOf front ++ '\x7b' :: (gap ++ rest)) = front ++ brace :: lex false (gap ++ rest)
  /-- The gap is empty, for text follows on the row, or it is the blank rest of the row. -/
  gap_cases : (gap = [] ∧ rest.firstRow.hasContent = true) ∨
    ∃ w, gap = w ++ ['\n'] ∧ '\n' ∉ w ∧ ∀ c ∈ w, isBlank c = true
  hashes : looseHash ∉ lex false (gap ++ rest)
  lineBreak_cases : lineBreak = ['\n'] ∨ lineBreak = ['\r', '\n']
  comments_ne_nil : comments ≠ []
  isLineComment : ∀ c ∈ comments, IsLineComment c

namespace Widening

variable (w : Widening)

/-- The text before the comments are put in. -/
def source : Text := textOf w.front ++ '\x7b' :: (w.gap ++ w.rest)

/-- The text with the comments. -/
def target : Text :=
  textOf w.front ++ '\x7b' :: (w.lineBreak ++ (w.comments.flatMap (· ++ ['\n']) ++ w.rest))

/-! ## Lexemes -/

theorem gap_blank {c : Char} (h : c ∈ w.gap) : isBlank c = true := by
  rcases w.gap_cases with ⟨e, -⟩ | ⟨u, e, -, hu⟩
  · simp [e] at h
  · rw [e, List.mem_append, List.mem_singleton] at h
    rcases h with h | rfl
    · exact hu c h
    · decide

theorem lex_gap : lex false (w.gap ++ w.rest) = w.gap.map ofBlank ++ lex true w.rest := by
  have hh := w.hashes
  rcases w.gap_cases with ⟨e, -⟩ | ⟨u, e, -, hu⟩
  · rw [e, List.nil_append] at hh ⊢
    rw [← lex_fresh hh]
    rfl
  · rw [e, List.append_assoc, List.singleton_append, lex_blankRow false hu, List.map_append]
    simp [ofBlank, isSpace]

theorem lex_source : lex true w.source = w.front ++ brace :: (w.gap.map ofBlank ++ lex true w.rest) := by
  rw [source, w.lexed, lex_gap]

theorem isSpace_lineBreak {c : Char} (h : c ∈ w.lineBreak) : isSpace c = true := by
  rcases w.lineBreak_cases with e | e <;> rw [e] at h <;> simp only [List.mem_cons, List.not_mem_nil, or_false] at h
  · subst h; decide
  · rcases h with rfl | rfl <;> decide

/-- The lexemes of the comment rows. -/
def inserted : List Lexeme :=
  w.lineBreak.map ofBlank ++ w.comments.flatMap fun c => [⟨.comment, c⟩, ⟨.blank, ['\n']⟩]

theorem textOf_inserted : textOf w.inserted = w.lineBreak ++ w.comments.flatMap (· ++ ['\n']) := by
  have hcomments : ∀ cs : List Text,
      textOf (cs.flatMap fun c => [⟨.comment, c⟩, ⟨.blank, ['\n']⟩]) = cs.flatMap (· ++ ['\n']) := by
    intro cs
    induction cs with
    | nil => rfl
    | cons c cs ih => simp [ih]
  rw [inserted, textOf_append, textOf_map_ofBlank, hcomments]

theorem lex_target : lex true w.target = w.front ++ brace :: (w.inserted ++ lex true w.rest) := by
  have hbreak : ∀ t, lex false (w.lineBreak ++ t) = w.lineBreak.map ofBlank ++ lex true t := by
    intro t
    rcases w.lineBreak_cases with e | e <;> rw [e]
    · exact lex_newline false t
    · rw [List.cons_append, lex_blank false (by decide), List.singleton_append, lex_newline]
      rfl
  have hempty : w.comments.isEmpty = false := by simp [w.comments_ne_nil]
  rw [target, lex_upToBrace w.lexed, hbreak, lex_commentRows true w.isLineComment, inserted, hempty]
  simp

theorem kind_of_mem_inserted {l : Lexeme} (h : l ∈ w.inserted) : l.kind = .blank ∨ l.kind = .comment := by
  rw [inserted, List.mem_append, List.mem_map, List.mem_flatMap] at h
  rcases h with ⟨c, hc, rfl⟩ | ⟨c, -, hc⟩
  · exact .inl (if_pos (w.isSpace_lineBreak hc))
  · simp only [List.mem_cons, List.not_mem_nil, or_false] at hc
    rcases hc with rfl | rfl
    · exact .inr rfl
    · exact .inl rfl

theorem hashesLead_target (h : HashesLead w.source) : HashesLead w.target := by
  unfold HashesLead at h ⊢
  rw [lex_source] at h
  rw [lex_target]
  simp only [List.mem_append, List.mem_cons, not_or] at h ⊢
  refine ⟨h.1, h.2.1, ?_, h.2.2.2⟩
  intro e
  rcases w.kind_of_mem_inserted e with e | e <;> simp [looseHash] at e

/-! ## Places -/

/-- The place directly behind the brace. -/
def site : Position := (⟨0, 0⟩ : Position).afterText (textOf w.front ++ ['\x7b'])

/-- The place where the rest starts in the source. -/
def origin : Position := w.site.afterText w.gap

/-- The number of rows by which the rest moves down. -/
def growth : Int := w.comments.length + if w.gap = [] then 1 else 0

/-- The token of the brace. -/
def braceToken : Token := ⟨.symbol, ['\x7b'], (⟨0, 0⟩ : Position).afterText (textOf w.front), w.site⟩

theorem growth_pos : 0 < w.growth := by
  have := List.length_pos_iff.mpr w.comments_ne_nil
  unfold growth
  split <;> omega

theorem origin_row : w.origin.row + w.growth = w.site.row + 1 + w.comments.length := by
  unfold origin growth
  rcases w.gap_cases with ⟨e, -⟩ | ⟨u, e, hu, -⟩
  · simp only [e, Position.afterText_nil, if_true]; omega
  · have hne : w.gap ≠ [] := by simp [e]
    rw [if_neg hne, e, Position.afterText_line, List.count_eq_zero.mpr hu]
    simp only; omega

theorem gap_eq_nil_iff : w.gap = [] ↔ w.origin.row = w.site.row := by
  have := w.origin_row
  unfold growth at this
  split at this <;> rename_i hgap <;> simp only [hgap, true_iff, false_iff] <;> omega

theorem site_row_le : w.site.row ≤ w.origin.row :=
  Position.row_le_of_not_before (Position.not_afterText_before _ _)

theorem not_origin_before_site : ¬ w.origin.Before w.site := Position.not_afterText_before _ _

theorem afterText_lineBreak : w.site.afterText w.lineBreak = ⟨w.site.row + 1, 0⟩ := by
  rcases w.lineBreak_cases with e | e <;> rw [e] <;> simp [Position.after]

/-- The rest starts in the target at the start of the row behind the comments. -/
theorem afterText_inserted : w.site.afterText (textOf w.inserted) = w.origin.shift w.origin w.growth := by
  have hrows : ∀ (cs : List Text) (r : Int), (∀ c ∈ cs, '\n' ∉ c) →
      (⟨r, 0⟩ : Position).afterText (cs.flatMap (· ++ ['\n'])) = ⟨r + cs.length, 0⟩ := by
    intro cs
    induction cs with
    | nil => intro r _; simp
    | cons c cs ih =>
      intro r h
      rw [List.flatMap_cons, Position.afterText_append, Position.afterText_line,
        List.count_eq_zero.mpr (h c (by simp)), ih _ (fun d hd => h d (by simp [hd]))]
      simp only [Position.mk.injEq, and_true, List.length_cons]
      omega
  rw [textOf_inserted, Position.afterText_append, afterText_lineBreak, hrows _ _ (fun c hc => (w.isLineComment c hc).noBreak),
    Position.shift_self, origin_row]

theorem tokens_source :
    tokens w.source = place ⟨0, 0⟩ w.front ++
      w.braceToken :: (place w.site (w.gap.map ofBlank) ++ place w.origin (lex true w.rest)) := by
  rw [tokens, lex_source, place_append, place, place_append, textOf_map_ofBlank]
  simp only [brace, braceToken, origin, site, Position.afterText_append]

theorem tokens_target :
    tokens w.target = place ⟨0, 0⟩ w.front ++
      w.braceToken :: (place w.site w.inserted ++ (place w.origin (lex true w.rest)).map (·.shift w.origin w.growth)) := by
  rw [← place_shift (Int.le_refl _), ← afterText_inserted, tokens, lex_target, place_append, place, place_append]
  simp only [brace, braceToken, site, Position.afterText_append]

theorem mem_source_of_front {t : Token} (h : t ∈ place ⟨0, 0⟩ w.front) : t ∈ tokens w.source := by
  rw [tokens_source]
  exact List.mem_append_left _ h

theorem mem_source_of_rest {t : Token} (h : t ∈ place w.origin (lex true w.rest)) : t ∈ tokens w.source := by
  rw [tokens_source]
  simp [h]

theorem front_before_site {t : Token} (h : t ∈ place ⟨0, 0⟩ w.front) : ¬ w.site.Before t.stop := by
  refine Position.not_before_trans (place_bounds h).2.1 ?_
  rw [site, Position.afterText_append]
  exact Position.not_afterText_before _ _

theorem front_before_origin {t : Token} (h : t ∈ place ⟨0, 0⟩ w.front) : ¬ w.origin.Before t.stop :=
  Position.not_before_trans (w.front_before_site h) w.not_origin_before_site

/-- Where a token of the source stands in the target. -/
def move (t : Token) : Token := if t.start.Before w.origin then t else t.shift w.origin w.growth

theorem move_kind (t : Token) : (w.move t).kind = t.kind := by
  unfold move; split <;> rfl

theorem move_text (t : Token) : (w.move t).text = t.text := by
  unfold move; split <;> rfl

theorem move_front {t : Token} (h : t ∈ place ⟨0, 0⟩ w.front) : w.move t = t := by
  rw [move, if_pos ((start_before_stop (w.mem_source_of_front h)).trans_not_before (w.front_before_origin h))]

theorem move_brace : w.move w.braceToken = w.braceToken := by
  have hstart : w.braceToken.start.Before w.site := by
    rw [site, Position.afterText_append]
    exact Position.before_afterText _ (by simp)
  rw [move, if_pos (hstart.trans_not_before w.not_origin_before_site)]

theorem move_rest {t : Token} (h : t ∈ place w.origin (lex true w.rest)) : w.move t = t.shift w.origin w.growth := by
  rw [move, if_neg (place_bounds h).1]

/-! ## Functions -/

/-- The tokens of a gap open and close nothing. -/
theorem inert_gap {t : Token} (h : t ∈ place w.site (w.gap.map ofBlank)) : t.Inert := by
  obtain ⟨c, hc, he⟩ := List.mem_map.mp (mem_lexeme_of_mem_place h)
  have hblank := w.gap_blank hc
  have htext : t.text = [c] := by
    rw [ofBlank, Lexeme.mk.injEq] at he
    exact he.2.symm
  have hno : ∀ d, isBlank d = false → t.isSymbol d = false := by
    intro d hd
    rw [Bool.eq_false_iff]
    intro e
    have : c = d := by simpa [htext] using (Token.isSymbol_eq_true.mp e).2
    simp [← this, hblank] at hd
  exact ⟨hno _ (by decide), hno _ (by decide), hno _ (by decide), hno _ (by decide)⟩

theorem functionSpans_target :
    functionSpans (tokens w.target) = (functionSpans (tokens w.source)).map (·.map w.move) := by
  have hbrace : w.braceToken.isStructural = true := rfl
  have hsymbol : w.braceToken.isSymbol Functions.openBrace = true := rfl
  have hinserted : (place w.site w.inserted).filter Token.isStructural = [] := by
    rw [List.filter_eq_nil_iff]
    intro t ht
    have := w.kind_of_mem_inserted (mem_lexeme_of_mem_place ht)
    simp only at this
    rcases this with e | e <;> simp [Token.isStructural, e]
  have hinert : ∀ t ∈ (place w.site (w.gap.map ofBlank)).filter Token.isStructural, t.Inert :=
    fun t ht => w.inert_gap (List.mem_filter.mp ht).1
  have hfront : ((place ⟨0, 0⟩ w.front).filter Token.isStructural).map w.move =
      (place ⟨0, 0⟩ w.front).filter Token.isStructural := by
    refine Eq.trans (List.map_congr_left ?_) (List.map_id _)
    intro t ht
    exact w.move_front (List.mem_filter.mp ht).1
  have hrest : ((place w.origin (lex true w.rest)).filter Token.isStructural).map w.move =
      ((place w.origin (lex true w.rest)).map (·.shift w.origin w.growth)).filter Token.isStructural := by
    rw [List.filter_map]
    exact List.map_congr_left fun t ht => w.move_rest (List.mem_filter.mp ht).1
  have hsource : functionSpans (tokens w.source) =
      Functions.spans {} ((place ⟨0, 0⟩ w.front).filter Token.isStructural ++
        w.braceToken :: (place w.origin (lex true w.rest)).filter Token.isStructural) := by
    rw [functionSpans, tokens_source, List.filter_append, List.filter_cons_of_pos hbrace, List.filter_append,
      Functions.spans_inert {} _ _ hsymbol hinert]
  have htarget : functionSpans (tokens w.target) =
      Functions.spans {} (((place ⟨0, 0⟩ w.front).filter Token.isStructural ++
        w.braceToken :: (place w.origin (lex true w.rest)).filter Token.isStructural).map w.move) := by
    rw [functionSpans, tokens_target, List.filter_append, List.filter_cons_of_pos hbrace, List.filter_append,
      hinserted, List.nil_append, List.map_append, List.map_cons, hfront, hrest, move_brace]
  rw [htarget, hsource, ← Functions.spans_map w.move_kind w.move_text {}]
  rfl

/-! ## Comments -/

/-- The tokens of the comments, each at the start of a row. -/
def added : List Token :=
  w.comments.mapIdx fun i c => ⟨.comment, c, ⟨w.site.row + 1 + i, 0⟩, ⟨w.site.row + 1 + i, c.byteLength⟩⟩

/-- The comments are all there is between the line breaks. -/
theorem filter_inserted (p : Token → Bool) (hcomment : ∀ t, t.kind = .comment → p t = true)
    (hblank : ∀ t, t.kind = .blank → p t = false) : (place w.site w.inserted).filter p = w.added := by
  have hrows : ∀ (cs : List Text) (r : Int), (∀ c ∈ cs, '\n' ∉ c) →
      (place ⟨r, 0⟩ (cs.flatMap fun c => [⟨.comment, c⟩, ⟨.blank, ['\n']⟩])).filter p =
        cs.mapIdx fun i c => ⟨.comment, c, ⟨r + i, 0⟩, ⟨r + i, c.byteLength⟩⟩ := by
    intro cs
    induction cs with
    | nil => intro r _; rfl
    | cons c cs ih =>
      intro r h
      have hc : (⟨r, 0⟩ : Position).afterText c = ⟨r, c.byteLength⟩ := by
        rw [Position.afterText_of_noBreak _ (h c (by simp))]; simp
      have hn : (⟨r, c.byteLength⟩ : Position).afterText ['\n'] = ⟨r + 1, 0⟩ := rfl
      have ih := ih (r + 1) (fun d hd => h d (by simp [hd]))
      simp only [List.flatMap_cons, List.cons_append, List.nil_append, place, hc, hn]
      rw [List.filter_cons_of_pos (hcomment _ rfl), List.filter_cons_of_neg (by simp [hblank]), ih, List.mapIdx_cons]
      simp only [Int.ofNat_zero, Int.natCast_add, Int.natCast_one, Int.add_zero, Int.add_assoc, Int.add_comm 1]
  have hbreak : (place w.site (w.lineBreak.map ofBlank)).filter p = [] := by
    rw [List.filter_eq_nil_iff]
    intro t ht
    obtain ⟨c, hc, he⟩ := List.mem_map.mp (mem_lexeme_of_mem_place ht)
    have hkind : t.kind = .blank := by
      rw [ofBlank, Lexeme.mk.injEq] at he
      rw [← he.1, if_pos (w.isSpace_lineBreak hc)]
    simp [hblank t hkind]
  rw [inserted, place_append, List.filter_append, hbreak, List.nil_append, textOf_map_ofBlank, afterText_lineBreak,
    hrows _ _ (fun c hc => (w.isLineComment c hc).noBreak)]
  rfl

theorem mem_added {t : Token} : t ∈ w.added ↔ t ∈ place w.site w.inserted ∧ t.kind = .comment := by
  rw [← w.filter_inserted (·.kind == .comment) (by simp) (fun t ht => by simp [ht]), List.mem_filter, beq_iff_eq]

/-- Neither the brace nor the gap is a comment. -/
theorem comment_mem_source {t : Token} (h : t ∈ tokens w.source) (hk : t.kind = .comment) :
    t ∈ place ⟨0, 0⟩ w.front ∨ t ∈ place w.origin (lex true w.rest) := by
  rw [tokens_source, List.mem_append, List.mem_cons, List.mem_append] at h
  rcases h with h | rfl | h | h
  · exact .inl h
  · simp [braceToken] at hk
  · obtain ⟨c, -, hc⟩ := List.mem_map.mp (mem_lexeme_of_mem_place h)
    rw [ofBlank, Lexeme.mk.injEq, hk] at hc
    split at hc <;> simp at hc
  · exact .inr h

end Widening

end CommentQuota
