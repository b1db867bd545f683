/-
  CommentQuota.Proofs.Bystanders — the functions that a fix is not about.

  A fix widens the body of one function. The functions before it stay where they are, and those behind
  it move down as a whole. Functions may share rows: one can end on the row of the brace, and one can
  start on the row that is cut behind it. That row keeps the brace, so it has content before and after,
  and the text that moves off it starts a row with content of its own. So both ways of counting find
  the same rows in every other function, all moved down alike, and the same report.

  - `functionsOf_parse`: the functions of a document, in their order.
  - `Classification.MovedBy`: the same rows further down; the numbers of rows stay.
  - `Widening.hasText_upTo` / `Widening.hasText_from`: rows keep their content, also the one that is cut.
  - `Widening.classify_before` / `Widening.classify_behind`: the functions on both sides of a widening.
  - `fix_sparesOthers`: what an applied fix does to every other function.
-/

import CommentQuota.Proofs.RowAccounting

namespace CommentQuota

open Classification Lexeme

/-! ## The functions of a document -/

/-- The function definitions of a tree, in the order of visit. -/
def functionsOf (root : Node) : List Node := (walk (some root)).filter (·.kind == Node.functionKind)

theorem functionsOf_node (f : FunctionSpan) (cs : List Token) : functionsOf (f.node cs) = [f.node cs] := by
  have hcomments : ((cs.filter f.contains).map FunctionSpan.commentNode).filter (·.kind == Node.functionKind) = [] := by
    rw [List.filter_eq_nil_iff]
    intro n hn
    obtain ⟨t, -, rfl⟩ := List.mem_map.mp hn
    simp [FunctionSpan.commentNode, Node.commentKind, Node.functionKind]
  have hname : (f.nameNode.kind == Node.functionKind) = false := rfl
  have hbody : (f.bodyNode.kind == Node.functionKind) = false := rfl
  have hkind : ((f.node cs).kind == Node.functionKind) = true := rfl
  rw [functionsOf, FunctionSpan.walk_node]
  simp only [List.filter_cons, hname, hbody, hkind, hcomments, if_true, Bool.false_eq_true, if_false]

/-- They are the functions found among the tokens. -/
theorem functionsOf_parse (t : Text) :
    functionsOf (parse t) = (functionSpans (tokens t)).map (·.node (commentTokens t)) := by
  have hfunctions : ∀ fs : List FunctionSpan,
      (Node.preorderAll (fs.map (·.node (commentTokens t)))).filter (·.kind == Node.functionKind) =
        fs.map (·.node (commentTokens t)) := by
    intro fs
    induction fs with
    | nil => rfl
    | cons f fs ih =>
      have hnamed : (f.node (commentTokens t)).named = true := rfl
      have hnode := functionsOf_node f (commentTokens t)
      rw [functionsOf, walk_eq_preorder] at hnode
      rw [List.map_cons, Node.preorderAll, if_pos hnamed, List.filter_append, ih, hnode, List.singleton_append]
  have hkind : ((parse t).kind == Node.functionKind) = false := rfl
  rw [functionsOf, walk_eq_preorder, Node.preorder_eq, List.filter_cons, hkind, if_neg Bool.false_ne_true]
  exact hfunctions _

/-- A function starts before the brace that opens its body, and that brace stands before the one that
    closes it. -/
structure FunctionSpan.Ordered (f : FunctionSpan) : Prop where
  first_opening : f.first.start.Before f.opening.start
  opening_closing : f.opening.start.Before f.closing.start
  closing_stop : f.closing.start.Before f.closing.stop

theorem FunctionSpan.BodyAt.ordered {t : Text} {f : FunctionSpan} {gs : List FunctionSpan} {front : List Lexeme}
    {post : Text} (h : f.BodyAt t gs front post) : f.Ordered := by
  have hfirst : f.first ∈ place ⟨0, 0⟩ (lex true t) := by
    rw [h.lexed, place_append]
    exact List.mem_append_left _ h.first_mem
  have hfront : ¬ f.opening.start.Before f.first.stop := by
    rw [h.opening_eq]
    exact (place_bounds h.first_mem).2.1
  have hbrace : f.opening.start.Before f.opening.stop := by
    rw [h.opening_eq, Position.afterText_append]
    exact Position.before_afterText _ (List.cons_ne_nil _ _)
  exact ⟨(start_before_stop hfirst).trans_not_before hfront, hbrace.trans_not_before (place_bounds h.closing_mem).1,
    start_before_stop h.closing_mem⟩

/-- A function before another one ends where that one starts, or earlier. -/
theorem ordered_of_earlier {t : Text} {fs gs : List FunctionSpan} {f g : FunctionSpan}
    (hspans : functionSpans (tokens t) = fs ++ f :: gs) (hg : g ∈ fs) :
    g.Ordered ∧ ¬ f.first.start.Before g.closing.stop := by
  obtain ⟨as, bs, rfl⟩ := List.append_of_mem hg
  rw [List.append_assoc, List.cons_append] at hspans
  obtain ⟨front, post, hbody⟩ := exists_body hspans
  exact ⟨hbody.ordered, hbody.later f (by simp)⟩

/-- A function behind another one starts where that one ends, or later. -/
theorem ordered_of_later {t : Text} {fs gs : List FunctionSpan} {f g : FunctionSpan}
    (hspans : functionSpans (tokens t) = fs ++ f :: gs) (hg : g ∈ gs) :
    g.Ordered ∧ ¬ g.first.start.Before f.closing.stop := by
  obtain ⟨front, post, hbody⟩ := exists_body hspans
  refine ⟨?_, hbody.later g hg⟩
  obtain ⟨as, bs, rfl⟩ := List.append_of_mem hg
  have hspans : functionSpans (tokens t) = (fs ++ f :: as) ++ g :: bs := by rw [hspans, List.append_assoc, List.cons_append]
  obtain ⟨front', post', hbody'⟩ := exists_body hspans
  exact hbody'.ordered

/-! ## Rows moved down -/

namespace Classification

/-- The second classification has the rows of the first, `k` rows further down. -/
structure MovedBy (c c' : Classification) (k : Int) : Prop where
  comments : ∀ r, r + k ∈ c'.comments ↔ r ∈ c.comments
  code : ∀ r, r + k ∈ c'.code ↔ r ∈ c.code
  start_eq : c'.start = c.start + k
  stop_eq : c'.stop = c.stop + k

theorem size_of_moved {s s' : RowSet} {k : Int} (h : ∀ r, r + k ∈ s' ↔ r ∈ s) : s'.size = s.size := by
  have hs : s.size = s.toList.toFinset.card := RowSet.size_eq_card fun r => List.mem_toFinset.symm
  rw [hs, ← Finset.card_map (addRightEmbedding k)]
  apply RowSet.size_eq_card
  intro r
  have hr : r - k + k = r := Int.sub_add_cancel r k
  rw [Finset.mem_map]
  constructor
  · intro hmem
    rw [← hr, h] at hmem
    exact ⟨r - k, List.mem_toFinset.mpr hmem, hr⟩
  · rintro ⟨x, hx, rfl⟩
    exact (h x).mpr (List.mem_toFinset.mp hx)

namespace MovedBy

variable {c c' : Classification} {k : Int} (h : c.MovedBy c' k)

include h

theorem size_comments : c'.comments.size = c.comments.size := size_of_moved h.comments

theorem size_code : c'.code.size = c.code.size := size_of_moved h.code

theorem blanks_eq : c'.blanks = c.blanks.map (· + k) := by
  have hspan : c'.stop + 1 - c'.start = c.stop + 1 - c.start := by
    rw [h.start_eq, h.stop_eq]
    omega
  have hrow : ∀ i : Nat, c'.start + (i : Int) = c.start + i + k := by
    intro i
    rw [h.start_eq]
    omega
  have hcode : ∀ r, decide (r + k ∈ c'.code) = decide (r ∈ c.code) := fun r => decide_eq_decide.mpr (h.code r)
  have hcomments : ∀ r, decide (r + k ∈ c'.comments) = decide (r ∈ c.comments) :=
    fun r => decide_eq_decide.mpr (h.comments r)
  simp only [blanks, hspan, hrow, List.filter_map, List.map_map, Function.comp_def, hcode, hcomments]

/-- The report is the same but for the rows it is about. -/
theorem ofClassification_eq (minimum : Value) (name : String) :
    Analysis.ofClassification c' minimum name =
      (Analysis.ofClassification c minimum name).map fun a =>
        { a with startRow := a.startRow + k, stopRow := a.stopRow + k } := by
  have htotal : c'.total = c.total := by rw [total, total, h.size_code, h.size_comments]
  have hratio : c'.ratio = c.ratio := by rw [ratio, ratio, htotal, h.size_comments]
  simp only [Analysis.ofClassification, h.size_code, h.size_comments, htotal, hratio, h.start_eq, h.stop_eq]
  cases needed c.comments.size c.total minimum <;> rfl

end MovedBy

end Classification

/-- Nodes that cover the same rows, further down in rows with the same content, are classified alike. -/
theorem classify_movedBy (policy : ClassificationPolicy) {fn fn' : Node} {rows rows' : List Text} {k : Int}
    (hstart : fn'.start.row = fn.start.row + k) (hstop : fn'.stop.row = fn.stop.row + k)
    (hcomment : ∀ r, CommentRow (walk (some fn')) (r + k) ↔ CommentRow (walk (some fn)) r)
    (hnamed : ∀ r, ¬ CommentRow (walk (some fn)) r → (NamedRow (walk (some fn')) (r + k) ↔ NamedRow (walk (some fn)) r))
    (htext : ∀ r, ¬ CommentRow (walk (some fn)) r → NamedRow (walk (some fn)) r → hasText rows' (r + k) = hasText rows r) :
    (classify policy fn rows).MovedBy (classify policy fn' rows') k where
  comments r := by rw [mem_comments, mem_comments, hcomment]
  code r := by
    rw [mem_code, mem_code, hcomment]
    constructor
    · rintro ⟨hr, hno, hcontent⟩
      have hr := (hnamed r hno).mp hr
      exact ⟨hr, hno, htext r hno hr ▸ hcontent⟩
    · rintro ⟨hr, hno, hcontent⟩
      exact ⟨(hnamed r hno).mpr hr, hno, (htext r hno hr).trans hcontent⟩
  start_eq := by rw [classify_start, classify_start, hstart]
  stop_eq := by rw [classify_stop, classify_stop, hstop]

namespace Widening

variable (w : Widening)

/-! ## Rows with content -/

/-- Up to the row of the brace, rows have content where they had it. -/
theorem hasText_upTo {r : Int} (h : r ≤ w.site.row) : hasText w.target.rows r = hasText w.source.rows r := by
  rcases Int.lt_or_eq_of_le h with h | rfl
  · exact w.hasText_before h
  · rw [w.hasText_site.1, w.hasText_site.2]

/-- So have the rows behind it, and the row that what follows the brace is moved to. -/
theorem hasText_from {r : Int} (h : w.origin.row ≤ r) :
    hasText w.target.rows (r + w.growth) = hasText w.source.rows r := by
  have horigin := w.origin_row
  have hsite := w.site_row_le
  rw [w.hasText_target (by omega), Int.add_sub_cancel]
  rcases Int.lt_or_eq_of_le (Int.le_trans hsite h) with hr | hr
  · rw [w.hasText_source hr]
  · have hcut : w.origin.row = w.site.row := by omega
    have hzero : r - w.origin.row = 0 := by omega
    rw [hzero, w.hasText_rest_zero hcut, ← hr, w.hasText_site.1]

/-! ## Comments -/

/-- The comments of the target: those before the brace, those put in, and those behind. -/
theorem commentCovers_tokens_target {g : FunctionSpan} {r : Int} :
    g.CommentCovers (tokens w.target) r ↔
      g.CommentCovers (place ⟨0, 0⟩ w.front) r ∨ g.CommentCovers w.added r ∨
        g.CommentCovers ((place w.origin (lex true w.rest)).map (·.shift w.origin w.growth)) r := by
  have hadded : g.CommentCovers (w.braceToken :: place w.site w.inserted) r ↔ g.CommentCovers w.added r := by
    constructor
    · rintro ⟨t, ht, hk, hc⟩
      refine ⟨t, w.mem_added.mpr ⟨?_, hk⟩, hk, hc⟩
      rcases List.mem_cons.mp ht with rfl | ht
      · simp [braceToken] at hk
      · exact ht
    · rintro ⟨t, ht, hk, hc⟩
      exact ⟨t, List.mem_cons_of_mem _ (w.mem_added.mp ht).1, hk, hc⟩
  rw [tokens_target, ← List.cons_append, FunctionSpan.commentCovers_append, FunctionSpan.commentCovers_append, hadded]

theorem added_rows {t : Token} (h : t ∈ w.added) :
    w.site.row < t.start.row ∧ t.start.row < w.origin.row + w.growth := by
  obtain ⟨i, hi, rfl⟩ := List.mem_mapIdx.mp h
  have horigin := w.origin_row
  simp only
  omega

/-! ## A function before the brace -/

section before

variable {w} {g : FunctionSpan} (hg : g.Ordered) (hbefore : ¬ w.site.Before g.closing.stop)

include hg hbefore

theorem map_move_before : g.map w.move = g := by
  have hclosing : g.closing.start.Before w.origin :=
    (hg.closing_stop.trans_not_before hbefore).trans_not_before w.not_origin_before_site
  have hopening := hg.opening_closing.trans hclosing
  have hfirst := hg.first_opening.trans hopening
  rw [FunctionSpan.map, move, move, move, if_pos hfirst, if_pos hopening, if_pos hclosing]

omit hg in
/-- Only the comments before the brace start in it. -/
theorem commentCovers_before {r : Int} : g.CommentCovers (tokens w.target) r ↔ g.CommentCovers (tokens w.source) r := by
  have hrow := Position.row_le_of_not_before hbefore
  have hadded : ¬ g.CommentCovers w.added r := by
    rintro ⟨t, ht, -, hc, -⟩
    have := (w.added_rows ht).1
    have := (FunctionSpan.contains_iff.mp hc).2.row_le
    omega
  have hmoved : ¬ g.CommentCovers ((place w.origin (lex true w.rest)).map (·.shift w.origin w.growth)) r := by
    rintro ⟨u, hu, -, hc, -⟩
    obtain ⟨t, ht, rfl⟩ := List.mem_map.mp hu
    have hpos := w.growth_pos
    have hsite := w.site_row_le
    have horigin := Position.row_le_of_not_before (place_bounds ht).1
    have hstop := (FunctionSpan.contains_iff.mp hc).2.row_le
    simp only [Token.shift, Position.shift_row] at hstop
    omega
  have hrest : ¬ g.CommentCovers (place w.origin (lex true w.rest)) r := by
    rintro ⟨t, ht, -, hc, -⟩
    have hstop := (FunctionSpan.contains_iff.mp hc).2.trans_not_before hbefore
    exact (place_bounds ht).1 (hstop.trans_not_before w.not_origin_before_site)
  rw [commentCovers_tokens_target, commentCovers_source]
  simp only [hadded, hmoved, hrest, or_false]

/-- A function that ends before the brace is counted as it was. -/
theorem classify_before (policy : ClassificationPolicy) :
    (classify policy (g.node (commentTokens w.source)) w.source.rows).MovedBy
      (classify policy ((g.map w.move).node (commentTokens w.target)) w.target.rows) 0 := by
  have hbody := hg.first_opening.row_le
  have hspan := (hg.first_opening.trans (hg.opening_closing.trans hg.closing_stop)).row_le
  have hstop := Position.row_le_of_not_before hbefore
  rw [map_move_before hg hbefore]
  refine classify_movedBy policy ?_ ?_ ?_ ?_ ?_
  · exact (Int.add_zero _).symm
  · exact (Int.add_zero _).symm
  · intro r
    rw [Int.add_zero, FunctionSpan.commentRow_node, FunctionSpan.commentRow_node, commentCovers_before hbefore]
  · intro r hr
    rw [FunctionSpan.commentRow_node] at hr
    have hr' := mt (commentCovers_before hbefore).mp hr
    rw [Int.add_zero, FunctionSpan.namedRow_node hbody hspan hr, FunctionSpan.namedRow_node hbody hspan hr']
  · intro r hr hnamed
    rw [FunctionSpan.commentRow_node] at hr
    rw [FunctionSpan.namedRow_node hbody hspan hr, FunctionSpan.coversRow_iff] at hnamed
    rw [Int.add_zero, w.hasText_upTo (by omega)]

end before

/-! ## A function behind the brace -/

section behind

variable {w} {g : FunctionSpan} (hg : g.Ordered) (hbehind : ¬ g.first.start.Before w.origin)

include hg hbehind

theorem map_move_behind : g.map w.move = g.map (·.shift w.origin w.growth) := by
  have hopening : ¬ g.opening.start.Before w.origin := Position.not_before_trans hbehind hg.first_opening.not_before
  have hclosing : ¬ g.closing.start.Before w.origin := Position.not_before_trans hopening hg.opening_closing.not_before
  rw [FunctionSpan.map, FunctionSpan.map, move, move, move, if_neg hbehind, if_neg hopening, if_neg hclosing]

omit hg in
/-- Only comments behind the brace start in it, and they move with it. -/
theorem commentCovers_behind {r : Int} :
    (g.map (·.shift w.origin w.growth)).CommentCovers (tokens w.target) (r + w.growth) ↔
      g.CommentCovers (tokens w.source) r := by
  have hrow := Position.row_le_of_not_before hbehind
  have hpos := w.growth_pos
  have hfrontStart : ∀ {t : Token}, t ∈ place ⟨0, 0⟩ w.front → t.start.Before w.origin := fun ht =>
    (start_before_stop (w.mem_source_of_front ht)).trans_not_before (w.front_before_origin ht)
  have hfront : ¬ g.CommentCovers (place ⟨0, 0⟩ w.front) r := by
    rintro ⟨t, ht, -, hc, -⟩
    exact (FunctionSpan.contains_iff.mp hc).1 ((hfrontStart ht).trans_not_before hbehind)
  have hfront' : ¬ (g.map (·.shift w.origin w.growth)).CommentCovers (place ⟨0, 0⟩ w.front) (r + w.growth) := by
    rintro ⟨t, ht, -, hc, -⟩
    have hstart := (hfrontStart ht).row_le
    have hle := Position.row_le_of_not_before (FunctionSpan.contains_iff.mp hc).1
    simp only [FunctionSpan.map, Token.shift, Position.shift_row] at hle
    omega
  have hadded : ¬ (g.map (·.shift w.origin w.growth)).CommentCovers w.added (r + w.growth) := by
    rintro ⟨t, ht, -, hc, -⟩
    have hstart := (w.added_rows ht).2
    have hle := Position.row_le_of_not_before (FunctionSpan.contains_iff.mp hc).1
    simp only [FunctionSpan.map, Token.shift, Position.shift_row] at hle
    omega
  have hcontains : ∀ t : Token, (g.map (·.shift w.origin w.growth)).contains (t.shift w.origin w.growth) = g.contains t := by
    intro t
    rw [Bool.eq_iff_iff, FunctionSpan.contains_iff, FunctionSpan.contains_iff]
    exact and_congr (not_congr Position.before_shift) Position.before_shift
  rw [commentCovers_tokens_target, commentCovers_source]
  simp only [hfront, hfront', hadded, false_or]
  constructor
  · rintro ⟨u, hu, hk, hc, hr1, hr2⟩
    obtain ⟨t, ht, rfl⟩ := List.mem_map.mp hu
    simp only [Token.shift, Position.shift_row] at hr1 hr2
    exact ⟨t, ht, hk, by rwa [hcontains] at hc, by omega, by omega⟩
  · rintro ⟨t, ht, hk, hc, hr1, hr2⟩
    refine ⟨_, List.mem_map_of_mem ht, hk, by rwa [hcontains], ?_, ?_⟩ <;>
      simp only [Token.shift, Position.shift_row] <;> omega

/-- A function that starts behind the brace is counted as it was, further down. -/
theorem classify_behind (policy : ClassificationPolicy) :
    (classify policy (g.node (commentTokens w.source)) w.source.rows).MovedBy
      (classify policy ((g.map w.move).node (commentTokens w.target)) w.target.rows) w.growth := by
  have hbody := hg.first_opening.row_le
  have hspan := (hg.first_opening.trans (hg.opening_closing.trans hg.closing_stop)).row_le
  have hstart := Position.row_le_of_not_before hbehind
  have hbody' : (g.map (·.shift w.origin w.growth)).first.start.row ≤ (g.map (·.shift w.origin w.growth)).opening.start.row := by
    simp only [FunctionSpan.map, Token.shift, Position.shift_row]
    omega
  have hspan' : (g.map (·.shift w.origin w.growth)).first.start.row ≤ (g.map (·.shift w.origin w.growth)).closing.stop.row := by
    simp only [FunctionSpan.map, Token.shift, Position.shift_row]
    omega
  rw [map_move_behind hg hbehind]
  refine classify_movedBy policy rfl rfl ?_ ?_ ?_
  · intro r
    rw [FunctionSpan.commentRow_node, FunctionSpan.commentRow_node, commentCovers_behind hbehind]
  · intro r hr
    rw [FunctionSpan.commentRow_node] at hr
    have hr' := mt (commentCovers_behind hbehind).mp hr
    rw [FunctionSpan.namedRow_node hbody hspan hr, FunctionSpan.namedRow_node hbody' hspan' hr',
      FunctionSpan.coversRow_iff, FunctionSpan.coversRow_iff]
    simp only [FunctionSpan.map, Token.shift, Position.shift_row]
    omega
  · intro r hr hnamed
    rw [FunctionSpan.commentRow_node] at hr
    rw [FunctionSpan.namedRow_node hbody hspan hr, FunctionSpan.coversRow_iff] at hnamed
    exact w.hasText_from (by omega)

end behind

end Widening

/-! ## What an applied fix leaves alone -/

/-- A function of one document stands in another one, `k` rows further down: with its name, with the
    same rows of each kind under both policies, and with the same report whatever is asked for. -/
structure Target.Spared (g g' : Target) (k : Int) : Prop where
  name_eq : g'.function.functionName = g.function.functionName
  rows : ∀ policy, (classify policy g.function g.source.rows).MovedBy (classify policy g'.function g'.source.rows) k
  code_eq : ∀ policy,
    (classify policy g'.function g'.source.rows).code.size = (classify policy g.function g.source.rows).code.size
  comments_eq : ∀ policy,
    (classify policy g'.function g'.source.rows).comments.size = (classify policy g.function g.source.rows).comments.size
  blanks_eq : ∀ policy, (classify policy g'.function g'.source.rows).blanks.length =
    (classify policy g.function g.source.rows).blanks.length
  report_eq : ∀ s, g'.analyze s =
    (g.analyze s).map fun a => { a with startRow := a.startRow + k, stopRow := a.stopRow + k }

theorem Target.Spared.of_rows {g g' : Target} {k : Int} (hname : g'.function.functionName = g.function.functionName)
    (h : ∀ policy, (classify policy g.function g.source.rows).MovedBy (classify policy g'.function g'.source.rows) k) :
    g.Spared g' k where
  name_eq := hname
  rows := h
  code_eq policy := (h policy).size_code
  comments_eq policy := (h policy).size_comments
  blanks_eq policy := by rw [(h policy).blanks_eq, List.length_map]
  report_eq s := by
    simp only [analyze, classification, hname, (h s.classification).ofClassification_eq]
    cases s.ensureValid <;> rfl

/-- A member of a list with a given member in it stands before that one or behind it. -/
theorem mem_of_getElem?_ne {α : Type} {as bs : List α} {x y : α} {j : Nat} (hj : j ≠ as.length)
    (h : (as ++ x :: bs)[j]? = some y) : y ∈ as ∨ y ∈ bs := by
  rcases Nat.lt_or_gt_of_ne hj with hlt | hgt
  · rw [List.getElem?_append_left hlt] at h
    exact .inl (List.mem_of_getElem? h)
  · obtain ⟨n, rfl⟩ : ∃ n, j = as.length + (n + 1) := ⟨j - as.length - 1, by omega⟩
    rw [List.getElem?_append_right (Nat.le_add_right _ _), Nat.add_sub_cancel_left, List.getElem?_cons_succ] at h
    exact .inr (List.mem_of_getElem? h)

/-- An applied fix leaves all functions but its own as they are: in the same order, with their names, their
    rows and their reports. They stay where they are if they end before the brace that opens the body of
    its own function, and if they start behind it they move down by the comments put in, and by a row more
    if text follows the brace. -/
theorem fix_sparesOthers {s : Settings} {t t' : Text} {line : Option Int} {a : Analysis} {report : String}
    {edits : List Edit} (hs : s.PlainComment) (ht : HashesLead t)
    (h : fix s sourceParser (some t) line = .ok (.applied a report edits t')) :
    ∃ (target target' : Target) (i : Nat) (p : Position) (followed : Bool),
      locate sourceParser (some t) line = .ok target ∧ locate sourceParser (some t') line = .ok target' ∧
      (functionsOf (parse t))[i]? = some target.function ∧ (functionsOf (parse t'))[i]? = some target'.function ∧
      target.function.bodyStart = some p ∧ t.followedByText p = .ok followed ∧
      (functionsOf (parse t')).map Node.functionName = (functionsOf (parse t)).map Node.functionName ∧
      ∀ j g g', j ≠ i → (functionsOf (parse t))[j]? = some g → (functionsOf (parse t'))[j]? = some g' →
        (¬ p.Before g.stop ∧ Target.Spared ⟨t, g⟩ ⟨t', g'⟩ 0) ∨
        (¬ g.start.Before p ∧ Target.Spared ⟨t, g⟩ ⟨t', g'⟩ (a.needed + followed.toNat)) := by
  obtain ⟨w, f, m, n, hmends, rfl, rfl, rfl⟩ := exists_mends hs ht h
  obtain ⟨gs', hopens⟩ := hmends.opens
  obtain ⟨fs, gs, hspans⟩ := List.append_of_mem hmends.mem_spans
  have hname : ∀ g : FunctionSpan, ((g.map w.move).node (commentTokens w.target)).functionName =
      (g.node (commentTokens w.source)).functionName := by
    intro g
    rw [FunctionSpan.functionName_node, FunctionSpan.functionName_node]
    rfl
  refine ⟨w.before f, w.after f, fs.length, w.site, decide (w.gap = []), hmends.locate_before, hmends.locate_after,
    ?_, ?_, Widening.bodyStart_before hopens, w.followedByText_source, ?_, ?_⟩
  · rw [functionsOf_parse, hspans]
    simp [Widening.before]
  · rw [functionsOf_parse, w.functionSpans_target, hspans]
    simp [Widening.after]
  · rw [functionsOf_parse, functionsOf_parse, w.functionSpans_target, List.map_map, List.map_map, List.map_map]
    exact List.map_congr_left fun g _ => hname g
  intro j g g' hj hg hg'
  rw [functionsOf_parse, List.getElem?_map, Option.map_eq_some_iff] at hg
  obtain ⟨span, hspan, rfl⟩ := hg
  rw [functionsOf_parse, w.functionSpans_target, List.getElem?_map, List.getElem?_map, hspan] at hg'
  obtain rfl := Option.some.inj hg'
  rw [hspans] at hspan
  rw [← hmends.growth_eq]
  rcases mem_of_getElem?_ne hj hspan with hmem | hmem
  · obtain ⟨hordered, hends⟩ := ordered_of_earlier hspans hmem
    have hbefore : ¬ w.site.Before span.closing.stop := Position.not_before_trans hends hopens.first_before_site.not_before
    exact .inl ⟨hbefore, .of_rows (hname span) (Widening.classify_before hordered hbefore)⟩
  · obtain ⟨hordered, hstarts⟩ := ordered_of_later hspans hmem
    have hbehind : ¬ span.first.start.Before w.origin :=
      Position.not_before_trans hopens.origin_before_closing.not_before hstarts
    refine .inr ⟨Position.not_before_trans w.not_origin_before_site hbehind, ?_⟩
    exact .of_rows (hname span) (Widening.classify_behind hordered hbehind)

/-- Three functions on two rows: the first ends on the row of the second's brace, and the third starts on
    the row of its end. -/
def sharedRows : Text :=
  "int a(void) \x7b \x7d int g(void) \x7b return 0;\n\x7d int b(void) \x7b \x7d\n".toList

/-- The same with the comments that the second function lacks. -/
def sharedRowsFixed : Text :=
  "int a(void) \x7b \x7d int g(void) \x7b\n// todo\n// todo\n return 0;\n\x7d int b(void) \x7b \x7d\n".toList

theorem fix_sparesOthers_sharedRows : halfSettings.PlainComment ∧ HashesLead sharedRows ∧
    ∃ a report edits, ∃ (i : Nat) (k : Int), fix halfSettings sourceParser (some sharedRows) (some 0) =
        .ok (.applied a report edits sharedRowsFixed) ∧
      (functionsOf (parse sharedRowsFixed)).map Node.functionName = ["a", "g", "b"] ∧
      ∀ j g g', j ≠ i → (functionsOf (parse sharedRows))[j]? = some g →
        (functionsOf (parse sharedRowsFixed))[j]? = some g' →
        Target.Spared ⟨sharedRows, g⟩ ⟨sharedRowsFixed, g'⟩ 0 ∨ Target.Spared ⟨sharedRows, g⟩ ⟨sharedRowsFixed, g'⟩ k := by
  have hhashes : HashesLead sharedRows := by decide +kernel
  obtain ⟨a, report, edits, happlied⟩ : ∃ a report edits, fix halfSettings sourceParser (some sharedRows) (some 0) =
      .ok (.applied a report edits sharedRowsFixed) := exists_applied (by decide +kernel)
  obtain ⟨target, target', i, p, followed, -, -, -, -, -, -, hnames, hothers⟩ :=
    fix_sparesOthers plainComment_halfSettings hhashes happlied
  have hbefore : (functionsOf (parse sharedRows)).map Node.functionName = ["a", "g", "b"] := by decide +kernel
  refine ⟨plainComment_halfSettings, hhashes, a, report, edits, i, a.needed + followed.toNat, happlied,
    hnames.trans hbefore, ?_⟩
  intro j g g' hj hg hg'
  rcases hothers j g g' hj hg hg' with ⟨-, hspared⟩ | ⟨-, hspared⟩
  · exact .inl hspared
  · exact .inr hspared

end CommentQuota
