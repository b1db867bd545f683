/-
  CommentQuota.Proofs.Accounting — how many rows a widening adds to a function.

  - `hasText_source` / `hasText_target`: the rows behind the brace's row are the same in the source
    and in the target, further down; the brace's row has content in both.
  - `card_widened`: rows up to a row and rows from a row on, pulled apart to make place for more.
  - `size_comments_target` / `total_target`: the numbers of comment rows and of all rows.
-/

import CommentQuota.Proofs.Counting
import CommentQuota.Proofs.Enclosing
import Mathlib.Data.Int.Interval
import Mathlib.Tactic.Tauto

namespace CommentQuota

open Classification Lexeme

/-! ## Rows with content -/

namespace Classification

theorem hasText_natCast (rows : List Text) (n : Nat) :
    hasText rows n = (rows[n]?.map Text.hasContent).getD false := by
  have hn : ¬ (n : Int) < 0 := by omega
  rw [hasText, if_neg hn, Int.toNat_natCast]
  cases rows[n]? <;> rfl

theorem hasText_append_left {as : List Text} (bs : List Text) {r : Int} (h : r < as.length) :
    hasText (as ++ bs) r = hasText as r := by
  by_cases hr : r < 0
  · simp [hasText, hr]
  obtain ⟨n, rfl⟩ := Int.eq_ofNat_of_zero_le (Int.not_lt.mp hr)
  rw [hasText_natCast, hasText_natCast, List.getElem?_append_left (by omega)]

theorem hasText_append_right {as : List Text} (bs : List Text) {r : Int} (h : as.length ≤ r) :
    hasText (as ++ bs) r = hasText bs (r - as.length) := by
  obtain ⟨n, rfl⟩ := Int.eq_ofNat_of_zero_le (Int.le_trans (Int.natCast_nonneg _) h)
  have hle : as.length ≤ n := by omega
  rw [← Int.ofNat_sub hle, hasText_natCast, hasText_natCast, List.getElem?_append_right hle]

theorem hasText_cons {x : Text} (rs : List Text) {r : Int} (h : 0 < r) : hasText (x :: rs) r = hasText rs (r - 1) :=
  @hasText_append_right [x] rs r (by simp; omega)

theorem hasText_zero (x : Text) (rs : List Text) : hasText (x :: rs) 0 = Text.hasContent x := rfl

end Classification

namespace Text

/-- The last row holds the last character, unless that is a line break. -/
theorem hasContent_lastRow (t : Text) {c : Char} (h : isBlank c = false) :
    hasContent ((rows (t ++ [c])).getLastD []) = true := by
  have hn : c ≠ '\n' := by rintro rfl; simp [isBlank] at h
  induction t with
  | nil => simp [rows, consHead, hn, hasContent, h]
  | cons d ds ih =>
    obtain ⟨x, xs, hx⟩ := List.exists_cons_of_ne_nil (rows_ne_nil (ds ++ [c]))
    simp only [List.cons_append, rows]
    rw [hx] at ih ⊢
    split
    · exact ih
    split
    · exact ih
    · cases xs with
      | nil =>
        simp only [consHead, hasContent, List.getLastD_cons, List.getLastD_nil, List.any_cons] at ih ⊢
        rw [ih, Bool.or_true]
      | cons y ys => exact ih

theorem hasContent_append (a b : Text) : hasContent (a ++ b) = (hasContent a || hasContent b) := List.any_append

end Text

namespace Widening

variable (w : Widening)

/-- The rows before the row of the brace. -/
def rowsBefore : List Text := (Text.rows (textOf w.front ++ ['\x7b'])).dropLast

theorem length_rowsBefore : (w.rowsBefore.length : Int) = w.site.row := by
  rw [rowsBefore, List.length_dropLast, Text.length_rows, site, Position.afterText_row]
  simp

/-- The rows of a document in which a text stands behind the brace. -/
theorem rows_behind (t : Text) : ∃ x, Text.hasContent x = true ∧
    Text.rows (textOf w.front ++ '\x7b' :: t) = w.rowsBefore ++ x :: (Text.rows t).tail := by
  have hlast : (textOf w.front ++ ['\x7b']).getLast? ≠ some '\r' := by simp
  have hrows := Text.rows_append (Text.not_partsBreak t hlast)
  rw [List.append_assoc, List.singleton_append] at hrows
  refine ⟨_, ?_, hrows⟩
  rw [Text.hasContent_append, Text.hasContent_lastRow _ (by decide), Bool.true_or]

theorem rows_tail_source :
    (Text.rows (w.gap ++ w.rest)).tail = if w.gap = [] then (Text.rows w.rest).tail else Text.rows w.rest := by
  rcases w.gap_cases with ⟨e, -⟩ | ⟨u, e, hu, -⟩
  · rw [if_pos e, e, List.nil_append]
  · rw [if_neg (by simp [e]), e, List.append_assoc, List.singleton_append, Text.rows_line _ hu, List.tail_cons]

theorem rows_tail_target : ∃ L, L.length = w.comments.length ∧
    (Text.rows (w.lineBreak ++ (w.comments.flatMap (· ++ ['\n']) ++ w.rest))).tail = L ++ Text.rows w.rest := by
  have hrows : ∀ cs : List Text, (∀ c ∈ cs, '\n' ∉ c) → ∃ L : List Text, L.length = cs.length ∧
      Text.rows (cs.flatMap (· ++ ['\n']) ++ w.rest) = L ++ Text.rows w.rest := by
    intro cs
    induction cs with
    | nil => intro _; exact ⟨[], rfl, rfl⟩
    | cons c cs ih =>
      intro h
      obtain ⟨L, hlen, hL⟩ := ih (fun d hd => h d (by simp [hd]))
      refine ⟨Text.firstRow (c ++ ['\n']) :: L, by simp [hlen], ?_⟩
      rw [List.cons_append, ← hL, ← Text.rows_line _ (h c (by simp))]
      simp
  obtain ⟨L, hlen, hL⟩ := hrows w.comments (fun c hc => (w.isLineComment c hc).noBreak)
  refine ⟨L, hlen, ?_⟩
  rcases w.lineBreak_cases with e | e <;> rw [e]
  · rw [List.singleton_append, Text.rows, if_pos rfl, List.tail_cons, hL]
  · simp only [List.cons_append, List.nil_append, Text.rows, List.head?_cons]
    simpa using hL

theorem hasText_before {r : Int} (h : r < w.site.row) : hasText w.target.rows r = hasText w.source.rows r := by
  obtain ⟨x, -, hx⟩ := w.rows_behind (w.gap ++ w.rest)
  obtain ⟨y, -, hy⟩ := w.rows_behind (w.lineBreak ++ (w.comments.flatMap (· ++ ['\n']) ++ w.rest))
  rw [← length_rowsBefore] at h
  rw [source, target, hx, hy, hasText_append_left _ h, hasText_append_left _ h]

theorem hasText_site : hasText w.source.rows w.site.row = true ∧ hasText w.target.rows w.site.row = true := by
  have key : ∀ t, hasText (Text.rows (textOf w.front ++ '\x7b' :: t)) w.site.row = true := by
    intro t
    obtain ⟨x, hx, hrows⟩ := w.rows_behind t
    rw [hrows, ← length_rowsBefore, hasText_append_right _ (Int.le_refl _), Int.sub_self, hasText_zero, hx]
  exact ⟨key _, key _⟩

/-- Behind the brace's row, the rows of the source are those of the rest. -/
theorem hasText_source {r : Int} (h : w.site.row < r) :
    hasText w.source.rows r = hasText w.rest.rows (r - w.origin.row) := by
  obtain ⟨x, -, hx⟩ := w.rows_behind (w.gap ++ w.rest)
  have horigin := w.origin_row
  unfold growth at horigin
  have hlen := w.length_rowsBefore
  rw [source, hx, hasText_append_right _ (by omega), hasText_cons _ (by omega), rows_tail_source, hlen]
  split <;> rename_i hgap
  · rw [if_pos hgap] at horigin
    have e : r - w.site.row - 1 = r - w.origin.row - 1 := by omega
    conv => rhs; rw [Text.rows_eq]
    rw [hasText_cons _ (by omega), e]
  · rw [if_neg hgap] at horigin
    have e : r - w.site.row - 1 = r - w.origin.row := by omega
    rw [e]

/-- Behind the comments, the rows of the target are those of the rest. -/
theorem hasText_target {r : Int} (h : w.site.row + w.comments.length < r) :
    hasText w.target.rows r = hasText w.rest.rows (r - w.growth - w.origin.row) := by
  obtain ⟨y, -, hy⟩ := w.rows_behind (w.lineBreak ++ (w.comments.flatMap (· ++ ['\n']) ++ w.rest))
  obtain ⟨L, hL, htail⟩ := w.rows_tail_target
  have horigin := w.origin_row
  have hlen := w.length_rowsBefore
  have e : r - w.rowsBefore.length - 1 - L.length = r - w.growth - w.origin.row := by omega
  rw [target, hy, hasText_append_right _ (by omega), hasText_cons _ (by omega), htail,
    hasText_append_right _ (by omega), e]

end Widening

/-! ## Numbers of rows -/

/-- A set of rows is cut behind the row `b`, or in it if both sides have it, and `n` rows are put in
    between. -/
theorem card_widened {S S' : Finset Int} {H T : Int → Prop} {b o g : Int} {n : Nat}
    (hS : ∀ r, r ∈ S ↔ H r ∨ T r) (hS' : ∀ r, r ∈ S' ↔ H r ∨ (b < r ∧ r ≤ b + n) ∨ T (r - g))
    (hH : ∀ r, H r → r ≤ b) (hT : ∀ r, T r → o ≤ r) (ho : b ≤ o) (hg : o + g = b + 1 + n)
    [Decidable (H b ∧ T b)] : S'.card = S.card + n + if H b ∧ T b then 1 else 0 := by
  classical
  let A := S.filter H
  let B := S.filter T
  have memA : ∀ r, r ∈ A ↔ H r := by
    intro r
    simp only [A, Finset.mem_filter, hS]
    tauto
  have memB : ∀ r, r ∈ B ↔ T r := by
    intro r
    simp only [B, Finset.mem_filter, hS]
    tauto
  have hunion : A ∪ B = S := by
    ext r
    rw [Finset.mem_union, memA, memB, hS]
  have hinter : (A ∩ B).card = if H b ∧ T b then 1 else 0 := by
    split <;> rename_i hb
    · rw [Finset.card_eq_one]
      refine ⟨b, ?_⟩
      ext r
      rw [Finset.mem_inter, memA, memB, Finset.mem_singleton]
      constructor
      · rintro ⟨hr, hr'⟩
        have := hH r hr
        have := hT r hr'
        omega
      · rintro rfl
        exact hb
    · rw [Finset.card_eq_zero, Finset.eq_empty_iff_forall_notMem]
      intro r hr
      rw [Finset.mem_inter, memA, memB] at hr
      have := hH r hr.1
      have := hT r hr.2
      obtain rfl : r = b := by omega
      exact hb hr
  have hsplit : S' = (A ∪ Finset.Ioc b (b + n)) ∪ B.map (addRightEmbedding g) := by
    ext r
    rw [Finset.mem_union, Finset.mem_union, memA, Finset.mem_Ioc, Finset.mem_map, hS', or_assoc]
    have hmap : (∃ x ∈ B, addRightEmbedding g x = r) ↔ T (r - g) := by
      constructor
      · rintro ⟨x, hx, rfl⟩
        rw [memB] at hx
        simpa using hx
      · intro hr
        exact ⟨r - g, (memB _).mpr hr, by simp⟩
    rw [hmap]
  have hdisjoint : Disjoint A (Finset.Ioc b (b + n)) := by
    rw [Finset.disjoint_left]
    intro r hr hr'
    have := hH r ((memA r).mp hr)
    have := (Finset.mem_Ioc.mp hr').1
    omega
  have hdisjoint' : Disjoint (A ∪ Finset.Ioc b (b + n)) (B.map (addRightEmbedding g)) := by
    rw [Finset.disjoint_left]
    intro r hr hr'
    obtain ⟨x, hx, rfl⟩ := Finset.mem_map.mp hr'
    have hx := hT x ((memB x).mp hx)
    rw [Finset.mem_union, memA, Finset.mem_Ioc, addRightEmbedding_apply] at hr
    rcases hr with hr | hr
    · have := hH _ hr
      omega
    · omega
  calc S'.card = A.card + (Finset.Ioc b (b + n)).card + (B.map (addRightEmbedding g)).card := by
        rw [hsplit, Finset.card_union_of_disjoint hdisjoint', Finset.card_union_of_disjoint hdisjoint]
    _ = A.card + n + B.card := by
        rw [Int.card_Ioc, Finset.card_map]
        congr 2
        omega
    _ = (A ∪ B).card + (A ∩ B).card + n := by
        rw [Finset.card_union_add_card_inter]
        omega
    _ = S.card + n + if H b ∧ T b then 1 else 0 := by
        rw [hunion, hinter]
        omega

/-! ## Rows of a function -/

namespace FunctionSpan

theorem commentRow_node {f : FunctionSpan} {t : Text} {r : Int} :
    CommentRow (walk (some (f.node (commentTokens t)))) r ↔ f.CommentCovers (tokens t) r := by
  rw [CommentRow, exists_comment_walk_node]
  simp only [Node.mem_rowSpan]
  rfl

/-- The rows that the nodes of a function cover, apart from the rows of its comments. -/
theorem namedRow_node {f : FunctionSpan} {t : Text} {r : Int} (hbody : f.first.start.row ≤ f.opening.start.row)
    (hspan : f.first.start.row ≤ f.closing.stop.row) (hr : ¬ f.CommentCovers (tokens t) r) :
    NamedRow (walk (some (f.node (commentTokens t)))) r ↔ f.coversRow r = true := by
  rw [← commentRow_node] at hr
  rw [walk_node] at hr ⊢
  rw [coversRow_iff]
  constructor
  · rintro ⟨n, hn, -, hspan'⟩
    rw [Node.mem_rowSpan] at hspan'
    simp only [List.mem_cons] at hn
    rcases hn with rfl | rfl | rfl | hn
    · exact hspan'
    · have h1 : f.first.start.row ≤ r ∧ r ≤ f.first.start.row := hspan'
      omega
    · have h1 : f.opening.start.row ≤ r ∧ r ≤ f.closing.stop.row := hspan'
      omega
    · refine absurd ⟨n, by simp [hn], ?_, Node.mem_rowSpan.mpr hspan'⟩ hr
      obtain ⟨u, -, rfl⟩ := List.mem_map.mp hn
      rfl
  · intro h
    exact ⟨_, List.mem_cons_self, rfl, Node.mem_rowSpan.mpr h⟩

end FunctionSpan

namespace Classification

/-- The rows that count. -/
def counted (c : Classification) : Finset Int := c.code.toList.toFinset ∪ c.comments.toList.toFinset

theorem mem_counted {c : Classification} {r : Int} : r ∈ c.counted ↔ r ∈ c.code ∨ r ∈ c.comments := by
  rw [counted, Finset.mem_union, List.mem_toFinset, List.mem_toFinset]
  rfl

theorem total_eq_card (policy : ClassificationPolicy) (fn : Node) (rows : List Text) :
    (classify policy fn rows).total = (classify policy fn rows).counted.card := by
  refine RowSet.size_add_size (fun r hcode hcomment => ?_) (fun r => mem_counted.symm)
  rw [mem_code] at hcode
  rw [mem_comments] at hcomment
  exact hcode.2.1 hcomment

end Classification

namespace FunctionSpan

theorem mem_comments_node (policy : ClassificationPolicy) {f : FunctionSpan} {t : Text} {rows : List Text} {r : Int} :
    r ∈ (classify policy (f.node (commentTokens t)) rows).comments ↔ f.CommentCovers (tokens t) r := by
  rw [mem_comments, commentRow_node]

theorem mem_counted_node (policy : ClassificationPolicy) {f : FunctionSpan} {t : Text} {rows : List Text} {r : Int}
    (hbody : f.first.start.row ≤ f.opening.start.row) (hspan : f.first.start.row ≤ f.closing.stop.row) :
    r ∈ (classify policy (f.node (commentTokens t)) rows).counted ↔
      f.CommentCovers (tokens t) r ∨ (f.coversRow r = true ∧ hasText rows r = true) := by
  rw [mem_counted, mem_code, mem_comments_node, commentRow_node]
  by_cases hr : f.CommentCovers (tokens t) r
  · simp [hr]
  · simp [hr, namedRow_node hbody hspan hr]

end FunctionSpan

namespace Widening

/-- Comments of the function stand on both sides of the brace on its row. -/
def Flanked (w : Widening) (f : FunctionSpan) : Prop :=
  f.CommentCovers (place ⟨0, 0⟩ w.front) w.site.row ∧ f.CommentCovers (place w.origin (lex true w.rest)) w.site.row

instance (w : Widening) (f : FunctionSpan) : Decidable (w.Flanked f) := inferInstanceAs (Decidable (_ ∧ _))

/-- If the rest starts on the row of the brace, its first row has content. -/
theorem hasText_rest_zero (w : Widening) (h : w.origin.row = w.site.row) : hasText w.rest.rows 0 = true := by
  rcases w.gap_cases with ⟨-, hcontent⟩ | ⟨u, e, -⟩
  · rw [Text.rows_eq, hasText_zero, hcontent]
  · rw [← w.gap_eq_nil_iff] at h
    simp [e] at h

namespace Opens

variable {w : Widening} {f : FunctionSpan} {gs : List FunctionSpan} (h : w.Opens f gs)

include h

theorem first_row_le_opening : f.first.start.row ≤ f.opening.start.row := by
  rw [h.opening_eq]
  exact ((start_before_stop (w.mem_source_of_front h.first_mem)).trans_not_before (place_bounds h.first_mem).2.1).row_le

theorem first_row_le_site : f.first.start.row ≤ w.site.row := h.first_before_site.row_le

theorem origin_row_le_closing : w.origin.row ≤ f.closing.stop.row := h.origin_before_closing.row_le

theorem mem_counted_source (policy : ClassificationPolicy) {r : Int} :
    r ∈ (classify policy (f.node (commentTokens w.source)) w.source.rows).counted ↔
      f.CommentCovers (tokens w.source) r ∨ (f.coversRow r = true ∧ hasText w.source.rows r = true) := by
  have := h.first_row_le_site
  have := h.origin_row_le_closing
  have := w.site_row_le
  exact FunctionSpan.mem_counted_node policy h.first_row_le_opening (by omega)

theorem mem_counted_target (policy : ClassificationPolicy) {r : Int} :
    r ∈ (classify policy ((f.map w.move).node (commentTokens w.target)) w.target.rows).counted ↔
      (f.map w.move).CommentCovers (tokens w.target) r ∨
        ((f.first.start.row ≤ r ∧ r ≤ f.closing.stop.row + w.growth) ∧ hasText w.target.rows r = true) := by
  have := h.first_row_le_site
  have := h.origin_row_le_closing
  have := w.site_row_le
  have := w.growth_pos
  have hopening := h.first_row_le_opening
  rw [FunctionSpan.mem_counted_node policy, FunctionSpan.coversRow_iff, h.map_eq]
  · rfl
  · rw [h.map_eq]
    rwa [h.opening_eq] at hopening
  · rw [h.map_eq]
    show f.first.start.row ≤ f.closing.stop.row + w.growth
    omega

/-- The comment rows: a row more than the comments only if the row of the brace was one on both sides. -/
theorem size_comments_target (policy : ClassificationPolicy) :
    (classify policy ((f.map w.move).node (commentTokens w.target)) w.target.rows).comments.size =
      (classify policy (f.node (commentTokens w.source)) w.source.rows).comments.size + w.comments.length +
        if w.Flanked f then 1 else 0 := by
  rw [RowSet.size_eq_card (fun r => List.mem_toFinset.symm), RowSet.size_eq_card (fun r => List.mem_toFinset.symm)]
  refine card_widened (fun r => ?_) (fun r => ?_) (fun r => front_row_le) (fun r => le_rest_row) w.site_row_le w.origin_row
  · rw [List.mem_toFinset, ← commentCovers_source]
    exact FunctionSpan.mem_comments_node policy
  · rw [List.mem_toFinset, ← h.commentCovers_target]
    exact FunctionSpan.mem_comments_node policy

/-- The counted rows of the target are those of the source, cut at the brace. -/
theorem counted_target_iff (policy : ClassificationPolicy) {r : Int} :
    r ∈ (classify policy ((f.map w.move).node (commentTokens w.target)) w.target.rows).counted ↔
      (r ∈ (classify policy (f.node (commentTokens w.source)) w.source.rows).counted ∧ r ≤ w.site.row) ∨
      (w.site.row < r ∧ r ≤ w.site.row + w.comments.length) ∨
      (r - w.growth ∈ (classify policy (f.node (commentTokens w.source)) w.source.rows).counted ∧
        w.origin.row ≤ r - w.growth) := by
  have hfirst := h.first_row_le_site
  have hclosing := h.origin_row_le_closing
  have hsite := w.site_row_le
  have horigin := w.origin_row
  have hpos := w.growth_pos
  have hH : ∀ x, f.CommentCovers (place ⟨0, 0⟩ w.front) x → x ≤ w.site.row := fun x => front_row_le
  have hT : ∀ x, f.CommentCovers (place w.origin (lex true w.rest)) x → w.origin.row ≤ x := fun x => le_rest_row
  rw [h.mem_counted_target, h.mem_counted_source, h.mem_counted_source, h.commentCovers_target, commentCovers_source,
    commentCovers_source, FunctionSpan.coversRow_iff, FunctionSpan.coversRow_iff]
  rcases Int.lt_trichotomy r w.site.row with hr | rfl | hr
  · rw [w.hasText_before hr]
    have h1 : ¬ f.CommentCovers (place w.origin (lex true w.rest)) r := fun e => by have := hT r e; omega
    have h2 : ¬ f.CommentCovers (place w.origin (lex true w.rest)) (r - w.growth) := fun e => by
      have := hT _ e; omega
    have h3 : ¬ (w.site.row < r ∧ r ≤ w.site.row + w.comments.length) := by omega
    have h4 : ¬ w.origin.row ≤ r - w.growth := by omega
    have h5 : r ≤ f.closing.stop.row + w.growth ↔ r ≤ f.closing.stop.row := by omega
    have h6 : r ≤ w.site.row := by omega
    simp only [h1, h2, h3, h4, h5, h6, or_false, and_true, and_false]
  · obtain ⟨hsource, htarget⟩ := w.hasText_site
    refine iff_of_true (.inr ⟨by omega, htarget⟩) (.inl ⟨.inr ⟨by omega, hsource⟩, by omega⟩)
  by_cases hcomment : r ≤ w.site.row + w.comments.length
  · exact iff_of_true (.inl (.inr (.inl ⟨hr, hcomment⟩))) (.inr (.inl ⟨hr, hcomment⟩))
  have htarget := w.hasText_target (r := r) (by omega)
  by_cases hcut : r - w.growth = w.site.row
  · -- the row of the brace, cut in two
    have hcontent := w.hasText_rest_zero (by omega)
    have hzero : r - w.growth - w.origin.row = 0 := by omega
    rw [htarget, hzero]
    refine iff_of_true (.inr ⟨by omega, hcontent⟩) (.inr (.inr ⟨.inr ⟨by omega, ?_⟩, by omega⟩))
    rw [hcut]
    exact w.hasText_site.1
  · rw [htarget, w.hasText_source (r := r - w.growth) (by omega)]
    have h1 : ¬ f.CommentCovers (place ⟨0, 0⟩ w.front) r := fun e => by have := hH r e; omega
    have h2 : ¬ f.CommentCovers (place ⟨0, 0⟩ w.front) (r - w.growth) := fun e => by have := hH _ e; omega
    have h3 : ¬ r ≤ w.site.row := by omega
    have h4 : w.origin.row ≤ r - w.growth := by omega
    have h5 : f.first.start.row ≤ r ∧ r ≤ f.closing.stop.row + w.growth ↔
        f.first.start.row ≤ r - w.growth ∧ r - w.growth ≤ f.closing.stop.row := by omega
    simp only [h1, h2, h3, h4, h5, hcomment, false_or, and_false, and_true]

theorem total_target (policy : ClassificationPolicy) :
    ((classify policy ((f.map w.move).node (commentTokens w.target)) w.target.rows).total : Int) =
      (classify policy (f.node (commentTokens w.source)) w.source.rows).total + w.growth := by
  have hsite := w.site_row_le
  have horigin := w.origin_row
  have hgrowth : w.growth = w.comments.length + if w.gap = [] then 1 else 0 := rfl
  have hbrace : w.site.row ∈ (classify policy (f.node (commentTokens w.source)) w.source.rows).counted := by
    have hfirst := h.first_row_le_site
    have hclosing := h.origin_row_le_closing
    rw [h.mem_counted_source, FunctionSpan.coversRow_iff]
    exact .inr ⟨by omega, w.hasText_site.1⟩
  rw [total_eq_card, total_eq_card,
    card_widened (S := (classify policy (f.node (commentTokens w.source)) w.source.rows).counted)
      (H := fun r => r ∈ (classify policy (f.node (commentTokens w.source)) w.source.rows).counted ∧ r ≤ w.site.row)
      (T := fun r => r ∈ (classify policy (f.node (commentTokens w.source)) w.source.rows).counted ∧ w.origin.row ≤ r)
      (fun r => ?_) (fun r => h.counted_target_iff policy) (fun r hr => hr.2) (fun r hr => hr.2) hsite horigin]
  · have hcut : w.origin.row ≤ w.site.row ↔ w.gap = [] := by
      rw [gap_eq_nil_iff]; omega
    simp only [hbrace, Int.le_refl, hcut, true_and, and_true]
    rw [hgrowth]
    split <;> simp [Int.add_assoc]
  · rw [← and_or_left]
    split at hgrowth <;> exact ⟨fun hr => ⟨hr, by omega⟩, fun hr => hr.1⟩

end Opens

end Widening

end CommentQuota
