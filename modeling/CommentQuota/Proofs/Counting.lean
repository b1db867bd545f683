/-
  CommentQuota.Proofs.Counting — which rows both ways of counting find, and how many there are.

  - `mem_comments` / `mem_code`: under either policy, the comment rows are those of the comments
    reached, and the code rows are the other rows with content that a named node covers.
  - `mem_rowsBetween` / `length_rowsBetween`: the rows from one row to another.
  - `size_eq_card` / `size_add_size`: the size of a set of rows is the number of its members.
-/

import CommentQuota.Classification
import Mathlib.Data.Finset.Card

namespace CommentQuota

/-- The rows from one row to another, ascending. -/
def rowsBetween (a b : Int) : List Int := (List.range (b + 1 - a).toNat).map fun (i : Nat) => a + i

theorem mem_rowsBetween {a b r : Int} : r ∈ rowsBetween a b ↔ a ≤ r ∧ r ≤ b := by
  simp only [rowsBetween, List.mem_map, List.mem_range]
  constructor
  · rintro ⟨i, hi, rfl⟩; omega
  · rintro ⟨h1, h2⟩
    exact ⟨(r - a).toNat, by omega, by omega⟩

theorem ascending_rowsBetween (a b : Int) : (rowsBetween a b).Pairwise (· < ·) := by
  rw [rowsBetween, List.pairwise_map]
  exact List.pairwise_lt_range.imp fun h => by omega

theorem length_rowsBetween (a b : Int) : (rowsBetween a b).length = (b + 1 - a).toNat := by
  rw [rowsBetween, List.length_map, List.length_range]

theorem Node.mem_rowSpan {n : Node} {r : Int} : r ∈ n.rowSpan ↔ n.start.row ≤ r ∧ r ≤ n.stop.row := mem_rowsBetween

namespace Classification

/-- A comment among the nodes covers the row. -/
def CommentRow (ns : List Node) (r : Int) : Prop := ∃ n ∈ ns, n.kind = Node.commentKind ∧ r ∈ n.rowSpan

/-- A named node among the nodes covers the row. -/
def NamedRow (ns : List Node) (r : Int) : Prop := ∃ n ∈ ns, n.named = true ∧ r ∈ n.rowSpan

theorem commentRow_cons {n : Node} {ns : List Node} {r : Int} :
    CommentRow (n :: ns) r ↔ (n.kind = Node.commentKind ∧ r ∈ n.rowSpan) ∨ CommentRow ns r := by
  simp [CommentRow]

theorem namedRow_cons {n : Node} {ns : List Node} {r : Int} :
    NamedRow (n :: ns) r ↔ (n.named = true ∧ r ∈ n.rowSpan) ∨ NamedRow ns r := by
  simp [NamedRow]

/-! ## One pass -/

theorem foldl_comment_comments (m : Marks) (rs : List Int) (r : Int) :
    r ∈ (rs.foldl Marks.comment m).comments ↔ r ∈ m.comments ∨ r ∈ rs := by
  induction rs generalizing m with
  | nil => simp
  | cons x rs ih =>
    simp only [List.foldl_cons, ih, Marks.comment, RowSet.mem_insert, List.mem_cons]
    tauto

theorem foldl_comment_code (m : Marks) (rs : List Int) (r : Int) :
    r ∈ (rs.foldl Marks.comment m).code ↔ r ∈ m.code ∧ r ∉ rs := by
  induction rs generalizing m with
  | nil => simp
  | cons x rs ih =>
    simp only [List.foldl_cons, ih, Marks.comment, RowSet.mem_erase, List.mem_cons]
    tauto

theorem codeRow_comments (rows : List Text) (m : Marks) (x : Int) : (m.codeRow rows x).comments = m.comments := by
  unfold Marks.codeRow
  split
  · rfl
  · split <;> rfl

theorem mem_codeRow_code (rows : List Text) (m : Marks) (x r : Int) :
    r ∈ (m.codeRow rows x).code ↔ r ∈ m.code ∨ (r = x ∧ r ∉ m.comments ∧ hasText rows r = true) := by
  unfold Marks.codeRow
  split
  · rename_i h
    constructor
    · exact Or.inl
    · rintro (hr | ⟨rfl, hr, -⟩)
      · exact hr
      · exact absurd h hr
  · rename_i h
    split
    · rename_i ht
      simp only [RowSet.mem_insert]
      constructor
      · rintro (rfl | hr)
        · exact .inr ⟨rfl, h, ht⟩
        · exact .inl hr
      · rintro (hr | ⟨rfl, -⟩)
        · exact .inr hr
        · exact .inl rfl
    · rename_i ht
      constructor
      · exact Or.inl
      · rintro (hr | ⟨rfl, -, hr⟩)
        · exact hr
        · exact absurd hr ht

theorem foldl_codeRow_comments (rows : List Text) (m : Marks) (rs : List Int) :
    (rs.foldl (Marks.codeRow rows) m).comments = m.comments := by
  induction rs generalizing m with
  | nil => rfl
  | cons x rs ih => rw [List.foldl_cons, ih, codeRow_comments]

theorem foldl_codeRow_code (rows : List Text) (m : Marks) (rs : List Int) (r : Int) :
    r ∈ (rs.foldl (Marks.codeRow rows) m).code ↔
      r ∈ m.code ∨ (r ∈ rs ∧ r ∉ m.comments ∧ hasText rows r = true) := by
  induction rs generalizing m with
  | nil => simp
  | cons x rs ih =>
    simp only [List.foldl_cons, ih, codeRow_comments, mem_codeRow_code, List.mem_cons]
    tauto

theorem foldl_node_comments (rows : List Text) (m : Marks) (ns : List Node) (r : Int) :
    r ∈ (ns.foldl (Marks.node rows) m).comments ↔ r ∈ m.comments ∨ CommentRow ns r := by
  induction ns generalizing m with
  | nil => simp [CommentRow]
  | cons n ns ih =>
    rw [List.foldl_cons, ih, commentRow_cons]
    unfold Marks.node
    split
    · rename_i hk
      rw [foldl_comment_comments]
      tauto
    · rename_i hk
      split
      · rw [foldl_codeRow_comments]; tauto
      · tauto

/-- Code rows are rows with content that a named node covers and no comment: what a comment takes
    back is a comment row from then on. -/
theorem foldl_node_code (rows : List Text) (P : Int → Prop) (m : Marks) (ns : List Node)
    (hm : ∀ r, r ∈ m.code ↔ P r ∧ r ∉ m.comments ∧ hasText rows r = true) (r : Int) :
    r ∈ (ns.foldl (Marks.node rows) m).code ↔
      (P r ∨ NamedRow ns r) ∧ ¬ (r ∈ m.comments ∨ CommentRow ns r) ∧ hasText rows r = true := by
  induction ns generalizing m P with
  | nil => simp [NamedRow, CommentRow, hm]
  | cons n ns ih =>
    rw [List.foldl_cons, namedRow_cons, commentRow_cons]
    by_cases hk : n.kind = Node.commentKind
    · have hstep : m.node rows n = n.rowSpan.foldl Marks.comment m := by rw [Marks.node, if_pos hk]
      rw [hstep, ih P _ (by
        intro x
        rw [foldl_comment_code, foldl_comment_comments, hm]
        tauto), foldl_comment_comments]
      tauto
    · by_cases hn : n.named = true
      · have hstep : m.node rows n = n.rowSpan.foldl (Marks.codeRow rows) m := by
          rw [Marks.node, if_neg hk, if_pos hn]
        rw [hstep, ih (fun x => P x ∨ x ∈ n.rowSpan) _ (by
          intro x
          rw [foldl_codeRow_code, foldl_codeRow_comments, hm]
          tauto), foldl_codeRow_comments]
        tauto
      · have hstep : m.node rows n = m := by rw [Marks.node, if_neg hk, if_neg hn]
        rw [hstep, ih P m hm]
        tauto

/-! ## Two passes -/

theorem foldl_insert (s : RowSet) (rs : List Int) (r : Int) : r ∈ rs.foldl RowSet.insert s ↔ r ∈ s ∨ r ∈ rs := by
  induction rs generalizing s with
  | nil => simp
  | cons x rs ih =>
    simp only [List.foldl_cons, ih, RowSet.mem_insert, List.mem_cons]
    tauto

theorem mem_commentRows (fn : Node) (r : Int) : r ∈ commentRows fn ↔ CommentRow (walk (some fn)) r := by
  have key : ∀ (ns : List Node) (s : RowSet),
      r ∈ ns.foldl (fun s n => if n.kind = Node.commentKind then n.rowSpan.foldl RowSet.insert s else s) s ↔
        r ∈ s ∨ CommentRow ns r := by
    intro ns
    induction ns with
    | nil => simp [CommentRow]
    | cons n ns ih =>
      intro s
      rw [List.foldl_cons, ih, commentRow_cons]
      split
      · rw [foldl_insert]; tauto
      · tauto
  rw [commentRows, key]
  simp

/-- The claims after some rows are claimed for code: a row of `Q` is claimed, for code unless it is a
    comment row. -/
structure Claims.Holds (c : Claims) (comments : RowSet) (Q : Int → Prop) : Prop where
  claimed : ∀ r, r ∈ c.claimed ↔ r ∈ comments ∨ Q r
  code : ∀ r, r ∈ c.code ↔ Q r ∧ r ∉ comments

theorem Claims.Holds.row {c : Claims} {comments : RowSet} {Q : Int → Prop} (h : c.Holds comments Q) (x : Int) :
    (c.row x).Holds comments (fun r => Q r ∨ r = x) := by
  unfold Claims.row
  split
  · rename_i hx
    have hx := (h.claimed x).mp hx
    refine ⟨fun r => ?_, fun r => ?_⟩
    · rw [h.claimed]
      constructor
      · tauto
      · rintro (hr | hr | rfl)
        · exact .inl hr
        · exact .inr hr
        · exact hx
    · rw [h.code]
      constructor
      · tauto
      · rintro ⟨hr | rfl, hc⟩
        · exact ⟨hr, hc⟩
        · exact ⟨hx.resolve_left hc, hc⟩
  · rename_i hx
    have hx : ¬ (x ∈ comments ∨ Q x) := fun e => hx ((h.claimed x).mpr e)
    refine ⟨fun r => ?_, fun r => ?_⟩
    · rw [RowSet.mem_insert, h.claimed]; tauto
    · rw [RowSet.mem_insert, h.code]
      constructor
      · rintro (rfl | ⟨hr, hc⟩)
        · exact ⟨.inr rfl, fun e => hx (.inl e)⟩
        · exact ⟨.inl hr, hc⟩
      · tauto

theorem Claims.Holds.rows {c : Claims} {comments : RowSet} {Q : Int → Prop} (h : c.Holds comments Q) (rs : List Int) :
    (rs.foldl Claims.row c).Holds comments (fun r => Q r ∨ r ∈ rs) := by
  induction rs generalizing c Q with
  | nil => simpa using h
  | cons x rs ih =>
    have := ih (h.row x)
    simpa only [List.foldl_cons, List.mem_cons, or_assoc] using this

theorem Claims.Holds.nodes {c : Claims} {comments : RowSet} {Q : Int → Prop} (h : c.Holds comments Q) (ns : List Node) :
    (ns.foldl Claims.node c).Holds comments (fun r => Q r ∨ NamedRow ns r) := by
  induction ns generalizing c Q with
  | nil => simpa [NamedRow] using h
  | cons n ns ih =>
    rw [List.foldl_cons]
    by_cases hn : n.named = true
    · have := ih (h.rows n.rowSpan)
      rw [Claims.node, if_pos hn]
      simpa only [namedRow_cons, hn, true_and, or_assoc] using this
    · rw [Claims.node, if_neg hn]
      simpa only [namedRow_cons, hn, Bool.false_eq_true, false_and, false_or] using ih h

end Classification

/-! ## Both -/

open Classification

theorem mem_comments (policy : ClassificationPolicy) (fn : Node) (rows : List Text) (r : Int) :
    r ∈ (classify policy fn rows).comments ↔ CommentRow (walk (some fn)) r := by
  cases policy with
  | firstPass =>
    show r ∈ ((walk (some fn)).foldl (Marks.node rows) {}).comments ↔ _
    rw [foldl_node_comments]
    simp
  | twoPhase => exact mem_commentRows fn r

theorem mem_code (policy : ClassificationPolicy) (fn : Node) (rows : List Text) (r : Int) :
    r ∈ (classify policy fn rows).code ↔
      NamedRow (walk (some fn)) r ∧ ¬ CommentRow (walk (some fn)) r ∧ hasText rows r = true := by
  cases policy with
  | firstPass =>
    show r ∈ ((walk (some fn)).foldl (Marks.node rows) {}).code ↔ _
    rw [foldl_node_code rows (fun _ => False) {} (walk (some fn)) (by simp)]
    simp
  | twoPhase =>
    have hstart : ({ claimed := commentRows fn } : Claims).Holds (commentRows fn) (fun _ => False) :=
      ⟨fun r => by simp, fun r => by simp⟩
    have hcode := (hstart.nodes (walk (some fn))).code r
    show r ∈ (((walk (some fn)).foldl Claims.node { claimed := commentRows fn }).code.filter (hasText rows)) ↔ _
    rw [RowSet.mem_filter, hcode, mem_commentRows]
    tauto

@[simp] theorem classify_start (policy : ClassificationPolicy) (fn : Node) (rows : List Text) :
    (classify policy fn rows).start = fn.start.row := by
  cases policy <;> rfl

@[simp] theorem classify_stop (policy : ClassificationPolicy) (fn : Node) (rows : List Text) :
    (classify policy fn rows).stop = fn.stop.row := by
  cases policy <;> rfl

/-! ## Sizes -/

theorem RowSet.nodup (s : RowSet) : s.toList.Nodup :=
  s.ordered.imp (fun h => Int.ne_of_lt h)

theorem RowSet.size_eq_card {s : RowSet} {S : Finset Int} (h : ∀ r, r ∈ s ↔ r ∈ S) : s.size = S.card := by
  rw [RowSet.size, ← List.toFinset_card_of_nodup s.nodup]
  congr 1
  ext r
  rw [List.mem_toFinset]
  exact h r

theorem RowSet.size_add_size {s u : RowSet} {S : Finset Int} (hdisjoint : ∀ r, r ∈ s → r ∉ u)
    (h : ∀ r, (r ∈ s ∨ r ∈ u) ↔ r ∈ S) : s.size + u.size = S.card := by
  have hs : s.size = s.toList.toFinset.card := RowSet.size_eq_card fun r => List.mem_toFinset.symm
  have hu : u.size = u.toList.toFinset.card := RowSet.size_eq_card fun r => List.mem_toFinset.symm
  rw [hs, hu, ← Finset.card_union_of_disjoint]
  · congr 1
    ext r
    rw [Finset.mem_union, List.mem_toFinset, List.mem_toFinset]
    exact h r
  · rw [Finset.disjoint_left]
    intro r hr hr'
    exact hdisjoint r (List.mem_toFinset.mp hr) (List.mem_toFinset.mp hr')

end CommentQuota
