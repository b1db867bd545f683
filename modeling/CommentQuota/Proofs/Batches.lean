/-
  CommentQuota.Proofs.Batches — a batch of edits is the same as its edits one at a time.

  Positions are counted in the text as it was before the batch. The edits can still be applied one at a
  time with the positions they have, if the last position comes first: what is put in at a position
  leaves those before it where they are, even if it joins a carriage return and a line feed into one line
  break. Edits at one position have to be made one first, for what is put in there would push the next
  one back.

  - `merges_merged`: every batch can be merged.
  - `applyInTurn_eq_putIn`: what edits from the last position to the first leave.
  - `applyEdits_inTurn`: a batch is its merged edits in turn, and so is every reordering of it that keeps
    the order at each position.
-/

import CommentQuota.Proofs.Insertion
import CommentQuota.Proofs.Splicing

namespace CommentQuota

/-! ## Texts at a position -/

theorem textsAt_cons (e : Edit) (edits : List Edit) (p : Position) :
    textsAt (e :: edits) p = (if e.position = p then e.text else []) ++ textsAt edits p := by
  unfold textsAt
  by_cases h : e.position = p <;> simp [h]

theorem textsAt_eq_nil {edits : List Edit} {p : Position} (h : ∀ e ∈ edits, e.position ≠ p) : textsAt edits p = [] := by
  rw [textsAt, List.filter_eq_nil_iff.mpr, List.flatMap_nil]
  intro e he
  rw [decide_eq_true_eq]
  exact h e he

/-! ## Merged edits -/

/-- The edits stand from the last position to the first, and none stands twice. -/
def Descending (edits : List Edit) : Prop := edits.Pairwise fun d e => e.position.Before d.position

/-- Merged edits: one for each position of a batch, from the last position to the first, each with all the texts that the
    batch has there. -/
structure Merges (edits merged : List Edit) : Prop where
  descending : Descending merged
  position_iff : ∀ p, (∃ m ∈ merged, m.position = p) ↔ ∃ e ∈ edits, e.position = p
  text_eq : ∀ m ∈ merged, m.text = textsAt edits m.position

/-- Puts an edit in front of the one at its position, or at the place that its position has among the others. -/
def Edit.mergeInto (e : Edit) : List Edit → List Edit
  | [] => [e]
  | m :: ms =>
    if m.position = e.position then ⟨m.position, e.text ++ m.text⟩ :: ms
    else if m.position.Before e.position then e :: m :: ms
    else m :: e.mergeInto ms

def merged (edits : List Edit) : List Edit := edits.foldr Edit.mergeInto []

theorem textsAt_mergeInto (e : Edit) (ms : List Edit) (p : Position) :
    textsAt (e.mergeInto ms) p = textsAt (e :: ms) p := by
  induction ms with
  | nil => rfl
  | cons m ms ih =>
    rw [Edit.mergeInto]
    by_cases hsame : m.position = e.position
    · rw [if_pos hsame]
      simp only [textsAt_cons, hsame]
      by_cases hp : e.position = p <;> simp [hp]
    rw [if_neg hsame]
    by_cases hbefore : m.position.Before e.position
    · rw [if_pos hbefore]
    -- the edit passes one at another position
    · rw [if_neg hbefore, textsAt_cons, ih]
      simp only [textsAt_cons]
      by_cases hp : e.position = p
      · have hm : m.position ≠ p := fun h => hsame (h.trans hp.symm)
        simp [hm]
      · simp [hp]

theorem exists_position_mergeInto {e : Edit} {ms : List Edit} {p : Position} :
    (∃ m ∈ e.mergeInto ms, m.position = p) ↔ e.position = p ∨ ∃ m ∈ ms, m.position = p := by
  induction ms with
  | nil => simp [Edit.mergeInto]
  | cons m ms ih =>
    rw [Edit.mergeInto]
    by_cases hsame : m.position = e.position
    · rw [if_pos hsame]
      simp [hsame]
    rw [if_neg hsame]
    by_cases hbefore : m.position.Before e.position
    · rw [if_pos hbefore]
      simp
    · rw [if_neg hbefore]
      simp only [List.mem_cons, exists_eq_or_imp, ih]
      exact or_left_comm

theorem descending_mergeInto {e : Edit} {ms : List Edit} (h : Descending ms) : Descending (e.mergeInto ms) := by
  induction ms with
  | nil => exact List.pairwise_singleton _ _
  | cons m ms ih =>
    obtain ⟨hm, hms⟩ := List.pairwise_cons.mp h
    rw [Edit.mergeInto]
    by_cases hsame : m.position = e.position
    · rw [if_pos hsame]
      exact List.pairwise_cons.mpr ⟨hm, hms⟩
    rw [if_neg hsame]
    by_cases hbefore : m.position.Before e.position
    · rw [if_pos hbefore]
      refine List.pairwise_cons.mpr ⟨?_, h⟩
      intro d hd
      rcases List.mem_cons.mp hd with rfl | hd
      · exact hbefore
      · exact (hm d hd).trans hbefore
    · rw [if_neg hbefore]
      refine List.pairwise_cons.mpr ⟨?_, ih hms⟩
      intro d hd
      rcases exists_position_mergeInto.mp ⟨d, hd, rfl⟩ with he | ⟨x, hx, hxd⟩
      · rw [← he]
        exact Position.before_of_ne hsame hbefore
      · rw [← hxd]
        exact hm x hx

theorem textsAt_merged (edits : List Edit) (p : Position) : textsAt (merged edits) p = textsAt edits p := by
  induction edits with
  | nil => rfl
  | cons e es ih =>
    show textsAt (e.mergeInto (merged es)) p = textsAt (e :: es) p
    rw [textsAt_mergeInto, textsAt_cons, textsAt_cons, ih]

theorem descending_merged (edits : List Edit) : Descending (merged edits) := by
  induction edits with
  | nil => exact List.Pairwise.nil
  | cons e es ih => exact descending_mergeInto ih

/-- Of edits from the last position to the first, at most one stands at a position. -/
theorem textsAt_of_descending {ms : List Edit} {m : Edit} (h : Descending ms) (hm : m ∈ ms) :
    textsAt ms m.position = m.text := by
  induction ms with
  | nil => cases hm
  | cons x xs ih =>
    obtain ⟨hx, hxs⟩ := List.pairwise_cons.mp h
    rw [textsAt_cons]
    rcases List.mem_cons.mp hm with rfl | hm
    · rw [if_pos rfl, textsAt_eq_nil fun d hd => (hx d hd).ne, List.append_nil]
    · rw [if_neg (hx m hm).ne.symm, List.nil_append, ih hxs hm]

theorem Merges.textsAt_eq {edits ms : List Edit} (h : Merges edits ms) (p : Position) : textsAt ms p = textsAt edits p := by
  by_cases hp : ∃ m ∈ ms, m.position = p
  · obtain ⟨m, hm, rfl⟩ := hp
    rw [textsAt_of_descending h.descending hm, h.text_eq m hm]
  · have hedits : ¬ ∃ e ∈ edits, e.position = p := fun he => hp ((h.position_iff p).mpr he)
    rw [textsAt_eq_nil fun m hm e => hp ⟨m, hm, e⟩, textsAt_eq_nil fun d hd e => hedits ⟨d, hd, e⟩]

theorem merges_merged (edits : List Edit) : Merges edits (merged edits) where
  descending := descending_merged edits
  position_iff := by
    intro p
    induction edits with
    | nil => exact Iff.rfl
    | cons e es ih =>
      show (∃ m ∈ e.mergeInto (merged es), m.position = p) ↔ _
      rw [exists_position_mergeInto, ih]
      simp
  text_eq := by
    intro m hm
    rw [← textsAt_merged, textsAt_of_descending (descending_merged edits) hm]

/-! ## Edits in turn -/

/-- Edits applied one at a time, each to the text that those before it left. -/
def applyInTurn (t : Text) (edits : List Edit) : Except Fault Text := edits.foldlM (fun u e => applyEdits u [e]) t

/-- What is put in at the last position stands behind what is put in at the others. -/
theorem putIn_insert {a b : Text} {m : Edit} {ms : List Edit} (hplace : (⟨0, 0⟩ : Position).afterText a = m.position)
    (hm : ∀ d ∈ ms, d.position.Before m.position) :
    putIn (fun k => textsAt ms ((⟨0, 0⟩ : Position).afterText ((a ++ (m.text ++ b)).take k))) (a ++ (m.text ++ b)) =
      putIn (fun k => textsAt (m :: ms) ((⟨0, 0⟩ : Position).afterText ((a ++ b).take k))) (a ++ b) := by
  have hbehind : ∀ rest : Text, textsAt ms ((⟨0, 0⟩ : Position).afterText (a ++ rest)) = [] := by
    intro rest
    apply textsAt_eq_nil
    intro d hd e
    rw [Position.afterText_append, hplace] at e
    exact Position.not_afterText_before m.position rest (e ▸ hm d hd)
  -- in front of the last position the texts are the same, and so is what is put in there
  have hfront : ∀ k, (if k < a.length then textsAt ms ((⟨0, 0⟩ : Position).afterText ((a ++ (m.text ++ b)).take k)) else []) =
      if k < a.length then textsAt (m :: ms) ((⟨0, 0⟩ : Position).afterText ((a ++ b).take k)) else [] := by
    intro k
    by_cases hk : k < a.length
    · have hbefore := Text.afterText_take_before hk (Nat.le_refl a.length)
      rw [List.take_length, hplace] at hbefore
      rw [if_pos hk, if_pos hk, List.take_append_of_le_length (Nat.le_of_lt hk),
        List.take_append_of_le_length (Nat.le_of_lt hk), textsAt_cons, if_neg hbefore.ne.symm, List.nil_append]
    · rw [if_neg hk, if_neg hk]
  have hold : putIn (fun k => textsAt ms ((⟨0, 0⟩ : Position).afterText ((a ++ (m.text ++ b)).take (a.length + k))))
      (m.text ++ b) = m.text ++ b := by
    apply putIn_of_nothing
    intro k _
    rw [List.take_length_add_append]
    exact hbehind _
  have hnew : putIn (fun k => textsAt (m :: ms) ((⟨0, 0⟩ : Position).afterText ((a ++ b).take (a.length + k)))) b =
      m.text ++ putIn (fun _ => []) b := by
    apply putIn_front
    · rw [Nat.add_zero, List.take_left, textsAt_cons, if_pos hplace.symm, ← List.append_nil a, hbehind]
    · intro k hk
      obtain ⟨c, cs, rfl⟩ := List.exists_cons_of_length_pos (Nat.zero_lt_of_lt hk)
      have hbefore := Position.before_afterText m.position (List.cons_ne_nil c (cs.take k))
      rw [textsAt_cons, List.take_length_add_append, List.take_succ_cons, Position.afterText_append, hplace,
        if_neg hbefore.ne, ← hplace, ← Position.afterText_append]
      exact hbehind _
  rw [putIn_append _ a (m.text ++ b), putIn_append _ a b, hold, hnew, putIn_of_nothing fun _ _ => rfl]
  simp only [hfront]

theorem applyInTurn_eq_putIn {t : Text} {ms : List Edit} (hdesc : Descending ms)
    (h : ∀ m ∈ ms, t.HasPosition m.position) :
    applyInTurn t ms = .ok (putIn (fun k => textsAt ms ((⟨0, 0⟩ : Position).afterText (t.take k))) t) := by
  induction ms generalizing t with
  | nil =>
    have hnothing : putIn (fun k => textsAt [] ((⟨0, 0⟩ : Position).afterText (t.take k))) t = t :=
      putIn_of_nothing fun _ _ => rfl
    rw [hnothing]
    rfl
  | cons m ms ih =>
    obtain ⟨hm, hms⟩ := List.pairwise_cons.mp hdesc
    obtain ⟨k, hk⟩ := Text.exists_offsetAt_iff.mpr (h m List.mem_cons_self)
    have hinsert := fun q j hq hlt => @Text.offsetAt_insert t m.position q j k hk hq hlt m.text
    have hsingle : applyEdits t [m] = .ok (t.take k ++ (m.text ++ t.drop k)) := by
      simpa using applyEdits_at hk (List.cons_ne_nil m.text [])
    obtain ⟨a, b, rfl, rfl, hplace, -⟩ := Text.offsetAt_eq_ok_iff.mp hk
    rw [List.take_left, List.drop_left] at hinsert hsingle
    have hplaced : ∀ d ∈ ms, Text.HasPosition (a ++ (m.text ++ b)) d.position := by
      intro d hd
      obtain ⟨j, hj⟩ := Text.exists_offsetAt_iff.mpr (h d (List.mem_cons_of_mem m hd))
      exact Text.exists_offsetAt_iff.mp ⟨j, hinsert d.position j hj (hm d hd)⟩
    have hstep : applyInTurn (a ++ b) (m :: ms) = applyInTurn (a ++ (m.text ++ b)) ms := by
      rw [applyInTurn, List.foldlM_cons, hsingle]
      rfl
    rw [hstep, ih hms hplaced, putIn_insert hplace hm]

/-! ## Batches in turn -/

/-- The batches have the same edits at every position, in the same order: one is the other reordered, except that edits
    at one position keep their order. -/
def Reorders (edits edits' : List Edit) : Prop :=
  ∀ p, (edits'.filter fun e => e.position = p) = edits.filter fun e => e.position = p

/-- A batch whose positions are all in the text is its merged edits in turn, from the last position to the first, each
    with the position it has in the batch. So the order of the batch matters only among edits at one position. -/
theorem applyEdits_inTurn {t : Text} {edits : List Edit} (h : ∀ e ∈ edits, t.HasPosition e.position) :
    ∃ t', applyEdits t edits = .ok t' ∧
      (∃ ms, Merges edits ms) ∧ (∀ ms, Merges edits ms → applyInTurn t ms = .ok t') ∧
      ∀ edits', Reorders edits edits' → applyEdits t edits' = .ok t' := by
  refine ⟨_, applyEdits_eq_putIn h, ⟨merged edits, merges_merged edits⟩, ?_, ?_⟩
  · intro ms hms
    have hplaced : ∀ m ∈ ms, t.HasPosition m.position := by
      intro m hm
      obtain ⟨e, he, hposition⟩ := (hms.position_iff m.position).mp ⟨m, hm, rfl⟩
      exact hposition ▸ h e he
    rw [applyInTurn_eq_putIn hms.descending hplaced]
    simp only [hms.textsAt_eq]
  · intro edits' hreorders
    have hplaced : ∀ e ∈ edits', t.HasPosition e.position := by
      intro e he
      have hmem : e ∈ edits'.filter fun d => d.position = e.position := List.mem_filter.mpr ⟨he, by simp⟩
      rw [hreorders] at hmem
      exact h e (List.mem_filter.mp hmem).1
    have htexts : ∀ p, textsAt edits' p = textsAt edits p := by
      intro p
      rw [textsAt, hreorders p, textsAt]
    rw [applyEdits_eq_putIn hplaced]
    simp only [htexts]

theorem applyEdits_inTurn_mixed : (∀ e ∈ mixedEdits, mixedText.HasPosition e.position) ∧
    (merged mixedEdits).length = 4 ∧ applyInTurn mixedText (merged mixedEdits) = applyEdits mixedText mixedEdits := by
  obtain ⟨t', hbatch, -, hturn, -⟩ := applyEdits_inTurn mixedEdits_placed
  exact ⟨mixedEdits_placed, by decide +kernel, (hturn _ (merges_merged mixedEdits)).trans hbatch.symm⟩

end CommentQuota
