/-
  CommentQuota.Proofs.Splicing — what a batch of edits does to the bytes of a text.

  The positions of a batch may come in any order and several times. Each text is put in at its own
  position, texts at one position stand in the order of their edits, and nothing else changes: the bytes
  of the text are all there, in their order, with the bytes put in between them. If a position is not in
  the text, the batch is refused as a whole, with the fault of the first such edit.

  - `insertions_eq_error_iff`: a batch is refused for its first misplaced edit.
  - `applyEdits_eq_putIn`: a batch puts its texts in at the offsets of their positions.
  - `encode_putIn`: texts put in between characters are bytes put in between bytes.
  - `applyEdits_splicesBytes`: the two together.
-/

import CommentQuota.Edit
import CommentQuota.Proofs.Positions

namespace CommentQuota

/-! ## Lists put in at places -/

/-- A list with something put in at each of its places: `added k` stands in front of the entry with the offset `k`, and
    what is added at the last place stands behind all of them. -/
def putIn {α : Type} (added : Nat → List α) : List α → List α
  | [] => added 0
  | a :: as => added 0 ++ a :: putIn (fun k => added (k + 1)) as

section putIn

variable {α : Type}

theorem putIn_congr {f g : Nat → List α} {l : List α} (h : ∀ k ≤ l.length, f k = g k) : putIn f l = putIn g l := by
  induction l generalizing f g with
  | nil => exact h 0 (Nat.le_refl 0)
  | cons a as ih =>
    have ih := ih (f := fun k => f (k + 1)) (g := fun k => g (k + 1)) fun k hk => h (k + 1) (by rw [List.length_cons]; omega)
    rw [putIn, putIn, h 0 (Nat.zero_le _), ih]

theorem putIn_of_nothing {f : Nat → List α} {l : List α} (h : ∀ k ≤ l.length, f k = []) : putIn f l = l := by
  induction l generalizing f with
  | nil => exact h 0 (Nat.le_refl 0)
  | cons a as ih =>
    have ih := ih (f := fun k => f (k + 1)) fun k hk => h (k + 1) (by rw [List.length_cons]; omega)
    rw [putIn, h 0 (Nat.zero_le _), ih, List.nil_append]

/-- What is put in at the place between two lists stands in front of the second. -/
theorem putIn_append (f : Nat → List α) (a b : List α) :
    putIn f (a ++ b) = putIn (fun k => if k < a.length then f k else []) a ++ putIn (fun k => f (a.length + k)) b := by
  induction a generalizing f with
  | nil => simp [putIn]
  | cons x xs ih =>
    rw [List.cons_append, putIn, ih, putIn, if_pos (by simp)]
    simp only [List.length_cons, Nat.add_lt_add_iff_right, Nat.add_right_comm _ 1, List.append_assoc, List.cons_append,
      Nat.add_assoc]

/-- Something more in front of all that is put in. -/
theorem putIn_front {f g : Nat → List α} {x l : List α} (h : f 0 = x ++ g 0) (h' : ∀ k < l.length, f (k + 1) = g (k + 1)) :
    putIn f l = x ++ putIn g l := by
  cases l with
  | nil => rw [putIn, putIn, h]
  | cons a as =>
    have hrest : putIn (fun k => f (k + 1)) as = putIn (fun k => g (k + 1)) as :=
      putIn_congr fun k hk => h' k (Nat.lt_succ_of_le hk)
    rw [putIn, putIn, h, hrest, List.append_assoc]

/-- Nothing is put in at the first places. -/
theorem putIn_skip {f : Nat → List α} {n : Nat} {l : List α} (hn : n ≤ l.length) (h : ∀ k < n, f k = []) :
    putIn f l = l.take n ++ putIn (fun k => f (n + k)) (l.drop n) := by
  have hlength : (l.take n).length = n := List.length_take_of_le hn
  have hsplit := putIn_append f (l.take n) (l.drop n)
  rw [List.take_append_drop, hlength] at hsplit
  rw [hsplit, putIn_of_nothing]
  intro k hk
  split
  · rename_i hlt
    exact h k hlt
  · rfl

end putIn

/-! ## Insertions in their order -/

/-- The texts of insertions at an offset. -/
def addedAt (is : List Insertion) (k : Nat) : Text := (is.filter fun i => i.offset = k).flatMap Insertion.text

theorem filter_place (i : Insertion) (is : List Insertion) (k : Nat) :
    (i.place is).filter (fun j => j.offset = k) = (i :: is).filter fun j => j.offset = k := by
  induction is with
  | nil => rfl
  | cons j js ih =>
    rw [Insertion.place]
    split
    · rfl
    · -- the two have different offsets, so at most one of them is kept
      rename_i hlt
      by_cases hj : j.offset = k
      · have hi : ¬ i.offset = k := by omega
        simp only [List.filter_cons, hi, hj, decide_true, decide_false, if_true, ih]
        simp
      · simp only [List.filter_cons, hj, decide_false, ih]
        simp

theorem filter_arrange (is : List Insertion) (k : Nat) :
    (arrange is).filter (fun j => j.offset = k) = is.filter fun j => j.offset = k := by
  induction is with
  | nil => rfl
  | cons i is ih => rw [arrange, filter_place, List.filter_cons, List.filter_cons, ih]

theorem addedAt_arrange (is : List Insertion) : addedAt (arrange is) = addedAt is := by
  funext k
  rw [addedAt, addedAt, filter_arrange]

theorem mem_arrange {i : Insertion} {is : List Insertion} : i ∈ arrange is ↔ i ∈ is := by
  have hfilter := filter_arrange is i.offset
  constructor
  · intro h
    have hmem : i ∈ (arrange is).filter fun j => j.offset = i.offset := List.mem_filter.mpr ⟨h, by simp⟩
    rw [hfilter] at hmem
    exact (List.mem_filter.mp hmem).1
  · intro h
    have hmem : i ∈ is.filter fun j => j.offset = i.offset := List.mem_filter.mpr ⟨h, by simp⟩
    rw [← hfilter] at hmem
    exact (List.mem_filter.mp hmem).1

/-- No insertion stands behind one with a greater offset. -/
def Ascending (is : List Insertion) : Prop := is.Pairwise fun i j => i.offset ≤ j.offset

theorem mem_place {i j : Insertion} {is : List Insertion} (h : j ∈ i.place is) : j = i ∨ j ∈ is := by
  induction is with
  | nil => exact .inl (List.mem_singleton.mp h)
  | cons x xs ih =>
    rw [Insertion.place] at h
    split at h
    · exact List.mem_cons.mp h
    · rcases List.mem_cons.mp h with rfl | h
      · exact .inr List.mem_cons_self
      · exact (ih h).imp_right (List.mem_cons_of_mem x)

theorem ascending_place {i : Insertion} {is : List Insertion} (h : Ascending is) : Ascending (i.place is) := by
  induction is with
  | nil => exact List.pairwise_singleton _ _
  | cons x xs ih =>
    obtain ⟨hx, hxs⟩ := List.pairwise_cons.mp h
    rw [Insertion.place]
    split
    · rename_i hle
      refine List.pairwise_cons.mpr ⟨?_, h⟩
      intro j hj
      rcases List.mem_cons.mp hj with rfl | hj
      · exact hle
      · exact Nat.le_trans hle (hx j hj)
    · rename_i hlt
      refine List.pairwise_cons.mpr ⟨?_, ih hxs⟩
      intro j hj
      rcases mem_place hj with rfl | hj
      · omega
      · exact hx j hj

theorem ascending_arrange (is : List Insertion) : Ascending (arrange is) := by
  induction is with
  | nil => exact List.Pairwise.nil
  | cons i is ih => exact ascending_place ih

theorem splice_eq_putIn {base : Nat} {t : Text} {is : List Insertion} (h : Ascending is)
    (hrange : ∀ i ∈ is, base ≤ i.offset ∧ i.offset ≤ base + t.length) :
    splice base t is = putIn (fun k => addedAt is (base + k)) t := by
  induction is generalizing base t with
  | nil => exact (putIn_of_nothing fun k _ => rfl).symm
  | cons i is ih =>
    obtain ⟨hi, his⟩ := List.pairwise_cons.mp h
    obtain ⟨hlow, hhigh⟩ := hrange i List.mem_cons_self
    have hrest : ∀ j ∈ is, i.offset ≤ j.offset ∧ j.offset ≤ i.offset + (t.drop (i.offset - base)).length := by
      intro j hj
      have hj' := hrange j (List.mem_cons_of_mem i hj)
      have := hi j hj
      rw [List.length_drop]
      omega
    have ih := ih his hrest
    -- no insertion stands in front of the first one
    have hnone : ∀ k < i.offset - base, addedAt (i :: is) (base + k) = [] := by
      intro k hk
      rw [addedAt, List.filter_eq_nil_iff.mpr, List.flatMap_nil]
      intro j hj
      have hle : i.offset ≤ j.offset := by
        rcases List.mem_cons.mp hj with rfl | hj
        · exact Nat.le_refl _
        · exact hi j hj
      simp
      omega
    have hfirst : putIn (fun k => addedAt (i :: is) (base + (i.offset - base + k))) (t.drop (i.offset - base)) =
        i.text ++ putIn (fun k => addedAt is (i.offset + k)) (t.drop (i.offset - base)) := by
      have hbase : ∀ k, base + (i.offset - base + k) = i.offset + k := by intro k; omega
      simp only [hbase]
      apply putIn_front
      · simp [addedAt]
      · intro k _
        simp [addedAt]
    rw [splice, ih, putIn_skip (by omega) hnone, hfirst, List.append_assoc]

/-! ## Batches -/

/-- The fault of the first edit of a batch that stands at no position of the text. -/
def FirstMisplaced (t : Text) (edits : List Edit) (f : Fault) : Prop :=
  ∃ front e back m, edits = front ++ e :: back ∧ (∀ d ∈ front, ¬ ∃ m, t.Misplaces d.position m) ∧
    t.Misplaces e.position m ∧ f = .misplacedEdit e.position.row e.position.column m.reason

/-- The first edit of a batch is the first that is misplaced, whatever follows it. -/
theorem firstMisplaced_of_misplaced {t : Text} {e : Edit} {es : List Edit} {m : Misplacement} {f : Fault}
    (h : t.Misplaces e.position m) :
    FirstMisplaced t (e :: es) f ↔ f = .misplacedEdit e.position.row e.position.column m.reason := by
  constructor
  · intro hfirst
    obtain ⟨front, d, back, m', hsplit, hfront, hd, hf⟩ := hfirst
    cases front with
    | nil =>
      obtain ⟨rfl, -⟩ := List.cons.inj hsplit
      -- a position is misplaced for one reason only
      have hm := (Text.offsetAt_of_misplaces hd).symm.trans (Text.offsetAt_of_misplaces h)
      rwa [Except.error.inj hm] at hf
    | cons x xs =>
      obtain ⟨rfl, -⟩ := List.cons.inj hsplit
      exact absurd ⟨m, h⟩ (hfront e List.mem_cons_self)
  · intro hf
    exact ⟨[], e, es, m, rfl, by simp, h, hf⟩

/-- An edit in front that is not misplaced changes nothing about the first that is. -/
theorem firstMisplaced_of_placed {t : Text} {e : Edit} {es : List Edit} {f : Fault} (h : ¬ ∃ m, t.Misplaces e.position m) :
    FirstMisplaced t (e :: es) f ↔ FirstMisplaced t es f := by
  constructor
  · intro hfirst
    obtain ⟨front, d, back, m, hsplit, hfront, hd, hf⟩ := hfirst
    cases front with
    | nil =>
      obtain ⟨rfl, -⟩ := List.cons.inj hsplit
      exact absurd ⟨m, hd⟩ h
    | cons x xs =>
      obtain ⟨rfl, rfl⟩ := List.cons.inj hsplit
      exact ⟨xs, d, back, m, rfl, fun y hy => hfront y (List.mem_cons_of_mem e hy), hd, hf⟩
  · intro hfirst
    obtain ⟨front, d, back, m, rfl, hfront, hd, hf⟩ := hfirst
    refine ⟨e :: front, d, back, m, rfl, ?_, hd, hf⟩
    intro x hx
    rcases List.mem_cons.mp hx with rfl | hx
    · exact h
    · exact hfront x hx

theorem insertions_eq_error_iff {t : Text} {edits : List Edit} {f : Fault} :
    insertions t edits = .error f ↔ FirstMisplaced t edits f := by
  induction edits with
  | nil =>
    refine iff_of_false (by simp [insertions]) ?_
    intro h
    obtain ⟨front, e, back, m, hsplit, -⟩ := h
    simp at hsplit
  | cons e es ih =>
    cases hoffset : t.offsetAt e.position with
    | error m =>
      have hfault : insertions t (e :: es) = .error (.misplacedEdit e.position.row e.position.column m.reason) := by
        rw [insertions, Edit.insertion, hoffset]
        rfl
      rw [hfault, firstMisplaced_of_misplaced (Text.misplaces_of_offsetAt hoffset), Except.error.injEq, eq_comm]
    | ok k =>
      have hplaced : ¬ ∃ m, t.Misplaces e.position m := by
        intro h
        obtain ⟨m, h⟩ := h
        simp [Text.offsetAt_of_misplaces h] at hoffset
      have hrest : insertions t (e :: es) = .error f ↔ insertions t es = .error f := by
        rw [insertions, Edit.insertion, hoffset]
        cases insertions t es <;> simp [bind, Except.bind, pure, Except.pure]
      rw [hrest, firstMisplaced_of_placed hplaced, ih]

/-- The texts of the edits at a position, in the order of the edits. -/
def textsAt (edits : List Edit) (p : Position) : Text := (edits.filter fun e => e.position = p).flatMap Edit.text

theorem insertions_eq_ok {t : Text} {edits : List Edit} (h : ∀ e ∈ edits, t.HasPosition e.position) :
    ∃ is, insertions t edits = .ok is ∧ (∀ i ∈ is, i.offset ≤ t.length) ∧
      ∀ k ≤ t.length, addedAt is k = textsAt edits ((⟨0, 0⟩ : Position).afterText (t.take k)) := by
  induction edits with
  | nil => exact ⟨[], rfl, by simp, fun k _ => rfl⟩
  | cons e es ih =>
    obtain ⟨is, his, hlength, hadded⟩ := ih fun d hd => h d (List.mem_cons_of_mem e hd)
    obtain ⟨j, hj⟩ := Text.exists_offsetAt_iff.mpr (h e List.mem_cons_self)
    have hjlength := Text.le_length_of_offsetAt hj
    refine ⟨⟨j, e.text⟩ :: is, ?_, ?_, ?_⟩
    · rw [insertions, his, Edit.insertion, hj]
      rfl
    · intro i hi
      rcases List.mem_cons.mp hi with rfl | hi
      · exact hjlength
      · exact hlength i hi
    · intro k hk
      have hadded := hadded k hk
      have hplace : e.position = (⟨0, 0⟩ : Position).afterText (t.take k) ↔ j = k := by
        rw [← Text.afterText_take_of_offsetAt hj, Text.afterText_take_inj hjlength hk]
      unfold addedAt textsAt at hadded ⊢
      by_cases hk : j = k
      · simp [hplace, hk, hadded]
      · simp [hplace, hk, hadded]

/-- A batch puts its texts in behind as many characters as lead to their positions. -/
theorem applyEdits_eq_putIn {t : Text} {edits : List Edit} (h : ∀ e ∈ edits, t.HasPosition e.position) :
    applyEdits t edits = .ok (putIn (fun k => textsAt edits ((⟨0, 0⟩ : Position).afterText (t.take k))) t) := by
  obtain ⟨is, his, hlength, hadded⟩ := insertions_eq_ok h
  have hrange : ∀ i ∈ arrange is, 0 ≤ i.offset ∧ i.offset ≤ 0 + t.length := by
    intro i hi
    have := hlength i (mem_arrange.mp hi)
    omega
  rw [applyEdits, his, Except.map, splice_eq_putIn (ascending_arrange is) hrange, addedAt_arrange]
  congr 1
  refine putIn_congr ?_
  intro k hk
  rw [Nat.zero_add, hadded k hk]

theorem applyEdits_eq_error_iff {t : Text} {edits : List Edit} {f : Fault} :
    applyEdits t edits = .error f ↔ FirstMisplaced t edits f := by
  rw [← insertions_eq_error_iff, applyEdits]
  cases insertions t edits <;> simp [Except.map]

/-! ## Bytes -/

namespace Utf8

theorem encode_flatMap {α : Type} (l : List α) (f : α → Text) : encode (l.flatMap f) = l.flatMap fun a => encode (f a) :=
  List.flatMap_assoc

theorem length_encode_take_inj {t : Text} {j k : Nat} (hj : j ≤ t.length) (hk : k ≤ t.length) :
    (encode (t.take j)).length = (encode (t.take k)).length ↔ j = k := by
  induction t generalizing j k with
  | nil =>
    obtain rfl := Nat.le_zero.mp hj
    obtain rfl := Nat.le_zero.mp hk
    exact iff_of_true rfl rfl
  | cons c cs ih =>
    have hc := c.utf8Size_pos
    rw [List.length_cons] at hj hk
    cases j with
    | zero => cases k <;> simp; omega
    | succ j =>
      cases k with
      | zero => simp; omega
      | succ k =>
        rw [List.take_succ_cons, List.take_succ_cons, encode_cons, encode_cons, List.length_append, List.length_append,
          Nat.add_left_cancel_iff, ih (by omega) (by omega), Nat.add_right_cancel_iff]

theorem length_encode_take_le (t : Text) (k : Nat) : (encode (t.take k)).length ≤ (encode t).length := by
  have hsplit : encode t = encode (t.take k) ++ encode (t.drop k) := by rw [← encode_append, List.take_append_drop]
  rw [hsplit, List.length_append]
  exact Nat.le_add_right _ _

/-- Texts put in between the characters are bytes put in between their bytes, and none inside a character. -/
theorem encode_putIn {t : Text} {f : Nat → Text} {g : Nat → List UInt8}
    (hat : ∀ k ≤ t.length, g (encode (t.take k)).length = encode (f k))
    (hinside : ∀ i, (∀ k ≤ t.length, i ≠ (encode (t.take k)).length) → g i = []) :
    encode (putIn f t) = putIn g (encode t) := by
  induction t generalizing f g with
  | nil => exact (hat 0 (Nat.le_refl 0)).symm
  | cons c cs ih =>
    have hpos : 0 < (String.utf8EncodeChar c).length := by rw [String.length_utf8EncodeChar]; exact c.utf8Size_pos
    have hrest : encode (putIn (fun k => f (k + 1)) cs) =
        putIn (fun i => g ((String.utf8EncodeChar c).length + i)) (encode cs) := by
      apply ih
      · intro k hk
        have hnext := hat (k + 1) (Nat.succ_le_succ hk)
        rwa [List.take_succ_cons, encode_cons, List.length_append] at hnext
      · intro i hi
        apply hinside
        intro k hk
        cases k with
        | zero => rw [List.take_zero, encode_nil, List.length_nil]; omega
        | succ k =>
          have hne := hi k (Nat.le_of_succ_le_succ hk)
          rw [List.take_succ_cons, encode_cons, List.length_append]
          omega
    -- the bytes of the character stand together
    have hchar : putIn (fun i => if i < (String.utf8EncodeChar c).length then g i else []) (String.utf8EncodeChar c) =
        encode (f 0) ++ putIn (fun _ => []) (String.utf8EncodeChar c) := by
      apply putIn_front
      · rw [if_pos hpos, List.append_nil]
        exact hat 0 (Nat.zero_le _)
      · intro i _
        split
        · rename_i hlt
          apply hinside
          intro k hk
          cases k with
          | zero => simp
          | succ k =>
            rw [List.take_succ_cons, encode_cons, List.length_append]
            omega
        · rfl
    rw [putIn, encode_append, encode_cons, encode_cons, putIn_append, hchar, hrest, putIn_of_nothing (fun _ _ => rfl),
      List.append_assoc]

/-- The bytes that a batch puts in at an offset of the bytes of a text, in the order of its edits. -/
def bytesAt (bytes : List UInt8) (edits : List Edit) (k : Nat) : List UInt8 :=
  (edits.filter fun e => offsetOf bytes e.position = k).flatMap fun e => encode e.text

theorem bytesAt_encode {t : Text} {edits : List Edit} (h : ∀ e ∈ edits, t.HasPosition e.position) {k : Nat}
    (hk : k ≤ t.length) : bytesAt (encode t) edits (encode (t.take k)).length =
      encode (textsAt edits ((⟨0, 0⟩ : Position).afterText (t.take k))) := by
  have hfilter : edits.filter (fun e => offsetOf (encode t) e.position = (encode (t.take k)).length) =
      edits.filter fun e => e.position = (⟨0, 0⟩ : Position).afterText (t.take k) := by
    apply List.filter_congr
    intro e he
    obtain ⟨j, hj⟩ := Text.exists_offsetAt_iff.mpr (h e he)
    have hjlength := Text.le_length_of_offsetAt hj
    rw [offsetOf_encode hj, ← Text.afterText_take_of_offsetAt hj, decide_eq_decide, length_encode_take_inj hjlength hk,
      Text.afterText_take_inj hjlength hk]
  rw [bytesAt, hfilter, textsAt, encode_flatMap]

end Utf8

/-- A batch is refused for its first edit that stands at no position of the text. Otherwise the bytes of the text get the
    bytes of every edit at its position, those at one position in the order of the edits, and are the same else. -/
theorem applyEdits_splicesBytes (t : Text) (edits : List Edit) :
    (∀ f, applyEdits t edits = .error f ↔ FirstMisplaced t edits f) ∧
    ((∀ e ∈ edits, ¬ ∃ m, t.Misplaces e.position m) → ∃ t', applyEdits t edits = .ok t' ∧
      (∀ e ∈ edits, Utf8.offsetOf (Utf8.encode t) e.position ≤ (Utf8.encode t).length) ∧
      Utf8.encode t' = putIn (Utf8.bytesAt (Utf8.encode t) edits) (Utf8.encode t)) := by
  refine ⟨fun f => applyEdits_eq_error_iff, ?_⟩
  intro h
  have hvalid : ∀ e ∈ edits, t.HasPosition e.position := fun e he => Text.hasPosition_iff.mpr (h e he)
  refine ⟨_, applyEdits_eq_putIn hvalid, ?_, ?_⟩
  · intro e he
    obtain ⟨k, hk⟩ := Text.exists_offsetAt_iff.mpr (hvalid e he)
    rw [Utf8.offsetOf_encode hk]
    exact Utf8.length_encode_take_le t k
  · apply Utf8.encode_putIn
    · intro k hk
      rw [Utf8.bytesAt_encode hvalid hk]
    · intro i hi
      rw [Utf8.bytesAt, List.filter_eq_nil_iff.mpr, List.flatMap_nil]
      intro e he
      obtain ⟨k, hk⟩ := Text.exists_offsetAt_iff.mpr (hvalid e he)
      rw [Utf8.offsetOf_encode hk, decide_eq_true_eq]
      exact (hi k (Text.le_length_of_offsetAt hk)).symm

/-- A text with characters of several bytes, a carriage return that breaks no row, and both kinds of line breaks. -/
def mixedText : Text := "é\r\na\r€\n".toList

/-- Edits in no order, two of them at one position. The first makes a line break with the lone carriage return. -/
def mixedEdits : List Edit :=
  [⟨⟨1, 2⟩, "\n1".toList⟩, ⟨⟨0, 2⟩, "2\n".toList⟩, ⟨⟨1, 2⟩, "ü".toList⟩, ⟨⟨2, 0⟩, "3".toList⟩, ⟨⟨1, 5⟩, "4".toList⟩]

theorem mixedEdits_placed : ∀ e ∈ mixedEdits, mixedText.HasPosition e.position := by
  have hplaced : ∀ e ∈ mixedEdits, (mixedText.offsetAt e.position).toOption.isSome = true := by decide +kernel
  intro e he
  have hsome := hplaced e he
  rw [← Text.exists_offsetAt_iff]
  cases hoffset : mixedText.offsetAt e.position with
  | ok k => exact ⟨k, rfl⟩
  | error m => simp [hoffset, Except.toOption] at hsome

theorem applyEdits_splicesBytes_mixed : (∀ e ∈ mixedEdits, ¬ ∃ m, mixedText.Misplaces e.position m) ∧
    ∃ t', applyEdits mixedText mixedEdits = .ok t' ∧
      Utf8.encode t' = Utf8.encode "é2\n\r\na\r\n1ü€4\n3".toList := by
  have hplaced : ∀ e ∈ mixedEdits, ¬ ∃ m, mixedText.Misplaces e.position m :=
    fun e he => Text.hasPosition_iff.mp (mixedEdits_placed e he)
  obtain ⟨t', happly, -, hbytes⟩ := (applyEdits_splicesBytes mixedText mixedEdits).2 hplaced
  exact ⟨hplaced, t', happly, by rw [hbytes]; decide +kernel⟩

end CommentQuota
