/-
  CommentQuota.Proofs.Positions — the positions of a text, their order and their bytes.

  A position is told by its row and its column, and it leads to one offset. Positions and offsets have
  the same order, so what is put in at a position leaves the positions before it where they are. On the
  bytes of the text a position is the start of its row, just behind the line feed that ends the row
  before, and as many bytes further as its column counts.

  - `offsetAt_eq_error_iff`: why a position is not in a text.
  - `offset_lt_iff`: positions and their offsets have the same order.
  - `offsetAt_insert`: positions before an insertion keep their offsets.
  - `offsetOf_encode`: the offset of a position on the bytes.
-/

import CommentQuota.Proofs.Encoding
import CommentQuota.Proofs.Places

namespace CommentQuota

namespace Text

/-! ## Misplaced positions -/

/-- What is wrong with a position: no row has its number, its column does not lie on its row, or it
    stands inside a character. -/
def Misplaces (t : Text) (p : Position) : Misplacement → Prop
  | .rowOutside => p.row < 0 ∨ (t.rows.length : Int) ≤ p.row
  | .columnOutside => 0 ≤ p.row ∧ ∃ row, t.rows[p.row.toNat]? = some row ∧
      (p.column < 0 ∨ ((Utf8.encode row).length : Int) < p.column)
  | .insideCharacter => 0 ≤ p.row ∧ ∃ head c tail, t.rows[p.row.toNat]? = some (head ++ c :: tail) ∧
      ((Utf8.encode head).length : Int) < p.column ∧ p.column < (Utf8.encode (head ++ [c])).length

theorem charsIn_eq_none_iff {t : Text} {n : Nat} (h : n ≤ byteLength t) :
    charsIn t n = none ↔ ∃ head c tail, t = head ++ c :: tail ∧ byteLength head < n ∧ n < byteLength (head ++ [c]) := by
  induction t generalizing n with
  | nil =>
    obtain rfl : n = 0 := Nat.le_zero.mp h
    simp [charsIn]
  | cons c cs ih =>
    cases n with
    | zero => simp [charsIn]
    | succ n =>
      rw [charsIn]
      by_cases hcut : n + 1 < c.utf8Size
      · rw [if_pos hcut]
        exact iff_of_true rfl ⟨[], c, cs, rfl, by simp [byteLength], by simpa [byteLength] using hcut⟩
      · have hrest : n + 1 - c.utf8Size ≤ byteLength cs := by rw [byteLength] at h; omega
        rw [if_neg hcut, Option.map_eq_none_iff, ih hrest]
        constructor
        · intro hinside
          obtain ⟨head, d, tail, rfl, hlow, hhigh⟩ := hinside
          exact ⟨c :: head, d, tail, rfl, by rw [byteLength]; omega, by rw [List.cons_append, byteLength]; omega⟩
        · intro hinside
          obtain ⟨head, d, tail, hsplit, hlow, hhigh⟩ := hinside
          cases head with
          | nil =>
            obtain ⟨rfl, rfl⟩ := List.cons.inj hsplit
            simp only [List.nil_append, byteLength] at hhigh
            omega
          | cons e head =>
            obtain ⟨rfl, rfl⟩ := List.cons.inj hsplit
            simp only [List.cons_append, byteLength] at hlow hhigh
            exact ⟨head, d, tail, rfl, by omega, by omega⟩

theorem offsetAt_of_rowOutside {t : Text} {p : Position} (h : t.Misplaces p .rowOutside) :
    t.offsetAt p = .error .rowOutside := by
  unfold offsetAt
  by_cases hrow : p.row < 0
  · rw [if_pos hrow]
  have hlength : t.rows.length ≤ p.row.toNat := by
    rcases h with h | h <;> omega
  have hnone := List.getElem?_eq_none_iff.mpr hlength
  rw [rows_eq_map_rowStarts, List.getElem?_map, Option.map_eq_none_iff] at hnone
  rw [if_neg hrow, hnone]

/-- On a row of the text, the column alone decides. -/
theorem offsetAt_of_row {t : Text} {p : Position} {row : Text} (hrow : 0 ≤ p.row) (h : t.rows[p.row.toNat]? = some row) :
    ∃ start, t.offsetAt p =
      if p.column < 0 ∨ (byteLength row : Int) < p.column then .error .columnOutside
      else (charsIn row p.column.toNat).elim (.error .insideCharacter) fun n => .ok (start + n) := by
  rw [rows_eq_map_rowStarts, List.getElem?_map] at h
  obtain ⟨start, hstart, rfl⟩ := Option.map_eq_some_iff.mp h
  refine ⟨start, ?_⟩
  simp only [offsetAt, if_neg (Int.not_lt.mpr hrow), hstart]
  cases charsIn (firstRow (t.drop start)) p.column.toNat with
  | none => rfl
  | some n => rfl

theorem misplaces_insideCharacter_iff {t : Text} {p : Position} {row : Text} (hrow : 0 ≤ p.row)
    (h : t.rows[p.row.toNat]? = some row) (hcolumn : ¬ (p.column < 0 ∨ (byteLength row : Int) < p.column)) :
    t.Misplaces p .insideCharacter ↔ charsIn row p.column.toNat = none := by
  rw [charsIn_eq_none_iff (by omega), Misplaces, h]
  constructor
  · intro hinside
    obtain ⟨-, head, c, tail, hsplit, hlow, hhigh⟩ := hinside
    rw [Utf8.length_encode] at hlow hhigh
    exact ⟨head, c, tail, Option.some.inj hsplit, by omega, by omega⟩
  · intro hcut
    obtain ⟨head, c, tail, rfl, hlow, hhigh⟩ := hcut
    exact ⟨hrow, head, c, tail, rfl, by rw [Utf8.length_encode]; omega, by rw [Utf8.length_encode]; omega⟩

/-- A column that cuts a character lies on its row. -/
theorem Misplaces.column_mem {t : Text} {p : Position} {row : Text} (h : t.Misplaces p .insideCharacter)
    (hrow : t.rows[p.row.toNat]? = some row) : ¬ (p.column < 0 ∨ (byteLength row : Int) < p.column) := by
  obtain ⟨-, head, c, tail, hsplit, hlow, hhigh⟩ := h
  obtain rfl := Option.some.inj (hrow.symm.trans hsplit)
  have hle : byteLength (head ++ [c]) ≤ byteLength (head ++ c :: tail) := by
    simp only [byteLength_append, byteLength]; omega
  rw [Utf8.length_encode] at hlow hhigh
  omega

theorem offsetAt_of_misplaces {t : Text} {p : Position} {m : Misplacement} (h : t.Misplaces p m) :
    t.offsetAt p = .error m := by
  cases m with
  | rowOutside => exact offsetAt_of_rowOutside h
  | columnOutside =>
    obtain ⟨hrow, row, hsome, hcolumn⟩ := h
    rw [Utf8.length_encode] at hcolumn
    obtain ⟨start, hoffset⟩ := offsetAt_of_row hrow hsome
    rw [hoffset, if_pos hcolumn]
  | insideCharacter =>
    obtain ⟨hrow, head, c, tail, hsome, -⟩ := id h
    have hcolumn := h.column_mem hsome
    obtain ⟨start, hoffset⟩ := offsetAt_of_row hrow hsome
    rw [hoffset, if_neg hcolumn, (misplaces_insideCharacter_iff hrow hsome hcolumn).mp h]
    rfl

theorem misplaces_of_offsetAt {t : Text} {p : Position} {m : Misplacement} (h : t.offsetAt p = .error m) :
    t.Misplaces p m := by
  by_cases hout : t.Misplaces p .rowOutside
  · rw [offsetAt_of_rowOutside hout] at h
    exact Except.error.inj h ▸ hout
  obtain ⟨hrow, hlength⟩ : 0 ≤ p.row ∧ p.row < t.rows.length := by rw [Misplaces] at hout; omega
  have hbound : p.row.toNat < t.rows.length := by omega
  obtain ⟨row, hsome⟩ : ∃ row, t.rows[p.row.toNat]? = some row := ⟨_, List.getElem?_eq_getElem hbound⟩
  obtain ⟨start, hoffset⟩ := offsetAt_of_row hrow hsome
  rw [hoffset] at h
  by_cases hcolumn : p.column < 0 ∨ (byteLength row : Int) < p.column
  · rw [if_pos hcolumn] at h
    obtain rfl := Except.error.inj h
    exact ⟨hrow, row, hsome, by rwa [Utf8.length_encode]⟩
  · rw [if_neg hcolumn] at h
    cases hchars : charsIn row p.column.toNat with
    | none =>
      rw [hchars] at h
      exact Except.error.inj h ▸ (misplaces_insideCharacter_iff hrow hsome hcolumn).mpr hchars
    | some n =>
      rw [hchars] at h
      cases h

theorem offsetAt_eq_error_iff {t : Text} {p : Position} {m : Misplacement} :
    t.offsetAt p = .error m ↔ t.Misplaces p m :=
  ⟨misplaces_of_offsetAt, offsetAt_of_misplaces⟩

/-- A position that is in the text is what no misplacement tells. -/
theorem hasPosition_iff {t : Text} {p : Position} : t.HasPosition p ↔ ¬ ∃ m, t.Misplaces p m := by
  rw [← exists_offsetAt_iff]
  simp only [← offsetAt_eq_error_iff]
  cases t.offsetAt p <;> simp

/-! ## Order -/

theorem le_length_of_offsetAt {t : Text} {p : Position} {k : Nat} (h : t.offsetAt p = .ok k) : k ≤ t.length := by
  obtain ⟨a, b, rfl, rfl, -⟩ := offsetAt_eq_ok_iff.mp h
  simp

/-- The places behind more and more of a text lie one behind the other. -/
theorem afterText_take_before {t : Text} {j k : Nat} (h : j < k) (hk : k ≤ t.length) :
    ((⟨0, 0⟩ : Position).afterText (t.take j)).Before ((⟨0, 0⟩ : Position).afterText (t.take k)) := by
  have hsplit : t.take k = t.take j ++ (t.drop j).take (k - j) := by
    rw [← List.take_add, Nat.add_sub_cancel' (Nat.le_of_lt h)]
  have hne : (t.drop j).take (k - j) ≠ [] := by
    intro e
    have hlength := congrArg List.length e
    rw [List.length_take, List.length_drop, List.length_nil] at hlength
    omega
  rw [hsplit, Position.afterText_append]
  exact Position.before_afterText _ hne

theorem afterText_take_inj {t : Text} {j k : Nat} (hj : j ≤ t.length) (hk : k ≤ t.length) :
    (⟨0, 0⟩ : Position).afterText (t.take j) = (⟨0, 0⟩ : Position).afterText (t.take k) ↔ j = k := by
  constructor
  · intro h
    rcases Nat.lt_trichotomy j k with hlt | he | hlt
    · exact absurd (h ▸ afterText_take_before hlt hk) (Position.not_before_self _)
    · exact he
    · exact absurd (h ▸ afterText_take_before hlt hj) (Position.not_before_self _)
  · intro h
    rw [h]

theorem offset_lt_iff {t : Text} {p q : Position} {j k : Nat} (hp : t.offsetAt p = .ok j) (hq : t.offsetAt q = .ok k) :
    j < k ↔ p.Before q := by
  have hj := le_length_of_offsetAt hp
  have hk := le_length_of_offsetAt hq
  rw [← afterText_take_of_offsetAt hp, ← afterText_take_of_offsetAt hq]
  constructor
  · intro h
    exact afterText_take_before h hk
  · intro h
    rcases Nat.lt_trichotomy j k with hlt | rfl | hlt
    · exact hlt
    · exact absurd h (Position.not_before_self _)
    · exact absurd (afterText_take_before hlt hj) h.not_before

/-- What is put in at a position leaves the positions before it where they are. -/
theorem offsetAt_insert {t : Text} {p q : Position} {j k : Nat} (hp : t.offsetAt p = .ok k) (hq : t.offsetAt q = .ok j)
    (h : q.Before p) (x : Text) : offsetAt (t.take k ++ (x ++ t.drop k)) q = .ok j := by
  have hlt := (offset_lt_iff hq hp).mpr h
  obtain ⟨a, b, rfl, rfl, rfl, hwhole⟩ := offsetAt_eq_ok_iff.mp hq
  have hk := le_length_of_offsetAt hp
  -- something stands between the two positions, so the same character follows `q` as before
  obtain ⟨c, cs, hc⟩ : ∃ c cs, b.take (k - a.length) = c :: cs := by
    apply List.exists_cons_of_ne_nil
    intro e
    have hlength := congrArg List.length e
    rw [List.length_take, List.length_nil] at hlength
    rw [List.length_append] at hk
    omega
  have hb : b.head? = some c := by
    rw [← List.take_append_drop (k - a.length) b, hc]
    rfl
  rw [List.take_append, List.take_of_length_le (Nat.le_of_lt hlt), hc, List.append_assoc]
  refine offsetAt_after ?_
  intro hparts
  exact hwhole ⟨hparts.1, by rw [hb]; exact hparts.2⟩

end Text

namespace Utf8

/-! ## Bytes -/

/-- The offset of the first byte of a row, which is just behind the line feed that ends the row before. -/
def rowStart : Nat → List UInt8 → Nat
  | 0, _ => 0
  | _ + 1, [] => 0
  | r + 1, b :: bytes => 1 + rowStart (if b = 0x0A then r else r + 1) bytes

/-- The offset of a position: its column counts bytes from the start of its row. -/
def offsetOf (bytes : List UInt8) (p : Position) : Nat := rowStart p.row.toNat bytes + p.column.toNat

theorem rowStart_append {bytes : List UInt8} (rest : List UInt8) (h : bytes = [] ∨ bytes.getLast? = some 0x0A) :
    rowStart (bytes.count 0x0A) (bytes ++ rest) = bytes.length := by
  induction bytes with
  | nil => simp [rowStart]
  | cons b bytes ih =>
    have hbytes : bytes = [] ∨ bytes.getLast? = some 0x0A := by
      cases bytes with
      | nil => exact .inl rfl
      | cons d ds => exact .inr (by simpa [List.getLast?_cons_cons] using h)
    have ih := ih hbytes
    by_cases hb : b = 0x0A
    · rw [hb, List.count_cons_self, List.cons_append, rowStart, if_pos rfl, ih, List.length_cons, Nat.add_comm]
    · -- the line feed stands further behind
      obtain ⟨n, hn⟩ : ∃ n, bytes.count 0x0A = n + 1 := by
        rcases hbytes with rfl | hlast
        · exact absurd (by simpa using h) hb
        · have hpos := List.count_pos_iff.mpr (List.mem_of_getLast? hlast)
          exact ⟨bytes.count 0x0A - 1, by omega⟩
      rw [List.count_cons_of_ne hb, hn, List.cons_append, rowStart, if_neg hb, ← hn, ih, List.length_cons, Nat.add_comm]

theorem offsetOf_encode {t : Text} {p : Position} {k : Nat} (h : t.offsetAt p = .ok k) :
    offsetOf (encode t) p = (encode (t.take k)).length := by
  obtain ⟨a, b, rfl, rfl, rfl, -⟩ := Text.offsetAt_eq_ok_iff.mp h
  obtain ⟨u, v, rfl, hv, hu⟩ := a.exists_lastRow
  have hline : encode u = [] ∨ (encode u).getLast? = some 0x0A := by
    rcases hu with hu | ⟨w, hu⟩
    · exact .inl (by rw [hu]; rfl)
    · have hfeed : encode ['\n'] = [0x0A] := rfl
      exact .inr (by rw [hu, encode_append, hfeed, List.getLast?_concat])
  rw [(Text.rowStarts_after u v [] hv hu).2, List.take_left, List.append_assoc, encode_append, encode_append, offsetOf]
  simp only [Int.toNat_natCast]
  rw [← count_encode, rowStart_append _ hline, encode_append, List.length_append, length_encode v]

end Utf8

end CommentQuota
