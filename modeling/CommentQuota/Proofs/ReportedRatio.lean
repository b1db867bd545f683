/-
  CommentQuota.Proofs.ReportedRatio — the ratio that is reported and the decision on the rows.

  A report shows the share of comment rows as the floating point number nearest to it. The rows that
  are missing are counted without rounding, from the row counts and from the decimal that the minimum
  is written as, and the minimum is the number nearest to that decimal. Rounding keeps the order, so
  where the reported ratio and the minimum are two numbers, the decision follows their order. Where
  they are one number, the share may still lie below the decimal, and then rows are missing: five
  comments in six rows are reported as the number that is written `0.8333333333333334`.

  - `lt_of_nearestRank_lt`: quotients lie in the order of the numbers nearest to them.
  - `commentRatio_eq`: the reported ratio is the share of comment rows, rounded once.
  - `reportedRatio_settles`: what the reported ratio and the minimum say about the rows missing.
  - `reportedRatio_misses`: rows are missing at a reported ratio that is the minimum.
-/

import CommentQuota.Analysis
import CommentQuota.Proofs.LeastCount

namespace CommentQuota

open Binary64

/-! ## Order -/

/-- Quotients lie in the order of their nearest ranks, if these differ. -/
theorem lt_of_nearestRank_lt {num den num' den' : Nat} (hden : 0 < den) (hden' : 0 < den')
    (h : nearestRank num den < nearestRank num' den') : num * den' < num' * den := by
  apply Nat.lt_of_not_le
  intro hle
  have hmono := nearestRank_mono hden' hden hle
  omega

/-- Numbers lie in the order of their ranks. -/
theorem units_div_scale_lt_iff {r r' : Nat} :
    (unitsOfRank r / scale : ℚ) < unitsOfRank r' / scale ↔ r < r' := by
  have hscale : (0 : ℚ) < scale := by exact_mod_cast scale_pos
  rw [div_lt_div_iff_of_pos_right hscale, Nat.cast_lt, strictMono_unitsOfRank.lt_iff_lt]

/-! ## The reported ratio -/

/-- A share of rows is at most one, and so has a number nearest to it. -/
theorem nearestRank_lt_last {comments total : Nat} (htotal : 0 < total) (h : comments ≤ total) :
    nearestRank comments total < 2047 * 2 ^ 52 := by
  have hone : nearestRank comments total ≤ 1023 * 2 ^ 52 :=
    (nearestRank_mono htotal Nat.one_pos (by omega)).trans_eq nearestRank_one
  omega

theorem ofQuotient_eq_finite (negative : Bool) {num den : Nat} (h : nearestRank num den < 2047 * 2 ^ 52) :
    ofQuotient negative num den = .finite negative ⟨nearestRank num den, h⟩ := by
  revert h
  rw [ofQuotient]
  generalize nearestRank num den = r
  intro h
  exact dif_pos h

theorem Classification.ratio_of_pos {c : Classification} (h : 0 < c.total) :
    c.ratio = ofQuotient false c.comments.size c.total := by
  rw [Classification.ratio, if_neg (Nat.pos_iff_ne_zero.mp h)]

theorem Classification.exists_ratio {c : Classification} (h : 0 < c.total) :
    ∃ r, c.ratio = .finite false r ∧ r.val = nearestRank c.comments.size c.total := by
  have hlast := nearestRank_lt_last h (show c.comments.size ≤ c.total from Nat.le_add_left _ _)
  refine ⟨⟨_, hlast⟩, ?_, rfl⟩
  rw [Classification.ratio_of_pos h, ofQuotient_eq_finite false hlast]

/-- A share of rows has a ratio, the number nearest to it. -/
theorem exists_commentRatio {comments total : Nat} (htotal : 0 < total) (h : comments ≤ total) :
    ∃ r, commentRatio comments total = .ok (.finite false r) ∧ r.val = nearestRank comments total := by
  refine ⟨⟨_, nearestRank_lt_last htotal h⟩, ?_, rfl⟩
  have hsign : ¬ (comments : Int) < 0 := by omega
  rw [commentRatio, if_pos (by omega), Int.toNat_natCast, divide?, decide_eq_false hsign, Int.natAbs_natCast,
    ofQuotient_eq_finite false (nearestRank_lt_last htotal h)]
  rfl

/-- The reported ratio is the share of comment rows, rounded once. -/
theorem commentRatio_eq (c : Classification) : commentRatio c.comments.size c.total = .ok c.ratio := by
  rcases Nat.eq_zero_or_pos c.total with h | h
  · rw [commentRatio, h, Classification.ratio, if_pos h]
    rfl
  · obtain ⟨r, hr, hrank⟩ := Classification.exists_ratio h
    obtain ⟨r', hr', hrank'⟩ := exists_commentRatio h (show c.comments.size ≤ c.total from Nat.le_add_left _ _)
    rw [hr', hr, Fin.ext (hrank'.trans hrank.symm)]

/-! ## The decision -/

/-- A number in the range is that of a rank, and is written and compared as the decimal of the rank. -/
theorem Binary64.InUnitInterval.exists_decimal {x : Binary64} (h : x.InUnitInterval) :
    ∃ k, x.value? = some (unitsOfRank k / scale : ℚ) ∧
      Numeral.exactValue x.text.toList = some ((Decimal.shortest k).num / (Decimal.shortest k).den : ℚ) ∧
      Minimum.fraction (.float x) = .ok ((Decimal.shortest k).num, (Decimal.shortest k).den) ∧
      (Decimal.shortest k).num < (Decimal.shortest k).den := by
  obtain ⟨negative, r, rfl, hr, hsign⟩ := h.exists_rank
  refine ⟨r, ?_, ?_, rfl, Decimal.num_shortest_lt_den hr⟩
  · rw [value?]
    cases negative with
    | false => simp only [Bool.false_eq_true, if_false, one_mul]
    | true =>
      have hzero : unitsOfRank r = 0 := by
        rw [hsign rfl]
        rfl
      simp only [hzero, Nat.cast_zero, zero_div, mul_zero]
  · rw [Binary64.text, exactValue_write, ← Decimal.value_eq_div]
    cases negative with
    | false => simp
    | true => simp [hsign rfl, Decimal.shortest, Decimal.value]

/-- A report on counted rows shows their ratio and the number of rows missing. -/
theorem Analysis.exists_ofClassification {c : Classification} {v : Value} {n : Nat}
    (h : CommentQuota.needed c.comments.size c.total v = .ok n) (name : String) :
    ∃ a, Analysis.ofClassification c v name = .ok a ∧ a.ratio = .real c.ratio ∧ a.needed = n :=
  ⟨_, by rw [Analysis.ofClassification, h]; rfl, rfl, rfl⟩

/-- For every classification with rows and every minimum in the range, a report has a ratio that is the share of comment
    rows rounded once. No rows are missing where the ratio is above the minimum, and rows are missing where it is below.
    Where it is the minimum, no rows are missing exactly if the share reaches the decimal that the minimum is written as. -/
theorem reportedRatio_settles {c : Classification} (hc : 0 < c.total) {x : Binary64} (hx : x.InUnitInterval)
    (name : String) :
    ∃ a y, Analysis.ofClassification c (.float x) name = .ok a ∧ a.ratio = .real y ∧
      commentRatio c.comments.size c.total = .ok y ∧
      ∃ ratio minimum written : ℚ, y.value? = some ratio ∧ x.value? = some minimum ∧
        Numeral.exactValue x.text.toList = some written ∧
        (minimum < ratio → a.needed = 0) ∧ (ratio < minimum → 0 < a.needed) ∧
        (ratio = minimum → (a.needed = 0 ↔ written ≤ c.comments.size / c.total)) := by
  have hcounts : c.comments.size ≤ c.total := Nat.le_add_left _ _
  obtain ⟨k, hminimum, hwritten, hfraction, hlt⟩ := hx.exists_decimal
  obtain ⟨r, hratio, hr⟩ := Classification.exists_ratio hc
  have hcheck := (Minimum.check_eq_ok_iff (v := .float x) (by simp)).mpr hx
  have hneeded : CommentQuota.needed c.comments.size c.total (.float x) =
      .ok (leastAddition c.comments.size c.total (Decimal.shortest k).num (Decimal.shortest k).den) := by
    rw [needed_natCast hcounts, hcheck, hfraction]
    rfl
  obtain ⟨a, ha, hreal, hcount⟩ := Analysis.exists_ofClassification hneeded name
  -- the decimal is nearest to the rank of the minimum, as the share is to that of the ratio
  have hdecimal := Decimal.nearestRank_shortest k
  have hden := Decimal.den_pos (Decimal.shortest k)
  have hzero := @leastAddition_eq_zero_iff c.comments.size c.total _ _ hlt
  generalize (Decimal.shortest k).num = p at *
  generalize (Decimal.shortest k).den = q at *
  have hvalue : c.ratio.value? = some (unitsOfRank r / scale : ℚ) := by
    simp only [hratio, value?, Bool.false_eq_true, if_false, one_mul]
  refine ⟨a, c.ratio, ha, hreal, commentRatio_eq c, _, _, _, hvalue, hminimum, hwritten, ?_, ?_, ?_⟩
  · intro hlt
    have hranks := units_div_scale_lt_iff.mp hlt
    rw [hr, ← hdecimal] at hranks
    have hshare := lt_of_nearestRank_lt hden hc hranks
    rw [hcount, Int.natCast_eq_zero, hzero, Nat.mul_comm q]
    exact Nat.le_of_lt hshare
  · intro hlt
    have hranks := units_div_scale_lt_iff.mp hlt
    rw [hr, ← hdecimal] at hranks
    have hshare := lt_of_nearestRank_lt hc hden hranks
    rw [hcount, Int.natCast_pos, Nat.pos_iff_ne_zero, ne_eq, hzero, Nat.mul_comm q]
    exact Nat.not_le.mpr hshare
  · intro _
    have hq : (0 : ℚ) < q := by exact_mod_cast hden
    have ht : (0 : ℚ) < c.total := by exact_mod_cast hc
    rw [hcount, Int.natCast_eq_zero, hzero, div_le_div_iff₀ hq ht, Nat.mul_comm q]
    exact_mod_cast Iff.rfl

/-- One comment in three rows, and the minimum is the ratio reported for it, which is written as a decimal below a third:
    no row is missing. -/
theorem reportedRatio_settles_third :
    let c : Classification := ⟨⟨[1], by decide⟩, ⟨[0, 2], by decide⟩, 0, 2⟩
    let x := Binary64.ofQuotient false 1 3
    (0 < c.total ∧ x.InUnitInterval ∧ x.text = "0.3333333333333333") ∧
      ∃ a, Analysis.ofClassification c (.float x) "g" = .ok a ∧ a.ratio = .real x ∧ a.needed = 0 := by
  intro c x
  have hc : 0 < c.total := by decide
  have hx : x.InUnitInterval := inUnitRange_iff.mp (by decide +kernel)
  have htext : x.text = "0.3333333333333333" := by decide +kernel
  obtain ⟨a, y, ha, hreal, hy, ratio, minimum, written, hratio, hminimum, hwritten, -, -, hsame⟩ :=
    reportedRatio_settles hc hx "g"
  obtain rfl : x = y := by
    have hround : (commentRatio c.comments.size c.total).toOption = some x := by decide +kernel
    simpa [hy, Except.toOption, eq_comm] using hround
  have hdecimal : Numeral.readDecimal "0.3333333333333333".toList = some ⟨3333333333333333, -16⟩ := by decide +kernel
  have hvalue := exactValue_signed false hdecimal
  rw [htext] at hwritten
  have hwritten : written = 3333333333333333 / 10 ^ 16 := by
    have hsome := hwritten.symm.trans hvalue
    simpa [Decimal.value, div_eq_mul_inv] using hsome
  refine ⟨⟨hc, hx, htext⟩, a, ha, hreal, (hsame ?_).mpr ?_⟩
  · exact Option.some.inj (hratio.symm.trans hminimum)
  · rw [hwritten]
    norm_num [c, RowSet.size, Classification.total]

/-- Five comments in six rows, and the minimum is the ratio reported for them, which is written as a decimal above five
    sixths: a row is missing. -/
theorem reportedRatio_misses :
    let c : Classification := ⟨⟨[1, 2, 3, 4, 5], by decide⟩, ⟨[0], by decide⟩, 0, 5⟩
    let x := Binary64.ofQuotient false 5 6
    0 < c.total ∧ x.InUnitInterval ∧ commentRatio c.comments.size c.total = .ok x ∧
      ∃ a, Analysis.ofClassification c (.float x) "g" = .ok a ∧ a.ratio = .real x ∧ a.needed = 1 := by
  intro c x
  have hneeded : (CommentQuota.needed c.comments.size c.total (.float x)).toOption = some 1 := by decide +kernel
  cases h : CommentQuota.needed c.comments.size c.total (.float x) with
  | error e => simp [h, Except.toOption] at hneeded
  | ok n =>
    obtain rfl : n = 1 := by simpa [h, Except.toOption] using hneeded
    have hc : 0 < c.total := by decide
    have hratio : c.ratio = x := Classification.ratio_of_pos hc
    obtain ⟨a, ha, hreal, hcount⟩ := Analysis.exists_ofClassification h "g"
    rw [hratio] at hreal
    refine ⟨hc, inUnitRange_iff.mp (by decide +kernel), ?_, a, ha, hreal, hcount⟩
    rw [commentRatio_eq, hratio]

end CommentQuota
