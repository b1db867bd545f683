/-
  CommentQuota.Proofs.QuotaProgress — how the number of rows asked for follows the minimum and the counts.

  A higher minimum and more rows ask for more comments, more comments for fewer, and each comment row
  that is added is one less that is missing. The counts are whole numbers, so only the minimum needs an
  argument: floating point numbers lie in the order of the decimals they are written as, for a number is
  nearest to its decimal, and rounding keeps the order. For the same reason the ratio shown once the
  rows are added is not below the minimum, although the rows were counted against the decimal.

  - `Decimal.shortest_mono`: decimals lie in the order of the numbers written as them.
  - `needed_progress`: the number of rows asked for in relation to others.
  - `ratio_reachesMinimum`: the ratio shown with the rows added.
-/

import CommentQuota.Proofs.ReportedRatio

namespace CommentQuota

open Binary64

/-! ## The order of numbers and of decimals -/

theorem Decimal.shortest_mono {j k : Nat} (h : j ≤ k) :
    (shortest j).num * (shortest k).den ≤ (shortest k).num * (shortest j).den := by
  rcases Nat.eq_or_lt_of_le h with rfl | hlt
  · exact Nat.le_refl _
  · -- the decimals are nearest to different ranks
    apply Nat.le_of_lt
    apply lt_of_nearestRank_lt (den_pos _) (den_pos _)
    rwa [nearestRank_shortest, nearestRank_shortest]

theorem value_finite (r : Fin (2047 * Nat.pow 2 52)) : (finite false r).value? = some (unitsOfRank r / scale : ℚ) := by
  rw [value?, if_neg Bool.false_ne_true, one_mul]

theorem value_mono {r s : Fin (2047 * Nat.pow 2 52)} (h : r ≤ s) {v w : ℚ} (hv : (finite false r).value? = some v)
    (hw : (finite false s).value? = some w) : v ≤ w := by
  obtain rfl := Option.some.inj ((value_finite r).symm.trans hv)
  obtain rfl := Option.some.inj ((value_finite s).symm.trans hw)
  rw [← not_lt, units_div_scale_lt_iff, Nat.not_lt]
  exact h

/-! ## Rows asked for -/

/-- For a minimum in the range, the rows that are missing are counted against the decimal of its rank. -/
theorem Binary64.InUnitInterval.exists_needed {x : Binary64} (h : x.InUnitInterval) :
    ∃ k, x.value? = some (unitsOfRank k / scale : ℚ) ∧ (Decimal.shortest k).num < (Decimal.shortest k).den ∧
      ∀ comments total : Nat, comments ≤ total → needed comments total (.float x) =
        .ok (leastAddition comments total (Decimal.shortest k).num (Decimal.shortest k).den) := by
  obtain ⟨k, hvalue, -, hfraction, hlt⟩ := h.exists_decimal
  have hcheck := (Minimum.check_eq_ok_iff (v := .float x) (by simp)).mpr h
  refine ⟨k, hvalue, hlt, fun comments total hcounts => ?_⟩
  rw [needed_natCast hcounts, hcheck, hfraction]
  rfl

/-- For counts of any size and minimums `x ≤ y` from zero to one: no fewer rows are asked for with the higher minimum or
    with more rows in all, no more with more comments, and one less with each comment row added until none are. -/
theorem needed_progress {comments total : Int} (hcomments : 0 ≤ comments) (htotal : comments ≤ total) {x y : Binary64}
    {v w : ℚ} (hx : x.value? = some v) (hy : y.value? = some w) (hnonneg : 0 ≤ v) (hle : v ≤ w) (hlt : w < 1) :
    ∃ n : Nat, needed comments total (.float x) = .ok n ∧
      (∃ m, needed comments total (.float y) = .ok m ∧ n ≤ m) ∧
      (∀ total', total ≤ total' → ∃ m, needed comments total' (.float x) = .ok m ∧ n ≤ m) ∧
      (∀ comments', comments ≤ comments' → comments' ≤ total →
        ∃ m, needed comments' total (.float x) = .ok m ∧ m ≤ n) ∧
      (∀ i : Nat, ∃ m : Nat, needed (comments + i) (total + i) (.float x) = .ok m ∧ (m : Int) = max 0 (n - i)) := by
  lift comments to Nat using hcomments
  lift total to Nat using (by omega)
  have hcounts : comments ≤ total := by omega
  obtain ⟨j, hj, hbelow, hneeded⟩ := InUnitInterval.exists_needed ⟨v, hx, hnonneg, by linarith⟩
  obtain ⟨k, hk, hbelow', hneeded'⟩ := InUnitInterval.exists_needed ⟨w, hy, by linarith, hlt⟩
  obtain rfl := Option.some.inj (hx.symm.trans hj)
  obtain rfl := Option.some.inj (hy.symm.trans hk)
  have hranks : j ≤ k := by
    rwa [← not_lt, units_div_scale_lt_iff, Nat.not_lt] at hle
  refine ⟨_, hneeded comments total hcounts, ⟨_, hneeded' comments total hcounts, ?_⟩, fun total' h => ?_,
    fun comments' h hcounts' => ?_, fun i => ?_⟩
  · exact leastAddition_mono_minimum hbelow hbelow' (Decimal.shortest_mono hranks)
  · lift total' to Nat using (by omega)
    exact ⟨_, hneeded comments total' (by omega), leastAddition_mono_total hbelow (by omega)⟩
  · lift comments' to Nat using (by omega)
    exact ⟨_, hneeded comments' total (by omega), leastAddition_anti_comments hbelow (by omega)⟩
  · refine ⟨_, hneeded (comments + i) (total + i) (by omega), ?_⟩
    rw [leastAddition_add hbelow]
    omega

/-- A third lies between two floating point numbers: one comment in three rows meets the lower one, and to the higher one
    another is missing. -/
theorem needed_progress_third :
    let x : Binary64 := .finite false ⟨nearestRank 1 3, by decide +kernel⟩
    let y : Binary64 := .finite false ⟨nearestRank 1 3 + 1, by decide +kernel⟩
    ((needed 1 3 (.float x)).toOption = some 0 ∧ (needed 1 3 (.float y)).toOption = some 1) ∧
      ∃ v w : ℚ, (x.value? = some v ∧ y.value? = some w ∧ 0 ≤ v ∧ v ≤ w ∧ w < 1) ∧
        ∃ n, needed 1 3 (.float x) = .ok n ∧ ∃ m, needed 1 3 (.float y) = .ok m ∧ n ≤ m := by
  intro x y
  have hx : x.InUnitInterval := inUnitRange_iff.mp (by decide +kernel)
  have hy : y.InUnitInterval := inUnitRange_iff.mp (by decide +kernel)
  obtain ⟨v, hv, hnonneg, -⟩ := hx
  obtain ⟨w, hw, -, hlt⟩ := hy
  have hle : v ≤ w := value_mono (by decide +kernel) hv hw
  obtain ⟨n, hn, hm, -⟩ := @needed_progress 1 3 (by decide) (by decide) x y v w hv hw hnonneg hle hlt
  exact ⟨⟨by decide +kernel, by decide +kernel⟩, v, w, ⟨hv, hw, hnonneg, hle, hlt⟩, n, hn, hm⟩

/-! ## The ratio with the rows added -/

/-- A share of rows that reaches the decimal of a rank is shown as a number from that rank up to one. -/
theorem nearestRank_reaches {k comments total : Nat} (htotal : 0 < total) (hcounts : comments ≤ total)
    (h : (Decimal.shortest k).num * total ≤ (Decimal.shortest k).den * comments) :
    k ≤ nearestRank comments total ∧ nearestRank comments total ≤ 1023 * 2 ^ 52 := by
  constructor
  · calc k = nearestRank (Decimal.shortest k).num (Decimal.shortest k).den := (Decimal.nearestRank_shortest k).symm
      _ ≤ nearestRank comments total := nearestRank_mono (Decimal.den_pos _) htotal (by rwa [Nat.mul_comm comments])
  · calc nearestRank comments total ≤ nearestRank 1 1 := nearestRank_mono htotal Nat.one_pos (by omega)
      _ = 1023 * 2 ^ 52 := nearestRank_one

/-- For counts of any size and a minimum from zero to one: with the rows that are asked for added, there is a ratio to
    show unless there are no rows at all, and it lies from the minimum up to one. -/
theorem ratio_reachesMinimum {comments total : Int} (hcomments : 0 ≤ comments) (htotal : comments ≤ total)
    {x : Binary64} (hx : x.InUnitInterval) :
    ∃ n : Nat, needed comments total (.float x) = .ok n ∧ (0 < total + n →
      ∃ (y : Binary64) (ratio minimum : ℚ), commentRatio (comments + n) (total + n) = .ok y ∧
        y.value? = some ratio ∧ x.value? = some minimum ∧ minimum ≤ ratio ∧ ratio ≤ 1) := by
  lift comments to Nat using hcomments
  lift total to Nat using (by omega)
  have hcounts : comments ≤ total := by omega
  obtain ⟨k, hk, hbelow, hneeded⟩ := hx.exists_needed
  refine ⟨_, hneeded comments total hcounts, fun hrows => ?_⟩
  have hreached := @leastAddition_reaches comments total _ _ hbelow
  generalize leastAddition comments total (Decimal.shortest k).num (Decimal.shortest k).den = n at *
  have hrows : 0 < total + n := by omega
  have hcounts : comments + n ≤ total + n := Nat.add_le_add_right hcounts n
  obtain ⟨r, hratio, hr⟩ := exists_commentRatio hrows hcounts
  obtain ⟨hminimum, hone⟩ := nearestRank_reaches hrows hcounts hreached
  have hscale : (0 : ℚ) < scale := by exact_mod_cast scale_pos
  refine ⟨_, _, _, hratio, value_finite r, hk, ?_, ?_⟩
  · rw [← not_lt, units_div_scale_lt_iff, hr]
    exact Nat.not_lt.mpr hminimum
  · rw [div_le_one hscale, Nat.cast_le, ← unitsOfRank_one, hr]
    exact strictMono_unitsOfRank.monotone hone

/-- The largest floating point number below one as the minimum: with almost ten to the sixteenth comments added to a row
    of code, the ratio shown is that number. -/
theorem ratio_reachesMinimum_belowOne :
    let x : Binary64 := .finite false ⟨1023 * 2 ^ 52 - 1, by decide⟩
    x.InUnitInterval ∧ (needed 0 1 (.float x)).toOption = some 9999999999999999 ∧
      ∃ (n : Nat) (ratio minimum : ℚ), needed 0 1 (.float x) = .ok n ∧ commentRatio (0 + n) (1 + n) = .ok x ∧
        x.value? = some ratio ∧ x.value? = some minimum ∧ minimum ≤ ratio ∧ ratio ≤ 1 := by
  intro x
  have hx : x.InUnitInterval := inUnitRange_iff.mp (by decide +kernel)
  have hcount : (needed 0 1 (.float x)).toOption = some 9999999999999999 := by decide +kernel
  obtain ⟨n, hn, hratio⟩ := @ratio_reachesMinimum 0 1 (by decide) (by decide) x hx
  obtain rfl : n = 9999999999999999 := by
    rw [hn] at hcount
    exact Option.some.inj hcount
  obtain ⟨y, ratio, minimum, hy, hvalue, hminimum, hle, hone⟩ := hratio (by decide)
  have hshown : (commentRatio (0 + (9999999999999999 : Nat)) (1 + (9999999999999999 : Nat))).toOption = some x := by
    decide +kernel
  obtain rfl : y = x := by
    rw [hy] at hshown
    exact Option.some.inj hshown
  exact ⟨hx, hcount, _, ratio, minimum, hn, hy, hvalue, hminimum, hle, hone⟩

end CommentQuota
