/-
  CommentQuota.Proofs.LeastCount — the number of rows asked for is the least that suffices.

  A minimum is compared as the decimal it is written as. For a number from zero to one that decimal is
  below one as well, also for the largest floating point number below one, so the quotient that the
  number of missing rows is computed with has a positive divisor.

  - `Minimum.check_eq_ok_iff`: which minimums are accepted, by exact values.
  - `Minimum.exists_fraction`: the quotient used is the written value, and is below one.
  - `needed_isLeast`: the number of rows asked for is the least that reaches the written minimum.
-/

import CommentQuota.Proofs.Mending
import CommentQuota.Proofs.ShortestDecimal
import CommentQuota.Proofs.Shortfall
import CommentQuota.Proofs.WrittenNumber
import Mathlib.Order.Bounds.Basic

namespace CommentQuota

/-- A floating point number from zero to one has a rank below that of one, and a sign only on zero. -/
theorem Binary64.InUnitInterval.exists_rank {x : Binary64} (h : x.InUnitInterval) :
    ∃ negative r, x = .finite negative r ∧ r.val < 1023 * 2 ^ 52 ∧ (negative = true → r.val = 0) := by
  have hrange := inUnitRange_iff.mpr h
  cases x with
  | nan => cases hrange
  | infinite negative => cases negative <;> cases hrange
  | finite negative r =>
    refine ⟨negative, r, rfl, ?_⟩
    cases negative with
    | true =>
      have hzero := inUnitRange_signed.mp hrange
      exact ⟨by omega, fun _ => hzero⟩
    | false =>
      have hlt := inUnitRange_unsigned.mp hrange
      rw [← unitsOfRank_one] at hlt
      exact ⟨strictMono_unitsOfRank.lt_iff_lt.mp hlt, nofun⟩

/-- The value is a number from zero, included, to one, excluded. -/
def Value.InUnitInterval : Value → Prop
  | .int n => 0 ≤ n ∧ n < 1
  | .float x => x.InUnitInterval
  | _ => False

theorem Value.InUnitInterval.ne_bool {v : Value} (h : v.InUnitInterval) (b : Bool) : v ≠ .bool b := by
  rintro rfl
  exact h

namespace Minimum

/-- Apart from truth values, a minimum is accepted exactly if it is a number from zero to one. -/
theorem check_eq_ok_iff {v : Value} (h : ∀ b, v ≠ .bool b) : check v = .ok () ↔ v.InUnitInterval := by
  cases v with
  | bool b => exact absurd rfl (h b)
  | int n =>
    rw [Value.InUnitInterval]
    cases hn : Binary64.ofInt? n with
    | none =>
      -- A number that large is not zero.
      have hlarge := Binary64.ofInt?_eq_none_iff.mp hn
      have hpos : 0 < (2 : Nat) ^ 970 := pow_pos two_pos _
      generalize (2 : Nat) ^ 970 = v at *
      refine iff_of_false ?_ (by omega)
      simp [check, hn]
    | some x =>
      have hcheck : check (.int n) = .ok () ↔ n = 0 := by simp [check, hn]
      rw [hcheck]
      omega
  | float x =>
    rw [Value.InUnitInterval, ← Binary64.inUnitRange_iff]
    simp [check]
  | _ => simp [check, Value.InUnitInterval]

/-- A minimum in the range is compared as the decimal it is written as, which is below one. -/
theorem exists_fraction {v : Value} (h : v.InUnitInterval) :
    ∃ p q : Nat, fraction v = .ok (p, q) ∧ p < q ∧ Numeral.exactValue v.display.toList = some ((p : ℚ) / q) := by
  cases v with
  | int n =>
    obtain rfl : n = 0 := by
      obtain ⟨hnonneg, hlt⟩ := h
      omega
    refine ⟨0, 1, rfl, Nat.one_pos, ?_⟩
    have hread : Numeral.readDecimal "0".toList = some ⟨0, 0⟩ := by decide
    have hdisplay : (Value.int 0).display = "0" := rfl
    rw [hdisplay]
    simpa [Decimal.value] using exactValue_signed false hread
  | float x =>
    obtain ⟨negative, r, rfl, hr, hsign⟩ := Binary64.InUnitInterval.exists_rank h
    refine ⟨_, _, rfl, Decimal.num_shortest_lt_den hr, ?_⟩
    show Numeral.exactValue (Layout.plain.write (.finite negative r)).toList = _
    rw [exactValue_write, ← Decimal.value_eq_div]
    cases negative with
    | false => simp [Binary64.decimal]
    | true => simp [Binary64.decimal, hsign rfl, Decimal.shortest, Decimal.value]
  | _ => exact h.elim

end Minimum

/-- For counts of any size and a minimum in the range, whose written form has the exact value `r`, the
    number of rows asked for is the least `n` for which `comments + n` is the share `r` of `total + n`. -/
theorem needed_isLeast {comments total : Int} (hcomments : 0 ≤ comments) (htotal : comments ≤ total) {m : Value}
    (hm : m.InUnitInterval) :
    ∃ r : ℚ, Numeral.exactValue m.display.toList = some r ∧ 0 ≤ r ∧ r < 1 ∧
      ∃ n : Nat, needed comments total m = .ok n ∧ IsLeast {k : Nat | r * (total + k) ≤ comments + k} n := by
  lift comments to Nat using hcomments
  lift total to Nat using (by omega)
  obtain ⟨p, q, hfraction, hlt, hvalue⟩ := Minimum.exists_fraction hm
  have hcheck := (Minimum.check_eq_ok_iff hm.ne_bool).mpr hm
  have hq : (0 : ℚ) < q := by exact_mod_cast Nat.lt_of_le_of_lt (Nat.zero_le p) hlt
  refine ⟨p / q, hvalue, by positivity, by rwa [div_lt_one hq, Nat.cast_lt], leastAddition comments total p q, ?_, ?_⟩
  · rw [needed_natCast (by omega), hcheck, hfraction]
    rfl
  -- The number of missing rows is a bound in whole numbers; it remains to clear the divisor.
  · have hmem : ∀ k : Nat, (p / q * (((total : Int) : ℚ) + k) ≤ ((comments : Int) : ℚ) + k) ↔
        leastAddition comments total p q ≤ k := by
      intro k
      rw [leastAddition_le_iff hlt, div_mul_eq_mul_div, div_le_iff₀ hq, mul_comm _ (q : ℚ)]
      exact_mod_cast Iff.rfl
    exact ⟨(hmem _).mpr (Nat.le_refl _), fun k hk => (hmem k).mp hk⟩

/-- The largest floating point number below one is written `0.9999999999999999`: to reach it, a single row
    of code needs almost ten to the sixteenth comments. -/
theorem needed_isLeast_belowOne :
    let m : Value := .float (.finite false ⟨1023 * 2 ^ 52 - 1, by decide⟩)
    (m.InUnitInterval ∧ m.display = "0.9999999999999999" ∧
      (needed 0 1 m).toOption = some 9999999999999999) ∧
    ∃ r : ℚ, Numeral.exactValue m.display.toList = some r ∧ 0 ≤ r ∧ r < 1 ∧
      ∃ n : Nat, needed 0 1 m = .ok n ∧ IsLeast {k : Nat | r * ((1 : Int) + k) ≤ (0 : Int) + k} n := by
  intro m
  have hm : m.InUnitInterval := Binary64.inUnitRange_iff.mp (by decide +kernel)
  exact ⟨⟨hm, by decide +kernel, by decide +kernel⟩, needed_isLeast (by decide) (by decide) hm⟩

end CommentQuota
