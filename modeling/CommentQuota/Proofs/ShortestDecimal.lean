/-
  CommentQuota.Proofs.ShortestDecimal — the decimal of a floating point number reads back as it.

  The grids that are tried get finer until one has a decimal next to the number that reads back. The
  finest one always has: its step is below half the distance of two ranks.

  - `readsAs_shortest` / `nearestRank_shortest`: the decimal of a rank reads back as the rank.
  - `num_shortest_lt_den`: the decimal of a number below one is below one.
-/

import CommentQuota.Number.Decimal
import CommentQuota.Proofs.Rounding

namespace CommentQuota

open Binary64

namespace Decimal

theorem den_pos (d : Decimal) : 0 < d.den := Nat.pow_pos (by decide)

theorem readsAs_iff {d : Decimal} {rank : Nat} : d.readsAs rank = true ↔ nearestRank d.num d.den = rank :=
  beq_iff_eq

/-! ## Grids -/

theorem passes_of_neighbour {passes : Decimal → Bool} {exponent : Int} {n d : Nat} {x : Decimal}
    (h : neighbour passes exponent n d = some x) : passes x = true := by
  unfold neighbour at h
  simp only at h
  split at h
  · rename_i hbelow habove
    rw [← Option.some.inj h]
    split
    · exact hbelow
    · exact habove
  · rename_i hbelow habove
    rwa [← Option.some.inj h]
  · rename_i hbelow habove
    rwa [← Option.some.inj h]
  · cases h

theorem isSome_neighbour_of_below {passes : Decimal → Bool} {exponent : Int} {n d : Nat}
    (h : passes ⟨n / d, exponent⟩ = true) : (neighbour passes exponent n d).isSome = true := by
  unfold neighbour
  simp only [h]
  cases passes ⟨n / d + 1, exponent⟩ <;> rfl

/-- On a grid whose step is below half a unit, the neighbour below a magnitude reads back. -/
theorem readsAs_of_fine {k e : Nat} (hfine : 2 * scale ≤ 10 ^ e) :
    (⟨unitsOfRank (k + 1) * 10 ^ e / scale, -e⟩ : Decimal).readsAs (k + 1) = true := by
  have hden : (⟨unitsOfRank (k + 1) * 10 ^ e / scale, -e⟩ : Decimal).den = 10 ^ e := by
    show Nat.pow 10 (- -(e : Int)).toNat = 10 ^ e
    rw [Int.neg_neg, Int.toNat_natCast]
    rfl
  have hnum : (⟨unitsOfRank (k + 1) * 10 ^ e / scale, -e⟩ : Decimal).num = unitsOfRank (k + 1) * 10 ^ e / scale := by
    show _ * Nat.pow 10 (-(e : Int)).toNat = _
    rw [Int.toNat_eq_zero.mpr (by omega)]
    exact Nat.mul_one _
  rw [readsAs_iff, hnum, hden]
  have hbelow := Nat.div_mul_le_self (unitsOfRank (k + 1) * 10 ^ e) scale
  have habove := Nat.lt_div_mul_add scale_pos (a := unitsOfRank (k + 1) * 10 ^ e)
  apply nearestRank_of_below (pow_pos (by decide) e) hbelow
  have hmiddle : middle k * 10 ^ e + 10 ^ e ≤ 2 * (unitsOfRank (k + 1) * 10 ^ e) := by
    calc middle k * 10 ^ e + 10 ^ e = (middle k + 1) * 10 ^ e := (Nat.succ_mul _ _).symm
      _ ≤ 2 * unitsOfRank (k + 1) * 10 ^ e := Nat.mul_le_mul_right _ (middle_lt_two_mul_units k)
      _ = 2 * (unitsOfRank (k + 1) * 10 ^ e) := Nat.mul_assoc _ _ _
  omega

/-- A decimal of a grid that is tried is found before the grids run out. -/
theorem exists_firstGrid {grid : Int → Option Decimal} (digits : Nat) {fuel j : Nat} {exponent : Int} (hj : j < fuel)
    (h : (grid (exponent - j)).isSome = true) : ∃ e, grid e = some (firstGrid grid digits fuel exponent) := by
  induction fuel generalizing exponent j with
  | zero => omega
  | succ fuel ih =>
    unfold firstGrid
    split
    · rename_i d hd
      exact ⟨exponent, hd⟩
    · rename_i hnone
      cases j with
      | zero =>
        rw [Int.natCast_zero, Int.sub_zero, hnone] at h
        cases h
      | succ j =>
        have e : exponent - 1 - (j : Int) = exponent - ((j + 1 : Nat) : Int) := by omega
        exact ih (j := j) (by omega) (by rwa [e])

/-! ## The shortest decimal -/

theorem readsAs_of_onGrid {rank : Nat} {exponent : Int} {d : Decimal} (h : onGrid rank exponent = some d) :
    d.readsAs rank = true := by
  rw [onGrid] at h
  have hpasses := passes_of_neighbour h
  exact hpasses

theorem isSome_onGrid_of_fine {k e : Nat} (hfine : 2 * scale ≤ 10 ^ e) :
    (onGrid (k + 1) (-(e : Int))).isSome = true := by
  have hup : (- -(e : Int)).toNat = e := by omega
  have hdown : (-(e : Int)).toNat = 0 := by omega
  have hpow : Nat.pow 10 e = 10 ^ e := rfl
  have hone : Nat.pow 10 0 = 1 := rfl
  rw [onGrid, hup, hdown, hpow, hone, Nat.mul_one]
  exact isSome_neighbour_of_below (readsAs_of_fine hfine)

theorem readsAs_shortest {rank : Nat} (h : 0 < rank) : (shortest rank).readsAs rank = true := by
  obtain ⟨k, rfl⟩ : ∃ k, rank = k + 1 := ⟨rank - 1, by omega⟩
  rw [shortest, if_neg (by omega)]
  generalize width (unitsOfRank (k + 1) / scale) = top
  have hlast : (top : Int) - ((top + 342 : Nat) : Int) = -((342 : Nat) : Int) := by omega
  have hfinest : (onGrid (k + 1) ((top : Int) - ((top + 342 : Nat) : Int))).isSome = true := by
    rw [hlast]
    exact isSome_onGrid_of_fine (by decide +kernel)
  obtain ⟨e, he⟩ := exists_firstGrid (unitsOfRank (k + 1)) (Nat.lt_succ_self (top + 342)) hfinest
  exact readsAs_of_onGrid he

/-- The decimal of a rank is nearest to that rank, also for zero. -/
theorem nearestRank_shortest (rank : Nat) : nearestRank (shortest rank).num (shortest rank).den = rank := by
  rcases Nat.eq_zero_or_pos rank with rfl | hpos
  · have hzero : (shortest 0).num = 0 := by rw [shortest, if_pos rfl, num, Nat.zero_mul]
    rw [hzero, ← Nat.le_zero, ← Nat.not_lt, lt_nearestRank_iff (den_pos _)]
    omega
  · exact readsAs_iff.mp (readsAs_shortest hpos)

theorem num_shortest_lt_den {rank : Nat} (h : rank < 1023 * 2 ^ 52) : (shortest rank).num < (shortest rank).den := by
  apply lt_of_nearestRank_lt_one (den_pos _)
  rwa [nearestRank_shortest]

end Decimal

end CommentQuota
