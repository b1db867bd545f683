/-
  CommentQuota.Proofs.Rounding — which rank is nearest to a quotient.

  The ranks are in the order of their magnitudes, and a quotient lies past the middle between two
  neighbours exactly if its nearest rank is past the lower one; on the middle, the even rank is taken.
  This one equivalence carries the rest.

  - `lt_nearestRank_iff`: a quotient rounds past a rank if it lies past the middle above it.
  - `nearestRank_mono`: rounding keeps the order.
  - `nearestRank_of_below`: a quotient just below a magnitude rounds to its rank.
  - `ofInt?_eq_none_iff`: which whole numbers are past the largest finite number.
  - `inUnitRange_iff`: the range from zero to one, by exact values.
-/

import CommentQuota.Number.Binary64
import Mathlib.Algebra.Order.Field.Basic
import Mathlib.Algebra.Order.Field.Rat
import Mathlib.Order.Monotone.Basic
import Mathlib.Tactic.Linarith
import Mathlib.Tactic.Ring

namespace CommentQuota

/-! ## Whole numbers -/

/-- A quotient rounds past `m` if it lies past the middle between `m` and the next number, or on the
    middle if `m` is odd. -/
theorem lt_roundDiv_iff {n d m : Nat} (hd : 0 < d) :
    m < roundDiv n d ↔ (2 * m + 1) * d < 2 * n ∨ ((2 * m + 1) * d = 2 * n ∧ m % 2 = 1) := by
  have hn := Nat.div_add_mod n d
  have hr := Nat.mod_lt n hd
  unfold roundDiv
  simp only
  generalize n / d = q at *
  generalize n % d = r at *
  subst hn
  rcases Nat.lt_trichotomy m q with hm | rfl | hm
  · obtain ⟨k, rfl⟩ := Nat.exists_eq_add_of_lt hm
    have hlt : (2 * m + 1) * d < 2 * (d * (m + k + 1) + r) := by
      have : 2 * (d * (m + k + 1) + r) = (2 * m + 1) * d + (d + 2 * (d * k) + 2 * r) := by ring
      omega
    refine iff_of_true ?_ (.inl hlt)
    split <;> omega
  · have hmid : (2 * m + 1) * d = 2 * (d * m) + d := by ring
    rw [hmid]
    split <;> omega
  · obtain ⟨k, rfl⟩ := Nat.exists_eq_add_of_lt hm
    have hlt : 2 * (d * q + r) < (2 * (q + k + 1) + 1) * d := by
      have : (2 * (q + k + 1) + 1) * d = 2 * (d * q) + 3 * d + 2 * (d * k) := by ring
      omega
    refine iff_of_false ?_ (by omega)
    split <;> omega

namespace Binary64

/-! ## Magnitudes of ranks -/

theorem scale_eq : scale = 2 ^ 1074 := by
  unfold scale
  generalize 1074 = e
  rfl

theorem scale_pos : 0 < scale := by
  rw [scale_eq]
  exact pow_pos two_pos 1074

/-- A rank is a number of blocks and a place `m`, whose magnitude is `m` steps of its block; the place
    behind a block is the first of the next one. -/
theorem unitsOfRank_block {s m : Nat} (hle : m ≤ 2 ^ 53) (hge : 2 ^ 52 ≤ m ∨ s = 0) :
    unitsOfRank (s * 2 ^ 52 + m) = m * 2 ^ s := by
  have hdef : ∀ r, unitsOfRank r = if r < 2 ^ 52 then r else (2 ^ 52 + r % 2 ^ 52) * 2 ^ (r / 2 ^ 52 - 1) := fun _ => rfl
  rw [hdef]
  rcases Nat.lt_or_ge m (2 ^ 52) with hm | hm
  · obtain rfl := hge.resolve_left (by omega)
    rw [if_pos (by omega)]
    omega
  rw [if_neg (by omega)]
  rcases Nat.lt_or_ge m (2 ^ 53) with hm' | hm'
  · have hmod : 2 ^ 52 + (s * 2 ^ 52 + m) % 2 ^ 52 = m := by omega
    have hdiv : (s * 2 ^ 52 + m) / 2 ^ 52 - 1 = s := by omega
    rw [hmod, hdiv]
  · obtain rfl : m = 2 ^ 53 := by omega
    have hmod : (s * 2 ^ 52 + 2 ^ 53) % 2 ^ 52 = 0 := by omega
    have hdiv : (s * 2 ^ 52 + 2 ^ 53) / 2 ^ 52 - 1 = s + 1 := by omega
    rw [hmod, hdiv, Nat.pow_succ]
    ring

theorem exists_block (r : Nat) : ∃ s m, r = s * 2 ^ 52 + m ∧ m < 2 ^ 53 ∧ (2 ^ 52 ≤ m ∨ s = 0) := by
  rcases Nat.lt_or_ge r (2 ^ 52) with hr | hr
  · exact ⟨0, r, by omega, by omega, .inr rfl⟩
  · exact ⟨r / 2 ^ 52 - 1, r % 2 ^ 52 + 2 ^ 52, by omega, by omega, .inl (by omega)⟩

theorem strictMono_unitsOfRank : StrictMono unitsOfRank := by
  apply strictMono_nat_of_lt_succ
  intro r
  obtain ⟨s, m, rfl, hm, hge⟩ := exists_block r
  rw [unitsOfRank_block (Nat.le_of_lt hm) hge, Nat.add_assoc, unitsOfRank_block (m := m + 1) hm (by omega)]
  exact Nat.mul_lt_mul_of_pos_right (Nat.lt_succ_self m) (Nat.two_pow_pos s)

/-- The middle between a rank and the next one, in half units. -/
def middle (k : Nat) : Nat := unitsOfRank k + unitsOfRank (k + 1)

theorem middle_block {s m : Nat} (hlt : m < 2 ^ 53) (hge : 2 ^ 52 ≤ m ∨ s = 0) :
    middle (s * 2 ^ 52 + m) = (2 * m + 1) * 2 ^ s := by
  rw [middle, unitsOfRank_block (Nat.le_of_lt hlt) hge, Nat.add_assoc, unitsOfRank_block (m := m + 1) hlt (by omega)]
  ring

theorem units_lt_units_succ (k : Nat) : unitsOfRank k < unitsOfRank (k + 1) := strictMono_unitsOfRank (Nat.lt_add_one k)

theorem two_mul_units_lt_middle (k : Nat) : 2 * unitsOfRank k < middle k := by
  have := units_lt_units_succ k
  unfold middle
  omega

theorem middle_lt_two_mul_units (k : Nat) : middle k < 2 * unitsOfRank (k + 1) := by
  have := units_lt_units_succ k
  unfold middle
  omega

/-! ## The nearest rank -/

/-- The bits that rounding drops of a quotient in units: the quotient has 53 more, or fewer if none
    are dropped. -/
theorem dropped_bounds (n : Nat) {den : Nat} (h : 0 < den) :
    n < 2 ^ 53 * 2 ^ ((n / den).log2 - 52) * den ∧
      ((n / den).log2 - 52 ≠ 0 → 2 ^ 52 * 2 ^ ((n / den).log2 - 52) * den ≤ n) := by
  constructor
  · have hlt : n / den < 2 ^ ((n / den).log2 + 1) := Nat.lt_log2_self
    have hpow : 2 ^ ((n / den).log2 + 1) ≤ 2 ^ (53 + ((n / den).log2 - 52)) := Nat.pow_le_pow_right (by omega) (by omega)
    rw [← Nat.pow_add, ← Nat.div_lt_iff_lt_mul h]
    omega
  · intro hs
    have hne : n / den ≠ 0 := by
      intro e
      rw [e] at hs
      exact hs rfl
    have hexp : 52 + ((n / den).log2 - 52) = (n / den).log2 := by omega
    rw [← Nat.pow_add, ← Nat.le_div_iff_mul_le h, hexp]
    exact Nat.log2_self_le hne

section block

variable {n den s k : Nat}

/-- A quotient that has come to a block has passed the middles below it. -/
theorem middle_lt_of_below (hden : 0 < den) (hlower : 2 ^ 52 * 2 ^ s * den ≤ n) (hk : k < s * 2 ^ 52 + 2 ^ 52) :
    middle k * den < 2 * n := by
  have hfirst := strictMono_unitsOfRank.monotone (show k + 1 ≤ s * 2 ^ 52 + 2 ^ 52 from hk)
  rw [unitsOfRank_block (by omega) (by omega)] at hfirst
  calc middle k * den < 2 * unitsOfRank (k + 1) * den := Nat.mul_lt_mul_of_pos_right (middle_lt_two_mul_units k) hden
    _ ≤ 2 * (2 ^ 52 * 2 ^ s) * den := Nat.mul_le_mul_right den (Nat.mul_le_mul_left 2 hfirst)
    _ = 2 * (2 ^ 52 * 2 ^ s * den) := by ring
    _ ≤ 2 * n := Nat.mul_le_mul_left 2 hlower

/-- A quotient inside a block has not come to the middles behind it. -/
theorem lt_middle_of_behind (hupper : n < 2 ^ 53 * 2 ^ s * den) (hk : s * 2 ^ 52 + 2 ^ 53 ≤ k) :
    2 * n < middle k * den := by
  have hlast := strictMono_unitsOfRank.monotone hk
  rw [unitsOfRank_block (by omega) (by omega)] at hlast
  calc 2 * n < 2 * (2 ^ 53 * 2 ^ s * den) := by omega
    _ = 2 * (2 ^ 53 * 2 ^ s) * den := by ring
    _ ≤ 2 * unitsOfRank k * den := Nat.mul_le_mul_right den (Nat.mul_le_mul_left 2 hlast)
    _ ≤ middle k * den := Nat.mul_le_mul_right den (Nat.le_of_lt (two_mul_units_lt_middle k))

theorem le_roundDiv_of_lower (hden : 0 < den) (hlower : 2 ^ 52 * 2 ^ s * den ≤ n) :
    2 ^ 52 ≤ roundDiv n (den * 2 ^ s) := by
  have hstep : 0 < den * 2 ^ s := Nat.mul_pos hden (Nat.two_pow_pos s)
  have hlt : 2 ^ 52 - 1 < roundDiv n (den * 2 ^ s) := by
    rw [lt_roundDiv_iff hstep]
    left
    calc (2 * (2 ^ 52 - 1) + 1) * (den * 2 ^ s) < 2 * 2 ^ 52 * (den * 2 ^ s) := Nat.mul_lt_mul_of_pos_right (by omega) hstep
      _ = 2 * (2 ^ 52 * 2 ^ s * den) := by ring
      _ ≤ 2 * n := Nat.mul_le_mul_left 2 hlower
  omega

theorem roundDiv_le_of_upper (hden : 0 < den) (hupper : n < 2 ^ 53 * 2 ^ s * den) :
    roundDiv n (den * 2 ^ s) ≤ 2 ^ 53 := by
  have hstep : 0 < den * 2 ^ s := Nat.mul_pos hden (Nat.two_pow_pos s)
  have hlt : 2 * n < (2 * 2 ^ 53 + 1) * (den * 2 ^ s) := by
    calc 2 * n < 2 * (2 ^ 53 * 2 ^ s * den) := by omega
      _ = 2 * 2 ^ 53 * (den * 2 ^ s) := by ring
      _ ≤ (2 * 2 ^ 53 + 1) * (den * 2 ^ s) := Nat.mul_le_mul_right _ (by omega)
  rw [← Nat.not_lt, lt_roundDiv_iff hstep]
  omega

end block

/-- A quotient rounds past the rank `k` exactly if it lies past the middle between `k` and the next
    rank, or on it if `k` is odd. -/
theorem lt_nearestRank_iff {num den k : Nat} (hden : 0 < den) :
    k < nearestRank num den ↔
      middle k * den < 2 * (num * scale) ∨ (middle k * den = 2 * (num * scale) ∧ k % 2 = 1) := by
  have hdef : nearestRank num den = ((num * scale / den).log2 - 52) * 2 ^ 52 +
      roundDiv (num * scale) (den * 2 ^ ((num * scale / den).log2 - 52)) := rfl
  obtain ⟨hupper, hlower⟩ := dropped_bounds (num * scale) hden
  rw [hdef]
  generalize num * scale = n at *
  generalize (n / den).log2 - 52 = s at *
  by_cases hbelow : s ≠ 0 ∧ k < s * 2 ^ 52 + 2 ^ 52
  · have hround := le_roundDiv_of_lower hden (hlower hbelow.1)
    exact iff_of_true (by omega) (.inl (middle_lt_of_below hden (hlower hbelow.1) hbelow.2))
  by_cases hbehind : s * 2 ^ 52 + 2 ^ 53 ≤ k
  · have hround := roundDiv_le_of_upper hden hupper
    have hmiddle := lt_middle_of_behind hupper hbehind
    exact iff_of_false (by omega) (by omega)
  · -- inside the block, the middles of ranks are those of whole numbers
    obtain ⟨m, rfl⟩ : ∃ m, k = s * 2 ^ 52 + m := ⟨k - s * 2 ^ 52, by omega⟩
    have hparity : (s * 2 ^ 52 + m) % 2 = m % 2 := by omega
    have hmiddle : (2 * m + 1) * 2 ^ s * den = (2 * m + 1) * (den * 2 ^ s) := by ring
    rw [Nat.add_lt_add_iff_left, lt_roundDiv_iff (Nat.mul_pos hden (Nat.two_pow_pos s)),
      middle_block (by omega) (by omega), hparity, hmiddle]

/-- Rounding keeps the order of quotients. -/
theorem nearestRank_mono {num den num' den' : Nat} (hden : 0 < den) (hden' : 0 < den')
    (h : num * den' ≤ num' * den) : nearestRank num den ≤ nearestRank num' den' := by
  apply Nat.le_of_not_lt
  intro hlt
  apply Nat.lt_irrefl (nearestRank num' den')
  rw [lt_nearestRank_iff hden] at hlt
  rw [lt_nearestRank_iff hden']
  generalize nearestRank num' den' = k at *
  -- both sides are compared over the product of the denominators
  have hscaled : 2 * (num * scale) * den' ≤ 2 * (num' * scale) * den := by
    calc 2 * (num * scale) * den' = 2 * scale * (num * den') := by ring
      _ ≤ 2 * scale * (num' * den) := Nat.mul_le_mul_left _ h
      _ = 2 * (num' * scale) * den := by ring
  have hswap : middle k * den * den' = middle k * den' * den := by ring
  rcases hlt with hlt | ⟨heq, hodd⟩
  · left
    apply Nat.lt_of_mul_lt_mul_right (a := den)
    calc middle k * den' * den = middle k * den * den' := hswap.symm
      _ < 2 * (num * scale) * den' := Nat.mul_lt_mul_of_pos_right hlt hden'
      _ ≤ 2 * (num' * scale) * den := hscaled
  · have hle : middle k * den' ≤ 2 * (num' * scale) := by
      apply Nat.le_of_mul_le_mul_right _ hden
      calc middle k * den' * den = middle k * den * den' := hswap.symm
        _ = 2 * (num * scale) * den' := by rw [heq]
        _ ≤ 2 * (num' * scale) * den := hscaled
    rcases Nat.lt_or_eq_of_le hle with hlt | heq
    · exact .inl hlt
    · exact .inr ⟨heq, hodd⟩

/-- A quotient that is at most a magnitude, and past the middle below it, rounds to its rank. -/
theorem nearestRank_of_below {num den k : Nat} (hden : 0 < den) (hle : num * scale ≤ unitsOfRank (k + 1) * den)
    (hlt : middle k * den < 2 * (num * scale)) : nearestRank num den = k + 1 := by
  have hlower : k < nearestRank num den := (lt_nearestRank_iff hden).mpr (.inl hlt)
  have hupper : ¬ k + 1 < nearestRank num den := by
    have hmiddle : 2 * unitsOfRank (k + 1) * den < middle (k + 1) * den :=
      Nat.mul_lt_mul_of_pos_right (two_mul_units_lt_middle (k + 1)) hden
    rw [Nat.mul_assoc] at hmiddle
    rw [lt_nearestRank_iff hden]
    omega
  omega

/-! ## The largest number -/

theorem finite?_ofQuotient_eq_none_iff {negative : Bool} {num den : Nat} :
    (ofQuotient negative num den).finite? = none ↔ 2047 * 2 ^ 52 ≤ nearestRank num den := by
  rw [ofQuotient]
  generalize nearestRank num den = r
  by_cases hr : r < 2047 * Nat.pow 2 52
  · rw [dif_pos hr]
    exact iff_of_false nofun (Nat.not_le.mpr hr)
  · rw [dif_neg hr]
    exact iff_of_true rfl (Nat.not_lt.mp hr)

theorem middle_last : middle (2047 * 2 ^ 52 - 1) = (2 ^ 54 - 1) * 2 ^ 2045 := by
  have hrank : 2047 * 2 ^ 52 - 1 = 2045 * 2 ^ 52 + (2 ^ 53 - 1) := by omega
  have hblock := middle_block (s := 2045) (m := 2 ^ 53 - 1) (by omega) (by omega)
  have hodd : 2 * (2 ^ 53 - 1) + 1 = 2 ^ 54 - 1 := by omega
  rw [hrank, hblock, hodd]

/-- A whole number is past every finite number from half a step behind the largest one on. -/
theorem ofInt?_eq_none_iff {n : Int} : ofInt? n = none ↔ (2 ^ 54 - 1) * 2 ^ 970 ≤ n.natAbs := by
  have hlast : 2047 * 2 ^ 52 ≤ nearestRank n.natAbs 1 ↔ 2047 * 2 ^ 52 - 1 < nearestRank n.natAbs 1 := by omega
  have hodd : (2047 * 2 ^ 52 - 1) % 2 = 1 := by omega
  have hpow : (2 : Nat) ^ 2045 = 2 ^ 970 * (2 ^ 1074 * 2) := by rw [← pow_succ, ← pow_add]
  have hpos : 0 < (2 : Nat) ^ 1074 := pow_pos two_pos _
  rw [ofInt?, finite?_ofQuotient_eq_none_iff, hlast, lt_nearestRank_iff Nat.one_pos, middle_last, scale_eq, hpow]
  simp only [hodd, and_true, ← Nat.le_iff_lt_or_eq]
  generalize (2 : Nat) ^ 1074 = u at *
  generalize (2 : Nat) ^ 970 = v at *
  have hleft : (2 ^ 54 - 1) * (v * (u * 2)) * 1 = (2 ^ 54 - 1) * v * (u * 2) := by ring
  have hright : 2 * (n.natAbs * u) = n.natAbs * (u * 2) := by ring
  rw [hleft, hright, Nat.mul_le_mul_right_iff (by omega)]

/-! ## The range from zero to one -/

theorem unitsOfRank_one : unitsOfRank (1023 * 2 ^ 52) = scale := by
  have hrank : 1023 * 2 ^ 52 = 1022 * 2 ^ 52 + 2 ^ 52 := by omega
  rw [hrank, unitsOfRank_block (by omega) (by omega), scale_eq, ← pow_add]

theorem nearestRank_one : nearestRank 1 1 = 1023 * 2 ^ 52 := by
  have hrank : 1023 * 2 ^ 52 = 1023 * 2 ^ 52 - 1 + 1 := by omega
  have hmiddle := middle_lt_two_mul_units (1023 * 2 ^ 52 - 1)
  rw [← hrank, unitsOfRank_one] at hmiddle
  rw [hrank]
  apply nearestRank_of_below Nat.one_pos
  · rw [← hrank, unitsOfRank_one, Nat.one_mul, Nat.mul_one]
  · rwa [Nat.mul_one, Nat.one_mul]

/-- What rounds below one lies below one. -/
theorem lt_of_nearestRank_lt_one {num den : Nat} (hden : 0 < den) (h : nearestRank num den < 1023 * 2 ^ 52) :
    num < den := by
  apply Nat.lt_of_not_le
  intro hle
  have hmono : nearestRank 1 1 ≤ nearestRank num den := nearestRank_mono Nat.one_pos hden (by omega)
  rw [nearestRank_one] at hmono
  omega

/-- The exact value of a finite number. -/
def value? : Binary64 → Option ℚ
  | finite negative r => some ((if negative then -1 else 1) * (unitsOfRank r / scale))
  | _ => none

/-- A finite number from zero, included, to one, excluded; minus zero is zero. -/
def InUnitInterval (x : Binary64) : Prop := ∃ v, x.value? = some v ∧ 0 ≤ v ∧ v < 1

theorem unitsOfRank_pos_iff {r : Nat} : 0 < unitsOfRank r ↔ 0 < r :=
  strictMono_unitsOfRank.lt_iff_lt (a := 0)

theorem inUnitRange_unsigned {r : Fin (2047 * Nat.pow 2 52)} :
    (finite false r).inUnitRange = true ↔ unitsOfRank r < scale := by
  simp only [inUnitRange, isNaN, isNegative, atLeastOne, Bool.false_and, Bool.not_false, Bool.true_and,
    Bool.not_eq_true', decide_eq_false_iff_not, Nat.not_le]

theorem inUnitRange_signed {r : Fin (2047 * Nat.pow 2 52)} : (finite true r).inUnitRange = true ↔ r.val = 0 := by
  simp only [inUnitRange, isNaN, isNegative, atLeastOne, Bool.false_and, Bool.not_false, Bool.not_true, Bool.true_and,
    Bool.and_true, Bool.not_eq_true', decide_eq_false_iff_not, Nat.not_lt, Nat.le_zero]

theorem inUnitInterval_finite {negative : Bool} {r : Fin (2047 * Nat.pow 2 52)} :
    (finite negative r).InUnitInterval ↔
      (0 : ℚ) ≤ (if negative then -1 else 1) * (unitsOfRank r / scale) ∧
        (if negative then -1 else 1) * (unitsOfRank r / scale) < (1 : ℚ) := by
  constructor
  · rintro ⟨v, hv, h⟩
    obtain rfl := Option.some.inj hv
    exact h
  · intro h
    exact ⟨_, rfl, h⟩

theorem inUnitRange_iff {x : Binary64} : x.inUnitRange = true ↔ x.InUnitInterval := by
  cases x with
  | nan => exact iff_of_false (by decide) nofun
  | infinite negative => exact iff_of_false (by cases negative <;> decide) nofun
  | finite negative r =>
    have hscale : (0 : ℚ) < scale := by exact_mod_cast scale_pos
    have hnonneg : (0 : ℚ) ≤ unitsOfRank r / scale := div_nonneg (Nat.cast_nonneg _) hscale.le
    rw [inUnitInterval_finite]
    cases negative with
    | false =>
      have hlt : (unitsOfRank r / scale : ℚ) < 1 ↔ unitsOfRank r < scale := by
        rw [div_lt_one hscale, Nat.cast_lt]
      rw [inUnitRange_unsigned, ← hlt, if_neg Bool.false_ne_true, one_mul]
      exact ⟨fun h => ⟨hnonneg, h⟩, fun h => h.2⟩
    | true =>
      have hzero : (unitsOfRank r / scale : ℚ) ≤ 0 ↔ r.val = 0 := by
        rw [← not_lt, div_pos_iff_of_pos_right hscale, Nat.cast_pos, unitsOfRank_pos_iff, Nat.not_lt, Nat.le_zero]
      rw [inUnitRange_signed, ← hzero, if_pos rfl]
      constructor
      · intro h
        constructor <;> linarith
      · rintro ⟨h, -⟩
        linarith

end Binary64

end CommentQuota
