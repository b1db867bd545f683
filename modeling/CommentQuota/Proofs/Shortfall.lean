/-
  CommentQuota.Proofs.Shortfall — how many rows are missing to a minimum.

  - `leastAddition_le_iff`: the minimum is met with the missing rows and with no fewer of them.
  - `leastAddition_eq_zero_iff`: none are missing where the minimum is met.
  - `leastAddition_mono_minimum` / `leastAddition_mono_total` / `leastAddition_anti_comments`: a higher
    minimum and more rows ask for more, more comments for less.
  - `leastAddition_add`: each comment that is added is one less that is missing.
  - `lt_of_leastAddition_pos`: none are missing to a minimum that is not below one.
-/

import CommentQuota.Quota

namespace CommentQuota

theorem ceilDiv_le_iff {n d k : Nat} (h : 0 < d) : ceilDiv n d ≤ k ↔ n ≤ k * d := by
  rw [ceilDiv, ← Nat.lt_add_one_iff, Nat.div_lt_iff_lt_mul h, Nat.add_mul]
  omega

/-- A number of rows brings the share to the minimum exactly if it is at least the number of rows
    missing. -/
theorem leastAddition_le_iff {comments total p q n : Nat} (h : p < q) :
    leastAddition comments total p q ≤ n ↔ p * (total + n) ≤ q * (comments + n) := by
  have hmul : p * n ≤ q * n := Nat.mul_le_mul_right n (Nat.le_of_lt h)
  rw [leastAddition, ceilDiv_le_iff (by omega), Nat.mul_sub, Nat.mul_comm n q, Nat.mul_comm n p, Nat.mul_add, Nat.mul_add]
  omega

theorem leastAddition_eq_zero_iff {comments total p q : Nat} (h : p < q) :
    leastAddition comments total p q = 0 ↔ p * total ≤ q * comments := by
  rw [← Nat.le_zero, leastAddition_le_iff h, Nat.add_zero, Nat.add_zero]

theorem leastAddition_reaches {comments total p q : Nat} (h : p < q) :
    p * (total + leastAddition comments total p q) ≤ q * (comments + leastAddition comments total p q) :=
  (leastAddition_le_iff h).mp (Nat.le_refl _)

theorem leastAddition_mono_minimum {comments total p q p' q' : Nat} (h : p < q) (h' : p' < q') (hle : p * q' ≤ p' * q) :
    leastAddition comments total p q ≤ leastAddition comments total p' q' := by
  rw [leastAddition_le_iff h]
  have hreached : p' * (total + leastAddition comments total p' q') ≤ q' * (comments + leastAddition comments total p' q') :=
    leastAddition_reaches h'
  generalize leastAddition comments total p' q' = n at *
  have hq' : 0 < q' := Nat.lt_of_le_of_lt (Nat.zero_le p') h'
  apply Nat.le_of_mul_le_mul_right _ hq'
  calc p * (total + n) * q' = p * q' * (total + n) := Nat.mul_right_comm _ _ _
    _ ≤ p' * q * (total + n) := Nat.mul_le_mul_right _ hle
    _ = q * (p' * (total + n)) := by rw [Nat.mul_comm p' q, Nat.mul_assoc]
    _ ≤ q * (q' * (comments + n)) := Nat.mul_le_mul_left q hreached
    _ = q * (comments + n) * q' := by rw [Nat.mul_comm q' _, Nat.mul_assoc]

theorem leastAddition_mono_total {comments total total' p q : Nat} (h : p < q) (hle : total ≤ total') :
    leastAddition comments total p q ≤ leastAddition comments total' p q := by
  rw [leastAddition_le_iff h]
  exact Nat.le_trans (Nat.mul_le_mul_left p (Nat.add_le_add_right hle _)) (leastAddition_reaches h)

theorem leastAddition_anti_comments {comments comments' total p q : Nat} (h : p < q) (hle : comments ≤ comments') :
    leastAddition comments' total p q ≤ leastAddition comments total p q := by
  rw [leastAddition_le_iff h]
  exact Nat.le_trans (leastAddition_reaches h) (Nat.mul_le_mul_left q (Nat.add_le_add_right hle _))

/-- Of `i` comments that are added, each is one of those that were missing, as long as any are. -/
theorem leastAddition_add {comments total p q : Nat} (h : p < q) (i : Nat) :
    leastAddition (comments + i) (total + i) p q = leastAddition comments total p q - i := by
  have hbound : ∀ n, leastAddition (comments + i) (total + i) p q ≤ n ↔ leastAddition comments total p q - i ≤ n := by
    intro n
    rw [leastAddition_le_iff h, Nat.sub_le_iff_le_add, leastAddition_le_iff h, Nat.add_assoc, Nat.add_assoc, Nat.add_comm n i]
  exact Nat.le_antisymm ((hbound _).mpr (Nat.le_refl _)) ((hbound _).mp (Nat.le_refl _))

/-- Rows are missing only to a minimum below one. -/
theorem lt_of_leastAddition_pos {comments total p q : Nat} (h : 0 < leastAddition comments total p q) : p < q := by
  apply Nat.lt_of_not_le
  intro hle
  have hzero : q - p = 0 := by omega
  rw [leastAddition, hzero, ceilDiv, Nat.div_zero] at h
  exact Nat.lt_irrefl 0 h

end CommentQuota
