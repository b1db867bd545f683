/-
  CommentQuota.Proofs.Alignment — the segments of an alignment lead from one document to the other.

  Whatever run of lines an alignment is anchored at, it is a run that both documents have, so the shared and the removed
  lines are those of the old document and the shared and the added lines those of the new one, each in their order. Of a
  document and itself the longest run that is found first lies on the same lines of both, and with the equal lines around it
  that is the whole document, also where frequent lines start no run.

  - `anchor_common`: the run that two lists are anchored at is one of both.
  - `leftLines_align` / `rightLines_align`: what the segments hold of either list.
  - `align_self`: a list is aligned with itself in one segment.
-/

import CommentQuota.Patch.Alignment

namespace CommentQuota.Patch

/-! ## Segments -/

namespace Segment

/-- The lines of a segment in the old document. -/
@[simp]
def left : Segment → List Text
  | same ls => ls
  | change removed _ => removed

/-- The lines of a segment in the new document. -/
@[simp]
def right : Segment → List Text
  | same ls => ls
  | change _ added => added

end Segment

def leftLines (segments : List Segment) : List Text := segments.flatMap Segment.left

def rightLines (segments : List Segment) : List Text := segments.flatMap Segment.right

@[simp]
theorem leftLines_nil : leftLines [] = [] := rfl

@[simp]
theorem rightLines_nil : rightLines [] = [] := rfl

@[simp]
theorem leftLines_cons (s : Segment) (rest : List Segment) : leftLines (s :: rest) = s.left ++ leftLines rest := rfl

@[simp]
theorem rightLines_cons (s : Segment) (rest : List Segment) : rightLines (s :: rest) = s.right ++ rightLines rest := rfl

@[simp]
theorem leftLines_append (ss ts : List Segment) : leftLines (ss ++ ts) = leftLines ss ++ leftLines ts :=
  List.flatMap_append

@[simp]
theorem rightLines_append (ss ts : List Segment) : rightLines (ss ++ ts) = rightLines ss ++ rightLines ts :=
  List.flatMap_append

theorem leftLines_join (s : Segment) (rest : List Segment) : leftLines (s.join rest) = s.left ++ leftLines rest := by
  unfold Segment.join
  split <;> simp

theorem rightLines_join (s : Segment) (rest : List Segment) : rightLines (s.join rest) = s.right ++ rightLines rest := by
  unfold Segment.join
  split <;> simp

/-! ## Common runs -/

/-- The lines of a run are lines of both lists. -/
structure Run.Common (r : Run) (xs ys : List Text) : Prop where
  left_le : r.left + r.size ≤ xs.length
  right_le : r.right + r.size ≤ ys.length
  equal : (xs.drop r.left).take r.size = (ys.drop r.right).take r.size

theorem sharedHead_spec (as bs : List Text) : sharedHead as bs ≤ as.length ∧ sharedHead as bs ≤ bs.length ∧
    as.take (sharedHead as bs) = bs.take (sharedHead as bs) := by
  fun_induction sharedHead as bs with
  | case1 a as bs ih => simpa using ih
  | case2 => simp
  | case3 => simp

theorem sharedHead_self (as : List Text) : sharedHead as as = as.length := by
  induction as with
  | nil => rfl
  | cons a as ih => simp [sharedHead, ih]

theorem take_drop_add (ls : List Text) (start m n : Nat) :
    (ls.drop start).take (m + n) = (ls.drop start).take m ++ (ls.drop (start + m)).take n := by
  rw [List.take_add, List.drop_drop]

/-- The last lines in front of a place. -/
theorem reverse_take_reverse_take {ls : List Text} {i n : Nat} (hi : i ≤ ls.length) (hn : n ≤ i) :
    ((ls.take i).reverse.take n).reverse = (ls.drop (i - n)).take n := by
  rw [List.take_reverse, List.reverse_reverse, List.length_take_of_le hi, List.drop_take, Nat.sub_sub_self hn]

theorem Run.Common.extend {r : Run} {xs ys : List Text} (h : r.Common xs ys) : (r.extend xs ys).Common xs ys := by
  obtain ⟨hleft, hright, hequal⟩ := h
  obtain ⟨hbefore, hbefore', hfront⟩ := sharedHead_spec (xs.take r.left).reverse (ys.take r.right).reverse
  obtain ⟨hafter, hafter', hback⟩ := sharedHead_spec (xs.drop (r.left + r.size)) (ys.drop (r.right + r.size))
  unfold Run.extend
  generalize sharedHead (xs.take r.left).reverse (ys.take r.right).reverse = before at *
  generalize sharedHead (xs.drop (r.left + r.size)) (ys.drop (r.right + r.size)) = after at *
  rw [List.length_reverse, List.length_take_of_le (by omega)] at hbefore hbefore'
  rw [List.length_drop] at hafter hafter'
  have hfront := congrArg List.reverse hfront
  rw [reverse_take_reverse_take (by omega) hbefore, reverse_take_reverse_take (by omega) hbefore'] at hfront
  constructor
  case left_le => dsimp only; omega
  case right_le => dsimp only; omega
  case equal =>
    have hl : r.left - before + (before + r.size) = r.left + r.size := by omega
    have hr : r.right - before + (before + r.size) = r.right + r.size := by omega
    simp only [take_drop_add _ _ (before + r.size), take_drop_add _ _ before, Nat.sub_add_cancel hbefore,
      Nat.sub_add_cancel hbefore', hl, hr, hfront, hequal, hback]

/-! ## Runs that end at a line -/

/-- Two lines may stand at one place of a run. -/
def Matches (frequent : List Text) (a b : Text) : Prop := a = b ∧ b ∉ frequent

instance (frequent : List Text) (a b : Text) : Decidable (Matches frequent a b) :=
  inferInstanceAs (Decidable (a = b ∧ b ∉ frequent))

/-- The number of equal lines that two lists start with and of which none is frequent. -/
def runHead (frequent : List Text) : List Text → List Text → Nat
  | a :: as, b :: bs => if Matches frequent a b then runHead frequent as bs + 1 else 0
  | _, _ => 0

/-- The lengths of the runs that end at the last of the lines `past` and at each of the lines that follow `front`. Both
    lists are reversed, the line that was looked at last being the first. -/
def rowFrom (frequent past front : List Text) : List Text → List Nat
  | [] => []
  | y :: ys => runHead frequent past (y :: front) :: rowFrom frequent past (y :: front) ys

variable (frequent : List Text)

theorem runHead_spec (as bs : List Text) : runHead frequent as bs ≤ as.length ∧ runHead frequent as bs ≤ bs.length ∧
    as.take (runHead frequent as bs) = bs.take (runHead frequent as bs) := by
  fun_induction runHead frequent as bs with
  | case1 a as b bs hsame ih => simpa [hsame.1] using ih
  | case2 => simp
  | case3 => simp

theorem runHead_nil_left (bs : List Text) : runHead frequent [] bs = 0 := by
  cases bs <;> rfl

theorem runHead_nil_right (as : List Text) : runHead frequent as [] = 0 := by
  cases as <;> rfl

/-- A list has no longer run with another list than with itself. -/
theorem runHead_le_self (as bs : List Text) :
    runHead frequent as bs ≤ runHead frequent as as ∧ runHead frequent as bs ≤ runHead frequent bs bs := by
  fun_induction runHead frequent as bs with
  | case1 a as b bs hsame ih =>
    obtain rfl := hsame.1
    simpa [runHead, hsame] using ih
  | case2 => exact ⟨Nat.zero_le _, Nat.zero_le _⟩
  | case3 => exact ⟨Nat.zero_le _, Nat.zero_le _⟩

/-- One line more: the runs that end at it go on from those that end at the line before. -/
theorem zipWith_rowFrom (x : Text) (past front ys : List Text) :
    List.zipWith (fun y n => if x = y ∧ y ∉ frequent then n + 1 else 0) ys
      (runHead frequent past front :: rowFrom frequent past front ys) = rowFrom frequent (x :: past) front ys := by
  induction ys generalizing front with
  | nil => rfl
  | cons y ys ih =>
    rw [List.zipWith_cons_cons, rowFrom, ih, rowFrom, runHead]
    rfl

theorem runLengths_rowFrom (x : Text) (past ys : List Text) :
    runLengths frequent x ys (rowFrom frequent past [] ys) = rowFrom frequent (x :: past) [] ys := by
  rw [runLengths, ← zipWith_rowFrom frequent x past [] ys, runHead_nil_right]

theorem rowFrom_nil (front ys : List Text) : rowFrom frequent [] front ys = List.replicate ys.length 0 := by
  induction ys generalizing front with
  | nil => rfl
  | cons y ys ih => rw [rowFrom, ih, runHead_nil_left, List.length_cons, List.replicate_succ]

/-- The last lines of two lists that are equal make a run. -/
theorem common_of_runHead (past front xs ys : List Text) :
    Run.Common ⟨past.length - runHead frequent past front, front.length - runHead frequent past front,
      runHead frequent past front⟩ (past.reverse ++ xs) (front.reverse ++ ys) := by
  obtain ⟨hpast, hfront, htake⟩ := runHead_spec frequent past front
  generalize runHead frequent past front = n at *
  constructor
  case left_le => simp; omega
  case right_le => simp; omega
  case equal =>
    have hlast : ∀ (ls rest : List Text), n ≤ ls.length →
        ((ls.reverse ++ rest).drop (ls.length - n)).take n = (ls.take n).reverse := by
      intro ls rest hn
      rw [List.drop_append_of_le_length (by simp), List.take_append_of_le_length (by simp; omega), List.reverse_take,
        List.take_of_length_le (by simp; omega)]
    dsimp only
    rw [hlast past xs hpast, hlast front ys hfront, htake]

/-! ## The best run -/

theorem betterRun_common {i : Nat} {best : Run} {past ys xs : List Text} (front : List Text) (hpast : past.length = i + 1)
    (h : best.Common (past.reverse ++ xs) (front.reverse ++ ys)) :
    (betterRun i best front.length (rowFrom frequent past front ys)).Common (past.reverse ++ xs) (front.reverse ++ ys) := by
  induction ys generalizing best front with
  | nil => exact h
  | cons y ys ih =>
    have hrun := common_of_runHead frequent past (y :: front) xs ys
    rw [hpast, List.length_cons, List.reverse_cons, List.append_assoc, List.singleton_append] at hrun
    rw [rowFrom, betterRun, ← List.length_cons (a := y)]
    have hfront : front.reverse ++ y :: ys = (y :: front).reverse ++ ys := by simp
    rw [hfront] at h hrun ⊢
    apply ih
    split
    · exact hrun
    · exact h

theorem bestRun_common {best : Run} {past ys xs : List Text} (h : best.Common (past.reverse ++ xs) ys) :
    (bestRun frequent ys past.length (rowFrom frequent past [] ys) best xs).Common (past.reverse ++ xs) ys := by
  induction xs generalizing best past with
  | nil => exact h
  | cons x xs ih =>
    have hpast : past.reverse ++ x :: xs = (x :: past).reverse ++ xs := by simp
    rw [bestRun, runLengths_rowFrom]
    rw [hpast] at h ⊢
    exact ih (betterRun_common frequent [] rfl h)

/-- The run that two lists are anchored at is one of both. -/
theorem anchor_common (xs ys : List Text) : (anchor frequent xs ys).Common xs ys := by
  have hempty : Run.Common ⟨0, 0, 0⟩ (([] : List Text).reverse ++ xs) ys := ⟨by simp, by simp, by simp⟩
  have hbest := bestRun_common frequent hempty
  rw [rowFrom_nil] at hbest
  exact hbest.extend

/-! ## Alignments -/

theorem leftLines_alignWith (xs ys : List Text) (rest : List Segment) :
    leftLines (alignWith frequent xs ys rest) = xs ++ leftLines rest := by
  fun_induction alignWith frequent xs ys rest with
  | case1 xs ys rest r h ihBehind _ ihFront =>
    rw [ihFront, leftLines_join, ihBehind, Segment.left, ← List.append_assoc, ← List.append_assoc, ← List.drop_drop,
      List.append_assoc (xs.take r.left), List.take_append_drop, List.take_append_drop]
  | case2 xs ys rest r h => rw [leftLines_join, Segment.left]

theorem rightLines_alignWith (xs ys : List Text) (rest : List Segment) :
    rightLines (alignWith frequent xs ys rest) = ys ++ rightLines rest := by
  fun_induction alignWith frequent xs ys rest with
  | case1 xs ys rest r h ihBehind _ ihFront =>
    -- the shared lines are also lines of the new document
    rw [ihFront, rightLines_join, ihBehind, Segment.right, (anchor_common frequent xs ys).equal, ← List.append_assoc, ← List.append_assoc,
      ← List.drop_drop, List.append_assoc (ys.take r.right), List.take_append_drop, List.take_append_drop]
  | case2 xs ys rest r h => rw [rightLines_join, Segment.right]

theorem leftLines_align (xs ys : List Text) : leftLines (align xs ys) = xs := by
  rw [align, leftLines_alignWith]
  exact List.append_nil xs

theorem rightLines_align (xs ys : List Text) : rightLines (align xs ys) = ys := by
  rw [align, rightLines_alignWith]
  exact List.append_nil ys

/-! ## A document and itself -/

/-- With the lines of the document up to some line compared, the best run stands at the same lines of both, and it is as long
    as any run that ends there. -/
theorem betterRun_diagonal {i : Nat} {best : Run} {past ys rest : List Text} (front : List Text) (hpast : past.length = i + 1)
    (hsame : front.reverse ++ ys = past.reverse ++ rest) (hbest : best.left = best.right)
    (hbound : ∀ s, s <:+ past → s.length < past.length ∨ s.length ≤ front.length → runHead frequent s s ≤ best.size) :
    (betterRun i best front.length (rowFrom frequent past front ys)).left =
      (betterRun i best front.length (rowFrom frequent past front ys)).right ∧
    ∀ s, s <:+ past → s.length < past.length ∨ s.length ≤ front.length + ys.length →
      runHead frequent s s ≤ (betterRun i best front.length (rowFrom frequent past front ys)).size := by
  induction ys generalizing best front with
  | nil => exact ⟨hbest, by simpa [rowFrom, betterRun] using hbound⟩
  | cons y ys ih =>
    obtain ⟨hpastLe, hfrontLe⟩ := runHead_le_self frequent past (y :: front)
    have hnext : (y :: front).reverse ++ ys = past.reverse ++ rest := by simpa using hsame
    -- the lines in front of a place are those up to the line looked at, or some of them, or more
    have hsuffix : (y :: front).length ≤ past.length → y :: front <:+ past := by
      intro hlength
      have hprefix : (y :: front).reverse <+: past.reverse :=
        List.prefix_of_prefix_length_le ⟨ys, hnext⟩ ⟨rest, rfl⟩ (by simpa using hlength)
      simpa using List.reverse_suffix.mpr hprefix
    have hcount : (y :: front).length = front.length + 1 := rfl
    have hlengths : front.length + (y :: ys).length = (y :: front).length + ys.length := by
      rw [hcount, List.length_cons, Nat.add_assoc, Nat.add_comm 1]
    rw [rowFrom, betterRun, hlengths, ← hcount]
    by_cases hbetter : best.size < runHead frequent past (y :: front)
    · -- only the lines up to the one looked at have a longer run with it
      have hhere : y :: front = past := by
        rcases Nat.lt_trichotomy (y :: front).length past.length with hlt | heq | hgt
        · have := hbound _ (hsuffix (Nat.le_of_lt hlt)) (.inl hlt)
          omega
        · exact (hsuffix (Nat.le_of_eq heq)).eq_of_length heq
        · have := hbound past List.suffix_rfl (.inr (Nat.le_of_lt_succ hgt))
          omega
      subst hhere
      rw [if_pos hbetter]
      apply ih (y :: front) hnext
      · simp only [hpast]
      · intro s hs _
        by_cases hshort : s.length < (y :: front).length
        · exact Nat.le_of_lt (Nat.lt_of_le_of_lt (hbound s hs (.inl hshort)) hbetter)
        · obtain rfl := hs.eq_of_length_le (Nat.le_of_not_lt hshort)
          exact Nat.le_refl _
    · rw [if_neg hbetter]
      apply ih (y :: front) hnext hbest
      intro s hs hlength
      by_cases hknown : s.length < past.length ∨ s.length ≤ front.length
      · exact hbound s hs hknown
      · rw [not_or, Nat.not_lt, Nat.not_le] at hknown
        obtain rfl := hs.eq_of_length_le hknown.1
        have hhere : y :: front = s := (hsuffix hknown.2).eq_of_length (by simp at hlength ⊢; omega)
        rw [hhere] at hbetter
        exact Nat.le_of_not_lt hbetter

/-- Of a document and itself, the best run stands at the same lines of both. -/
theorem bestRun_diagonal {best : Run} {past ys xs : List Text} (hsame : ys = past.reverse ++ xs) (hbest : best.left = best.right)
    (hbound : ∀ s, s <:+ past → runHead frequent s s ≤ best.size) :
    (bestRun frequent ys past.length (rowFrom frequent past [] ys) best xs).left =
      (bestRun frequent ys past.length (rowFrom frequent past [] ys) best xs).right := by
  induction xs generalizing best past with
  | nil => exact hbest
  | cons x xs ih =>
    rw [bestRun, runLengths_rowFrom]
    have hnext : ys = (x :: past).reverse ++ xs := by simpa using hsame
    have hearlier : ∀ s, s <:+ x :: past → s.length < (x :: past).length ∨ s.length ≤ ([] : List Text).length →
        runHead frequent s s ≤ best.size := by
      intro s hs hlength
      rcases List.suffix_cons_iff.mp hs with rfl | hs
      · simp at hlength
      · exact hbound s hs
    obtain ⟨hdiagonal, hall⟩ := betterRun_diagonal frequent [] rfl hnext hbest hearlier
    refine ih hnext hdiagonal ?_
    intro s hs
    refine hall s hs (.inr ?_)
    rw [hnext, List.length_nil, Nat.zero_add]
    exact Nat.le_trans hs.length_le (by simp)

theorem anchor_self (xs : List Text) : anchor frequent xs xs = ⟨0, 0, xs.length⟩ := by
  have hempty : Run.Common ⟨0, 0, 0⟩ (([] : List Text).reverse ++ xs) xs := ⟨by simp, by simp, by simp⟩
  have hcommon := bestRun_common frequent hempty
  have hdiagonal := @bestRun_diagonal frequent ⟨0, 0, 0⟩ [] xs xs rfl rfl (by simp [runHead])
  rw [rowFrom_nil] at hcommon hdiagonal
  rw [anchor]
  dsimp only [List.length_nil] at hcommon hdiagonal ⊢
  generalize bestRun frequent xs 0 (List.replicate xs.length 0) ⟨0, 0, 0⟩ xs = r at *
  obtain ⟨left, right, size⟩ := r
  obtain rfl : left = right := hdiagonal
  have hle : left + size ≤ xs.length := hcommon.left_le
  simp only [Run.extend, sharedHead_self, List.length_reverse, List.length_drop, List.length_take_of_le (Nat.le_of_add_right_le hle)]
  simp only [Nat.sub_self, Nat.add_sub_cancel' hle]

/-- A list is aligned with itself in one segment, an empty one in none. -/
theorem align_self (xs : List Text) : align xs xs = if xs = [] then [] else [.same xs] := by
  have hnone : ∀ ys rest, alignWith (frequentLines ys) [] [] rest = rest := by
    intro ys rest
    rw [alignWith, anchor_self]
    rfl
  cases xs with
  | nil => exact hnone [] []
  | cons x xs =>
    rw [align, alignWith, anchor_self]
    simp [hnone, Segment.join]

end CommentQuota.Patch
