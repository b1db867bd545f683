/-
  CommentQuota.Quota — the least share of comment rows and how many rows are missing to it.

  Adding a comment row raises both the number of comment rows and the total, so with the minimum as
  an exact quotient p / q the least sufficient number of rows is
  (p * total - q * comments) / (q - p), rounded up and not below zero. The quotient is the decimal
  that the minimum is written as, not its binary value.

  - `Minimum.check`: the minimum is a number from zero, included, to one, excluded.
  - `needed`: the least number of comment rows to add.
  - `commentRatio`: the share of comment rows as a floating point number.
-/

import CommentQuota.Fault

namespace CommentQuota

namespace Minimum

def rejected (v : Value) : Fault :=
  .invalidSetting "min_comment_ratio" v "must lie in the range [0, 1)"

/-- Refuses a minimum that is no number in the range. A whole number past the largest floating
    point number is refused for that first. -/
def check (v : Value) : Except Fault Unit :=
  match v with
  | .bool b => if b then .error (rejected v) else .ok ()
  | .int n =>
    if (Binary64.ofInt? n).isNone then .error .outOfRange
    else if n = 0 then .ok ()
    else .error (rejected v)
  | .float x => if x.inUnitRange then .ok () else .error (rejected v)
  | _ => .error (rejected v)

/-- The quotient that a minimum is written as. A truth value is not written as a number. -/
def fraction (v : Value) : Except Fault (Nat × Nat) :=
  match v with
  | .int n => .ok (n.toNat, 1)
  | .float x => .ok (x.decimal.num, x.decimal.den)
  | _ => .error (.notDecimal v.display)

end Minimum

/-- The quotient `n / d` rounded up. -/
def ceilDiv (n d : Nat) : Nat := (n + d - 1) / d

/-- The least number of rows that brings `comments` of `total` rows to the share `p / q`. -/
def leastAddition (comments total p q : Nat) : Nat := ceilDiv (p * total - q * comments) (q - p)

/-- The least number of comment rows to add to reach a minimum. -/
def needed (comments total : Int) (minimum : Value) : Except Fault Nat := do
  Minimum.check minimum
  if comments < 0 ∨ total < comments then throw (.inconsistentCounts comments total)
  let (p, q) ← Minimum.fraction minimum
  return leastAddition comments.toNat total.toNat p q

/-- Comment rows over all rows, zero when there are none. -/
def commentRatio (comments total : Int) : Except Fault Binary64 :=
  if 0 < total then
    match Binary64.divide? comments total.toNat with
    | some x => .ok x
    | none => .error .outOfRange
  else .ok .zero

end CommentQuota
