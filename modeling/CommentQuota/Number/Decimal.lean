/-
  CommentQuota.Number.Decimal — decimals and the shortest decimal of a floating point number.

  - `Decimal`: a magnitude `digits * 10 ^ exponent`, as an exact quotient in `num` and `den`.
  - `Decimal.toBinary64`: the floating point number nearest to a decimal.
  - `shortest`: of the decimals that read back as a given rank, one with the fewest digits, and
    of those the nearest to the number. A decimal with few digits lies on a coarse power-of-ten
    grid, so grids are tried from coarse to fine, and on each grid the two neighbours of the
    number.
-/

import CommentQuota.Number.Binary64

namespace CommentQuota

/-- The magnitude `digits * 10 ^ exponent`. -/
structure Decimal where
  digits : Nat
  exponent : Int
  deriving DecidableEq

namespace Decimal

/-- Numerator of the exact value. -/
def num (d : Decimal) : Nat := d.digits * Nat.pow 10 d.exponent.toNat

/-- Denominator of the exact value. -/
def den (d : Decimal) : Nat := Nat.pow 10 (-d.exponent).toNat

/-- The number of decimal digits of `n`; zero has one. -/
def width (n : Nat) : Nat := (Nat.toDigits 10 n).length

/-- The floating point number nearest to a decimal. A decimal of `10 ^ 309` or more is past every
    finite number and one below `10 ^ (-324)` rounds to zero, whatever its digits. -/
def toBinary64 (negative : Bool) (d : Decimal) : Binary64 :=
  let magnitude := (width d.digits : Int) + d.exponent
  if d.digits = 0 ∨ magnitude ≤ -324 then .signedZero negative
  else if 310 ≤ magnitude then .infinite negative
  else Binary64.ofQuotient negative d.num d.den

/-! ## The shortest decimal -/

/-- The decimal reads back as the rank. -/
def readsAs (d : Decimal) (rank : Nat) : Bool := Binary64.nearestRank d.num d.den == rank

/-- The whole multiples of `10 ^ exponent` next to the quotient `n / d` of it, kept if they pass a
    test: the nearer of two, the even one if both are as near. -/
def neighbour (passes : Decimal → Bool) (exponent : Int) (n d : Nat) : Option Decimal :=
  let below : Decimal := ⟨n / d, exponent⟩
  let above : Decimal := ⟨n / d + 1, exponent⟩
  match passes below, passes above with
  | true, true => some (if roundDiv n d = n / d then below else above)
  | true, false => some below
  | false, true => some above
  | false, false => none

/-- The neighbour of a rank's magnitude on the grid of multiples of `10 ^ exponent` that reads back. -/
def onGrid (rank : Nat) (exponent : Int) : Option Decimal :=
  neighbour (·.readsAs rank) exponent (Binary64.unitsOfRank rank * Nat.pow 10 (-exponent).toNat)
    (Binary64.scale * Nat.pow 10 exponent.toNat)

/-- The decimal of the first grid that has one, going down from `10 ^ exponent`; behind the last grid
    tried, `digits`. -/
def firstGrid (grid : Int → Option Decimal) (digits : Nat) : Nat → Int → Decimal
  | 0, exponent => ⟨digits, exponent⟩
  | fuel + 1, exponent =>
    match grid exponent with
    | some d => d
    | none => firstGrid grid digits fuel (exponent - 1)

/-- The shortest decimal that reads back as a rank. The coarsest grid tried has a step above the
    magnitude; the finest, `10 ^ (-342)`, separates all ranks. -/
def shortest (rank : Nat) : Decimal :=
  if rank = 0 then ⟨0, 0⟩
  else
    let top := width (Binary64.unitsOfRank rank / Binary64.scale)
    firstGrid (onGrid rank) (Binary64.unitsOfRank rank) (top + 343) top

end Decimal

/-- The exact value of the shortest decimal of a finite number's magnitude, as a quotient. -/
def Binary64.decimal : Binary64 → Decimal
  | .finite _ r => Decimal.shortest r
  | _ => ⟨0, 0⟩

end CommentQuota
