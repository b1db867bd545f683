/-
  CommentQuota.Number.Binary64 — binary floating point numbers with 53 significant bits.

  A finite number is a sign and a rank: rank 0 is zero, and each next rank is the next larger
  magnitude, so the order of ranks is the order of magnitudes and every rank is a number. All
  finite magnitudes are whole multiples of 2 ^ (-1074); `unitsOfRank` is that multiple.

  - `unitsOfRank` / `nearestRank`: from a rank to its exact value and from an exact quotient to
    the rank nearest to it, a half going to the even rank.
  - `ofQuotient`: the number nearest to a quotient; past the largest rank it is infinite.
  - `ofInt?` / `divide?`: whole numbers and quotients of whole numbers that stay finite.
-/

namespace CommentQuota

/-- The quotient `n / d` rounded to a whole number, a half going to the even neighbour. -/
def roundDiv (n d : Nat) : Nat :=
  let q := n / d
  let r := n % d
  if d < 2 * r ∨ (2 * r = d ∧ q % 2 = 1) then q + 1 else q

/-- A floating point number. -/
inductive Binary64 where
  | finite (negative : Bool) (rank : Fin (2047 * Nat.pow 2 52))
  | infinite (negative : Bool)
  | nan
  deriving DecidableEq

namespace Binary64

/-- Units per one: the smallest positive magnitude is `1 / scale`. -/
def scale : Nat := Nat.pow 2 1074

/-- The magnitude of a rank, in units of `1 / scale`. Below `2 ^ 52` ranks are the units
    themselves; above, each block of `2 ^ 52` ranks steps twice as wide as the block before. -/
def unitsOfRank (r : Nat) : Nat :=
  let block := Nat.pow 2 52
  if r < block then r else (block + r % block) * Nat.pow 2 (r / block - 1)

/-- The rank whose magnitude is nearest to `num / den`, a half going to the even rank. The
    quotient in units is cut to 53 significant bits: `s` is the number of bits dropped. -/
def nearestRank (num den : Nat) : Nat :=
  let n := num * scale
  let s := (n / den).log2 - 52
  s * Nat.pow 2 52 + roundDiv n (den * Nat.pow 2 s)

/-- The number nearest to `num / den`; infinite when that is past the largest rank. -/
def ofQuotient (negative : Bool) (num den : Nat) : Binary64 :=
  let r := nearestRank num den
  if h : r < 2047 * Nat.pow 2 52 then finite negative ⟨r, h⟩ else infinite negative

/-- Zero with a sign. -/
def signedZero (negative : Bool) : Binary64 := finite negative ⟨0, by decide⟩

def zero : Binary64 := signedZero false

def one : Binary64 := ofQuotient false 1 1

/-- The number, if it is finite. -/
def finite? : Binary64 → Option Binary64
  | finite s r => some (finite s r)
  | _ => none

/-- The finite number nearest to a whole number, if there is one. -/
def ofInt? (n : Int) : Option Binary64 := (ofQuotient (decide (n < 0)) n.natAbs 1).finite?

/-- The finite number nearest to `a / b` for a positive `b`, if there is one. -/
def divide? (a : Int) (b : Nat) : Option Binary64 := (ofQuotient (decide (a < 0)) a.natAbs b).finite?

/-- The product with a whole number, rounded once. -/
def times (x : Binary64) (k : Nat) : Binary64 :=
  match x with
  | finite s r => ofQuotient s (unitsOfRank r * k) scale
  | infinite s => infinite s
  | nan => nan

def isNaN : Binary64 → Bool
  | nan => true
  | _ => false

/-- The number lies below zero; minus zero does not. -/
def isNegative : Binary64 → Bool
  | finite s r => s && decide (0 < r.val)
  | infinite s => s
  | nan => false

/-- The number is at least one. -/
def atLeastOne : Binary64 → Bool
  | finite s r => !s && decide (scale ≤ unitsOfRank r)
  | infinite s => !s
  | nan => false

/-- The number lies in the range from zero, included, to one, excluded. -/
def inUnitRange (x : Binary64) : Bool := !x.isNaN && !x.isNegative && !x.atLeastOne

end Binary64

end CommentQuota
