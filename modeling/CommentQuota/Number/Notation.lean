/-
  CommentQuota.Number.Notation — the written forms of floating point numbers.

  - `Layout`: where positional notation ends, how exponents are written and how values that are
    not finite are spelled.
  - `Layout.plain`: the form used in messages and reports, and `Layout.exchange`, the same with
    the spellings of the data exchange format.
  - `Binary64.fixed1`: one place after the point, rounded from the exact value.
-/

import CommentQuota.Number.Decimal

namespace CommentQuota

/-- How a floating point number is written. -/
structure Layout where
  /-- The digits are positional while the point stands at most this many places before them. -/
  leadingZeros : Nat
  /-- The digits are positional while the whole part has at most this many places. -/
  wholePlaces : Nat
  /-- The least number of digits of an exponent. -/
  exponentWidth : Nat
  infinity : String
  notANumber : String

/-- Positional from `0.0001` up to sixteen whole places, exponents of two digits at least. -/
def Layout.plain : Layout := ⟨3, 16, 2, "inf", "nan"⟩

/-- Like `plain`, with the spellings `Infinity` and `NaN`. -/
def Layout.exchange : Layout := { Layout.plain with infinity := "Infinity", notANumber := "NaN" }

namespace Layout

def zeros (n : Nat) : String := String.ofList (List.replicate n '0')

/-- Writes a magnitude from its digits and the place of its point: the value is
    `0.digits * 10 ^ point`. -/
def magnitude (l : Layout) (digits : List Char) (point : Int) : String :=
  let n := digits.length
  if point ≤ 0 ∧ (-point) ≤ l.leadingZeros then
    "0." ++ zeros (-point).toNat ++ String.ofList digits
  else if 0 < point ∧ point ≤ l.wholePlaces then
    let p := point.toNat
    if n ≤ p then String.ofList digits ++ zeros (p - n) ++ ".0"
    else String.ofList (digits.take p) ++ "." ++ String.ofList (digits.drop p)
  else
    let e := point - 1
    let mantissa := match digits with
      | d :: [] => String.ofList [d]
      | d :: rest => String.ofList [d] ++ "." ++ String.ofList rest
      | [] => ""
    let exponent := Nat.toDigits 10 e.natAbs
    mantissa ++ "e" ++ (if e < 0 then "-" else "+") ++ zeros (l.exponentWidth - exponent.length) ++
      String.ofList exponent

/-- Writes a number: its sign, also that of zero, and the shortest digits that read back. -/
def write (l : Layout) : Binary64 → String
  | .nan => l.notANumber
  | .infinite s => (if s then "-" else "") ++ l.infinity
  | .finite s r =>
    let sign := if s then "-" else ""
    if r.val = 0 then sign ++ "0.0"
    else
      let d := Decimal.shortest r
      let digits := Nat.toDigits 10 d.digits
      sign ++ l.magnitude digits (digits.length + d.exponent)

end Layout

/-- The plain written form. -/
def Binary64.text (x : Binary64) : String := Layout.plain.write x

/-- The form with one place after the point: the exact value rounded, a half going to the even
    neighbour. -/
def Binary64.fixed1 : Binary64 → String
  | .nan => "nan"
  | .infinite s => (if s then "-" else "") ++ "inf"
  | .finite s r =>
    let tenths := roundDiv (Binary64.unitsOfRank r * 10) Binary64.scale
    (if s then "-" else "") ++ toString (tenths / 10) ++ "." ++ toString (tenths % 10)

end CommentQuota
