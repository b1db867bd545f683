/-
  CommentQuota.Number.Reader — reading whole and floating point numbers from text.

  Both readers take blanks around the number, decimal digits of any script, and an underscore
  between two digits.

  - `readFloat`: a decimal with an optional point and exponent, or `inf`, `infinity`, `nan` in any
    case, each with an optional sign.
  - `readInt`: decimal digits with an optional sign, at most `maxDigits` of them.
-/

import CommentQuota.Number.Decimal
import CommentQuota.Text.Blank
import CommentQuota.Text.DecimalDigit

namespace CommentQuota

namespace Numeral

/-- A whole number with more digits than this is not read. -/
def maxDigits : Nat := 4300

/-- A blank or a digit of any script as its ASCII form; other characters beyond ASCII can stand in
    no number. -/
def toAscii (c : Char) : Char :=
  if c.toNat < 0x80 then c
  else if isBlank c then ' '
  else match digitValue? c with
    | some v => Char.ofNat ('0'.toNat + v)
    | none => '?'

/-- The blanks that may surround a number, once in ASCII form. -/
def isSpace (c : Char) : Bool := c == ' ' || (decide ('\t' ≤ c) && decide (c ≤ '\r'))

def trimSpaces (t : Text) : Text := (((t.dropWhile isSpace).reverse).dropWhile isSpace).reverse

/-- Takes out the underscores, each of which must stand between two digits; `before` is the
    character in front. -/
def joinDigits (before : Char) : Text → Option Text
  | [] => if before = '_' then none else some []
  | c :: cs =>
    if c = '_' then if before.isDigit then joinDigits c cs else none
    else if before = '_' ∧ ¬ c.isDigit then none
    else (joinDigits c cs).map (c :: ·)

/-- The bare text of a number: ASCII, without surrounding blanks and underscores. -/
def bare (t : Text) : Option Text := joinDigits ' ' (trimSpaces (t.map toAscii))

/-- Takes an optional sign off the front. -/
def splitSign : Text → Bool × Text
  | '-' :: cs => (true, cs)
  | '+' :: cs => (false, cs)
  | cs => (false, cs)

/-- The number written by ASCII digits. -/
def ofDigits (ds : Text) : Nat := ds.foldl (fun n d => 10 * n + (d.toNat - '0'.toNat)) 0

/-- Reads what may follow the digits of a decimal: nothing, or an exponent. -/
def readExponent : Text → Option Int
  | [] => some 0
  | c :: cs =>
    if c = 'e' ∨ c = 'E' then
      let (negative, ds) := splitSign cs
      if ds.isEmpty ∨ ¬ ds.all Char.isDigit then none
      else some (if negative then -(ofDigits ds : Int) else ofDigits ds)
    else none

/-- Reads digits with an optional point among them and an optional exponent. -/
def readDecimal (t : Text) : Option Decimal :=
  let whole := t.takeWhile Char.isDigit
  let rest := t.dropWhile Char.isDigit
  let (fraction, rest) := match rest with
    | '.' :: cs => (cs.takeWhile Char.isDigit, cs.dropWhile Char.isDigit)
    | cs => ([], cs)
  if whole.isEmpty ∧ fraction.isEmpty then none
  else (readExponent rest).map fun e => ⟨ofDigits (whole ++ fraction), e - fraction.length⟩

/-- Reads an unsigned floating point number. -/
def readUnsigned (negative : Bool) (t : Text) : Option Binary64 :=
  let word := String.ofList (Text.lower t)
  if word = "inf" ∨ word = "infinity" then some (.infinite negative)
  else if word = "nan" then some .nan
  else (readDecimal t).map (Decimal.toBinary64 negative)

end Numeral

/-- Reads a floating point number. -/
def readFloat (t : Text) : Option Binary64 := do
  let (negative, body) := Numeral.splitSign (← Numeral.bare t)
  Numeral.readUnsigned negative body

/-- Reads a whole number. -/
def readInt (t : Text) : Option Int := do
  let (negative, ds) := Numeral.splitSign (← Numeral.bare t)
  if ds.isEmpty ∨ ¬ ds.all Char.isDigit ∨ Numeral.maxDigits < ds.length then none
  else some (if negative then -(Numeral.ofDigits ds : Int) else Numeral.ofDigits ds)

end CommentQuota
