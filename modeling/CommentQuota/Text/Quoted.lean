/-
  CommentQuota.Text.Quoted — quoted text as it stands in messages.

  A text is quoted with single quotes unless it holds a single quote and no double quote. The
  quote in use and the backslash are escaped, line feed, carriage return and tab have letters of
  their own, and any other hidden character is written by its code point.
-/

import CommentQuota.Text.Printable

namespace CommentQuota

namespace Quoted

/-- The lower-case hexadecimal digits of `n`, padded with zeros to `width`. -/
def hex (width n : Nat) : List Char :=
  let digits := Nat.toDigits 16 n
  List.replicate (width - digits.length) '0' ++ digits

/-- One character inside quotes. -/
def escape (quote c : Char) : List Char :=
  if c = quote ∨ c = '\\' then ['\\', c]
  else if c = '\n' then ['\\', 'n']
  else if c = '\r' then ['\\', 'r']
  else if c = '\t' then ['\\', 't']
  else if isPrintable c then [c]
  else if c.toNat < 0x100 then '\\' :: 'x' :: hex 2 c.toNat
  else if c.toNat < 0x10000 then '\\' :: 'u' :: hex 4 c.toNat
  else '\\' :: 'U' :: hex 8 c.toNat

/-- The quote that surrounds a text. -/
def mark (t : List Char) : Char :=
  if t.contains '\'' && !t.contains '"' then '"' else '\''

end Quoted

/-- The quoted form of a text. -/
def quoted (s : String) : String :=
  let t := s.toList
  let q := Quoted.mark t
  String.ofList (q :: t.flatMap (Quoted.escape q) ++ [q])

end CommentQuota
