/-
  CommentQuota.Text.Blank — texts as lists of characters, and the characters that count as blank.

  - `isBlank`: the white space that is trimmed from values and that leaves a row empty.
  - `trim`: a text without the blanks at its ends.
  - `hasContent`: a text with a character that is not blank, that is, one not empty once trimmed.
-/

namespace CommentQuota

/-- A document, a row or a piece of one, as its characters. -/
abbrev Text := List Char

/-- White space: the six ASCII blanks, the four separators before the space, and the blanks of the
    other scripts. Zero-width characters are none. -/
def isBlank (c : Char) : Bool :=
  let n := c.toNat
  (0x09 ≤ n && n ≤ 0x0D) || (0x1C ≤ n && n ≤ 0x20) || n == 0x85 || n == 0xA0 || n == 0x1680 ||
    (0x2000 ≤ n && n ≤ 0x200A) || n == 0x2028 || n == 0x2029 || n == 0x202F || n == 0x205F ||
    n == 0x3000

namespace Text

def trimStart (t : Text) : Text := t.dropWhile isBlank

def trim (t : Text) : Text := (trimStart (trimStart t).reverse).reverse

def hasContent (t : Text) : Bool := t.any (!isBlank ·)

/-- Lower case for the ASCII letters; other characters stay. -/
def lower (t : Text) : Text := t.map Char.toLower

end Text

end CommentQuota
