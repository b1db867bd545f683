/-
  CommentQuota.Json.Reader — reading JSON documents.

  The reader goes through the text once and fails at the first place where the text cannot be
  continued to a document; the failure names the place by row, column and offset. The numbers
  `NaN` and `Infinity` are accepted. A repeated key keeps the place of its first value and takes
  the last value.

  - `Json.read`: the value of a document, or why there is none.
  - `Json.Failure.message`: a failure in words.
-/

import CommentQuota.Fault
import CommentQuota.Number.Reader

namespace CommentQuota

namespace Json

/-- What is wrong at the place where reading stopped. -/
inductive Problem where
  | byteOrderMark
  | noValue
  | noName
  | noColon
  | noComma
  | extraData
  | controlCharacter
  | openString
  | badCodePoint
  | badEscape
  deriving DecidableEq

def Problem.wording : Problem → String
  | byteOrderMark => "Unexpected UTF-8 BOM (decode using utf-8-sig)"
  | noValue => "Expecting value"
  | noName => "Expecting property name enclosed in double quotes"
  | noColon => "Expecting ':' delimiter"
  | noComma => "Expecting ',' delimiter"
  | extraData => "Extra data"
  | controlCharacter => "Invalid control character at"
  | openString => "Unterminated string starting at"
  | badCodePoint => "Invalid \\uXXXX escape"
  | badEscape => "Invalid \\escape"

/-- A failure to read: the text is malformed at an offset, or a whole number has too many digits. -/
inductive Failure where
  | malformed (problem : Problem) (offset : Nat)
  | tooManyDigits (count : Nat)
  deriving DecidableEq

/-- The text still to be read and its offset in the document. -/
structure Cursor where
  offset : Nat
  rest : Text

abbrev Result (α : Type) := Except Failure (α × Cursor)

def fail {α : Type} (problem : Problem) (offset : Nat) : Except Failure α :=
  .error (.malformed problem offset)

def isSpace (c : Char) : Bool := c == ' ' || c == '\t' || c == '\n' || c == '\r'

/-- Passes over blanks. -/
def skipSpaces (c : Cursor) : Cursor :=
  let spaces := c.rest.takeWhile isSpace
  ⟨c.offset + spaces.length, c.rest.drop spaces.length⟩

/-! ## Strings -/

def hexValue? (c : Char) : Option Nat :=
  if c.isDigit then some (c.toNat - '0'.toNat)
  else if 'a' ≤ c ∧ c ≤ 'f' then some (c.toNat - 'a'.toNat + 10)
  else if 'A' ≤ c ∧ c ≤ 'F' then some (c.toNat - 'A'.toNat + 10)
  else none

/-- The value of four hexadecimal digits. -/
def hexUnit? (a b c d : Char) : Option Nat := do
  return (((← hexValue? a) * 16 + (← hexValue? b)) * 16 + (← hexValue? c)) * 16 + (← hexValue? d)

/-- The character behind a backslash escape of one letter. -/
def letterEscape? (c : Char) : Option Char :=
  if c = '"' ∨ c = '\\' ∨ c = '/' then some c
  else if c = 'b' then some (Char.ofNat 0x08)
  else if c = 'f' then some (Char.ofNat 0x0C)
  else if c = 'n' then some '\n'
  else if c = 'r' then some '\r'
  else if c = 't' then some '\t'
  else none

/-- The code units of a string whose opening quote stands at `start`. An escape by code needs a
    character after its four digits. -/
def stringUnits (start offset : Nat) : Text → Result (List Nat)
  | [] => fail .openString start
  | '"' :: rest => .ok ([], ⟨offset + 1, rest⟩)
  | ['\\'] => fail .openString start
  | '\\' :: 'u' :: a :: b :: c :: d :: e :: rest =>
    match hexUnit? a b c d with
    | none => fail .badCodePoint (offset + 1)
    | some n => (stringUnits start (offset + 6) (e :: rest)).map fun (ns, k) => (n :: ns, k)
  | '\\' :: c :: rest =>
    if c = 'u' then fail .badCodePoint (offset + 1)
    else match letterEscape? c with
      | none => fail .badEscape offset
      | some e => (stringUnits start (offset + 2) rest).map fun (ns, k) => (e.toNat :: ns, k)
  | c :: rest =>
    if c.toNat < 0x20 then fail .controlCharacter offset
    else (stringUnits start (offset + 1) rest).map fun (ns, k) => (c.toNat :: ns, k)

/-- Joins pairs of surrogate units; a surrogate alone stands for no character. -/
def joinUnits : List Nat → Text
  | [] => []
  | [n] => [unit n]
  | n :: m :: rest =>
    if 0xD800 ≤ n ∧ n ≤ 0xDBFF ∧ 0xDC00 ≤ m ∧ m ≤ 0xDFFF then
      Char.ofNat (0x10000 + (n - 0xD800) * 0x400 + (m - 0xDC00)) :: joinUnits rest
    else unit n :: joinUnits (m :: rest)
where
  unit (n : Nat) : Char := if 0xD800 ≤ n ∧ n ≤ 0xDFFF then Char.ofNat 0xFFFD else Char.ofNat n

/-- Reads a string whose opening quote has been read. -/
def readString (c : Cursor) : Result String :=
  (stringUnits (c.offset - 1) c.offset c.rest).map fun (ns, k) => (String.ofList (joinUnits ns), k)

/-! ## Numbers -/

/-- The parts of a number: its sign, the digits before the point, and the text of its fraction and
    its exponent, each with at least one digit. -/
def splitNumber (t : Text) : Option (Bool × Text × Text × Text) :=
  let negative := t.head? == some '-'
  let body := if negative then t.tail else t
  let whole := match body with
    | '0' :: _ => ['0']
    | cs => cs.takeWhile Char.isDigit
  let rest := body.drop whole.length
  let fraction := match rest with
    | '.' :: cs => if (cs.takeWhile Char.isDigit).isEmpty then [] else '.' :: cs.takeWhile Char.isDigit
    | _ => []
  let rest := rest.drop fraction.length
  let exponent := match rest with
    | c :: cs =>
      if c = 'e' ∨ c = 'E' then
        let sign := cs.take (if cs.head? = some '+' ∨ cs.head? = some '-' then 1 else 0)
        let digits := (cs.drop sign.length).takeWhile Char.isDigit
        if digits.isEmpty then [] else c :: sign ++ digits
      else []
    | [] => []
  if whole.isEmpty then none else some (negative, whole, fraction, exponent)

/-- Reads a number: a whole number unless it has a fraction or an exponent. -/
def readNumber (c : Cursor) : Result Value :=
  match splitNumber c.rest with
  | none => fail .noValue c.offset
  | some (negative, whole, fraction, exponent) =>
    let used := (if negative then 1 else 0) + whole.length + fraction.length + exponent.length
    let next : Cursor := ⟨c.offset + used, c.rest.drop used⟩
    if fraction.isEmpty ∧ exponent.isEmpty then
      if Numeral.maxDigits < whole.length then .error (.tooManyDigits whole.length)
      else
        let n : Int := Numeral.ofDigits whole
        .ok (.int (if negative then -n else n), next)
    else match Numeral.readUnsigned negative (whole ++ fraction ++ exponent) with
      | some x => .ok (.float x, next)
      | none => fail .noValue c.offset

/-! ## Values -/

/-- The words that are values. -/
def constants : List (String × Value) :=
  [("null", .null), ("true", .bool true), ("false", .bool false), ("NaN", .float .nan),
   ("Infinity", .float (.infinite false)), ("-Infinity", .float (.infinite true))]

/-- Reads one of the words that are values. -/
def readConstant? (c : Cursor) : Option (Value × Cursor) :=
  (constants.find? fun (word, _) => word.toList.isPrefixOf c.rest).map fun (word, v) =>
    (v, ⟨c.offset + word.length, c.rest.drop word.length⟩)

/-- Gives a key a value: in the place of its earlier value, or at the end. -/
def put (fields : List (String × Value)) (key : String) (v : Value) : List (String × Value) :=
  if fields.any (·.1 == key) then fields.map fun f => if f.1 == key then (key, v) else f
  else fields ++ [(key, v)]

mutual

/-- Reads a value. -/
def readValue : Nat → Cursor → Result Value
  | 0, c => fail .noValue c.offset
  | fuel + 1, c =>
    match c.rest with
    | '"' :: rest => (readString ⟨c.offset + 1, rest⟩).map fun (s, k) => (.text s, k)
    | '\x7b' :: rest =>
      let k := skipSpaces ⟨c.offset + 1, rest⟩
      match k.rest with
      | '\x7d' :: rest => .ok (.record [], ⟨k.offset + 1, rest⟩)
      | _ => (readFields fuel [] k).map fun (fs, k) => (.record fs, k)
    | '[' :: rest =>
      let k := skipSpaces ⟨c.offset + 1, rest⟩
      match k.rest with
      | ']' :: rest => .ok (.list [], ⟨k.offset + 1, rest⟩)
      | _ => (readItems fuel k).map fun (vs, k) => (.list vs, k)
    | _ =>
      match readConstant? c with
      | some r => .ok r
      | none => readNumber c

/-- Reads the items of a list up to its end. -/
def readItems : Nat → Cursor → Result (List Value)
  | 0, c => fail .noValue c.offset
  | fuel + 1, c =>
    match readValue fuel c with
    | .error e => .error e
    | .ok (v, k) =>
      let k := skipSpaces k
      match k.rest with
      | ']' :: rest => .ok ([v], ⟨k.offset + 1, rest⟩)
      | ',' :: rest =>
        (readItems fuel (skipSpaces ⟨k.offset + 1, rest⟩)).map fun (vs, k) => (v :: vs, k)
      | _ => fail .noComma k.offset

/-- Reads the fields of a record up to its end, after the fields already read. -/
def readFields : Nat → List (String × Value) → Cursor → Result (List (String × Value))
  | 0, _, c => fail .noName c.offset
  | fuel + 1, fields, c =>
    match c.rest with
    | '"' :: rest =>
      match readString ⟨c.offset + 1, rest⟩ with
      | .error e => .error e
      | .ok (key, k) =>
        let k := skipSpaces k
        match k.rest with
        | ':' :: rest =>
          match readValue fuel (skipSpaces ⟨k.offset + 1, rest⟩) with
          | .error e => .error e
          | .ok (v, k) =>
            let k := skipSpaces k
            let fields := put fields key v
            match k.rest with
            | '\x7d' :: rest => .ok (fields, ⟨k.offset + 1, rest⟩)
            | ',' :: rest => readFields fuel fields (skipSpaces ⟨k.offset + 1, rest⟩)
            | _ => fail .noComma k.offset
        | _ => fail .noColon k.offset
    | _ => fail .noName c.offset

end

/-- Reads a document. Each value and each comma takes a character, which bounds the depth of the
    reader's calls. -/
def read (t : Text) : Except Failure Value :=
  if t.head? = some (Char.ofNat 0xFEFF) then fail .byteOrderMark 0
  else match readValue (2 * t.length + 2) (skipSpaces ⟨0, t⟩) with
    | .error e => .error e
    | .ok (v, k) =>
      let k := skipSpaces k
      if k.rest.isEmpty then .ok v else fail .extraData k.offset

/-- The row and the column, counted from one, of an offset. -/
def rowAndColumn (t : Text) (offset : Nat) : Nat × Nat :=
  let before := t.take offset
  ((before.filter (· == '\n')).length + 1, (before.reverse.takeWhile (· != '\n')).length + 1)

/-- What is said about malformed text. -/
def Problem.message (p : Problem) (t : Text) (offset : Nat) : String :=
  let (row, column) := rowAndColumn t offset
  p.wording ++ ": line " ++ toString row ++ " column " ++ toString column ++ " (char " ++
    toString offset ++ ")"

end Json

end CommentQuota
