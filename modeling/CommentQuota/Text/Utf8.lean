/-
  CommentQuota.Text.Utf8 — texts as bytes.

  Bytes are cut into pieces, each a character or a malformed run. A malformed run is as long as it
  could still have begun a character, and at least one byte.

  - `encode`: the bytes of a text.
  - `decode`: the text of bytes, or the first malformed run.
  - `decodeLossy`: the text with a replacement character for each malformed run.
-/

import CommentQuota.Text.Blank

namespace CommentQuota

namespace Utf8

/-- Why bytes are no character. -/
inductive Cause where
  | badStart
  | badContinuation
  | unfinished
  deriving DecidableEq

/-- A malformed run: its offset, its first byte, how many bytes it has, and why it is malformed. -/
structure Malformed where
  offset : Nat
  byte : UInt8
  length : Nat
  cause : Cause
  deriving DecidableEq

inductive Piece where
  | char (c : Char)
  | bad (m : Malformed)

def encode (t : Text) : List UInt8 := t.flatMap String.utf8EncodeChar

/-- What a first byte promises: its share of the code point, the number of bytes that follow, and
    the range of the byte after it. -/
def lead (b : Nat) : Option (Nat × Nat × Nat × Nat) :=
  if b < 0x80 then some (b, 0, 0, 0)
  else if b < 0xC2 then none
  else if b < 0xE0 then some (b - 0xC0, 1, 0x80, 0xBF)
  else if b = 0xE0 then some (b - 0xE0, 2, 0xA0, 0xBF)
  else if b = 0xED then some (b - 0xE0, 2, 0x80, 0x9F)
  else if b < 0xF0 then some (b - 0xE0, 2, 0x80, 0xBF)
  else if b = 0xF0 then some (b - 0xF0, 3, 0x90, 0xBF)
  else if b < 0xF4 then some (b - 0xF0, 3, 0x80, 0xBF)
  else if b = 0xF4 then some (b - 0xF0, 3, 0x80, 0x8F)
  else none

/-- Reads the following bytes of a character: the code point, or why there is none, and how many
    bytes were used. -/
def follow (code low high : Nat) : Nat → List UInt8 → Except Cause Nat × Nat
  | 0, _ => (.ok code, 0)
  | _ + 1, [] => (.error .unfinished, 0)
  | n + 1, b :: rest =>
    if low ≤ b.toNat ∧ b.toNat ≤ high then
      let r := follow (code * 64 + (b.toNat - 0x80)) 0x80 0xBF n rest
      (r.1, r.2 + 1)
    else (.error .badContinuation, 0)

/-- The piece that starts with byte `b`, and how many of the bytes after `b` belong to it. -/
def piece (offset : Nat) (b : UInt8) (rest : List UInt8) : Piece × Nat :=
  match lead b.toNat with
  | none => (.bad ⟨offset, b, 1, .badStart⟩, 0)
  | some (code, count, low, high) =>
    match follow code low high count rest with
    | (.ok n, used) => (.char (Char.ofNat n), used)
    | (.error cause, used) => (.bad ⟨offset, b, used + 1, cause⟩, used)

/-- The pieces of bytes, the first of which stands at `offset`. -/
def pieces (offset : Nat) : List UInt8 → List Piece
  | [] => []
  | b :: rest =>
    let p := piece offset b rest
    p.1 :: pieces (offset + 1 + p.2) (rest.drop p.2)
termination_by bytes => bytes.length
decreasing_by simp only [List.length_drop, List.length_cons]; omega

/-- The characters of pieces, or the first malformed run. -/
def collect : List Piece → Except Malformed Text
  | [] => .ok []
  | .bad m :: _ => .error m
  | .char c :: rest => (collect rest).map (c :: ·)

def decode (bytes : List UInt8) : Except Malformed Text := collect (pieces 0 bytes)

def decodeLossy (bytes : List UInt8) : Text :=
  (pieces 0 bytes).map fun
    | .char c => c
    | .bad _ => Char.ofNat 0xFFFD

end Utf8

end CommentQuota
