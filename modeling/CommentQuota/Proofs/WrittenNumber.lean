/-
  CommentQuota.Proofs.WrittenNumber — what the written form of a floating point number stands for.

  A number is written with the digits of its decimal, and a point or an exponent says where the whole
  part ends. Read exactly, without rounding, the text gives the value of that decimal again, in each
  of the three notations and whatever the layout.

  - `readDecimal_magnitude`: the value of a written magnitude.
  - `exactValue_write`: the value of a written number is its decimal, with its sign.
-/

import CommentQuota.Number.Notation
import CommentQuota.Number.Reader
import Mathlib.Algebra.Order.Field.Rat
import Mathlib.Tactic.Ring

namespace CommentQuota

/-- The exact value of a decimal. -/
def Decimal.value (d : Decimal) : ℚ := d.digits * 10 ^ d.exponent

theorem Decimal.value_eq_div (d : Decimal) : d.value = d.num / d.den := by
  have hpow : (10 : ℚ) ^ d.exponent = 10 ^ d.exponent.toNat / 10 ^ (-d.exponent).toNat := by
    rw [← zpow_natCast, ← zpow_natCast, ← zpow_sub₀ (by norm_num)]
    congr 1
    omega
  have hnum : (d.num : ℚ) = d.digits * 10 ^ d.exponent.toNat := by
    show ((d.digits * 10 ^ d.exponent.toNat : Nat) : ℚ) = _
    push_cast
    rfl
  have hden : (d.den : ℚ) = 10 ^ (-d.exponent).toNat := by
    show ((10 ^ (-d.exponent).toNat : Nat) : ℚ) = _
    push_cast
    rfl
  rw [value, hnum, hden, hpow]
  ring

namespace Numeral

/-- The exact value that a written number stands for: a sign, digits with a point among them, and an
    exponent. -/
def exactValue (t : Text) : Option ℚ :=
  (readDecimal (splitSign t).2).map fun d => if (splitSign t).1 then -d.value else d.value

/-! ## Digits -/

theorem ofDigits_append (as bs : Text) : ofDigits (as ++ bs) = ofDigits as * 10 ^ bs.length + ofDigits bs := by
  show Nat.ofDigitChars 10 (as ++ bs) 0 = Nat.ofDigitChars 10 as 0 * 10 ^ bs.length + Nat.ofDigitChars 10 bs 0
  rw [Nat.ofDigitChars_append, Nat.ofDigitChars_eq_ofDigitChars_zero, Nat.mul_comm]

theorem ofDigits_zeros (n : Nat) : ofDigits (List.replicate n '0') = 0 := by
  show Nat.ofDigitChars 10 (List.replicate n '0') 0 = 0
  rw [Nat.ofDigitChars_replicate_zero, Nat.mul_zero]

theorem toList_toString (n : Nat) : (toString n).toList = Nat.toDigits 10 n := by simp [Nat.repr]

theorem ofDigits_toDigits (n : Nat) : ofDigits (Nat.toDigits 10 n) = n := Nat.ofDigitChars_ten_toDigits

/-- All characters are decimal digits. -/
def AllDigits (t : Text) : Prop := ∀ c ∈ t, c.isDigit = true

theorem allDigits_toDigits (n : Nat) : AllDigits (Nat.toDigits 10 n) :=
  fun _ hc => Nat.isDigit_of_mem_toDigits (by decide) (by decide) hc

theorem allDigits_zeros (n : Nat) : AllDigits (List.replicate n '0') := by
  intro c hc
  rw [List.eq_of_mem_replicate hc]
  rfl

theorem AllDigits.append {as bs : Text} (ha : AllDigits as) (hb : AllDigits bs) : AllDigits (as ++ bs) := by
  intro c hc
  rcases List.mem_append.mp hc with h | h
  · exact ha c h
  · exact hb c h

/-- Digits up to a character that is none. -/
theorem AllDigits.span {as t : Text} (h : AllDigits as) (ht : ∀ c, t.head? = some c → c.isDigit = false) :
    (as ++ t).takeWhile Char.isDigit = as ∧ (as ++ t).dropWhile Char.isDigit = t := by
  rw [List.takeWhile_append_of_pos h, List.dropWhile_append_of_pos h]
  cases t with
  | nil => simp
  | cons c cs =>
    have hc := ht c rfl
    rw [List.takeWhile_cons_of_neg (by simp [hc]), List.dropWhile_cons_of_neg (by simp [hc]), List.append_nil]
    exact ⟨rfl, rfl⟩

/-! ## Notations -/

/-- Digits on both sides of a point, and an exponent if there is one. -/
theorem readDecimal_point {whole fraction t : Text} (hw : AllDigits whole) (hf : AllDigits fraction)
    (hne : whole ≠ []) (ht : ∀ c, t.head? = some c → c.isDigit = false) :
    readDecimal (whole ++ '.' :: (fraction ++ t)) =
      (readExponent t).map fun e => ⟨ofDigits (whole ++ fraction), e - fraction.length⟩ := by
  obtain ⟨htake, hdrop⟩ := hw.span (t := '.' :: (fraction ++ t)) (by simp)
  obtain ⟨htake', hdrop'⟩ := hf.span ht
  simp only [readDecimal, htake, hdrop, htake', hdrop', List.isEmpty_iff, hne, false_and, if_false]

/-- Digits without a point, and an exponent behind them. -/
theorem readDecimal_whole {whole rest : Text} {c : Char} (hw : AllDigits whole) (hne : whole ≠ [])
    (hc : c.isDigit = false) (hpoint : c ≠ '.') :
    readDecimal (whole ++ c :: rest) = (readExponent (c :: rest)).map fun e => ⟨ofDigits whole, e⟩ := by
  obtain ⟨htake, hdrop⟩ := hw.span (t := c :: rest) (by simpa using hc)
  simp [readDecimal, htake, hdrop, hne, hpoint]

/-- An exponent with its sign. -/
theorem readExponent_signed (e : Int) {ds : Text} (hd : AllDigits ds) (hne : ds ≠ []) (h : ofDigits ds = e.natAbs) :
    readExponent ('e' :: (if e < 0 then '-' else '+') :: ds) = some e := by
  have hall : ds.all Char.isDigit = true := List.all_eq_true.mpr hd
  by_cases he : e < 0
  · simp only [if_pos he, readExponent, true_or, if_true, splitSign, List.isEmpty_iff, hne, hall, not_true, or_self,
      if_false, h]
    congr 1
    omega
  · simp only [if_neg he, readExponent, true_or, if_true, splitSign, List.isEmpty_iff, hne, hall, not_true, or_self,
      if_false, h, Bool.false_eq_true]
    congr 1
    omega

/-- A text that starts with a sign is no decimal. -/
theorem splitSign_of_readDecimal {t : Text} {d : Decimal} (h : readDecimal t = some d) : splitSign t = (false, t) := by
  unfold splitSign
  split
  · simp [readDecimal] at h
  · simp [readDecimal] at h
  · rfl

end Numeral

open Numeral

/-! ## Layouts -/

theorem toList_zeros (n : Nat) : (Layout.zeros n).toList = List.replicate n '0' := String.toList_ofList

/-- The value of digits that are followed by zeros. -/
theorem value_padded (n k : Nat) (e : Int) : (⟨n * 10 ^ k, e - k⟩ : Decimal).value = (⟨n, e⟩ : Decimal).value := by
  have hpow : (10 : ℚ) ^ e = 10 ^ (e - k) * 10 ^ k := by
    rw [← zpow_natCast, ← zpow_add₀ (by norm_num)]
    congr 1
    omega
  simp only [Decimal.value, hpow]
  push_cast
  ring

section magnitude

variable {digits : Text} (point : Int)

/-- Zeros between the point and the digits. -/
theorem readDecimal_leading (hdigits : AllDigits digits) (h : point ≤ 0) :
    readDecimal ("0." ++ Layout.zeros (-point).toNat ++ String.ofList digits).toList =
      some ⟨ofDigits digits, point - digits.length⟩ := by
  have htext : ("0." ++ Layout.zeros (-point).toNat ++ String.ofList digits).toList =
      ['0'] ++ '.' :: ((List.replicate (-point).toNat '0' ++ digits) ++ []) := by
    simp [toList_zeros]
  have hzero : AllDigits ['0'] := allDigits_zeros 1
  rw [htext, readDecimal_point hzero ((allDigits_zeros _).append hdigits) (by simp) (by simp), ← List.append_assoc,
    ofDigits_append, ofDigits_append, ofDigits_zeros]
  simp [readExponent, ofDigits]
  omega

/-- Zeros between the digits and the point. -/
theorem readDecimal_trailing (hdigits : AllDigits digits) (hne : digits ≠ []) (k : Nat) :
    ∃ x, readDecimal (String.ofList digits ++ Layout.zeros k ++ ".0").toList = some x ∧
      x.value = (⟨ofDigits digits, k⟩ : Decimal).value := by
  have htext : (String.ofList digits ++ Layout.zeros k ++ ".0").toList =
      (digits ++ List.replicate k '0') ++ '.' :: (['0'] ++ []) := by
    simp [toList_zeros]
  have hzero : AllDigits ['0'] := allDigits_zeros 1
  have hzeros : List.replicate k '0' ++ ['0'] = List.replicate (k + 1) '0' := List.replicate_succ'.symm
  refine ⟨⟨ofDigits digits * 10 ^ (k + 1), k - (k + 1 : Nat)⟩, ?_, value_padded _ _ _⟩
  rw [htext, readDecimal_point (hdigits.append (allDigits_zeros k)) hzero (by simp [hne]) (by simp), List.append_assoc,
    hzeros, ofDigits_append, ofDigits_zeros]
  simp [readExponent]

/-- The point among the digits. -/
theorem readDecimal_inner (hdigits : AllDigits digits) {p : Nat} (hpos : 0 < p) (hlt : p < digits.length) :
    readDecimal (String.ofList (digits.take p) ++ "." ++ String.ofList (digits.drop p)).toList =
      some ⟨ofDigits digits, p - digits.length⟩ := by
  have htext : (String.ofList (digits.take p) ++ "." ++ String.ofList (digits.drop p)).toList =
      digits.take p ++ '.' :: (digits.drop p ++ []) := by
    simp
  have htake : AllDigits (digits.take p) := fun c hc => hdigits c (List.mem_of_mem_take hc)
  have hdrop : AllDigits (digits.drop p) := fun c hc => hdigits c (List.mem_of_mem_drop hc)
  have hne : digits.take p ≠ [] := by
    rw [ne_eq, List.take_eq_nil_iff]
    rintro (rfl | rfl)
    · omega
    · simp at hlt
  rw [htext, readDecimal_point htake hdrop hne (by simp), List.take_append_drop]
  simp [readExponent]
  omega

/-- A point behind the first digit, if there are more, and an exponent. -/
theorem readDecimal_scientific {d : Char} {rest : Text} (hdigits : AllDigits (d :: rest)) {mantissa : String}
    (hm : mantissa.toList = if rest = [] then [d] else d :: '.' :: rest) (e : Int) (k : Nat) :
    readDecimal (mantissa ++ "e" ++ (if e < 0 then "-" else "+") ++ Layout.zeros k ++
        String.ofList (Nat.toDigits 10 e.natAbs)).toList = some ⟨ofDigits (d :: rest), e - rest.length⟩ := by
  have hexponent := readExponent_signed e ((allDigits_zeros k).append (allDigits_toDigits e.natAbs)) (by simp) (by
    rw [ofDigits_append, ofDigits_zeros, ofDigits_toDigits, Nat.zero_mul, Nat.zero_add])
  have hsign : (if e < 0 then "-" else "+").toList = [if e < 0 then '-' else '+'] := by split <;> rfl
  have hd : AllDigits [d] := fun c hc => hdigits c (by simp [List.mem_singleton.mp hc])
  have hrest : AllDigits rest := fun c hc => hdigits c (List.mem_cons_of_mem d hc)
  have htext : (mantissa ++ "e" ++ (if e < 0 then "-" else "+") ++ Layout.zeros k ++
      String.ofList (Nat.toDigits 10 e.natAbs)).toList = mantissa.toList ++
        'e' :: (if e < 0 then '-' else '+') :: (List.replicate k '0' ++ Nat.toDigits 10 e.natAbs) := by
    simp [hsign, toList_zeros]
  rw [htext, hm]
  by_cases hnil : rest = []
  · rw [if_pos hnil, readDecimal_whole hd (by simp) (by decide) (by decide), hexponent]
    simp [hnil]
  · have hread := readDecimal_point hd hrest (by simp) (t := 'e' :: (if e < 0 then '-' else '+') ::
      (List.replicate k '0' ++ Nat.toDigits 10 e.natAbs)) (by simp)
    rw [hexponent] at hread
    rw [if_neg hnil]
    exact hread

/-- Read exactly, a written magnitude is `0.digits * 10 ^ point` again. -/
theorem readDecimal_magnitude (l : Layout) (hdigits : AllDigits digits) (hne : digits ≠ []) :
    ∃ x, readDecimal (l.magnitude digits point).toList = some x ∧
      x.value = (⟨ofDigits digits, point - digits.length⟩ : Decimal).value := by
  obtain ⟨d, rest, rfl⟩ := List.exists_cons_of_ne_nil hne
  unfold Layout.magnitude
  simp only
  split
  · rename_i h
    exact ⟨_, readDecimal_leading point hdigits h.1, rfl⟩
  split
  · rename_i h
    split
    · rename_i hlength
      obtain ⟨x, hx, hvalue⟩ := readDecimal_trailing hdigits hne (point.toNat - (d :: rest).length)
      refine ⟨x, hx, ?_⟩
      have e : point - (d :: rest).length = ((point.toNat - (d :: rest).length : Nat) : Int) := by omega
      rw [hvalue, e]
    · rename_i hlength
      have hinner := readDecimal_inner hdigits (p := point.toNat) (by omega) (by omega)
      have e : ((point.toNat : Nat) : Int) = point := by omega
      rw [e] at hinner
      exact ⟨_, hinner, rfl⟩
  · have e : point - 1 - (rest.length : Int) = point - (d :: rest).length := by simp only [List.length_cons]; omega
    cases rest with
    | nil =>
      have hmantissa : (String.ofList [d]).toList = if ([] : Text) = [] then [d] else d :: '.' :: [] := by simp
      have hread := readDecimal_scientific hdigits hmantissa (point - 1)
      rw [e] at hread
      exact ⟨_, hread _, rfl⟩
    | cons c cs =>
      have hmantissa : (String.ofList [d] ++ "." ++ String.ofList (c :: cs)).toList =
          if c :: cs = [] then [d] else d :: '.' :: c :: cs := by simp
      have hread := readDecimal_scientific hdigits hmantissa (point - 1)
      rw [e] at hread
      exact ⟨_, hread _, rfl⟩

end magnitude

theorem exactValue_signed (negative : Bool) {s : String} {d : Decimal} (h : readDecimal s.toList = some d) :
    exactValue ((if negative then "-" else "") ++ s).toList = some ((if negative then -1 else 1) * d.value) := by
  cases negative with
  | true =>
    have htext : ("-" ++ s).toList = '-' :: s.toList := by simp
    simp [exactValue, htext, splitSign, h]
  | false => simp [exactValue, splitSign_of_readDecimal h, h]

/-- Read exactly, a written number is its decimal with its sign. -/
theorem exactValue_write (l : Layout) (negative : Bool) (r : Fin (2047 * Nat.pow 2 52)) :
    exactValue (l.write (.finite negative r)).toList =
      some ((if negative then -1 else 1) * (Decimal.shortest r).value) := by
  unfold Layout.write
  simp only
  by_cases hr : r.val = 0
  · have hzero : readDecimal "0.0".toList = some ⟨0, -1⟩ := by decide
    rw [if_pos hr, exactValue_signed negative hzero, Decimal.shortest, if_pos hr]
    simp [Decimal.value]
  · rw [if_neg hr]
    generalize Decimal.shortest r = d
    obtain ⟨x, hx, hvalue⟩ := readDecimal_magnitude ((Nat.toDigits 10 d.digits).length + d.exponent) l
      (allDigits_toDigits d.digits) Nat.toDigits_ne_nil
    have hexponent : ((Nat.toDigits 10 d.digits).length : Int) + d.exponent - (Nat.toDigits 10 d.digits).length =
        d.exponent := by omega
    rw [exactValue_signed negative hx, hvalue, hexponent, ofDigits_toDigits]

end CommentQuota
