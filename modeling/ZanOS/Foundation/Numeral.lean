import Mathlib.Data.Nat.Digits.Lemmas
import Mathlib.Tactic.Common

/-!
# Numerals as byte strings

A numeral is a list of ASCII digits, most significant first, and denotes the number that
`Nat.ofDigits` makes of its digit values. `IsDecimal` says which lists are the decimal numeral of a
number: at least one digit, nothing but digits, no leading zero that could be left out. `IsNumeral`
adds the sign of an integer, and `IsHex` is the fixed-width form in base 16, with upper-case
letters.

`decimal` produces the decimal numeral. A program that peels digits off a number finds them in the
opposite order, as `Nat.digits` lists them.
-/

namespace Foundation

/-! ## The value of a numeral -/

/-- The value of a digit, `0` to `9` or `A` to `F`. -/
def digitValue (c : UInt8) : ℕ := if c ≤ 57 then c.toNat - 48 else c.toNat - 55

/-- The number a numeral denotes in base `b`. -/
def numeralValue (b : ℕ) (l : List UInt8) : ℕ := Nat.ofDigits b (l.reverse.map digitValue)

theorem numeralValue_cons (b : ℕ) (c : UInt8) (l : List UInt8) :
    numeralValue b (c :: l) = numeralValue b l + b ^ l.length * digitValue c := by
  rw [numeralValue, List.reverse_cons, List.map_append, Nat.ofDigits_append, List.length_map,
    List.length_reverse, List.map_singleton, Nat.ofDigits_singleton]
  rfl

/-! ## Decimal numerals -/

/-- The digits of the decimal numeral of `n`. -/
structure IsDecimal (l : List UInt8) (n : ℕ) : Prop where
  ne_nil : l ≠ []
  isDigit : ∀ c ∈ l, 48 ≤ c ∧ c ≤ 57
  /-- A leading zero is the whole numeral. -/
  eq_zero : l.head? = some 48 → l = [48]
  value : numeralValue 10 l = n

/-- The decimal numeral of an integer: a minus sign for a negative one, then the digits of its
absolute value. -/
def IsNumeral (l : List UInt8) (n : ℤ) : Prop :=
  ∃ digits, l = (if n < 0 then [45] else []) ++ digits ∧ IsDecimal digits n.natAbs

namespace IsNumeral

variable {l : List UInt8} {m n : ℤ}

theorem ne_nil (h : IsNumeral l n) : l ≠ [] := by
  obtain ⟨digits, rfl, hdec⟩ := h
  exact fun hnil ↦ hdec.ne_nil (List.append_eq_nil_iff.mp hnil).2

/-- A numeral starts with a minus sign exactly if it is that of a negative number: a digit is not a
sign. -/
theorem head?_eq_iff (h : IsNumeral l n) : l.head? = some 45 ↔ n < 0 := by
  obtain ⟨digits, rfl, hdec⟩ := h
  by_cases hn : n < 0
  · simp [hn]
  · rw [if_neg hn, List.nil_append]
    refine ⟨fun hhead ↦ ?_, fun h ↦ absurd h hn⟩
    have hdigit := (hdec.isDigit 45 (List.mem_of_mem_head? hhead)).1
    exact absurd hdigit (by decide)

theorem unique (hm : IsNumeral l m) (hn : IsNumeral l n) : m = n := by
  have hsign : m < 0 ↔ n < 0 := hm.head?_eq_iff.symm.trans hn.head?_eq_iff
  obtain ⟨dm, hlm, hdm⟩ := hm
  obtain ⟨dn, hln, hdn⟩ := hn
  have hdigits : dm = dn := by
    rw [hlm] at hln
    simpa [hsign] using hln
  have habs : m.natAbs = n.natAbs := by rw [← hdm.value, ← hdn.value, hdigits]
  omega

end IsNumeral

/-- The ASCII digit for `d < 10`. -/
def decimalDigit (d : ℕ) : UInt8 := UInt8.ofNat (48 + d)

theorem toNat_decimalDigit {d : ℕ} (hd : d < 10) : (decimalDigit d).toNat = 48 + d := by
  rw [decimalDigit, UInt8.toNat_ofNat']
  omega

theorem digitValue_decimalDigit {d : ℕ} (hd : d < 10) : digitValue (decimalDigit d) = d := by
  have hle : decimalDigit d ≤ 57 := by
    rw [UInt8.le_iff_toNat_le, toNat_decimalDigit hd]
    exact Nat.add_le_add_left (Nat.le_of_lt_succ hd) 48
  rw [digitValue, if_pos hle, toNat_decimalDigit hd, Nat.add_sub_cancel_left]

/-- The decimal numeral of `n`. -/
def decimal (n : ℕ) : List UInt8 :=
  if n = 0 then [48] else ((Nat.digits 10 n).map decimalDigit).reverse

theorem decimal_of_ne_zero {n : ℕ} (hn : n ≠ 0) :
    decimal n = ((Nat.digits 10 n).map decimalDigit).reverse := if_neg hn

theorem decimal_ne_nil (n : ℕ) : decimal n ≠ [] := by
  by_cases hn : n = 0
  · rw [hn]
    exact List.cons_ne_nil _ _
  · rw [decimal_of_ne_zero hn, Ne, List.reverse_eq_nil_iff, List.map_eq_nil_iff]
    exact Nat.digits_ne_nil_iff_ne_zero.mpr hn

theorem isDecimal_decimal (n : ℕ) : IsDecimal (decimal n) n := by
  by_cases hn : n = 0
  · rw [hn]
    exact ⟨by simp [decimal], by simp [decimal], fun _ ↦ rfl, rfl⟩
  have hlt : ∀ d ∈ Nat.digits 10 n, d < 10 := fun d ↦ Nat.digits_lt_base (by norm_num)
  refine ⟨decimal_ne_nil n, ?_, ?_, ?_⟩
  · intro c hc
    rw [decimal_of_ne_zero hn, List.mem_reverse, List.mem_map] at hc
    obtain ⟨d, hd, rfl⟩ := hc
    rw [UInt8.le_iff_toNat_le, UInt8.le_iff_toNat_le, toNat_decimalDigit (hlt d hd)]
    exact ⟨Nat.le_add_right 48 d, Nat.add_le_add_left (Nat.le_of_lt_succ (hlt d hd)) 48⟩
  · -- the leading digit is the last one peeled off, and that is not zero
    intro hhead
    rw [decimal_of_ne_zero hn, List.head?_reverse, List.getLast?_map,
      List.getLast?_eq_getLast_of_ne_nil (Nat.digits_ne_nil_iff_ne_zero.mpr hn),
      Option.map_some, Option.some.injEq] at hhead
    have hmem := List.getLast_mem (Nat.digits_ne_nil_iff_ne_zero.mpr hn : Nat.digits 10 n ≠ [])
    have hzero := toNat_decimalDigit (hlt _ hmem)
    rw [hhead] at hzero
    exact absurd (Nat.add_left_cancel (hzero : 48 + 0 = _)).symm (Nat.getLast_digit_ne_zero 10 hn)
  · have hmap : ((Nat.digits 10 n).map decimalDigit).map digitValue = Nat.digits 10 n := by
      rw [List.map_map]
      conv_rhs => rw [← List.map_id (Nat.digits 10 n)]
      exact List.map_congr_left fun d hd ↦ digitValue_decimalDigit (hlt d hd)
    rw [decimal_of_ne_zero hn, numeralValue, List.reverse_reverse, hmap, Nat.ofDigits_digits]

/-! ## Digit by digit -/

theorem decimal_of_lt {n : ℕ} (h : n < 10) : decimal n = [decimalDigit n] := by
  rcases Nat.eq_zero_or_pos n with rfl | hpos
  · rfl
  · rw [decimal_of_ne_zero hpos.ne', Nat.digits_of_lt 10 n hpos.ne' h]
    rfl

theorem decimal_of_ge {n : ℕ} (h : 10 ≤ n) :
    decimal n = decimal (n / 10) ++ [decimalDigit (n % 10)] := by
  have hdiv : n / 10 ≠ 0 := by omega
  rw [decimal_of_ne_zero (by omega : n ≠ 0), decimal_of_ne_zero hdiv,
    Nat.digits_def' (by decide) (by omega), List.map_cons, List.reverse_cons]

/-! ## Hexadecimal numerals of a fixed width -/

/-- A numeral of `n` in `width` hexadecimal digits, the letters in upper case. -/
structure IsHex (l : List UInt8) (width n : ℕ) : Prop where
  length : l.length = width
  isDigit : ∀ c ∈ l, (48 ≤ c ∧ c ≤ 57) ∨ (65 ≤ c ∧ c ≤ 70)
  value : numeralValue 16 l = n

theorem isHex_nil : IsHex [] 0 0 := ⟨rfl, by simp, rfl⟩

theorem IsHex.cons {l : List UInt8} {width n : ℕ} (h : IsHex l width n) {c : UInt8}
    (hc : (48 ≤ c ∧ c ≤ 57) ∨ (65 ≤ c ∧ c ≤ 70)) :
    IsHex (c :: l) (width + 1) (n + 16 ^ width * digitValue c) := by
  refine ⟨by rw [List.length_cons, h.length], ?_, ?_⟩
  · intro x hx
    rcases List.mem_cons.mp hx with rfl | hx
    · exact hc
    · exact h.isDigit x hx
  · rw [numeralValue_cons, h.value, h.length]

end Foundation
