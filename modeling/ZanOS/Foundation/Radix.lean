import Mathlib.Algebra.Order.Group.Nat
import Mathlib.Data.List.TakeWhile
import ZanOS.Foundation.Numeral

/-!
# Numbers as C writes them

A number in a C program announces its base: `0x` and hexadecimal digits of either case, a leading
zero and octal digits, or decimal digits that do not start with a zero. `CNumber` is that grammar,
with the number a text denotes.

A program that reads such a text multiplies what it has by the base and adds the next digit, for as
long as there is one. `radixFold` is that loop over the digits, without the limits of a machine
word; `radixFold_mod` says what a loop with such limits computes instead.
-/

namespace Foundation

/-- The value of a digit in the bases up to 16; any other byte has a value too large for them. -/
def radixDigit (c : UInt8) : ℕ :=
  if 48 ≤ c ∧ c ≤ 57 then c.toNat - 48
  else if 97 ≤ c ∧ c ≤ 102 then c.toNat - 87
  else if 65 ≤ c ∧ c ≤ 70 then c.toNat - 55
  else 16

/-- Read digits in base `b` onto what has been read so far. -/
def radixFold (b v : ℕ) (l : List UInt8) : ℕ := l.foldl (fun v c ↦ v * b + radixDigit c) v

@[simp] theorem radixFold_nil (b v : ℕ) : radixFold b v [] = v := rfl

theorem radixFold_cons (b v : ℕ) (c : UInt8) (l : List UInt8) :
    radixFold b v (c :: l) = radixFold b (v * b + radixDigit c) l := rfl

theorem radixFold_append (b v : ℕ) (l l' : List UInt8) :
    radixFold b v (l ++ l') = radixFold b (radixFold b v l) l' := List.foldl_append

theorem radixFold_mod (m b v : ℕ) (l : List UInt8) :
    radixFold b (v % m) l % m = radixFold b v l % m := by
  induction l using List.reverseRecOn with
  | nil => exact Nat.mod_mod v m
  | append_singleton l c ih =>
    rw [radixFold_append, radixFold_append, radixFold_cons, radixFold_cons, radixFold_nil,
      radixFold_nil, Nat.add_mod, Nat.mul_mod, ih, ← Nat.mul_mod, ← Nat.add_mod]

/-- A text that is a number in C, and the number. -/
inductive CNumber : List UInt8 → ℕ → Prop
  | decimal {c : UInt8} {l : List UInt8} (hc : c ≠ 48) (h : ∀ d ∈ c :: l, radixDigit d < 10) :
      CNumber (c :: l) (radixFold 10 0 (c :: l))
  | octal {l : List UInt8} (h : ∀ d ∈ l, radixDigit d < 8) : CNumber (48 :: l) (radixFold 8 0 l)
  | hex {x : UInt8} {l : List UInt8} (hx : x = 120 ∨ x = 88) (h : ∀ d ∈ l, radixDigit d < 16) :
      CNumber (48 :: x :: l) (radixFold 16 0 l)

/-! ## Decimal numerals -/

theorem radixDigit_eq_digitValue {c : UInt8} (h : 48 ≤ c ∧ c ≤ 57) :
    radixDigit c = digitValue c := by
  rw [radixDigit, if_pos h, digitValue, if_pos h.2]

theorem radixDigit_lt_ten_iff {c : UInt8} : radixDigit c < 10 ↔ 48 ≤ c ∧ c ≤ 57 := by
  simp only [radixDigit, UInt8.le_iff_toNat_le, UInt8.reduceToNat]
  split_ifs <;> omega

theorem radixFold_eq_numeralValue {l : List UInt8} (h : ∀ c ∈ l, 48 ≤ c ∧ c ≤ 57) :
    radixFold 10 0 l = numeralValue 10 l := by
  induction l using List.reverseRecOn with
  | nil => rfl
  | append_singleton l c ih =>
    have hc := h c (List.mem_append_right l (List.mem_singleton_self c))
    rw [radixFold_append, radixFold_cons, radixFold_nil,
      ih fun d hd ↦ h d (List.mem_append_left _ hd), radixDigit_eq_digitValue hc, numeralValue,
      numeralValue, List.reverse_append, List.reverse_singleton, List.singleton_append,
      List.map_cons, Nat.ofDigits_cons, Nat.add_comm, Nat.mul_comm]

/-- **The decimal numeral of a number is a number in C, and the same one.** A leading zero would
make it octal, and it has none unless it is zero. -/
theorem IsDecimal.cNumber {l : List UInt8} {n : ℕ} (h : IsDecimal l n) : CNumber l n := by
  obtain ⟨c, l, rfl⟩ := List.exists_cons_of_ne_nil h.ne_nil
  by_cases hc : c = 48
  · obtain ⟨-, rfl⟩ := List.cons.inj (h.eq_zero (by rw [hc]; rfl))
    have hvalue := h.value
    rw [hc] at hvalue ⊢
    obtain rfl : 0 = n := hvalue
    exact .octal (by simp)
  · have hdigits : ∀ d ∈ c :: l, radixDigit d < 10 := fun d hd ↦
      radixDigit_lt_ten_iff.mpr (h.isDigit d hd)
    have hnumber := CNumber.decimal hc hdigits
    rwa [radixFold_eq_numeralValue h.isDigit, h.value] at hnumber

/-! ## The longest run of digits -/

theorem exists_dropWhile_eq_cons {α : Type*} {p : α → Bool} {l : List α} {a : α} (ha : a ∈ l)
    (hp : p a = false) : ∃ b r, l.dropWhile p = b :: r ∧ p b = false ∧ (a = b ∨ a ∈ r) := by
  induction l with
  | nil => exact absurd ha List.not_mem_nil
  | cons x l ih =>
    rw [List.dropWhile_cons]
    by_cases hx : p x = true
    · rw [if_pos hx]
      refine ih ((List.mem_cons.mp ha).resolve_left ?_)
      rintro rfl
      rw [hx] at hp
      exact Bool.noConfusion hp
    · rw [if_neg hx]
      exact ⟨x, l, rfl, Bool.eq_false_iff.mpr hx, List.mem_cons.mp ha⟩

end Foundation
