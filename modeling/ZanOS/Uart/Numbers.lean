import Mathlib.Data.Vector.Basic
import ZanOS.Foundation.Buffer
import ZanOS.Foundation.Numeral

/-!
# The number printers of the UART driver

`uart_print_int` finds the decimal digits of its argument without a division: an inner loop takes
tens away and counts them, so that what is left is a digit and the count is the next number. The
digits go into a local array of 16 bytes, lowest first, and a last loop sends them in the other
order. `uart_print_hex` sends the eight nibbles of a word, highest first.

**The sign.** The outer loop runs while the number is positive, so a negative number leaves the
array empty and nothing is sent. Everything else is exact: the array is large enough for every
32-bit number, and the digits sent are the decimal numeral.
-/

namespace ZanOS

open Foundation

/-! ## `uart_print` -/

/-- `uart_print`: the bytes up to the NUL; a string without one is read past its end. -/
def uartPrint : List UInt8 → Option (List UInt8)
  | [] => none
  | c :: s => if c = 0 then some [] else (uartPrint s).map (c :: ·)

theorem uartPrint_of_zero_mem {m : List UInt8} (h : (0 : UInt8) ∈ m) :
    uartPrint m = some (cstr m) := by
  induction m with
  | nil => simp at h
  | cons c m ih =>
    rw [uartPrint]
    by_cases hc : c = 0
    · rw [if_pos hc, hc, cstr_zero_cons]
    · rw [if_neg hc, ih (zero_mem_of_cons h hc), cstr_cons hc,
        Option.map_some]

/-! ## `uart_print_int` -/

/-- The inner loop of `uart_print_int`: take tens from `n` and count them in `digit`. The first
argument bounds the rounds. -/
def takeTens : ℕ → ℤ → ℤ → Option (ℤ × ℤ)
  | 0, n, digit => if 10 ≤ n then none else some (n, digit)
  | k + 1, n, digit => if 10 ≤ n then takeTens k (n - 10) (digit + 1) else some (n, digit)

/-- The outer loop of `uart_print_int`: the digits of `n` into `buf` from `i` on, lowest first. -/
def digitLoop : ℕ → ℤ → Vector (Option UInt8) 16 → ℕ → Option (Vector (Option UInt8) 16 × ℕ)
  | 0, n, buf, i => if 0 < n then none else some (buf, i)
  | k + 1, n, buf, i =>
      if 0 < n then
        match takeTens n.toNat n 0 with
        | none => none
        | some (n, digit) =>
            match store buf i (some (UInt8.ofNat (48 + n.toNat))) with
            | none => none
            | some buf => digitLoop k digit buf (i + 1)
      else some (buf, i)

/-- The last loop of `uart_print_int`: send the first `i` cells, the last one first. A cell that was
never stored to has no value to send. -/
def sendDigits (buf : Vector (Option UInt8) 16) : ℕ → Option (List UInt8)
  | 0 => some []
  | i + 1 =>
      match buf.toList[i]? with
      | some (some c) => (sendDigits buf i).map (c :: ·)
      | _ => none

/-- `uart_print_int`. -/
def uartPrintInt (n : ℤ) : Option (List UInt8) :=
  if n = 0 then some [48]
  else
    match digitLoop n.toNat n (Vector.replicate 16 none) 0 with
    | none => none
    | some (buf, i) => sendDigits buf i

/-- **The inner loop divides by ten.** -/
theorem takeTens_eq {k n : ℕ} (d : ℕ) (h : n ≤ k) :
    takeTens k n d = some (((n % 10 : ℕ) : ℤ), ((d + n / 10 : ℕ) : ℤ)) := by
  induction k generalizing n d with
  | zero =>
    obtain rfl : n = 0 := Nat.le_zero.mp h
    rfl
  | succ k ih =>
    rw [takeTens]
    by_cases hten : 10 ≤ n
    · have hcast : (n : ℤ) - 10 = ((n - 10 : ℕ) : ℤ) := by omega
      have hquot : d + 1 + (n - 10) / 10 = d + n / 10 := by omega
      have hrem : (n - 10) % 10 = n % 10 := by omega
      rw [if_pos (by exact_mod_cast hten), hcast, ← Nat.cast_succ, ih (d + 1) (by omega), hquot,
        hrem]
    · rw [if_neg (by exact_mod_cast hten), Nat.mod_eq_of_lt (by omega),
        Nat.div_eq_of_lt (by omega), Nat.add_zero]

/-- **The outer loop stores the digits**, as many as there are, one after the other. -/
theorem exists_digitLoop {k n : ℕ} (buf : Vector (Option UInt8) 16) {i : ℕ} (hk : n ≤ k)
    (hfit : i + (Nat.digits 10 n).length ≤ 16) :
    ∃ buf', digitLoop k n buf i = some (buf', i + (Nat.digits 10 n).length) ∧
      buf'.toList
        = splice buf.toList i (((Nat.digits 10 n).map decimalDigit).map some) := by
  induction k generalizing n buf i with
  | zero =>
    obtain rfl : n = 0 := Nat.le_zero.mp hk
    exact ⟨buf, rfl, (splice_nil _ _).symm⟩
  | succ k ih =>
    rcases Nat.eq_zero_or_pos n with rfl | hpos
    · exact ⟨buf, rfl, (splice_nil _ _).symm⟩
    -- what the inner loop leaves is the lowest digit, and its count has the others
    have hdigits : Nat.digits 10 n = n % 10 :: Nat.digits 10 (n / 10) :=
      Nat.digits_def' (by norm_num) hpos
    rw [hdigits, List.length_cons] at hfit
    have hi : i < 16 := by omega
    obtain ⟨buf', hloop, hlist⟩ := ih (buf.set i (some (decimalDigit (n % 10))))
      (show n / 10 ≤ k by omega) (show i + 1 + (Nat.digits 10 (n / 10)).length ≤ 16 by omega)
    refine ⟨buf', ?_, ?_⟩
    · have htens := takeTens_eq 0 (le_refl n)
      rw [Nat.zero_add, Nat.cast_zero] at htens
      rw [digitLoop, if_pos (by exact_mod_cast hpos), Int.toNat_natCast, htens]
      simp only [Int.toNat_natCast]
      rw [← decimalDigit, store_eq_some hi]
      simp only
      rw [hloop, hdigits, List.length_cons, Nat.add_right_comm, Nat.add_assoc]
    · rw [hlist, toList_set_eq_splice hi, splice_cons (by simpa using hi), hdigits, List.map_cons,
        List.map_cons]

theorem sendDigits_eq {buf : Vector (Option UInt8) 16} {l : List UInt8}
    (h : l.map some <+: buf.toList) : sendDigits buf l.length = some l.reverse := by
  induction l using List.reverseRecOn with
  | nil => rfl
  | append_singleton l c ih =>
    obtain ⟨r, hr⟩ := h
    rw [List.map_append, List.map_singleton, List.append_assoc, List.singleton_append] at hr
    -- the cell sent first is the last one stored
    have hcell : buf.toList[l.length]? = some (some c) := by
      rw [← hr, ← List.length_map (f := some), List.getElem?_append_right (le_refl _),
        Nat.sub_self, List.getElem?_cons_zero]
    rw [List.length_append, List.length_singleton, sendDigits, hcell]
    simp only
    rw [ih ⟨some c :: r, hr⟩, Option.map_some, List.reverse_append, List.reverse_singleton,
      List.singleton_append]

/-- A number of at most 16 digits comes out as its numeral. -/
theorem uartPrintInt_natCast {n : ℕ} (h : n < 10 ^ 16) :
    uartPrintInt n = some (decimal n) := by
  rw [uartPrintInt]
  rcases Nat.eq_zero_or_pos n with rfl | hpos
  · rfl
  have hlen : (Nat.digits 10 n).length ≤ 16 := (Nat.digits_length_le_iff (by norm_num) n).mpr h
  obtain ⟨buf, hloop, hlist⟩ := exists_digitLoop (Vector.replicate 16 none) (le_refl n)
    (show 0 + (Nat.digits 10 n).length ≤ 16 by omega)
  rw [Nat.zero_add] at hloop
  rw [splice_zero] at hlist
  rw [if_neg (by exact_mod_cast hpos.ne'), Int.toNat_natCast, hloop]
  simp only
  have hsend := sendDigits_eq ⟨_, hlist.symm⟩
  rw [List.length_map] at hsend
  rw [hsend, decimal_of_ne_zero hpos.ne']

theorem uartPrintInt_of_neg {n : ℤ} (h : n < 0) : uartPrintInt n = some [] := by
  rw [uartPrintInt, if_neg h.ne, Int.toNat_of_nonpos h.le, digitLoop, if_neg (by omega)]
  rfl

/-- What `uart_print_int` is for: the numeral of its argument, which no other argument prints. -/
def PrintsNumeral (n : Int32) : Prop :=
  ∃ out, uartPrintInt n.toInt = some out ∧ IsNumeral out n.toInt ∧
    ∀ m : Int32, uartPrintInt m.toInt = some out → m = n

theorem exists_natCast_of_nonneg {n : Int32} (h : 0 ≤ n.toInt) :
    ∃ k : ℕ, n.toInt = k ∧ k < 10 ^ 16 := by
  obtain ⟨k, hk⟩ := Int.eq_ofNat_of_zero_le h
  have hlt := n.toInt_lt
  exact ⟨k, hk, by omega⟩

theorem uartPrintInt_cases (n : Int32) :
    (0 ≤ n.toInt ∧ ∃ out, uartPrintInt n.toInt = some out ∧ IsNumeral out n.toInt) ∨
      (n.toInt < 0 ∧ uartPrintInt n.toInt = some []) := by
  rcases lt_or_ge n.toInt 0 with hneg | hnonneg
  · exact .inr ⟨hneg, uartPrintInt_of_neg hneg⟩
  · obtain ⟨k, hk, hlt⟩ := exists_natCast_of_nonneg hnonneg
    refine .inl ⟨hnonneg, decimal k, by rw [hk, uartPrintInt_natCast hlt], decimal k, ?_, ?_⟩
    · rw [if_neg (not_lt.mpr hnonneg), List.nil_append]
    · rw [hk, Int.natAbs_natCast]
      exact isDecimal_decimal k

/-- **`uart_print_int` stays inside its array for every argument, and prints the number exactly
when it is not negative.** -/
theorem printsNumeral_iff (n : Int32) :
    (uartPrintInt n.toInt).isSome ∧ (PrintsNumeral n ↔ 0 ≤ n.toInt) := by
  rcases uartPrintInt_cases n with ⟨hn, out, hout, hnum⟩ | ⟨hn, hout⟩
  · refine ⟨by rw [hout]; rfl, fun _ ↦ hn, fun _ ↦ ⟨out, hout, hnum, ?_⟩⟩
    intro m hm
    rcases uartPrintInt_cases m with ⟨-, out', hout', hnum'⟩ | ⟨-, hout'⟩
    · rw [hm, Option.some.injEq] at hout'
      rw [← hout'] at hnum'
      exact Int32.toInt_inj.mp (hnum'.unique hnum)
    · rw [hm, Option.some.injEq] at hout'
      rw [hout'] at hnum
      exact absurd rfl hnum.ne_nil
  · refine ⟨by rw [hout]; rfl, ?_, fun h ↦ absurd h (not_le.mpr hn)⟩
    rintro ⟨out, hout', hnum, -⟩
    rw [hout, Option.some.injEq] at hout'
    rw [← hout'] at hnum
    exact absurd rfl hnum.ne_nil

/-- The error codes of an aborted and of a reset connection are both printed as nothing. -/
theorem not_printsNumeral_abrt :
    uartPrintInt (-13) = some [] ∧ uartPrintInt (-14) = some [] ∧ ¬ PrintsNumeral (-13) := by
  refine ⟨rfl, rfl, ?_⟩
  rintro ⟨out, hout, hnum, -⟩
  have hnil : uartPrintInt (-13 : Int32).toInt = some [] := rfl
  rw [hnil, Option.some.injEq] at hout
  rw [← hout] at hnum
  exact hnum.ne_nil rfl

/-! ## `uart_print_hex` -/

/-- The table of `uart_print_hex`, indexed by a nibble. -/
def hexDigit (d : UInt32) : UInt8 := (literal "0123456789ABCDEF").getD d.toNat 0

/-- The loop of `uart_print_hex`, with `4 * k` the shift of the next round. -/
def hexLoop (n : UInt32) : ℕ → List UInt8
  | 0 => []
  | k + 1 => hexDigit ((n >>> UInt32.ofNat (4 * k)) &&& (0xF : UInt32)) :: hexLoop n k

/-- `uart_print_hex`. -/
def uartPrintHex (n : UInt32) : List UInt8 := hexLoop n 8

theorem hexDigit_spec {d : UInt32} (hd : d.toNat < 16) :
    ((48 ≤ hexDigit d ∧ hexDigit d ≤ 57) ∨ (65 ≤ hexDigit d ∧ hexDigit d ≤ 70)) ∧
      digitValue (hexDigit d) = d.toNat := by
  rw [hexDigit]
  generalize d.toNat = k at hd
  interval_cases k <;> decide

theorem toNat_nibble (n : UInt32) {k : ℕ} (hk : k < 8) :
    ((n >>> UInt32.ofNat (4 * k)) &&& (0xF : UInt32)).toNat = n.toNat / 16 ^ k % 16 := by
  have hshift : (UInt32.ofNat (4 * k)).toNat = 4 * k := UInt32.toNat_ofNat_of_lt' (by
    rw [UInt32.size]
    omega)
  rw [UInt32.toNat_and, UInt32.toNat_shiftRight, hshift, Nat.mod_eq_of_lt (by omega),
    Nat.shiftRight_eq_div_pow, pow_mul]
  exact Nat.and_two_pow_sub_one_eq_mod _ 4

theorem isHex_hexLoop (n : UInt32) {k : ℕ} (hk : k ≤ 8) :
    IsHex (hexLoop n k) k (n.toNat % 16 ^ k) := by
  induction k with
  | zero =>
    rw [pow_zero, Nat.mod_one]
    exact isHex_nil
  | succ k ih =>
    have hnibble := toNat_nibble n hk
    obtain ⟨hdigit, hvalue⟩ := hexDigit_spec (hnibble ▸ Nat.mod_lt _ (by norm_num))
    have hcons := (ih (Nat.le_of_succ_le hk)).cons hdigit
    rwa [hvalue, hnibble, ← Nat.mod_pow_succ] at hcons

/-- **Eight upper-case digits, from which the word can be read back.** -/
theorem isHex_uartPrintHex (n : UInt32) : IsHex (uartPrintHex n) 8 n.toNat := by
  have hex := isHex_hexLoop n (le_refl 8)
  rwa [Nat.mod_eq_of_lt (by simpa using n.toNat_lt)] at hex

end ZanOS
