import ZanOS.Uart.Numbers

/-!
# Reading numbers back

`atoi` of `strings.c` accumulates digits from the left, in a signed 32-bit integer. A value outside
the range of that type has no meaning in C, so an operation that leaves the range has no result
here. `atoiValues` lists what the accumulator holds from round to round, in unbounded integers, to
say the same of every intermediate value.

On the output of `uart_print_int` the values only grow, up to the number printed. So the whole range
of non-negative numbers is read back.
-/

namespace ZanOS

open Foundation

/-- The result of an operation on values of type `int`, if it is one. -/
def intResult (z : ℤ) : Option ℤ := if -2 ^ 31 ≤ z ∧ z < 2 ^ 31 then some z else none

/-- `*s >= '0' && *s <= '9'`, for a plain `char` of either signedness. -/
def IsDigit (c : UInt8) : Prop := 48 ≤ c ∧ c ≤ 57

instance (c : UInt8) : Decidable (IsDigit c) := inferInstanceAs (Decidable (_ ∧ _))

/-- The loop of `atoi`. -/
def atoiLoop : List UInt8 → ℤ → Option ℤ
  | [], _ => none
  | c :: s, res =>
      if IsDigit c then
        match intResult (res * 10) with
        | none => none
        | some tens =>
            match intResult (tens + (c.toNat - 48)) with
            | none => none
            | some res' => atoiLoop s res'
      else some res

/-- `atoi`. -/
def atoi (s : List UInt8) : Option ℤ := atoiLoop s 0

/-- The values of the accumulator, from `res` on. -/
def atoiValues : List UInt8 → ℤ → List ℤ
  | [], res => [res]
  | c :: s, res => if IsDigit c then res :: atoiValues s (res * 10 + (c.toNat - 48)) else [res]

theorem intResult_eq_some {z : ℤ} (h₀ : 0 ≤ z) (h : z < 2 ^ 31) : intResult z = some z :=
  if_pos ⟨by omega, h⟩

theorem lt_of_intResult {z w : ℤ} (h : intResult z = some w) : w = z ∧ z < 2 ^ 31 := by
  rw [intResult] at h
  split_ifs at h with hz
  exact ⟨(Option.some.inj h).symm, hz.2⟩

theorem digitValue_of_isDigit {c : UInt8} (h : IsDigit c) :
    ((digitValue c : ℕ) : ℤ) = c.toNat - 48 := by
  have hlo := UInt8.le_iff_toNat_le.mp h.1
  rw [digitValue, if_pos h.2]
  exact Int.ofNat_sub hlo

/-- A result means that no value of the accumulator was out of range. -/
theorem lt_of_mem_atoiValues {s : List UInt8} {res r v : ℤ} (h : atoiLoop s res = some r)
    (hres : res < 2 ^ 31) (hv : v ∈ atoiValues s res) : v < 2 ^ 31 := by
  induction s generalizing res with
  | nil => cases h
  | cons c s ih =>
    rw [atoiLoop] at h
    rw [atoiValues] at hv
    split_ifs at h hv with hc
    · split at h
      · cases h
      · rename_i tens htens
        obtain ⟨rfl, -⟩ := lt_of_intResult htens
        split at h
        · cases h
        · rename_i res' hres'
          obtain ⟨rfl, hlt⟩ := lt_of_intResult hres'
          rcases List.mem_cons.mp hv with rfl | hv
          · exact hres
          · exact ih h hlt hv
    · rwa [List.mem_singleton.mp hv]

/-- **Horner's rule.** From a value `res` the loop takes the digits in front of it to the number
that `res`, written in front of them, denotes. -/
theorem atoiLoop_digits {l rest : List UInt8} {res : ℕ} (hl : ∀ c ∈ l, IsDigit c)
    (hne : rest ≠ []) (hrest : ∀ c ∈ rest.head?, ¬ IsDigit c)
    (hlt : res * 10 ^ l.length + numeralValue 10 l < 2 ^ 31) :
    atoiLoop (l ++ rest) res = some ((res * 10 ^ l.length + numeralValue 10 l : ℕ) : ℤ) := by
  induction l generalizing res with
  | nil =>
    obtain ⟨c, r, rfl⟩ := List.exists_cons_of_ne_nil hne
    rw [List.nil_append, atoiLoop, if_neg (hrest c rfl), List.length_nil, pow_zero, Nat.mul_one]
    rfl
  | cons c l ih =>
    have hc : IsDigit c := hl c List.mem_cons_self
    -- one round of the loop takes the leading digit over into the accumulator
    have hvalue : res * 10 ^ (c :: l).length + numeralValue 10 (c :: l)
        = (res * 10 + digitValue c) * 10 ^ l.length + numeralValue 10 l := by
      rw [List.length_cons, numeralValue_cons]
      ring
    have hle : res * 10 + digitValue c ≤ (res * 10 + digitValue c) * 10 ^ l.length :=
      Nat.le_mul_of_pos_right _ (by positivity)
    rw [hvalue] at hlt ⊢
    have hround : (res : ℤ) * 10 + (c.toNat - 48) = ((res * 10 + digitValue c : ℕ) : ℤ) := by
      rw [← digitValue_of_isDigit hc]
      push_cast
      rfl
    rw [List.cons_append, atoiLoop, if_pos hc, intResult_eq_some (by omega) (by omega)]
    simp only
    rw [hround, intResult_eq_some (by omega) (by omega)]
    exact ih (fun c' hc' ↦ hl c' (List.mem_cons_of_mem c hc')) hlt

/-- **`atoi` reads back what `uart_print_int` prints**, from any text that goes on with something
else than a digit, and its accumulator stays in range. -/
theorem exists_atoi_uartPrintInt {n : ℤ} (hn₀ : 0 ≤ n) (hn : n < 2 ^ 31) {rest : List UInt8}
    (hzero : (0 : UInt8) ∈ rest) (hrest : ∀ c ∈ rest.head?, ¬ IsDigit c) :
    ∃ out, uartPrintInt n = some out ∧ atoi (out ++ rest) = some n ∧
      ∀ v ∈ atoiValues (out ++ rest) 0, v ≤ 2 ^ 31 - 1 := by
  obtain ⟨k, rfl⟩ := Int.eq_ofNat_of_zero_le hn₀
  have hk : k < 2 ^ 31 := by exact_mod_cast hn
  have hdec := isDecimal_decimal k
  have hread : atoi (decimal k ++ rest) = some (k : ℤ) := by
    have hvalue : 0 * 10 ^ (decimal k).length + numeralValue 10 (decimal k) = k := by
      rw [Nat.zero_mul, Nat.zero_add, hdec.value]
    have hloop := atoiLoop_digits hdec.isDigit (List.ne_nil_of_mem hzero) hrest (hvalue ▸ hk)
    rwa [hvalue] at hloop
  refine ⟨decimal k, uartPrintInt_natCast (hk.trans (by norm_num)), hread, ?_⟩
  intro v hv
  exact Int.le_sub_one_of_lt (lt_of_mem_atoiValues hread (by norm_num) hv)

/-- The largest number, in front of a semicolon. -/
theorem exists_atoi_intMax : ∃ out, uartPrintInt 2147483647 = some out ∧
    atoi (out ++ [59, 0]) = some 2147483647 ∧
    ∀ v ∈ atoiValues (out ++ [59, 0]) 0, v ≤ 2 ^ 31 - 1 :=
  exists_atoi_uartPrintInt (by decide) (by decide) (by decide)
    (by rintro c ⟨⟩; decide)

end ZanOS
