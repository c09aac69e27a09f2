import Mathlib.Algebra.BigOperators.Group.List.Basic
import ZanOS.Foundation.Word

/-!
# Ones' complement sums

A ones' complement sum of halfwords takes the carry out of the top back in at the bottom. It is
addition modulo `2 ^ 16 - 1`, with two representations of zero; which of the two comes out is
settled by the rule that only a sum of zeros is zero. `residue` is that number for a sum in `ℕ`, and
`eq_residue` the way to recognise it.

The sum has the two properties that checksums are made of. It does not depend on the order of the
bytes in a halfword: summing bytes in the other order exchanges the bytes of the sum
(`onesSum_beHalves`), since `2 ^ 8` times a sum is congruent to the sum with its bytes exchanged.
And the complement of a sum, put where there were zeros, makes the sum `0xFFFF`
(`onesSum_with_complement`).
-/

namespace Foundation

/-! ## Residues -/

/-- The number that `s` comes to with all carries taken back in. -/
def residue (s : ℕ) : ℕ := if s = 0 then 0 else (s - 1) % 65535 + 1

theorem residue_le (s : ℕ) : residue s ≤ 65535 := by
  rw [residue]
  split_ifs <;> omega

theorem residue_mod (s : ℕ) : residue s % 65535 = s % 65535 := by
  rw [residue]
  split_ifs <;> omega

theorem residue_eq_zero_iff (s : ℕ) : residue s = 0 ↔ s = 0 := by
  rw [residue]
  split_ifs with h <;> simp [h]

/-- Between 0 and 65535 there is one number congruent to `s`, but for the two that stand for zero,
and those are told apart by whether `s` is zero. -/
theorem eq_residue {v s : ℕ} (hle : v ≤ 65535) (hmod : v % 65535 = s % 65535)
    (hzero : v = 0 ↔ s = 0) : v = residue s := by
  have hle' := residue_le s
  have hmod' := residue_mod s
  have hzero' := residue_eq_zero_iff s
  omega

theorem residue_eq_self {s : ℕ} (h : s ≤ 65535) : residue s = s := (eq_residue h rfl Iff.rfl).symm

theorem residue_carry (s : ℕ) : residue (s % 2 ^ 16 + s / 2 ^ 16) = residue s := by
  apply eq_residue (residue_le _)
  · rw [residue_mod]
    omega
  · rw [residue_eq_zero_iff]
    omega

theorem residue_residue_add (a b : ℕ) : residue (residue a + b) = residue (a + b) := by
  have hmod := residue_mod a
  have hzero := residue_eq_zero_iff a
  apply eq_residue (residue_le _)
  · rw [residue_mod]
    omega
  · rw [residue_eq_zero_iff]
    omega

theorem residue_add_sub_residue (s : ℕ) : residue (s + (65535 - residue s)) = 65535 := by
  have hle := residue_le s
  have hmod := residue_mod s
  have hzero := residue_eq_zero_iff s
  refine (eq_residue le_rfl ?_ ?_).symm <;> omega

/-! ## Sums of halfwords -/

/-- Addition with the carry taken back in. -/
def onesAdd (a b : UInt16) : UInt16 :=
  UInt16.ofNat ((a.toNat + b.toNat) % 2 ^ 16 + (a.toNat + b.toNat) / 2 ^ 16)

def onesSum (hs : List UInt16) : UInt16 := hs.foldl onesAdd 0

theorem toNat_onesAdd (a b : UInt16) : (onesAdd a b).toNat = residue (a.toNat + b.toNat) := by
  have ha := a.toNat_lt
  have hb := b.toNat_lt
  rw [onesAdd, UInt16.toNat_ofNat_of_lt' (by simp only [UInt16.size]; omega), ← residue_carry,
    residue_eq_self (by omega)]

theorem toNat_foldl_onesAdd (a : UInt16) (hs : List UInt16) :
    (hs.foldl onesAdd a).toNat = residue (a.toNat + (hs.map UInt16.toNat).sum) := by
  induction hs generalizing a with
  | nil =>
    have ha := a.toNat_lt
    rw [List.foldl_nil, List.map_nil, List.sum_nil, Nat.add_zero, residue_eq_self (by omega)]
  | cons h hs ih =>
    rw [List.foldl_cons, ih, toNat_onesAdd, residue_residue_add, List.map_cons, List.sum_cons,
      Nat.add_assoc]

theorem toNat_onesSum (hs : List UInt16) :
    (onesSum hs).toNat = residue (hs.map UInt16.toNat).sum := by
  rw [onesSum, toNat_foldl_onesAdd, UInt16.toNat_zero, Nat.zero_add]

/-! ## Bytes -/

/-- Cut a byte list into halfwords, the first byte of each lowest, and an odd one padded. -/
def leHalves : List UInt8 → List UInt16
  | [] => []
  | [a] => [leHalf a 0]
  | a :: b :: l => leHalf a b :: leHalves l

/-- The same with the first byte highest. -/
def beHalves : List UInt8 → List UInt16
  | [] => []
  | [a] => [leHalf 0 a]
  | a :: b :: l => leHalf b a :: beHalves l

theorem leHalves_append {a : List UInt8} (h : a.length % 2 = 0) (b : List UInt8) :
    leHalves (a ++ b) = leHalves a ++ leHalves b := by
  fun_induction leHalves a with
  | case1 => rfl
  | case2 x => simp at h
  | case3 x y l ih =>
    rw [List.length_cons, List.length_cons] at h
    rw [List.cons_append, List.cons_append, leHalves, ih (by omega), List.cons_append]

theorem sum_leHalves_append {a : List UInt8} (h : a.length % 2 = 0) (b : List UInt8) :
    ((leHalves (a ++ b)).map UInt16.toNat).sum
      = ((leHalves a).map UInt16.toNat).sum + ((leHalves b).map UInt16.toNat).sum := by
  rw [leHalves_append h, List.map_append, List.sum_append]

theorem length_leHalves (l : List UInt8) : (leHalves l).length = (l.length + 1) / 2 := by
  fun_induction leHalves l with
  | case1 => rfl
  | case2 x => simp
  | case3 x y l ih =>
    rw [List.length_cons, ih, List.length_cons, List.length_cons]
    omega

theorem sum_toNat_le (hs : List UInt16) : (hs.map UInt16.toNat).sum ≤ hs.length * 65535 := by
  induction hs with
  | nil => rfl
  | cons h hs ih =>
    have hlt := h.toNat_lt
    rw [List.map_cons, List.sum_cons, List.length_cons]
    omega

theorem beHalves_eq_map (l : List UInt8) : beHalves l = (leHalves l).map swapHalf := by
  have hswap : ∀ x y, swapHalf (leHalf x y) = leHalf y x := by
    intro x y
    have hbytes := halfBytes_leHalf x y
    rw [halfBytes] at hbytes
    obtain ⟨hx, hy⟩ : (leHalf x y).toUInt8 = x ∧ (leHalf x y >>> 8).toUInt8 = y := by
      simpa using hbytes
    rw [swapHalf, hx, hy]
  fun_induction leHalves l with
  | case1 => rfl
  | case2 x => rw [beHalves, List.map_singleton, hswap]
  | case3 x y l ih => rw [beHalves, ih, List.map_cons, hswap]

/-- Modulo 65535, exchanging the bytes is multiplying by 256. -/
theorem sum_map_swapHalf (hs : List UInt16) :
    (((hs.map swapHalf).map UInt16.toNat).sum % 65535 = 2 ^ 8 * (hs.map UInt16.toNat).sum % 65535) ∧
      (((hs.map swapHalf).map UInt16.toNat).sum = 0 ↔ (hs.map UInt16.toNat).sum = 0) := by
  induction hs with
  | nil => exact ⟨rfl, Iff.rfl⟩
  | cons h hs ih =>
    obtain ⟨hmod, hzero⟩ := ih
    have hlt := h.toNat_lt
    simp only [List.map_cons, List.sum_cons, toNat_swapHalf]
    omega

/-- **The order of the bytes does not matter.** -/
theorem onesSum_beHalves (l : List UInt8) :
    onesSum (beHalves l) = swapHalf (onesSum (leHalves l)) := by
  obtain ⟨hmod, hzero⟩ := sum_map_swapHalf (leHalves l)
  rw [← beHalves_eq_map] at hmod hzero
  have hle := residue_le ((leHalves l).map UInt16.toNat).sum
  have hmod' := residue_mod ((leHalves l).map UInt16.toNat).sum
  have hzero' := residue_eq_zero_iff ((leHalves l).map UInt16.toNat).sum
  apply UInt16.toNat_inj.mp
  rw [toNat_swapHalf, toNat_onesSum, toNat_onesSum]
  -- exchanging the bytes of the sum multiplies it by 256 too, and keeps the two zeros apart
  refine (eq_residue ?_ ?_ ?_).symm <;> omega

/-! ## Checksums -/

/-- The Internet checksum: the complement of the sum of the halfwords in network order. -/
def internetChecksum (l : List UInt8) : UInt16 := ~~~onesSum (beHalves l)

theorem toNat_complement (h : UInt16) : (~~~h).toNat = 65535 - h.toNat := UInt16.toNat_not h

theorem swapHalf_complement (h : UInt16) : swapHalf (~~~h) = ~~~swapHalf h := by
  have hlt := h.toNat_lt
  apply UInt16.toNat_inj.mp
  rw [toNat_swapHalf, toNat_complement, toNat_complement, toNat_swapHalf]
  omega

/-- The checksum computed with the first byte lowest, and stored lowest byte first, is the Internet
checksum, stored highest byte first. -/
theorem halfBytes_complement_onesSum (l : List UInt8) :
    halfBytes (~~~onesSum (leHalves l)) = (halfBytes (internetChecksum l)).reverse := by
  rw [internetChecksum, onesSum_beHalves, ← swapHalf_complement, halfBytes_swapHalf,
    List.reverse_reverse]

/-- **A checksum in its place.** With the complement of the sum where there were zeros, the sum is
`0xFFFF`. -/
theorem onesSum_with_complement {a : List UInt8} (ha : a.length % 2 = 0) (c : List UInt8) :
    onesSum (beHalves (a ++ halfBytes (~~~onesSum (leHalves (a ++ 0 :: 0 :: c))) ++ c))
      = 0xFFFF := by
  have hsum : ∀ h : UInt16, ((leHalves (a ++ halfBytes h ++ c)).map UInt16.toNat).sum
      = ((leHalves a).map UInt16.toNat).sum + (h.toNat + ((leHalves c).map UInt16.toNat).sum) := by
    intro h
    rw [List.append_assoc, sum_leHalves_append ha, halfBytes, List.cons_append, List.cons_append,
      List.nil_append, leHalves, leHalf_of_halfBytes, List.map_cons, List.sum_cons]
  have hzero : a ++ 0 :: 0 :: c = a ++ halfBytes 0 ++ c := by
    rw [List.append_assoc]
    rfl
  set s := onesSum (leHalves (a ++ 0 :: 0 :: c)) with hs
  have hnat : s.toNat = residue (((leHalves a).map UInt16.toNat).sum
      + ((leHalves c).map UInt16.toNat).sum) := by
    rw [hs, toNat_onesSum, hzero, hsum, UInt16.toNat_zero, Nat.zero_add]
  have hfull : onesSum (leHalves (a ++ halfBytes (~~~s) ++ c)) = 0xFFFF := by
    apply UInt16.toNat_inj.mp
    rw [toNat_onesSum, hsum, toNat_complement, hnat, Nat.add_left_comm, Nat.add_comm]
    exact residue_add_sub_residue _
  rw [onesSum_beHalves, hfull]
  decide

end Foundation
