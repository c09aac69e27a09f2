import ZanOS.Foundation.OnesComplement

/-!
# `checksum`

`checksum` of `net.c` adds up the halfwords of a block of memory as the processor loads them, lowest
byte first, with an odd last byte taken for the low one; it takes the carries in at the end, and
returns the complement. The protocols define the sum over halfwords in network order. That the
bytes it stores are nevertheless the right ones is the byte-order independence of the ones'
complement sum (`Foundation.onesSum_beHalves`).

What is left to show of the code is that nothing is lost on the way to the residue: the accumulator
has 32 bits, which is enough for the 65535 bytes a length field can ask for
(`exists_accumulate`), and the folding loop makes the sum smaller each time (`exists_foldLoop`).
-/

namespace ZanOS

open Foundation

/-- `ntons`. -/
def ntons (n : UInt16) : UInt16 := (n &&& 0xFF) <<< 8 ||| (n &&& 0xFF00) >>> 8

/-- The loop over `n` halfwords, as long as there is memory. -/
def sumHalves : List UInt8 → ℕ → UInt32 → Option UInt32
  | _, 0, sum => some sum
  | a :: b :: data, n + 1, sum => sumHalves data n (sum + (leHalf a b).toUInt32)
  | _, _ + 1, _ => none

/-- The sum before the carries are taken in. -/
def accumulate (data : List UInt8) (length : UInt32) : Option UInt32 :=
  match sumHalves data (length / 2).toNat 0 with
  | none => none
  | some sum =>
      if length &&& 1 ≠ 0 then (data[(length - 1).toNat]?).map fun b ↦ sum + b.toUInt32
      else some sum

/-- The folding loop, stopped after `n` rounds. -/
def foldLoop : ℕ → UInt32 → Option UInt32
  | 0, sum => if sum >>> 16 ≠ 0 then none else some sum
  | n + 1, sum =>
      if sum >>> 16 ≠ 0 then foldLoop n ((sum &&& (0xFFFF : UInt32)) + (sum >>> 16))
      else some sum

/-- `checksum`. Each round of the folding loop makes the sum smaller, so that it has ended after as
many rounds as its value. -/
def checksum (data : List UInt8) (length : UInt32) : Option UInt16 :=
  match accumulate data length with
  | none => none
  | some sum => (foldLoop sum.toNat sum).map fun sum ↦ (~~~sum).toUInt16

theorem ntons_eq_swapHalf (n : UInt16) : ntons n = swapHalf n := by
  have hn := n.toNat_lt
  have hlow : (n &&& 0xFF).toNat = n.toNat % 2 ^ 8 := by
    rw [UInt16.toNat_and, show (0xFF : UInt16).toNat = 2 ^ 8 - 1 from rfl,
      Nat.and_two_pow_sub_one_eq_mod]
  have hhigh : ((n &&& 0xFF00) >>> 8).toNat = n.toNat / 2 ^ 8 := by
    rw [UInt16.toNat_shiftRight, UInt16.toNat_and, show (8 : UInt16).toNat % 16 = 8 from rfl,
      Nat.shiftRight_and_distrib, show (0xFF00 : UInt16).toNat >>> 8 = 2 ^ 8 - 1 from rfl,
      Nat.and_two_pow_sub_one_eq_mod, Nat.shiftRight_eq_div_pow]
    omega
  have hshift : ((n &&& 0xFF) <<< 8).toNat = (n.toNat % 2 ^ 8) <<< 8 := by
    rw [UInt16.toNat_shiftLeft, hlow, show (8 : UInt16).toNat % 16 = 8 from rfl, Nat.shiftLeft_eq]
    omega
  apply UInt16.toNat_inj.mp
  rw [ntons, UInt16.toNat_or, hshift, hhigh, Nat.or_comm,
    or_shiftLeft_of_lt (show n.toNat / 2 ^ 8 < 2 ^ 8 by omega), toNat_swapHalf]

/-! ## The sum -/

theorem toNat_div_two (length : UInt32) : (length / 2).toNat = length.toNat / 2 :=
  UInt32.toNat_div _ _

theorem and_one_ne_zero_iff (length : UInt32) : length &&& 1 ≠ 0 ↔ length.toNat % 2 = 1 := by
  rw [Ne, ← UInt32.toNat_inj, UInt32.toNat_and, show (1 : UInt32).toNat = 2 ^ 1 - 1 from rfl,
    Nat.and_two_pow_sub_one_eq_mod, UInt32.toNat_zero]
  omega

/-- The sum of the halfwords of a block, without a bound. -/
def halvesSum (data : List UInt8) : ℕ := ((leHalves data).map UInt16.toNat).sum

theorem halvesSum_append {a : List UInt8} (ha : a.length % 2 = 0) (b : List UInt8) :
    halvesSum (a ++ b) = halvesSum a + halvesSum b := sum_leHalves_append ha b

theorem halvesSum_lt {data : List UInt8} (h : data.length ≤ 65535) : halvesSum data < 2 ^ 32 := by
  have hle := sum_toNat_le (leHalves data)
  rw [length_leHalves] at hle
  rw [halvesSum]
  omega

/-- The loop has a result where there is memory for it, and adds up the halfwords. -/
theorem exists_sumHalves {data : List UInt8} {n : ℕ} (sum : UInt32) (hmem : 2 * n ≤ data.length) :
    ∃ sum', sumHalves data n sum = some sum' ∧
      sum'.toNat = (sum.toNat + halvesSum (data.take (2 * n))) % 2 ^ 32 := by
  induction n generalizing data sum with
  | zero =>
    refine ⟨sum, by cases data <;> rfl, ?_⟩
    exact (Nat.mod_eq_of_lt sum.toNat_lt).symm
  | succ n ih =>
    match data with
    | [] => simp at hmem
    | [_] => rw [List.length_singleton] at hmem; omega
    | a :: b :: data =>
      rw [List.length_cons, List.length_cons] at hmem
      obtain ⟨sum', hsum', hnat⟩ :=
        ih (sum + (leHalf a b).toUInt32) (show 2 * n ≤ data.length by omega)
      refine ⟨sum', hsum', ?_⟩
      rw [hnat, UInt32.toNat_add, UInt16.toNat_toUInt32, Nat.mod_add_mod, Nat.add_assoc]
      rfl

theorem sumHalves_eq_none {data : List UInt8} {n : ℕ} (sum : UInt32) (h : data.length < 2 * n) :
    sumHalves data n sum = none := by
  induction n generalizing data sum with
  | zero => omega
  | succ n ih =>
    match data with
    | [] => rfl
    | [_] => rfl
    | a :: b :: data =>
      rw [List.length_cons, List.length_cons] at h
      exact ih _ (by omega)

theorem toNat_sub_one {length : UInt32} (hodd : length.toNat % 2 = 1) :
    (length - 1).toNat = 2 * (length.toNat / 2) := by
  have hle : 1 ≤ length := UInt32.le_iff_toNat_le.mpr (show 1 ≤ length.toNat by omega)
  rw [UInt32.toNat_sub_of_le _ _ hle, UInt32.toNat_one]
  omega

/-- **The accumulator.** Where there is memory for it, the sum is that of the halfwords of the
block, up to 32 bits. -/
theorem exists_accumulate {data : List UInt8} {length : UInt32}
    (hmem : length.toNat ≤ data.length) :
    ∃ sum, accumulate data length = some sum ∧
      sum.toNat = halvesSum (data.take length.toNat) % 2 ^ 32 := by
  set m := length.toNat / 2 with hm
  obtain ⟨sum, hsum, hnat⟩ := exists_sumHalves 0 (show 2 * m ≤ data.length by omega)
  rw [UInt32.toNat_zero, Nat.zero_add] at hnat
  rw [accumulate, toNat_div_two, ← hm, hsum]
  simp only
  split_ifs with hodd
  · -- the odd byte is a halfword of its own, with nothing in its high byte
    rw [and_one_ne_zero_iff] at hodd
    have hlt : 2 * m < data.length := by omega
    have htake : data.take length.toNat = data.take (2 * m) ++ [data[2 * m]] := by
      rw [show length.toNat = 2 * m + 1 by omega, List.take_add_one, List.getElem?_eq_getElem hlt]
      rfl
    have heven : (data.take (2 * m)).length % 2 = 0 := by
      rw [List.length_take_of_le (by omega)]
      omega
    rw [toNat_sub_one hodd, List.getElem?_eq_getElem hlt]
    refine ⟨_, rfl, ?_⟩
    rw [UInt32.toNat_add, UInt8.toNat_toUInt32, hnat, Nat.mod_add_mod, htake,
      halvesSum_append heven]
    simp [halvesSum, leHalves, toNat_leHalf]
  · rw [and_one_ne_zero_iff] at hodd
    exact ⟨sum, rfl, by rw [hnat, show length.toNat = 2 * m by omega]⟩

theorem accumulate_eq_none {data : List UInt8} {length : UInt32}
    (h : data.length < length.toNat) : accumulate data length = none := by
  rw [accumulate, toNat_div_two]
  by_cases hshort : data.length < 2 * (length.toNat / 2)
  · rw [sumHalves_eq_none 0 hshort]
  · have hodd : length.toNat % 2 = 1 := by omega
    obtain ⟨sum, hsum, -⟩ := exists_sumHalves 0 (not_lt.mp hshort)
    rw [hsum]
    simp only
    rw [if_pos ((and_one_ne_zero_iff length).mpr hodd), toNat_sub_one hodd,
      List.getElem?_eq_none (by omega)]
    rfl

/-! ## The carries -/

theorem toNat_shiftRight_sixteen (sum : UInt32) : (sum >>> 16).toNat = sum.toNat / 2 ^ 16 := by
  rw [UInt32.toNat_shiftRight, show (16 : UInt32).toNat % 32 = 16 from rfl,
    Nat.shiftRight_eq_div_pow]

/-- One round takes the carries in, and does not overflow. -/
theorem toNat_foldStep (sum : UInt32) : ((sum &&& (0xFFFF : UInt32)) + (sum >>> 16)).toNat
    = sum.toNat % 2 ^ 16 + sum.toNat / 2 ^ 16 := by
  have hlt := sum.toNat_lt
  rw [UInt32.toNat_add, UInt32.toNat_and, show (0xFFFF : UInt32).toNat = 2 ^ 16 - 1 from rfl,
    Nat.and_two_pow_sub_one_eq_mod, toNat_shiftRight_sixteen]
  omega

theorem shiftRight_sixteen_ne_zero_iff (sum : UInt32) : sum >>> 16 ≠ 0 ↔ 2 ^ 16 ≤ sum.toNat := by
  rw [Ne, ← UInt32.toNat_inj, toNat_shiftRight_sixteen, UInt32.toNat_zero]
  omega

/-- **The folding loop ends**, and with the residue of the sum. -/
theorem exists_foldLoop {n : ℕ} {sum : UInt32} (hn : sum.toNat ≤ n) :
    ∃ sum', foldLoop n sum = some sum' ∧ sum'.toNat = residue sum.toNat := by
  induction n generalizing sum with
  | zero =>
    rw [foldLoop, if_neg (by rw [shiftRight_sixteen_ne_zero_iff]; omega)]
    exact ⟨sum, rfl, (residue_eq_self (by omega)).symm⟩
  | succ n ih =>
    rw [foldLoop]
    split_ifs with hcarry
    · rw [shiftRight_sixteen_ne_zero_iff] at hcarry
      have hstep := toNat_foldStep sum
      -- the carry counts 1 at the bottom for 2 ^ 16 at the top
      have hless : ((sum &&& (0xFFFF : UInt32)) + (sum >>> 16)).toNat ≤ n := by omega
      obtain ⟨sum', hfold, hnat⟩ := ih hless
      exact ⟨sum', hfold, by rw [hnat, hstep, residue_carry]⟩
    · rw [shiftRight_sixteen_ne_zero_iff] at hcarry
      exact ⟨sum, rfl, (residue_eq_self (by omega)).symm⟩

/-! ## The checksum -/

theorem toNat_complement_toUInt16 {sum : UInt32} (h : sum.toNat ≤ 65535) :
    (~~~sum).toUInt16.toNat = 65535 - sum.toNat := by
  rw [UInt32.toNat_toUInt16, UInt32.toNat_not, UInt32.size]
  omega

/-- **What `checksum` returns.** -/
theorem checksum_eq {data : List UInt8} {length : UInt32} (hmem : length.toNat ≤ data.length)
    (hlen : length.toNat ≤ 65535) :
    checksum data length = some (~~~onesSum (leHalves (data.take length.toNat))) := by
  obtain ⟨sum, hsum, hnat⟩ := exists_accumulate hmem
  have htake : (data.take length.toNat).length ≤ 65535 :=
    (List.length_take_le _ _).trans hlen
  rw [Nat.mod_eq_of_lt (halvesSum_lt htake)] at hnat
  obtain ⟨sum', hfold, hnat'⟩ := exists_foldLoop (le_refl sum.toNat)
  rw [checksum, hsum]
  simp only
  rw [hfold, Option.map_some, Option.some.injEq]
  apply UInt16.toNat_inj.mp
  have hle : sum'.toNat ≤ 65535 := hnat' ▸ residue_le _
  rw [toNat_complement_toUInt16 hle, toNat_complement, toNat_onesSum, hnat', hnat, halvesSum]

theorem isSome_checksum_iff (data : List UInt8) (length : UInt32) :
    (checksum data length).isSome ↔ length.toNat ≤ data.length := by
  by_cases hmem : length.toNat ≤ data.length
  · obtain ⟨sum, hsum, -⟩ := exists_accumulate hmem
    obtain ⟨sum', hfold, -⟩ := exists_foldLoop (le_refl sum.toNat)
    rw [checksum, hsum]
    simp [hfold, hmem]
  · rw [checksum, accumulate_eq_none (not_le.mp hmem)]
    simp [hmem]

/-- **`checksum` is the Internet checksum, whatever the byte order.** Of any block of up to 65535
bytes it returns a number whose two bytes, stored lowest first, are those of the Internet checksum
in network order. The accumulator is at every point of its loop, and at its end, the sum itself; the
folding loop ends, with a sum of 16 bits. -/
theorem checksum_eq_internetChecksum (b : List UInt8) (hb : b.length ≤ 65535) :
    (∃ c, checksum b (UInt32.ofNat b.length) = some c ∧
      halfBytes c = (halfBytes (internetChecksum b)).reverse) ∧
    (∀ n ≤ b.length / 2, ∃ sum, sumHalves b n 0 = some sum ∧
      sum.toNat = halvesSum (b.take (2 * n))) ∧
    ∃ sum sum', accumulate b (UInt32.ofNat b.length) = some sum ∧ sum.toNat = halvesSum b ∧
      foldLoop sum.toNat sum = some sum' ∧ sum'.toNat < 2 ^ 16 := by
  have hlen : (UInt32.ofNat b.length).toNat = b.length :=
    UInt32.toNat_ofNat_of_lt' (by simp only [UInt32.size]; omega)
  refine ⟨⟨_, checksum_eq hlen.le (hlen.trans_le hb), ?_⟩, fun n hn ↦ ?_, ?_⟩
  · rw [hlen, List.take_length, halfBytes_complement_onesSum]
  · obtain ⟨sum, hsum, hnat⟩ := exists_sumHalves 0 (show 2 * n ≤ b.length by omega)
    have hshort : (b.take (2 * n)).length ≤ 65535 := by
      rw [List.length_take]
      omega
    rw [UInt32.toNat_zero, Nat.zero_add, Nat.mod_eq_of_lt (halvesSum_lt hshort)] at hnat
    exact ⟨sum, hsum, hnat⟩
  · obtain ⟨sum, hsum, hnat⟩ := exists_accumulate hlen.le
    rw [hlen, List.take_length, Nat.mod_eq_of_lt (halvesSum_lt hb)] at hnat
    obtain ⟨sum', hfold, hnat'⟩ := exists_foldLoop (le_refl sum.toNat)
    exact ⟨sum, sum', hsum, hnat, hfold, Nat.lt_succ_of_le (hnat' ▸ residue_le _)⟩

/-- Three bytes, with a carry out of the top. -/
theorem checksum_three_bytes :
    ∃ c, checksum [1, 2, 0xFF] 3 = some c ∧ halfBytes c = [0xFF, 0xFC] := by
  obtain ⟨⟨c, hc, hbytes⟩, -⟩ := checksum_eq_internetChecksum [1, 2, 0xFF] (by decide)
  exact ⟨c, hc, hbytes.trans (by decide)⟩

end ZanOS
