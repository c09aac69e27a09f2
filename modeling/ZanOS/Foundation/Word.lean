import Mathlib.Algebra.Order.Ring.Nat
import Mathlib.Tactic.Common

/-!
# Registers as 32-bit words

What a driver does to a memory-mapped register: raise the bits of a mask, clear them, test them.
The lemmas are about an arbitrary register value, so they hold whatever the other bits are.

A data register carries a byte stream four bytes at a time, the first byte lowest. `leWords` cuts a
byte list into such words, padding the last one with zeros, and `bytes_leWords` says that reading
the words byte by byte gives the list and the padding back.
-/

namespace Foundation

/-! ## Masks -/

theorem or_and_self (x m : UInt32) : (x ||| m) &&& m = m := by
  apply UInt32.toBitVec_inj.mp
  ext i hi
  simp only [UInt32.toBitVec_and, UInt32.toBitVec_or, BitVec.getElem_and, BitVec.getElem_or]
  cases x.toBitVec[i] <;> cases m.toBitVec[i] <;> rfl

theorem and_not_and_self (x m : UInt32) : (x &&& ~~~m) &&& m = 0 := by
  apply UInt32.toBitVec_inj.mp
  ext i hi
  simp

theorem or_and_of_disjoint {b m : UInt32} (x : UInt32) (h : b &&& m = 0) :
    (x ||| b) &&& m = x &&& m := by
  apply UInt32.toBitVec_inj.mp
  rw [UInt32.toBitVec_and, UInt32.toBitVec_or, BitVec.and_or_distrib_right, ← UInt32.toBitVec_and,
    ← UInt32.toBitVec_and, h]
  exact BitVec.or_zero

/-- Acknowledging a status that has none of the mask's bits leaves them as they are. -/
theorem and_not_and_of_disjoint {b m : UInt32} (x : UInt32) (h : b &&& m = 0) :
    (x &&& ~~~b) &&& m = x &&& m := by
  -- clearing bits before raising them makes no difference
  have hor : (x &&& ~~~b) ||| b = x ||| b := by
    apply UInt32.toBitVec_inj.mp
    ext i hi
    simp only [UInt32.toBitVec_or, UInt32.toBitVec_and, UInt32.toBitVec_not, BitVec.getElem_or,
      BitVec.getElem_and, BitVec.getElem_not]
    cases x.toBitVec[i] <;> cases b.toBitVec[i] <;> rfl
  rw [← or_and_of_disjoint (x &&& ~~~b) h, hor, or_and_of_disjoint x h]

/-- Acknowledging a status that has all of the mask's bits clears them. -/
theorem and_not_and_of_and_eq {b m : UInt32} (x : UInt32) (h : b &&& m = m) :
    (x &&& ~~~b) &&& m = 0 := by
  rw [← h, ← UInt32.and_assoc, UInt32.and_assoc x, UInt32.and_comm (~~~b), UInt32.and_assoc x]
  have hzero : b &&& ~~~b = 0 := UInt32.and_not_self
  rw [hzero]
  simp

theorem and_one_eq_one_of_ne_zero {x : UInt32} (h : x &&& 1 ≠ 0) : x &&& 1 = 1 := by
  apply UInt32.toNat_inj.mp
  have hne : (x &&& 1).toNat ≠ 0 := fun heq ↦ h (UInt32.toNat_inj.mp heq)
  have hmod : (x &&& 1).toNat = x.toNat % 2 := by
    rw [UInt32.toNat_and, show (1 : UInt32).toNat = 2 ^ 1 - 1 from rfl,
      Nat.and_two_pow_sub_one_eq_mod]
  have hone : (1 : UInt32).toNat = 1 := rfl
  omega

/-! ## Little-endian byte streams -/

/-- Byte `j` of a word, counted from the lowest. -/
def wordByte (w : UInt32) (j : ℕ) : UInt8 := ((w >>> UInt32.ofNat (j * 8)) &&& 0xFF).toUInt8

/-- The four bytes of a word, lowest first. -/
def wordBytes (w : UInt32) : List UInt8 := [wordByte w 0, wordByte w 1, wordByte w 2, wordByte w 3]

/-- The word with the given bytes, lowest first. -/
def leWord (a b c d : UInt8) : UInt32 :=
  UInt32.ofNat (a.toNat + 2 ^ 8 * b.toNat + 2 ^ 16 * c.toNat + 2 ^ 24 * d.toNat)

/-- Cut a byte list into words, the last one padded with zeros. -/
def leWords : List UInt8 → List UInt32
  | [] => []
  | [a] => [leWord a 0 0 0]
  | [a, b] => [leWord a b 0 0]
  | [a, b, c] => [leWord a b c 0]
  | a :: b :: c :: d :: l => leWord a b c d :: leWords l

theorem toNat_wordByte (w : UInt32) {j : ℕ} (hj : j < 4) :
    (wordByte w j).toNat = w.toNat / 2 ^ (j * 8) % 2 ^ 8 := by
  have hshift : (UInt32.ofNat (j * 8)).toNat % 32 = j * 8 := by
    rw [UInt32.toNat_ofNat']
    omega
  rw [wordByte, UInt32.toNat_toUInt8, UInt32.toNat_and, UInt32.toNat_shiftRight, hshift,
    Nat.shiftRight_eq_div_pow, show (0xFF : UInt32).toNat = 2 ^ 8 - 1 from rfl,
    Nat.and_two_pow_sub_one_eq_mod, Nat.mod_mod]

theorem toNat_leWord (a b c d : UInt8) :
    (leWord a b c d).toNat
      = a.toNat + 2 ^ 8 * b.toNat + 2 ^ 16 * c.toNat + 2 ^ 24 * d.toNat := by
  have ha := a.toNat_lt
  have hb := b.toNat_lt
  have hc := c.toNat_lt
  have hd := d.toNat_lt
  exact UInt32.toNat_ofNat_of_lt' (by simp only [UInt32.size]; omega)

@[simp] theorem wordBytes_leWord (a b c d : UInt8) : wordBytes (leWord a b c d) = [a, b, c, d] := by
  have ha := a.toNat_lt
  have hb := b.toNat_lt
  have hc := c.toNat_lt
  have hd := d.toNat_lt
  have hbyte : ∀ {j : ℕ} {x : UInt8}, j < 4 →
      (leWord a b c d).toNat / 2 ^ (j * 8) % 2 ^ 8 = x.toNat → wordByte (leWord a b c d) j = x :=
    fun hj h ↦ UInt8.toNat_inj.mp ((toNat_wordByte _ hj).trans h)
  have h₀ : wordByte (leWord a b c d) 0 = a := hbyte (by decide) (by rw [toNat_leWord]; omega)
  have h₁ : wordByte (leWord a b c d) 1 = b := hbyte (by decide) (by rw [toNat_leWord]; omega)
  have h₂ : wordByte (leWord a b c d) 2 = c := hbyte (by decide) (by rw [toNat_leWord]; omega)
  have h₃ : wordByte (leWord a b c d) 3 = d := hbyte (by decide) (by rw [toNat_leWord]; omega)
  rw [wordBytes, h₀, h₁, h₂, h₃]

theorem leWord_of_wordBytes (w : UInt32) :
    leWord (wordByte w 0) (wordByte w 1) (wordByte w 2) (wordByte w 3) = w := by
  have hw := w.toNat_lt
  apply UInt32.toNat_inj.mp
  rw [toNat_leWord, toNat_wordByte w (by decide), toNat_wordByte w (by decide),
    toNat_wordByte w (by decide), toNat_wordByte w (by decide)]
  omega

theorem or_shiftLeft_of_lt {x y i : ℕ} (hx : x < 2 ^ i) : x ||| y <<< i = x + 2 ^ i * y := by
  rw [Nat.or_comm, ← Nat.shiftLeft_add_eq_or_of_lt hx, Nat.shiftLeft_eq, Nat.add_comm,
    Nat.mul_comm]

theorem leWord_eq_or (a b c d : UInt8) :
    leWord a b c d
      = a.toUInt32 ||| b.toUInt32 <<< 8 ||| c.toUInt32 <<< 16 ||| d.toUInt32 <<< 24 := by
  have ha := a.toNat_lt
  have hb := b.toNat_lt
  have hc := c.toNat_lt
  have hd := d.toNat_lt
  have hshift : ∀ {x : UInt8} {s : UInt32} {i : ℕ}, s.toNat = i → i ≤ 24 →
      (x.toUInt32 <<< s).toNat = x.toNat <<< i := by
    intro x s i hs hi
    have hx := x.toNat_lt
    have hpow : 2 ^ i ≤ 2 ^ 24 := Nat.pow_le_pow_right (by decide) hi
    have hlt : x.toNat * 2 ^ i < 2 ^ 32 :=
      (Nat.mul_lt_mul_of_lt_of_le hx hpow (by decide)).trans_le (by decide)
    rw [UInt32.toNat_shiftLeft, hs, UInt8.toNat_toUInt32, Nat.mod_eq_of_lt (show i < 32 by omega),
      Nat.shiftLeft_eq, Nat.mod_eq_of_lt hlt]
  apply UInt32.toNat_inj.mp
  rw [toNat_leWord, UInt32.toNat_or, UInt32.toNat_or, UInt32.toNat_or,
    hshift (show (8 : UInt32).toNat = 8 from rfl) (by decide),
    hshift (show (16 : UInt32).toNat = 16 from rfl) (by decide),
    hshift (show (24 : UInt32).toNat = 24 from rfl) (by decide), UInt8.toNat_toUInt32,
    or_shiftLeft_of_lt ha,
    or_shiftLeft_of_lt (show a.toNat + 2 ^ 8 * b.toNat < 2 ^ 16 by omega),
    or_shiftLeft_of_lt (show a.toNat + 2 ^ 8 * b.toNat + 2 ^ 16 * c.toNat < 2 ^ 24 by omega)]

theorem and_mask_shiftLeft (x w i : ℕ) :
    x &&& (2 ^ w - 1) <<< i = (x / 2 ^ i % 2 ^ w) * 2 ^ i := by
  rw [← Nat.and_two_pow_sub_one_eq_mod, ← Nat.shiftRight_eq_div_pow, ← Nat.shiftLeft_eq]
  apply Nat.eq_of_testBit_eq
  intro j
  rw [Nat.testBit_and, Nat.testBit_shiftLeft, Nat.testBit_shiftLeft, Nat.testBit_and,
    Nat.testBit_shiftRight]
  by_cases hj : i ≤ j
  · rw [Nat.add_sub_of_le hj]
    simp [hj]
  · simp [hj]

theorem or_mask_eq_leWord (x : UInt32) :
    ((x &&& 0x000000ff) <<< 24) ||| ((x &&& 0x0000ff00) <<< 8) ||| ((x &&& 0x00ff0000) >>> 8)
        ||| ((x &&& 0xff000000) >>> 24)
      = leWord (wordByte x 3) (wordByte x 2) (wordByte x 1) (wordByte x 0) := by
  -- a byte of the word, cut out in its place
  have hfield : ∀ (m : UInt32) (j : ℕ), j < 4 → m.toNat = (2 ^ 8 - 1) <<< (j * 8) →
      (x &&& m).toNat = (wordByte x j).toNat * 2 ^ (j * 8) := by
    intro m j hj hm
    rw [UInt32.toNat_and, hm, and_mask_shiftLeft, toNat_wordByte x hj]
  have h₀ : (x &&& 0x000000ff) = (wordByte x 0).toUInt32 := by
    apply UInt32.toNat_inj.mp
    rw [hfield _ 0 (by decide) rfl, UInt8.toNat_toUInt32, Nat.zero_mul, pow_zero, Nat.mul_one]
  have h₁ : (x &&& 0x0000ff00) <<< 8 = (wordByte x 1).toUInt32 <<< 16 := by
    apply UInt32.toNat_inj.mp
    rw [UInt32.toNat_shiftLeft, hfield 0x0000ff00 1 (by decide) rfl, UInt32.toNat_shiftLeft,
      UInt8.toNat_toUInt32]
    simp only [UInt32.reduceToNat, Nat.shiftLeft_eq, Nat.reduceMod]
    omega
  have h₂ : (x &&& 0x00ff0000) >>> 8 = (wordByte x 2).toUInt32 <<< 8 := by
    have hb := (wordByte x 2).toNat_lt
    apply UInt32.toNat_inj.mp
    rw [UInt32.toNat_shiftRight, hfield 0x00ff0000 2 (by decide) rfl, UInt32.toNat_shiftLeft,
      UInt8.toNat_toUInt32]
    simp only [UInt32.reduceToNat, Nat.shiftLeft_eq, Nat.shiftRight_eq_div_pow, Nat.reduceMod]
    omega
  have h₃ : (x &&& 0xff000000) >>> 24 = (wordByte x 3).toUInt32 := by
    apply UInt32.toNat_inj.mp
    rw [UInt32.toNat_shiftRight, hfield 0xff000000 3 (by decide) rfl, UInt8.toNat_toUInt32]
    simp only [UInt32.reduceToNat, Nat.shiftRight_eq_div_pow, Nat.reduceMod]
    omega
  have hreverse : ∀ a b c d : UInt32, a ||| b ||| c ||| d = d ||| c ||| b ||| a := by
    intro a b c d
    rw [UInt32.or_comm, UInt32.or_comm (a ||| b), UInt32.or_comm a, ← UInt32.or_assoc,
      ← UInt32.or_assoc]
  rw [h₀, h₁, h₂, h₃, leWord_eq_or, hreverse]

theorem toNat_leWord_and (a b c d : UInt8) :
    (leWord a b c d &&& 0xFFFF).toNat = a.toNat + 2 ^ 8 * b.toNat := by
  have ha := a.toNat_lt
  have hb := b.toNat_lt
  rw [UInt32.toNat_and, toNat_leWord, show (0xFFFF : UInt32).toNat = 2 ^ 16 - 1 from rfl,
    Nat.and_two_pow_sub_one_eq_mod]
  omega

theorem length_leWords (l : List UInt8) : (leWords l).length = (l.length + 3) / 4 := by
  fun_induction leWords l with
  | case1 => rfl
  | case2 => simp
  | case3 => simp
  | case4 => simp
  | case5 a b c d l ih =>
    rw [List.length_cons, ih]
    simp only [List.length_cons]
    omega

/-- Reading the words byte by byte gives the list back, then the padding. -/
theorem bytes_leWords (l : List UInt8) : ∃ n, (leWords l).flatMap wordBytes
    = l ++ List.replicate n 0 := by
  fun_induction leWords l with
  | case1 => exact ⟨0, rfl⟩
  | case2 a => exact ⟨3, by simp⟩
  | case3 a b => exact ⟨2, by simp⟩
  | case4 a b c => exact ⟨1, by simp⟩
  | case5 a b c d l ih =>
    obtain ⟨n, hn⟩ := ih
    exact ⟨n, by rw [List.flatMap_cons, hn, wordBytes_leWord]; rfl⟩

theorem length_flatMap_wordBytes (ws : List UInt32) :
    (ws.flatMap wordBytes).length = 4 * ws.length := by
  induction ws with
  | nil => rfl
  | cons w ws ih =>
    rw [List.flatMap_cons, List.length_append, ih, List.length_cons, wordBytes]
    simp only [List.length_cons, List.length_nil]
    omega

theorem flatMap_wordBytes_leWords (l : List UInt8) : (leWords l).flatMap wordBytes
    = l ++ List.replicate (4 * ((l.length + 3) / 4) - l.length) 0 := by
  obtain ⟨n, hn⟩ := bytes_leWords l
  have hlen := congrArg List.length hn
  rw [length_flatMap_wordBytes, length_leWords, List.length_append, List.length_replicate] at hlen
  rw [hn, hlen, Nat.add_sub_cancel_left]

/-! ## Halfwords -/

/-- The halfword with the given bytes, lowest first. -/
def leHalf (a b : UInt8) : UInt16 := UInt16.ofNat (a.toNat + 2 ^ 8 * b.toNat)

/-- The two bytes of a halfword, lowest first. -/
def halfBytes (h : UInt16) : List UInt8 := [h.toUInt8, (h >>> 8).toUInt8]

theorem toNat_leHalf (a b : UInt8) : (leHalf a b).toNat = a.toNat + 2 ^ 8 * b.toNat := by
  have ha := a.toNat_lt
  have hb := b.toNat_lt
  exact UInt16.toNat_ofNat_of_lt' (by simp only [UInt16.size]; omega)

theorem toNat_toUInt8_shiftRight (h : UInt16) :
    (h >>> 8).toUInt8.toNat = h.toNat / 2 ^ 8 := by
  have hh := h.toNat_lt
  rw [UInt16.toNat_toUInt8, UInt16.toNat_shiftRight, show (8 : UInt16).toNat % 16 = 8 from rfl,
    Nat.shiftRight_eq_div_pow]
  omega

@[simp] theorem halfBytes_leHalf (a b : UInt8) : halfBytes (leHalf a b) = [a, b] := by
  have ha := a.toNat_lt
  have hb := b.toNat_lt
  have h₀ : (leHalf a b).toUInt8 = a := by
    apply UInt8.toNat_inj.mp
    rw [UInt16.toNat_toUInt8, toNat_leHalf]
    omega
  have h₁ : (leHalf a b >>> 8).toUInt8 = b := by
    apply UInt8.toNat_inj.mp
    rw [toNat_toUInt8_shiftRight, toNat_leHalf]
    omega
  rw [halfBytes, h₀, h₁]

theorem leHalf_of_halfBytes (h : UInt16) : leHalf h.toUInt8 (h >>> 8).toUInt8 = h := by
  have hh := h.toNat_lt
  apply UInt16.toNat_inj.mp
  rw [toNat_leHalf, toNat_toUInt8_shiftRight, UInt16.toNat_toUInt8]
  omega

/-- The halfword with its bytes exchanged. -/
def swapHalf (h : UInt16) : UInt16 := leHalf (h >>> 8).toUInt8 h.toUInt8

theorem toNat_swapHalf (h : UInt16) :
    (swapHalf h).toNat = h.toNat / 2 ^ 8 + 2 ^ 8 * (h.toNat % 2 ^ 8) := by
  rw [swapHalf, toNat_leHalf, toNat_toUInt8_shiftRight, UInt16.toNat_toUInt8]

theorem halfBytes_swapHalf (h : UInt16) : halfBytes (swapHalf h) = (halfBytes h).reverse := by
  rw [swapHalf, halfBytes_leHalf, halfBytes]
  rfl

end Foundation
