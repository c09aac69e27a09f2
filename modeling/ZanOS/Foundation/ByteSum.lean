import Mathlib.Data.Nat.Digits.Lemmas
import ZanOS.Foundation.OnesComplement

/-!
# Byte strings modulo 65535

A ones' complement sum of halfwords is the number that the bytes spell in base 256, lowest first,
modulo `2 ^ 16 - 1` (`toNat_onesSum_leHalves`): `2 ^ 16` is 1 there, so that only the parity of a
byte's place counts. This is what makes it possible to sum a string in pieces, from odd places on,
or with the bytes exchanged: a piece that starts at place `n` counts `256 ^ n` times, and exchanging
bytes is multiplying by 256 once more.

Two numbers have the same `residue` if they agree modulo 65535 and on being zero. `Alike` is that
relation, and the lemmas about it say which operations respect it.
-/

namespace Foundation

/-- The number that bytes spell, lowest first. -/
def byteNumber (l : List UInt8) : ℕ := Nat.ofDigits 256 (l.map UInt8.toNat)

@[simp] theorem byteNumber_nil : byteNumber [] = 0 := rfl

theorem byteNumber_cons (b : UInt8) (l : List UInt8) :
    byteNumber (b :: l) = b.toNat + 256 * byteNumber l := by
  rw [byteNumber, List.map_cons, Nat.ofDigits_cons]
  rfl

theorem byteNumber_append (l l' : List UInt8) :
    byteNumber (l ++ l') = byteNumber l + 256 ^ l.length * byteNumber l' := by
  rw [byteNumber, List.map_append, Nat.ofDigits_append, List.length_map]
  rfl

/-! ## Numbers with the same residue -/

/-- The numbers agree modulo 65535 and on being zero. -/
def Alike (a b : ℕ) : Prop := a % 65535 = b % 65535 ∧ (a = 0 ↔ b = 0)

theorem alike_iff_residue {a b : ℕ} : Alike a b ↔ residue a = residue b := by
  have ha := residue_mod a
  have hb := residue_mod b
  have ha' := residue_eq_zero_iff a
  have hb' := residue_eq_zero_iff b
  constructor
  · rintro ⟨hmod, hzero⟩
    exact (eq_residue (residue_le a) (ha.trans hmod) (ha'.trans hzero))
  · intro h
    rw [h] at ha ha'
    exact ⟨ha.symm.trans hb, ha'.symm.trans hb'⟩

namespace Alike

variable {a b c a' b' : ℕ}

theorem refl (a : ℕ) : Alike a a := ⟨rfl, Iff.rfl⟩

theorem symm (h : Alike a b) : Alike b a := ⟨h.1.symm, h.2.symm⟩

theorem trans (h : Alike a b) (h' : Alike b c) : Alike a c := ⟨h.1.trans h'.1, h.2.trans h'.2⟩

theorem add (h : Alike a a') (h' : Alike b b') : Alike (a + b) (a' + b') := by
  obtain ⟨h₁, h₂⟩ := h
  obtain ⟨h₃, h₄⟩ := h'
  constructor <;> omega

theorem eq_residue (h : Alike a b) (ha : a ≤ 65535) : a = residue b :=
  Foundation.eq_residue ha h.1 h.2

theorem mul (h : Alike a a') (k : ℕ) : Alike (k * a) (k * a') := by
  constructor
  · rw [Nat.mul_mod, h.1, ← Nat.mul_mod]
  · rw [Nat.mul_eq_zero, Nat.mul_eq_zero, h.2]

end Alike

theorem alike_residue (a : ℕ) : Alike (residue a) a := ⟨residue_mod a, residue_eq_zero_iff a⟩

theorem alike_mul_mul (a : ℕ) : Alike (256 * (256 * a)) a := by constructor <;> omega

theorem alike_pow_mul (n a : ℕ) : Alike (256 ^ n * a) (if n % 2 = 0 then a else 256 * a) := by
  induction n with
  | zero => simpa using Alike.refl a
  | succ n ih =>
    rw [pow_succ', Nat.mul_assoc]
    refine (ih.mul 256).trans ?_
    rcases Nat.mod_two_eq_zero_or_one n with heven | hodd
    · rw [if_pos heven, if_neg (by omega)]
      exact Alike.refl _
    · rw [if_neg (by omega), if_pos (by omega)]
      exact alike_mul_mul a

/-! ## Sums of halfwords -/

/-- **The sum of the halfwords is the number the bytes spell**, modulo 65535. -/
theorem alike_sum_leHalves (l : List UInt8) :
    Alike ((leHalves l).map UInt16.toNat).sum (byteNumber l) := by
  fun_induction leHalves l with
  | case1 => exact Alike.refl 0
  | case2 a =>
    rw [List.map_singleton, List.sum_singleton, toNat_leHalf, byteNumber_cons]
    exact Alike.refl _
  | case3 a b l ih =>
    rw [List.map_cons, List.sum_cons, toNat_leHalf, byteNumber_cons, byteNumber_cons,
      Nat.mul_add, ← Nat.add_assoc]
    exact (Alike.refl _).add (ih.trans (alike_mul_mul _).symm)

theorem toNat_onesSum_leHalves (l : List UInt8) :
    (onesSum (leHalves l)).toNat = residue (byteNumber l) := by
  rw [toNat_onesSum, alike_iff_residue.mp (alike_sum_leHalves l)]

/-! ## A checksum and its check -/

/-- Behind an even number of bytes the halfwords are the same. -/
theorem alike_byteNumber_append {l : List UInt8} (h : l.length % 2 = 0) (l' : List UInt8) :
    Alike (byteNumber (l ++ l')) (byteNumber l + byteNumber l') := by
  have hpow := alike_pow_mul l.length (byteNumber l')
  rw [if_pos h] at hpow
  rw [byteNumber_append]
  exact (Alike.refl _).add hpow

theorem byteNumber_halfBytes (h : UInt16) : byteNumber (halfBytes h) = h.toNat := by
  have hh := congrArg UInt16.toNat (leHalf_of_halfBytes h)
  rw [toNat_leHalf] at hh
  simp only [halfBytes, byteNumber_cons, byteNumber_nil]
  omega

theorem byteNumber_wordBytes (w : UInt32) : byteNumber (wordBytes w) = w.toNat := by
  have hw := congrArg UInt32.toNat (leWord_of_wordBytes w)
  rw [toNat_leWord] at hw
  simp only [wordBytes, byteNumber_cons, byteNumber_nil]
  omega

/-- A halfword in its place, at an even offset, counts as it stands. -/
theorem alike_halfBytes_between {a : List UInt8} (ha : a.length % 2 = 0) (h : UInt16)
    (c : List UInt8) :
    Alike (byteNumber (a ++ halfBytes h ++ c)) (byteNumber a + byteNumber c + h.toNat) := by
  have hhalf : (halfBytes h).length % 2 = 0 := by simp [halfBytes]
  have hinner := alike_byteNumber_append hhalf c
  rw [byteNumber_halfBytes, Nat.add_comm] at hinner
  rw [List.append_assoc, Nat.add_assoc]
  exact (alike_byteNumber_append ha _).trans ((Alike.refl _).add hinner)

theorem residue_add_of_eq {s : ℕ} (h : residue s = 65535) : residue (s + 65535) = 65535 := by
  rw [← residue_residue_add, h]
  rfl

/-- **One byte cannot hide.** Two texts that differ in one byte do not both add up to `0xFFFF`. -/
theorem byte_eq_of_residue {a c : List UInt8} {b b' : UInt8}
    (h : residue (byteNumber (a ++ b :: c)) = 65535)
    (h' : residue (byteNumber (a ++ b' :: c)) = 65535) : b = b' := by
  have hmod : ∀ {s : ℕ}, residue s = 65535 → s ≡ 0 [MOD 65535] := fun {s} hs ↦ by
    rw [Nat.ModEq, ← residue_mod, hs]
  have heq := (hmod h).trans (hmod h').symm
  rw [byteNumber_append, byteNumber_append, byteNumber_cons, byteNumber_cons] at heq
  -- 256 has an inverse modulo 65535, itself
  have hcoprime : Nat.gcd 65535 (256 ^ a.length) = 1 :=
    (Nat.Coprime.pow_right a.length (by decide : Nat.Coprime 65535 256))
  have hbyte := Nat.ModEq.add_right_cancel' _
    (Nat.ModEq.cancel_left_of_coprime hcoprime (Nat.ModEq.add_left_cancel' _ heq))
  have hb := b.toNat_lt
  have hb' := b'.toNat_lt
  exact UInt8.toNat_inj.mp (Nat.ModEq.eq_of_lt_of_lt hbyte (by omega) (by omega))

end Foundation
