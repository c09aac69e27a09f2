import ZanOS.Foundation.Word

/-!
# The flat address space

The memory of a 32-bit processor is a function from addresses to bytes. Addresses wrap around, so
the `n` addresses from `a` on are those at a distance of less than `n` from `a`, and no condition
on where a region lies is needed to speak of it.

A loop that copies or fills a region word by word does a part of the region in each round and the
rest in the rounds that follow. `written_written` puts the two together; for a copy the part already
written must not be read again.
-/

namespace Foundation

/-- The contents of the address space. -/
abbrev Flat := UInt32 → UInt8

/-- The memory with the `n` bytes from `dst` on replaced. What is written depends on the distance
from `dst`. -/
def written (m : Flat) (dst : UInt32) (n : ℕ) (g : UInt32 → UInt8) : Flat :=
  fun x ↦ if (x - dst).toNat < n then g (x - dst) else m x

/-- The memory with the `n` bytes from `src` on copied to `dst`. -/
def copied (m : Flat) (dst src : UInt32) (n : ℕ) : Flat := written m dst n fun t ↦ m (src + t)

/-- The memory with the `n` bytes from `dst` on replaced by `b`. -/
def filled (m : Flat) (dst : UInt32) (n : ℕ) (b : UInt8) : Flat := written m dst n fun _ ↦ b

/-- Load the word at `a`, lowest byte first. -/
def loadWord (m : Flat) (a : UInt32) : UInt32 := leWord (m a) (m (a + 1)) (m (a + 2)) (m (a + 3))

/-- Store a word at `a`, lowest byte first. -/
def storeWord (m : Flat) (a w : UInt32) : Flat := written m a 4 fun t ↦ wordByte w t.toNat

/-! ## Addresses -/

/-- Between two addresses in order, the distance from the lower one measures the interval. -/
theorem toNat_sub_lt_iff {lo hi x : UInt32} (h : lo ≤ hi) :
    (x - lo).toNat < (hi - lo).toNat ↔ lo ≤ x ∧ x < hi := by
  rw [UInt32.le_iff_toNat_le] at h
  have hx := x.toNat_lt
  have hhi := hi.toNat_lt
  rw [UInt32.toNat_sub, UInt32.toNat_sub, UInt32.le_iff_toNat_le, UInt32.lt_iff_toNat_lt]
  omega

theorem add_sub_add (x a p : UInt32) : x + p - (a + p) = x - a := by
  rw [UInt32.sub_eq_add_neg, UInt32.neg_add, UInt32.sub_eq_add_neg, UInt32.add_comm (-a),
    ← UInt32.add_assoc, UInt32.add_assoc x, UInt32.add_right_neg, UInt32.add_zero,
    ← UInt32.sub_eq_add_neg]

theorem sub_add_eq (x a p : UInt32) : x - (a + p) = x - a - p := by
  rw [UInt32.sub_eq_add_neg, UInt32.neg_add, UInt32.sub_eq_add_neg, ← UInt32.add_assoc,
    ← UInt32.sub_eq_add_neg x, ← UInt32.sub_eq_add_neg]

theorem toNat_sub_ofNat {t : UInt32} {p : ℕ} (hp : p ≤ t.toNat) :
    (t - UInt32.ofNat p).toNat = t.toNat - p := by
  have ht := t.toNat_lt
  rw [UInt32.toNat_sub, UInt32.toNat_ofNat']
  omega

theorem le_toNat_sub_ofNat {t : UInt32} {p n : ℕ} (hp : t.toNat < p) (h : p + n ≤ 2 ^ 32) :
    n ≤ (t - UInt32.ofNat p).toNat := by
  rw [UInt32.toNat_sub, UInt32.toNat_ofNat']
  omega

/-! ## Regions -/

theorem written_zero (m : Flat) (dst : UInt32) (g : UInt32 → UInt8) : written m dst 0 g = m :=
  funext fun _ ↦ if_neg (Nat.not_lt_zero _)

theorem written_congr {m : Flat} {dst : UInt32} {n : ℕ} {g g' : UInt32 → UInt8}
    (h : ∀ t, t.toNat < n → g t = g' t) : written m dst n g = written m dst n g' := by
  funext x
  rw [written, written]
  split_ifs with hx
  · exact h _ hx
  · rfl

/-- **A region written in two parts.** -/
theorem written_written {m : Flat} {dst : UInt32} {p n : ℕ} {g g' : UInt32 → UInt8}
    (h : p + n ≤ 2 ^ 32)
    (hg : ∀ t, p ≤ t.toNat → t.toNat < p + n → g' (t - UInt32.ofNat p) = g t) :
    written (written m dst p g) (dst + UInt32.ofNat p) n g' = written m dst (p + n) g := by
  funext x
  rw [written, sub_add_eq]
  by_cases hp : (x - dst).toNat < p
  · -- `x` is in the first part, and the second part does not touch it
    rw [if_neg (Nat.not_lt.mpr (le_toNat_sub_ofNat hp h)), written, written, if_pos hp,
      if_pos (hp.trans_le (Nat.le_add_right p n))]
  · rw [Nat.not_lt] at hp
    rw [toNat_sub_ofNat hp]
    by_cases hn : (x - dst).toNat < p + n
    · rw [if_pos (by omega), hg _ hp hn, written, if_pos hn]
    · rw [if_neg (by omega), written, written, if_neg (Nat.not_lt.mpr hp), if_neg hn]

/-- A copy in two parts, where the second part of the source is not in the first part of the
destination. -/
theorem copied_copied {m : Flat} {dst src : UInt32} {p n : ℕ} (h : p + n ≤ 2 ^ 32)
    (hsrc : ∀ i, p ≤ i → i < p + n → p ≤ (src + UInt32.ofNat i - dst).toNat) :
    copied (copied m dst src p) (dst + UInt32.ofNat p) (src + UInt32.ofNat p) n
      = copied m dst src (p + n) := by
  refine written_written h fun t hp hn ↦ ?_
  have hread := hsrc _ hp hn
  rw [UInt32.ofNat_toNat] at hread
  rw [UInt32.add_assoc, UInt32.add_comm (UInt32.ofNat p), UInt32.sub_add_cancel, copied, written,
    if_neg (Nat.not_lt.mpr hread)]

theorem filled_filled {m : Flat} {dst : UInt32} {b : UInt8} {p n : ℕ} (h : p + n ≤ 2 ^ 32) :
    filled (filled m dst p b) (dst + UInt32.ofNat p) n b = filled m dst (p + n) b :=
  written_written h fun _ _ _ ↦ rfl

/-! ## Words -/

theorem wordByte_loadWord (m : Flat) (a : UInt32) {j : ℕ} (hj : j < 4) :
    wordByte (loadWord m a) j = m (a + UInt32.ofNat j) := by
  have hbytes : wordBytes (loadWord m a) = [m a, m (a + 1), m (a + 2), m (a + 3)] :=
    wordBytes_leWord _ _ _ _
  simp only [wordBytes, List.cons.injEq, and_true] at hbytes
  obtain ⟨h₀, h₁, h₂, h₃⟩ := hbytes
  obtain rfl | rfl | rfl | rfl : j = 0 ∨ j = 1 ∨ j = 2 ∨ j = 3 := by omega
  · rw [h₀, show UInt32.ofNat 0 = 0 from rfl, UInt32.add_zero]
  · exact h₁
  · exact h₂
  · exact h₃

theorem storeWord_loadWord (m : Flat) (dst src : UInt32) :
    storeWord m dst (loadWord m src) = copied m dst src 4 := by
  refine written_congr fun t ht ↦ ?_
  rw [wordByte_loadWord m src ht, UInt32.ofNat_toNat]

theorem storeWord_zero (m : Flat) (dst : UInt32) : storeWord m dst 0 = filled m dst 4 0 := by
  refine written_congr fun t ht ↦ UInt8.toNat_inj.mp ?_
  rw [toNat_wordByte 0 ht, UInt32.toNat_zero, Nat.zero_div, Nat.zero_mod, UInt8.toNat_zero]

end Foundation
