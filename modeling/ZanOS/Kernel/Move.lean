import ZanOS.Foundation.Memory

/-!
# Copying memory

`memcpy` and `memmove` of `strings.c`, on one flat memory that both ranges lie in and an access
outside of which has no result. Both go byte by byte. `memmove` chooses the direction: upwards if
the destination is below the source, downwards otherwise, so that a byte of the source is read
before the destination reaches it.

Each direction is proved to be one `splice` of the source, as it was at the start, into the
destination. The induction peels the range at the end where the loop is: a store there leaves the
slice still to be read as it was.
-/

namespace ZanOS

open Foundation

/-- `while (n--) *d++ = *s++`. -/
def copyUp : List UInt8 → ℕ → ℕ → ℕ → Option (List UInt8)
  | m, _, _, 0 => some m
  | m, d, s, n + 1 =>
      match m[s]? with
      | none => none
      | some c =>
          match poke m d [c] with
          | none => none
          | some m' => copyUp m' (d + 1) (s + 1) n

/-- `while (n--) *--d = *--s`. A pointer is not taken below the start of the memory. -/
def copyDown : List UInt8 → ℕ → ℕ → ℕ → Option (List UInt8)
  | m, _, _, 0 => some m
  | _, 0, _, _ + 1 => none
  | _, _ + 1, 0, _ + 1 => none
  | m, d + 1, s + 1, n + 1 =>
      match m[s]? with
      | none => none
      | some c =>
          match poke m d [c] with
          | none => none
          | some m' => copyDown m' d s n

/-- `memcpy`: the memory afterwards, and the pointer returned. -/
def memcpy (m : List UInt8) (dest src n : ℕ) : Option (List UInt8 × ℕ) :=
  (copyUp m dest src n).map (·, dest)

/-- `memmove`: the memory afterwards, and the pointer returned. -/
def memmove (m : List UInt8) (dest src n : ℕ) : Option (List UInt8 × ℕ) :=
  (if dest < src then copyUp m dest src n else copyDown m (dest + n) (src + n) n).map (·, dest)

variable {m : List UInt8} {d s n : ℕ}

/-- **Copying upwards** is right if the destination does not start inside the source. -/
theorem copyUp_eq (hd : d + n ≤ m.length) (hs : s + n ≤ m.length)
    (h : d ≤ s ∨ s + n ≤ d) : copyUp m d s n = some (splice m d (slice m s n)) := by
  induction n generalizing m d s with
  | zero => rw [copyUp, slice_zero, splice_nil]
  | succ n ih =>
    have hread := List.getElem?_eq_getElem (show s < m.length by omega)
    have hwrite : d < m.length := by omega
    rw [copyUp, hread]
    simp only
    rw [poke_singleton hwrite]
    simp only
    -- the byte stored is in front of what is still to be read, or behind it
    rw [ih (by rw [List.length_set]; omega) (by rw [List.length_set]; omega) (by omega),
      slice_set _ (by omega), ← splice_singleton hwrite, splice_cons hwrite, ← slice_succ hread]

/-- **Copying downwards** is right if the source does not start inside the destination. -/
theorem copyDown_eq (hd : d + n ≤ m.length) (hs : s + n ≤ m.length) (h : s ≤ d) :
    copyDown m (d + n) (s + n) n = some (splice m d (slice m s n)) := by
  induction n generalizing m with
  | zero => rw [copyDown, slice_zero, splice_nil]
  | succ n ih =>
    have hread := List.getElem?_eq_getElem (show s + n < m.length by omega)
    have hwrite : d + n < m.length := by omega
    have hlen : (slice m s n).length = n := length_slice (by omega)
    rw [← Nat.add_assoc, ← Nat.add_assoc, copyDown, hread]
    simp only
    rw [poke_singleton hwrite]
    simp only
    rw [ih (by rw [List.length_set]; omega) (by rw [List.length_set]; omega),
      slice_set _ (by omega), slice_concat hread]
    have hsplice := splice_set (b := m[s + n]) (show d + (slice m s n).length < m.length by omega)
    rw [hlen] at hsplice
    rw [hsplice]

/-- `memmove` puts the source, as it was, in place of the destination. -/
theorem memmove_eq (hd : d + n ≤ m.length) (hs : s + n ≤ m.length) :
    memmove m d s n = some (splice m d (slice m s n), d) := by
  rw [memmove]
  split_ifs with h
  · rw [copyUp_eq hd hs (Or.inl h.le), Option.map_some]
  · rw [copyDown_eq hd hs (Nat.not_lt.mp h), Option.map_some]

theorem memcpy_eq (hd : d + n ≤ m.length) (hs : s + n ≤ m.length) (h : d ≤ s ∨ s + n ≤ d) :
    memcpy m d s n = some (splice m d (slice m s n), d) := by
  rw [memcpy, copyUp_eq hd hs h, Option.map_some]

-- a destination inside the source is overwritten before it is read
example : memcpy [1, 2, 3] 1 0 2 = some ([1, 1, 1], 1) := by decide

/-- Whatever the overlap, `memmove` copies the bytes the source held before and changes no other,
and `memcpy` does the same if the ranges are apart or the destination is not above the source. -/
theorem exists_memmove (hd : d + n ≤ m.length) (hs : s + n ≤ m.length) :
    ∃ m', memmove m d s n = some (m', d) ∧ m'.length = m.length ∧
      (∀ k < n, m'[d + k]? = m[s + k]?) ∧
      (∀ i, i < d ∨ d + n ≤ i → m'[i]? = m[i]?) ∧
      (d + n ≤ s ∨ s + n ≤ d ∨ d ≤ s → memcpy m d s n = some (m', d)) := by
  have hlen : (slice m s n).length = n := length_slice hs
  refine ⟨splice m d (slice m s n), memmove_eq hd hs, length_splice (by rw [hlen]; exact hd),
    ?_, ?_, ?_⟩
  · intro k hk
    rw [getElem?_splice (by omega) (by rw [hlen]; exact hk), getElem?_slice hk]
  · intro i hi
    exact getElem?_splice_of_outside (by rw [hlen]; exact hd) (by rw [hlen]; exact hi)
  · intro h
    exact memcpy_eq hd hs (by omega)

/-- Three bytes moved up by one, over two of their own. -/
theorem exists_memmove_up : ∃ m', memmove [1, 2, 3, 4, 5] 1 0 3 = some (m', 1) ∧
    m'.length = 5 ∧
    (∀ k < 3, m'[1 + k]? = [1, 2, 3, 4, 5][0 + k]?) ∧
    (∀ i, i < 1 ∨ 1 + 3 ≤ i → m'[i]? = [1, 2, 3, 4, 5][i]?) ∧
    (1 + 3 ≤ 0 ∨ 0 + 3 ≤ 1 ∨ 1 ≤ 0 → memcpy [1, 2, 3, 4, 5] 1 0 3 = some (m', 1)) :=
  exists_memmove (by decide) (by decide)

end ZanOS
