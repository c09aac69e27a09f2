import Mathlib.Tactic.Common
import ZanOS.Foundation.Memory

/-!
# Texts in pieces

A text can lie in memory in several pieces, one object each. What is read from it or stored into it
at an offset is then in the first piece, behind it, or partly here and partly there. The lemmas say
what that comes to for `slice` and `splice`, so that a loop over the pieces can be followed by
induction and the result stated about the text as a whole.
-/

namespace Foundation

variable {α : Type*}

theorem slice_append_right (a b : List α) (i n : ℕ) :
    slice (a ++ b) (a.length + i) n = slice b i n := by
  rw [slice, ← List.drop_drop, List.drop_left, slice]

theorem slice_append {a : List α} {i : ℕ} (h : i ≤ a.length) (b : List α) (n : ℕ) :
    slice (a ++ b) i n = slice a i n ++ slice b 0 (n - (a.length - i)) := by
  rw [slice, List.drop_append_of_le_length h, List.take_append, List.length_drop, slice, slice,
    List.drop_zero]

theorem splice_append_right (a b : List α) (off : ℕ) (l : List α) :
    splice (a ++ b) (a.length + off) l = a ++ splice b off l := by
  rw [splice, List.take_length_add_append, Nat.add_assoc, ← List.drop_drop, List.drop_left, splice]
  simp only [List.append_assoc]

theorem splice_append_left {a l : List α} {off : ℕ} (h : off + l.length ≤ a.length) (b : List α) :
    splice (a ++ b) off l = splice a off l ++ b := by
  rw [splice, List.take_append_of_le_length (by omega), List.drop_append_of_le_length h, splice]
  simp only [List.append_assoc]

/-- Cells that go past the end of the first piece. -/
theorem splice_append {a l : List α} {off : ℕ} (hoff : off ≤ a.length)
    (h : a.length ≤ off + l.length) (b : List α) :
    splice (a ++ b) off l
      = splice a off (l.take (a.length - off)) ++ splice b 0 (l.drop (a.length - off)) := by
  have hlen : (l.take (a.length - off)).length = a.length - off := List.length_take_of_le (by omega)
  have hdrop : (a ++ b).drop (off + l.length) = b.drop (l.drop (a.length - off)).length := by
    rw [List.length_drop, show off + l.length = a.length + (l.length - (a.length - off)) by omega,
      ← List.drop_drop, List.drop_left]
  have hnil : a.drop (off + (l.take (a.length - off)).length) = [] :=
    List.drop_eq_nil_of_le (by omega)
  rw [splice, List.take_append_of_le_length hoff, hdrop, splice, hnil, List.append_nil,
    splice_zero, List.append_assoc, List.append_assoc (a.take off),
    ← List.append_assoc (l.take _), List.take_append_drop]

theorem splice_zero_append (a b l : List α) :
    splice (a ++ b) 0 l
      = splice a 0 (l.take (min l.length a.length))
        ++ splice b 0 (l.drop (min l.length a.length)) := by
  rcases Nat.le_total l.length a.length with h | h
  · rw [Nat.min_eq_left h, List.take_length, List.drop_length, splice_nil,
      splice_append_left (by omega)]
  · rw [Nat.min_eq_right h, splice_append (Nat.zero_le _) (by omega), Nat.sub_zero]

theorem slice_splice {m l : List α} {off : ℕ} (h : off + l.length ≤ m.length) :
    slice (splice m off l) off l.length = l := by
  have htake : (m.take off).length = off := List.length_take_of_le (by omega)
  rw [slice, splice, List.append_assoc, List.drop_left' htake, List.take_left]

end Foundation
