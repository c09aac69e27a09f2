import Mathlib.Algebra.BigOperators.Group.List.Basic
import ZanOS.Foundation.Buffer
import ZanOS.Foundation.Word

/-!
# Memory laid out in fields

An object in memory is the list of its bytes, and every access to it is checked: a load or a store
that is not inside the object has no result. Numbers are stored lowest byte first.

A packed structure is a list of fields, one directly behind the other, so its memory is the
`flatten` of the list. An access at the offset of a field concerns that field alone: a load returns
it, and a store replaces it in the list (`poke_flatten`). That is all a proof about code that builds
a structure in place has to know about memory; the offsets are sums of lengths.
-/

namespace Foundation

variable {α : Type*}

/-! ## Checked accesses -/

/-- The `n` cells from `i` on. -/
def slice (m : List α) (i n : ℕ) : List α := (m.drop i).take n

theorem length_slice {m : List α} {i n : ℕ} (h : i + n ≤ m.length) : (slice m i n).length = n := by
  rw [slice, List.length_take, List.length_drop]
  omega

theorem getElem?_slice {m : List α} {i n k : ℕ} (h : k < n) : (slice m i n)[k]? = m[i + k]? := by
  rw [slice, List.getElem?_take_of_lt h, List.getElem?_drop]

theorem getElem?_slice_zero {m : List α} {i n : ℕ} (h : 0 < n) : (slice m i n)[0]? = m[i]? :=
  getElem?_slice h

/-- Store some cells. -/
def poke (m : List α) (i : ℕ) (l : List α) : Option (List α) :=
  if i + l.length ≤ m.length then some (splice m i l) else none

/-- Load `n` cells. -/
def loadVector (m : List α) (i n : ℕ) : Option (Vector α n) :=
  if h : i + n ≤ m.length then some ⟨(slice m i n).toArray, length_slice h⟩ else none

/-- Load a halfword. -/
def load16 (m : List UInt8) (i : ℕ) : Option UInt16 :=
  match m.drop i with
  | a :: b :: _ => some (leHalf a b)
  | _ => none

/-- Load a word. -/
def load32 (m : List UInt8) (i : ℕ) : Option UInt32 :=
  match m.drop i with
  | a :: b :: c :: d :: _ => some (leWord a b c d)
  | _ => none

@[simp] theorem length_halfBytes (h : UInt16) : (halfBytes h).length = 2 := rfl

@[simp] theorem length_wordBytes (w : UInt32) : (wordBytes w).length = 4 := rfl

theorem length_splice {m l : List α} {i : ℕ} (h : i + l.length ≤ m.length) :
    (splice m i l).length = m.length := by
  rw [splice, List.length_append, List.length_append, List.length_take, List.length_drop]
  omega

theorem poke_eq_none {m l : List α} {i : ℕ} (h : m.length < i + l.length) : poke m i l = none :=
  if_neg (Nat.not_le.mpr h)

theorem length_of_poke {m m' l : List α} {i : ℕ} (h : poke m i l = some m') :
    i + l.length ≤ m.length ∧ m'.length = m.length := by
  rw [poke] at h
  split_ifs at h with hfits
  exact ⟨hfits, by rw [← Option.some.inj h, length_splice hfits]⟩

/-! ## Cells one at a time

A loop that moves a slice cell by cell takes it apart at one of its ends, and puts the splice
together there. -/

theorem slice_zero (m : List α) (i : ℕ) : slice m i 0 = [] := List.take_zero

theorem slice_succ {m : List α} {i n : ℕ} {b : α} (h : m[i]? = some b) :
    slice m i (n + 1) = b :: slice m (i + 1) n := by
  obtain ⟨hlt, rfl⟩ := List.getElem?_eq_some_iff.mp h
  rw [slice, List.drop_eq_getElem_cons hlt, List.take_succ_cons, slice]

theorem slice_concat {m : List α} {i n : ℕ} {b : α} (h : m[i + n]? = some b) :
    slice m i (n + 1) = slice m i n ++ [b] := by
  rw [slice, List.take_add_one, List.getElem?_drop, h, Option.toList_some, slice]

theorem slice_set {m : List α} {i j n : ℕ} (b : α) (h : j < i ∨ i + n ≤ j) :
    slice (m.set j b) i n = slice m i n := by
  rcases h with h | h
  · rw [slice, List.drop_set_of_lt h, slice]
  · rw [slice, List.drop_set, if_neg (by omega), List.take_set_of_le (by omega), slice]

theorem poke_singleton {m : List α} {i : ℕ} (h : i < m.length) (b : α) :
    poke m i [b] = some (m.set i b) := by
  rw [poke, List.length_singleton, if_pos (Nat.succ_le_of_lt h), splice_singleton h]

theorem splice_set {m l : List α} {off : ℕ} {b : α} (h : off + l.length < m.length) :
    splice (m.set (off + l.length) b) off l = splice m off (l ++ [b]) := by
  rw [splice, splice, List.take_set_of_le (Nat.le_add_right _ _), List.length_append,
    List.length_singleton, List.drop_eq_getElem_cons (by rw [List.length_set]; exact h),
    List.getElem_set_self, List.drop_set_of_lt (Nat.lt_succ_self _)]
  simp [Nat.add_assoc]

theorem getElem?_splice {m l : List α} {off k : ℕ} (h : off ≤ m.length) (hk : k < l.length) :
    (splice m off l)[off + k]? = l[k]? := by
  rw [splice, List.append_assoc,
    List.getElem?_append_right (by rw [List.length_take_of_le h]; exact Nat.le_add_right _ _),
    List.length_take_of_le h, Nat.add_sub_cancel_left, List.getElem?_append_left hk]

theorem getElem?_splice_of_outside {m l : List α} {off i : ℕ} (h : off + l.length ≤ m.length)
    (hi : i < off ∨ off + l.length ≤ i) : (splice m off l)[i]? = m[i]? := by
  have htake : (m.take off).length = off := List.length_take_of_le (by omega)
  have hlen : (m.take off ++ l).length = off + l.length := by rw [List.length_append, htake]
  rcases hi with hi | hi
  · rw [splice, List.append_assoc, List.getElem?_append_left (by rw [htake]; exact hi),
      List.getElem?_take_of_lt hi]
  · rw [splice, List.getElem?_append_right (by omega), List.getElem?_drop, hlen]
    congr 1
    omega

/-! ## Numbers in memory

Memory of known size starts with a byte, a number or a vector, and what is left of the size is
behind it. -/

theorem exists_byte {l : List α} {k : ℕ} (h : k + 1 ≤ l.length) :
    ∃ b r, l = [b] ++ r ∧ k ≤ r.length := by
  match l with
  | [] => simp at h
  | b :: r => exact ⟨b, r, rfl, Nat.le_of_succ_le_succ h⟩

theorem exists_vector (n : ℕ) {l : List α} {k : ℕ} (h : k + n ≤ l.length) :
    ∃ (v : Vector α n) (r : List α), l = v.toList ++ r ∧ k ≤ r.length := by
  refine ⟨⟨(l.take n).toArray, List.length_take_of_le (by omega)⟩, l.drop n, ?_, ?_⟩
  · exact (List.take_append_drop n l).symm
  · rw [List.length_drop]
    omega

theorem exists_half {l : List UInt8} {k : ℕ} (h : k + 2 ≤ l.length) :
    ∃ v r, l = halfBytes v ++ r ∧ k ≤ r.length := by
  match l with
  | [] | [_] => simp at h
  | a :: b :: r =>
    refine ⟨leHalf a b, r, by rw [halfBytes_leHalf]; rfl, ?_⟩
    exact Nat.le_of_add_le_add_right h

theorem exists_word {l : List UInt8} {k : ℕ} (h : k + 4 ≤ l.length) :
    ∃ w r, l = wordBytes w ++ r ∧ k ≤ r.length := by
  match l with
  | [] | [_] | [_, _] | [_, _, _] => simp at h
  | a :: b :: c :: d :: r =>
    refine ⟨leWord a b c d, r, by rw [wordBytes_leWord]; rfl, ?_⟩
    exact Nat.le_of_add_le_add_right h

theorem getElem?_of_drop {m r : List α} {i : ℕ} {b : α} (h : m.drop i = [b] ++ r) :
    m[i]? = some b := by
  have hget := congrArg (fun l ↦ l[0]?) h
  rwa [List.getElem?_drop, Nat.add_zero] at hget

theorem load16_of_drop {m r : List UInt8} {i : ℕ} {v : UInt16}
    (h : m.drop i = halfBytes v ++ r) : load16 m i = some v := by
  rw [load16, h]
  exact congrArg some (leHalf_of_halfBytes v)

theorem load32_of_drop {m r : List UInt8} {i : ℕ} {w : UInt32}
    (h : m.drop i = wordBytes w ++ r) : load32 m i = some w := by
  rw [load32, h]
  exact congrArg some (leWord_of_wordBytes w)

theorem loadVector_of_drop {m r : List α} {i n : ℕ} {v : Vector α n}
    (h : m.drop i = v.toList ++ r) (hi : i ≤ m.length) : loadVector m i n = some v := by
  have hlen := congrArg List.length h
  rw [List.length_drop, List.length_append, Vector.length_toList] at hlen
  have hslice : slice m i n = v.toList := by
    rw [slice, h]
    exact List.take_left' (Vector.length_toList)
  rw [loadVector, dif_pos (by omega), Option.some.injEq]
  apply Vector.toList_inj.mp
  exact hslice

theorem exists_load16 {m : List UInt8} {i : ℕ} (h : i + 2 ≤ m.length) :
    ∃ v, load16 m i = some v := by
  obtain ⟨v, r, hdrop, -⟩ :=
    exists_half (show 0 + 2 ≤ (m.drop i).length by rw [List.length_drop]; omega)
  exact ⟨v, load16_of_drop hdrop⟩

theorem exists_load32 {m : List UInt8} {i : ℕ} (h : i + 4 ≤ m.length) :
    ∃ w, load32 m i = some w := by
  obtain ⟨w, r, hdrop, -⟩ :=
    exists_word (show 0 + 4 ≤ (m.drop i).length by rw [List.length_drop]; omega)
  exact ⟨w, load32_of_drop hdrop⟩

theorem load16_eq_none {m : List UInt8} {i : ℕ} (h : m.length < i + 2) : load16 m i = none := by
  have hlen : (m.drop i).length < 2 := by rw [List.length_drop]; omega
  rw [load16]
  split
  · rename_i hdrop
    rw [hdrop] at hlen
    simp only [List.length_cons] at hlen
    omega
  · rfl

theorem load32_eq_none {m : List UInt8} {i : ℕ} (h : m.length < i + 4) : load32 m i = none := by
  have hlen : (m.drop i).length < 4 := by rw [List.length_drop]; omega
  rw [load32]
  split
  · rename_i hdrop
    rw [hdrop] at hlen
    simp only [List.length_cons] at hlen
    omega
  · rfl

/-! ## Fields -/

section Fields

variable {fs : List (List α)} {sizes : List ℕ} {i k : ℕ} {x : List α}

/-- Where field `k` starts. -/
def fieldOffset (sizes : List ℕ) (k : ℕ) : ℕ := (sizes.take k).sum

theorem length_flatten_take (hsizes : fs.map List.length = sizes) (k : ℕ) :
    (fs.take k).flatten.length = fieldOffset sizes k := by
  rw [List.length_flatten, List.map_take, hsizes, fieldOffset]

theorem flatten_eq (hk : fs[k]? = some x) :
    fs.flatten = (fs.take k).flatten ++ (x ++ (fs.drop (k + 1)).flatten) := by
  obtain ⟨hlt, rfl⟩ := List.getElem?_eq_some_iff.mp hk
  conv_lhs => rw [← List.take_append_drop k fs, List.drop_eq_getElem_cons hlt]
  rw [List.flatten_append, List.flatten_cons]

/-- What is found at the offset of a field is the field. -/
theorem drop_flatten (hsizes : fs.map List.length = sizes) (hk : fs[k]? = some x)
    (hi : i = fieldOffset sizes k) : fs.flatten.drop i = x ++ (fs.drop (k + 1)).flatten := by
  rw [flatten_eq hk, hi, ← length_flatten_take hsizes, List.drop_left]

/-- **A store at the offset of a field** replaces that field. -/
theorem poke_flatten (hsizes : fs.map List.length = sizes) (hk : fs[k]? = some x)
    (hi : i = fieldOffset sizes k) {y : List α} (hy : x.length = y.length) :
    poke fs.flatten i y = some (fs.set k y).flatten := by
  obtain ⟨hlt, -⟩ := List.getElem?_eq_some_iff.mp hk
  have hset : (fs.set k y).flatten
      = (fs.take k).flatten ++ (y ++ (fs.drop (k + 1)).flatten) := by
    rw [flatten_eq (List.getElem?_set_self hlt), List.take_set_of_le le_rfl,
      List.drop_set_of_lt (Nat.lt_succ_self k)]
  have hfits : i + y.length ≤ fs.flatten.length := by
    rw [flatten_eq hk, hi, ← length_flatten_take hsizes, List.length_append, List.length_append]
    omega
  rw [poke, if_pos hfits, Option.some.injEq, hset, splice, flatten_eq hk, hi,
    ← length_flatten_take hsizes, List.take_left, List.append_assoc, ← List.drop_drop,
    List.drop_left, ← hy, List.drop_left]

end Fields

end Foundation
