import Mathlib.Data.List.TakeWhile
import Mathlib.Data.List.TakeDrop
import Mathlib.Tactic.Common

/-!
# Fixed-size buffers and NUL-terminated strings

A buffer of `k` cells is a `Vector α k`; a store outside it has no result. A loop that fills cells
one after the other is `storeAll`, and its effect is described on lists, where it is one `splice`:
the cells before the offset, the new ones, the cells behind them. That keeps index arithmetic out
of the proofs about the loops, which compare lists.

A pointer into memory is the list of cells from the pointer to the end of its object, so a read
past the end of the object has no result either. The string such a pointer denotes is `cstr`, the
bytes before the first NUL.
-/

namespace Foundation

variable {α : Type*}

/-! ## Splicing a list into another -/

/-- Overwrite the cells of `m` from `off` on with `l`. -/
def splice (m : List α) (off : ℕ) (l : List α) : List α :=
  m.take off ++ l ++ m.drop (off + l.length)

@[simp] theorem splice_nil (m : List α) (off : ℕ) : splice m off [] = m := by
  simp [splice]

theorem splice_zero (m l : List α) : splice m 0 l = l ++ m.drop l.length := by
  simp [splice]

theorem splice_singleton {m : List α} {off : ℕ} (h : off < m.length) (a : α) :
    splice m off [a] = m.set off a := by
  rw [splice, List.length_singleton, List.set_eq_take_append_cons_drop, if_pos h]
  simp

theorem take_splice (m : List α) {l : List α} {off : ℕ} (h : off + l.length ≤ m.length) :
    (splice m off l).take (off + l.length) = m.take off ++ l := by
  have hpre : (m.take off ++ l).length = off + l.length := by
    rw [List.length_append, List.length_take]
    omega
  rw [splice, List.take_append_of_le_length (by omega), List.take_of_length_le (by omega)]

theorem splice_splice {m l l' : List α} {off : ℕ} (h : off + l.length ≤ m.length) :
    splice (splice m off l) (off + l.length) l' = splice m off (l ++ l') := by
  have hpre : (m.take off ++ l).length = off + l.length := by
    rw [List.length_append, List.length_take]
    omega
  have hdrop : (splice m off l).drop (off + l.length + l'.length)
      = m.drop (off + (l ++ l').length) := by
    rw [splice, List.drop_append, List.drop_eq_nil_of_le (by omega), hpre, List.nil_append,
      List.drop_drop, List.length_append]
    congr 1
    omega
  rw [splice, take_splice m h, hdrop, splice, List.append_assoc (m.take off)]

theorem splice_cons {m l : List α} {off : ℕ} (h : off < m.length) (a : α) :
    splice (splice m off [a]) (off + 1) l = splice m off (a :: l) := by
  have hone : off + [a].length ≤ m.length := by rw [List.length_singleton]; omega
  have hsplice : splice (splice m off [a]) (off + [a].length) l = splice m off ([a] ++ l) :=
    splice_splice hone
  rwa [List.length_singleton, List.singleton_append] at hsplice

/-! ## Checked stores -/

variable {k : ℕ}

/-- Store one cell; a store outside the buffer has no result. -/
def store (buf : Vector α k) (i : ℕ) (a : α) : Option (Vector α k) :=
  if h : i < k then some (buf.set i a) else none

theorem store_eq_some {buf : Vector α k} {i : ℕ} (h : i < k) (a : α) :
    store buf i a = some (buf.set i a) := by
  rw [store, dif_pos h]

theorem toList_set_eq_splice {buf : Vector α k} {i : ℕ} (h : i < k) (a : α) :
    (buf.set i a).toList = splice buf.toList i [a] := by
  rw [splice_singleton (by simpa using h), Vector.toList_set]

theorem toList_of_store {buf buf' : Vector α k} {i : ℕ} {a : α} (h : store buf i a = some buf') :
    i < k ∧ buf'.toList = splice buf.toList i [a] := by
  rw [store] at h
  split_ifs at h with hi
  rw [← Option.some.inj h]
  exact ⟨hi, toList_set_eq_splice hi a⟩

theorem get_set_self (buf : Vector α k) (i : Fin k) (a : α) :
    (buf.set i.val a i.isLt).get i = a :=
  Vector.getElem_set_self i.isLt

theorem get_set_of_ne (buf : Vector α k) {i j : Fin k} (h : i ≠ j) (a : α) :
    (buf.set i.val a i.isLt).get j = buf.get j :=
  Vector.getElem_set_ne i.isLt j.isLt fun hij ↦ h (Fin.ext hij)

/-- Store a list of cells, one after the other. -/
def storeAll (buf : Vector α k) (off : ℕ) : List α → Option (Vector α k)
  | [] => some buf
  | a :: l =>
      match store buf off a with
      | none => none
      | some buf' => storeAll buf' (off + 1) l

@[simp] theorem storeAll_nil (buf : Vector α k) (off : ℕ) : storeAll buf off [] = some buf := rfl

/-- **What a filling loop does**: it succeeds exactly when the cells fit, and then it splices. -/
theorem exists_storeAll (buf : Vector α k) {off : ℕ} {l : List α} (h : off + l.length ≤ k) :
    ∃ buf', storeAll buf off l = some buf' ∧ buf'.toList = splice buf.toList off l := by
  induction l generalizing buf off with
  | nil => exact ⟨buf, rfl, (splice_nil _ _).symm⟩
  | cons a l ih =>
    rw [List.length_cons] at h
    have hoff : off < k := by omega
    obtain ⟨buf', hstore, hlist⟩ := ih (buf.set off a) (show off + 1 + l.length ≤ k by omega)
    refine ⟨buf', ?_, ?_⟩
    · rw [storeAll, store_eq_some hoff]
      exact hstore
    · rw [hlist, toList_set_eq_splice hoff, splice_cons (by simpa using hoff)]

theorem storeAll_eq_none {buf : Vector α k} {off : ℕ} {l : List α} (hoff : off ≤ k)
    (h : k < off + l.length) : storeAll buf off l = none := by
  induction l generalizing buf off with
  | nil => simp at h; omega
  | cons a l ih =>
    rw [List.length_cons] at h
    rw [storeAll]
    by_cases hlt : off < k
    · rw [store_eq_some hlt]
      exact ih (by omega) (by omega)
    · rw [store, dif_neg hlt]

/-! ## NUL-terminated strings -/

/-- The string a pointer denotes: the bytes before the first NUL. -/
def cstr (m : List UInt8) : List UInt8 := m.takeWhile (· ≠ 0)

@[simp] theorem cstr_zero_cons (m : List UInt8) : cstr (0 :: m) = [] := by
  simp [cstr]

theorem cstr_cons {b : UInt8} (hb : b ≠ 0) (m : List UInt8) : cstr (b :: m) = b :: cstr m := by
  simp [cstr, hb]

theorem zero_mem_of_cons {c : UInt8} {m : List UInt8} (h : (0 : UInt8) ∈ c :: m) (hc : c ≠ 0) :
    (0 : UInt8) ∈ m :=
  (List.mem_cons.mp h).resolve_left (Ne.symm hc)

theorem zero_notMem_cstr (m : List UInt8) : (0 : UInt8) ∉ cstr m := by
  intro h
  have := List.mem_takeWhile_imp h
  simp at this

theorem cstr_append_zero {s : List UInt8} (hs : (0 : UInt8) ∉ s) (r : List UInt8) :
    cstr (s ++ 0 :: r) = s := by
  induction s with
  | nil => exact cstr_zero_cons r
  | cons b s ih =>
    rw [List.mem_cons, not_or] at hs
    rw [List.cons_append, cstr_cons (Ne.symm hs.1), ih hs.2]

theorem cstr_append_zero_cons (a r : List UInt8) : cstr (a ++ 0 :: r) = cstr a := by
  induction a with
  | nil => simp [cstr]
  | cons b a ih =>
    by_cases hb : b = 0
    · rw [hb, List.cons_append, cstr_zero_cons, cstr_zero_cons]
    · rw [List.cons_append, cstr_cons hb, cstr_cons hb, ih]

theorem exists_cstr_append {m : List UInt8} (h : (0 : UInt8) ∈ m) :
    ∃ r, m = cstr m ++ 0 :: r := by
  induction m with
  | nil => simp at h
  | cons b m ih =>
    by_cases hb : b = 0
    · exact ⟨m, by rw [hb, cstr_zero_cons, List.nil_append]⟩
    · obtain ⟨r, hr⟩ := ih (zero_mem_of_cons h hb)
      refine ⟨r, ?_⟩
      rw [cstr_cons hb, List.cons_append, ← hr]

theorem length_cstr_lt {m : List UInt8} (h : (0 : UInt8) ∈ m) : (cstr m).length < m.length := by
  obtain ⟨r, hr⟩ := exists_cstr_append h
  have := congrArg List.length hr
  rw [List.length_append, List.length_cons] at this
  omega

/-- A pointer into a string, not past its terminator, is to the rest of the memory: the rest of the
string, the NUL, and what follows. -/
theorem exists_drop_eq_cstr_drop {m : List UInt8} {n : ℕ} (h : (0 : UInt8) ∈ m)
    (hn : n ≤ (cstr m).length) : ∃ r, m.drop n = (cstr m).drop n ++ 0 :: r := by
  obtain ⟨r, hr⟩ := exists_cstr_append h
  refine ⟨r, ?_⟩
  conv_lhs => rw [hr]
  rw [List.drop_append_of_le_length hn]

theorem zero_mem_drop {m : List UInt8} {n : ℕ} (h : (0 : UInt8) ∈ m)
    (hn : n ≤ (cstr m).length) : (0 : UInt8) ∈ m.drop n := by
  obtain ⟨r, hr⟩ := exists_drop_eq_cstr_drop h hn
  rw [hr]
  simp

theorem cstr_drop {m : List UInt8} {n : ℕ} (h : (0 : UInt8) ∈ m) (hn : n ≤ (cstr m).length) :
    cstr (m.drop n) = (cstr m).drop n := by
  obtain ⟨r, hr⟩ := exists_drop_eq_cstr_drop h hn
  rw [hr]
  exact cstr_append_zero (fun hmem ↦ zero_notMem_cstr m (List.mem_of_mem_drop hmem)) r

/-- A NUL-terminated string, as a value: no byte of it is NUL, so it cannot end early. -/
structure CStr where
  bytes : List UInt8
  zero_notMem : (0 : UInt8) ∉ bytes

namespace CStr

/-- The memory the string occupies: its bytes and the terminator, and nothing behind it. -/
def mem (s : CStr) : List UInt8 := s.bytes ++ [0]

theorem ext {s t : CStr} (h : s.bytes = t.bytes) : s = t := by
  cases s
  cases t
  simpa using h

instance : DecidableEq CStr := fun s t ↦
  decidable_of_iff (s.bytes = t.bytes) ⟨ext, fun h ↦ by rw [h]⟩

theorem zero_mem_mem (s : CStr) : (0 : UInt8) ∈ s.mem := by simp [mem]

@[simp] theorem cstr_mem (s : CStr) : cstr s.mem = s.bytes :=
  cstr_append_zero s.zero_notMem []

/-- The string cut to its first `n` bytes. -/
def cut (s : CStr) (n : ℕ) : CStr :=
  ⟨s.bytes.take n, fun h ↦ s.zero_notMem (List.mem_of_mem_take h)⟩

end CStr

/-- The bytes of a text, one byte a character. -/
def ascii (s : String) : List UInt8 := s.toList.map fun c ↦ UInt8.ofNat c.toNat

/-- The memory of a string literal. -/
def literal (s : String) : List UInt8 := ascii s ++ [0]

theorem zero_mem_literal (s : String) : (0 : UInt8) ∈ literal s := by simp [literal]

end Foundation
