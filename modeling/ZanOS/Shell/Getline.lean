import ZanOS.Http.Client

/-!
# The line editor

`getline` collects bytes from the serial line until CR or LF. Backspace and DEL take the last byte
back, a byte that would leave no room for the terminator is dropped, and everything else, whatever
its value, goes into the buffer. `getlineByte` is the treatment of one byte.

The property that matters to the commands is what cannot be in a line: CR and LF end it, so they
are never stored (`exists_getlineByte`), though what the buffer held before it was used may contain
them further back.
-/

namespace ZanOS

open Foundation

/-- What becomes of the line with one byte more: it goes on with `i` bytes typed, or it is there. -/
inductive LineState (k : ℕ)
  | typing (buf : Vector UInt8 k) (i : ℕ)
  | done (buf : Vector UInt8 k)

variable {k : ℕ}

/-- The body of the loop of `getline` for a byte that has come in. -/
def getlineByte (max : ℕ) (buf : Vector UInt8 k) (i : ℕ) (c : UInt8) :
    Option (LineState k × List Action) :=
  if c = 13 ∨ c = 10 then (store buf i 0).map fun buf' ↦ (.done buf', [.println []])
  else if c = 127 ∨ c = 8 then
    if 0 < i then some (.typing buf (i - 1), [.print (ascii "\x08 \x08")])
    else some (.typing buf i, [])
  else if i + 1 < max then (store buf i c).map fun buf' ↦ (.typing buf' (i + 1), [.putc c])
  else some (.typing buf i, [])

/-- Neither CR nor LF. -/
def NoLineEnd (l : List UInt8) : Prop := (13 : UInt8) ∉ l ∧ (10 : UInt8) ∉ l

instance (l : List UInt8) : Decidable (NoLineEnd l) := inferInstanceAs (Decidable (_ ∧ _))

theorem NoLineEnd.subset {l l' : List UInt8} (h : NoLineEnd l) (hsub : ∀ b ∈ l', b ∈ l) :
    NoLineEnd l' :=
  ⟨fun hmem ↦ h.1 (hsub _ hmem), fun hmem ↦ h.2 (hsub _ hmem)⟩

theorem NoLineEnd.of_cons {c : UInt8} {l : List UInt8} (h : NoLineEnd (c :: l)) :
    ¬ (c = 13 ∨ c = 10) ∧ NoLineEnd l := by
  refine ⟨?_, h.subset fun b hb ↦ List.mem_cons_of_mem c hb⟩
  rintro (rfl | rfl)
  · exact h.1 List.mem_cons_self
  · exact h.2 List.mem_cons_self

/-- The line as it stands: room for the terminator, and no line end among the bytes typed. -/
structure Typed (max : ℕ) (buf : Vector UInt8 k) (i : ℕ) : Prop where
  lt : i < max
  clean : NoLineEnd (buf.toList.take i)

theorem typed_zero {max : ℕ} (hmax : 0 < max) (buf : Vector UInt8 k) : Typed max buf 0 :=
  ⟨hmax, by simp [NoLineEnd]⟩

/-- The line as it is handed over: terminated, and without a line end. -/
structure Line (buf : Vector UInt8 k) : Prop where
  zero_mem : (0 : UInt8) ∈ buf.toList
  clean : NoLineEnd (cstr buf.toList)

/-- What a string with a NUL put into it denotes lies in front of the NUL. -/
theorem mem_of_mem_cstr_append {a r : List UInt8} {b : UInt8} (h : b ∈ cstr (a ++ 0 :: r)) :
    b ∈ a := by
  rw [cstr_append_zero_cons] at h
  exact (List.takeWhile_sublist _).subset h

theorem Typed.line {max : ℕ} {buf : Vector UInt8 k} {i : ℕ} (h : Typed max buf i)
    (hi : i < k) : Line (buf.set i 0 hi) := by
  have hlist : (buf.set i 0 hi).toList = buf.toList.take i ++ 0 :: buf.toList.drop (i + 1) := by
    rw [toList_set_eq_splice hi, splice, List.length_singleton, List.append_assoc,
      List.singleton_append]
  refine ⟨by rw [hlist]; simp, ?_⟩
  rw [hlist]
  exact h.clean.subset fun b hb ↦ mem_of_mem_cstr_append hb

theorem Typed.push {max : ℕ} {buf : Vector UInt8 k} {i : ℕ} (h : Typed max buf i)
    {c : UInt8} (hc : ¬ (c = 13 ∨ c = 10)) (hlt : i + 1 < max) (hi : i < k) :
    Typed max (buf.set i c hi) (i + 1) := by
  refine ⟨hlt, ?_⟩
  have hfits : i + [c].length ≤ buf.toList.length := by simpa using Nat.succ_le_of_lt hi
  have htake := take_splice buf.toList hfits
  rw [List.length_singleton] at htake
  rw [toList_set_eq_splice hi, htake]
  rw [not_or] at hc
  refine ⟨fun hmem ↦ ?_, fun hmem ↦ ?_⟩
  · exact (List.mem_append.mp hmem).elim h.clean.1 fun hlast ↦
      hc.1 (List.mem_singleton.mp hlast).symm
  · exact (List.mem_append.mp hmem).elim h.clean.2 fun hlast ↦
      hc.2 (List.mem_singleton.mp hlast).symm

/-- **One byte.** It is always taken care of within the buffer, and keeps line ends out. -/
theorem exists_getlineByte {max : ℕ} (hmax : max ≤ k) {buf : Vector UInt8 k} {i : ℕ}
    (h : Typed max buf i) (c : UInt8) :
    (∃ buf' i' out, getlineByte max buf i c = some (.typing buf' i', out) ∧ Typed max buf' i') ∨
      ∃ buf' out, getlineByte max buf i c = some (.done buf', out) ∧ Line buf' := by
  have hi : i < k := h.lt.trans_le hmax
  rw [getlineByte]
  split_ifs with hend hback hpos hroom
  · rw [store_eq_some hi]
    exact Or.inr ⟨_, _, rfl, h.line hi⟩
  · refine Or.inl ⟨_, _, _, rfl, (Nat.sub_le i 1).trans_lt h.lt, ?_⟩
    exact h.clean.subset fun b hb ↦ (List.take_subset_take_left _ (Nat.sub_le i 1)) hb
  · exact Or.inl ⟨_, _, _, rfl, h⟩
  · rw [store_eq_some hi]
    exact Or.inl ⟨_, _, _, rfl, h.push hend hroom hi⟩
  · exact Or.inl ⟨_, _, _, rfl, h⟩

end ZanOS
