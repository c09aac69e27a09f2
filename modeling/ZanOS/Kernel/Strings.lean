import ZanOS.Foundation.Buffer

/-!
# The string routines

`strings.c`, as far as the kernel's own modules use it. Every routine works on memory that may end:
a pointer is the list of cells from it to the end of its object, a destination is a buffer with an
offset, and an access outside either has no result. The specifications then say that on
NUL-terminated arguments the access never happens, and give the value in terms of `cstr`.

`strcmp` and `strncmp` are two loops that find the first difference in different ways, and both
return it as a difference of unsigned bytes. The sign of `strcmp` is the lexicographic order of the
strings, which is that of lists of bytes, and `strncmp` is `strcmp` on the strings cut to the count.
When they return zero follows from that.
-/

namespace ZanOS

open Foundation

/-- `strcmp`: skip the common part, then the difference of the two bytes as unsigned chars. -/
def strcmp : List UInt8 → List UInt8 → Option Int
  | a :: as, b :: bs =>
      if a ≠ 0 ∧ a = b then strcmp as bs else some ((a.toNat : Int) - (b.toNat : Int))
  | _, _ => none

/-- `strncmp`: at most `n` bytes, stopping at a difference or at either terminator. -/
def strncmp : List UInt8 → List UInt8 → ℕ → Option Int
  | _, _, 0 => some 0
  | a :: as, b :: bs, n + 1 =>
      if a ≠ b ∨ a = 0 ∨ b = 0 then some ((a.toNat : Int) - (b.toNat : Int)) else strncmp as bs n
  | _, _, _ + 1 => none

/-- `strlen`. -/
def strlen : List UInt8 → Option ℕ
  | [] => none
  | c :: cs => if c = 0 then some 0 else (strlen cs).map (· + 1)

/-- `strcpy` to `dest + off`: each byte is stored before it is tested, the terminator included. -/
def strcpy {k : ℕ} (dest : Vector UInt8 k) (off : ℕ) : List UInt8 → Option (Vector UInt8 k)
  | [] => none
  | c :: cs =>
      match store dest off c with
      | none => none
      | some dest' => if c = 0 then some dest' else strcpy dest' (off + 1) cs

/-- The second loop of `strncpy`: NULs up to the count. -/
def strncpyPad {k : ℕ} (dest : Vector UInt8 k) (i : ℕ) : ℕ → Option (Vector UInt8 k)
  | 0 => some dest
  | n + 1 =>
      match store dest i 0 with
      | none => none
      | some dest' => strncpyPad dest' (i + 1) n

/-- Both loops of `strncpy`, from index `i` with `n` bytes to go. -/
def strncpyFrom {k : ℕ} (dest : Vector UInt8 k) (i : ℕ) : ℕ → List UInt8 → Option (Vector UInt8 k)
  | 0, _ => some dest
  | _ + 1, [] => none
  | n + 1, c :: cs =>
      if c = 0 then strncpyPad dest i (n + 1)
      else
        match store dest i c with
        | none => none
        | some dest' => strncpyFrom dest' (i + 1) n cs

/-- `strncpy`. -/
def strncpy {k : ℕ} (dest : Vector UInt8 k) (src : List UInt8) (n : ℕ) : Option (Vector UInt8 k) :=
  strncpyFrom dest 0 n src

/-! ## Comparison -/

section Comparison

variable {a b : List UInt8} {x : ℤ}

theorem strcmp_isSome (ha : (0 : UInt8) ∈ a) (hb : (0 : UInt8) ∈ b) :
    ∃ x, strcmp a b = some x := by
  induction a generalizing b with
  | nil => simp at ha
  | cons c as ih =>
    cases b with
    | nil => simp at hb
    | cons d bs =>
      rw [strcmp]
      split_ifs with h
      · obtain ⟨hc, rfl⟩ := h
        exact ih (zero_mem_of_cons ha hc) (zero_mem_of_cons hb hc)
      · exact ⟨_, rfl⟩

theorem strcmp_comm (a b : List UInt8) : strcmp b a = (strcmp a b).map (- ·) := by
  induction a generalizing b with
  | nil => cases b <;> rfl
  | cons c as ih =>
    rcases b with _ | ⟨d, bs⟩
    · rfl
    rw [strcmp, strcmp]
    by_cases h : c ≠ 0 ∧ c = d
    · obtain ⟨hc, rfl⟩ := h
      rw [if_pos ⟨hc, rfl⟩, if_pos ⟨hc, rfl⟩, ih]
    · have hswap : ¬ (d ≠ 0 ∧ d = c) := by
        rintro ⟨hd, rfl⟩
        exact h ⟨hd, rfl⟩
      rw [if_neg h, if_neg hswap, Option.map_some, Int.neg_sub]

/-- **Negative means smaller**, in the lexicographic order of unsigned bytes. -/
theorem strcmp_neg_iff (h : strcmp a b = some x) : x < 0 ↔ cstr a < cstr b := by
  induction a generalizing b with
  | nil => cases h
  | cons c as ih =>
    rcases b with _ | ⟨d, bs⟩
    · cases h
    rw [strcmp] at h
    split_ifs at h with hcd
    · obtain ⟨hc, rfl⟩ := hcd
      rw [ih h, cstr_cons hc, cstr_cons hc, List.cons_lt_cons_iff]
      simp
    · -- the scan stopped, at the end of `a` or at a difference
      have hdiff : (c.toNat : ℤ) - d.toNat < 0 ↔ c < d := by
        rw [UInt8.lt_iff_toNat_lt]
        omega
      rw [← Option.some.inj h, hdiff]
      by_cases hc : c = 0
      · subst hc
        rw [cstr_zero_cons]
        by_cases hd : d = 0
        · subst hd
          simp
        · rw [cstr_cons hd]
          simp [UInt8.pos_iff_ne_zero, hd]
      · have hne : c ≠ d := fun heq ↦ hcd ⟨hc, heq⟩
        rw [cstr_cons hc]
        by_cases hd : d = 0
        · subst hd
          simp
        · rw [cstr_cons hd, List.cons_lt_cons_iff]
          simp [hne]

theorem strcmp_pos_iff (h : strcmp a b = some x) : 0 < x ↔ cstr b < cstr a := by
  have hcomm : strcmp b a = some (-x) := by rw [strcmp_comm, h, Option.map_some]
  rw [← strcmp_neg_iff hcomm, Int.neg_neg_iff_pos]

theorem strcmp_nonpos_iff (h : strcmp a b = some x) : x ≤ 0 ↔ cstr a ≤ cstr b := by
  rw [← Int.not_lt, strcmp_pos_iff h, List.not_lt]

theorem strcmp_nonneg_iff (h : strcmp a b = some x) : 0 ≤ x ↔ cstr b ≤ cstr a := by
  rw [← Int.not_lt, strcmp_neg_iff h, List.not_lt]

theorem strcmp_eq_zero_iff (ha : (0 : UInt8) ∈ a) (hb : (0 : UInt8) ∈ b) :
    strcmp a b = some 0 ↔ cstr a = cstr b := by
  obtain ⟨x, hx⟩ := strcmp_isSome ha hb
  have hle := strcmp_nonpos_iff hx
  have hge := strcmp_nonneg_iff hx
  rw [hx, Option.some.injEq]
  constructor
  · rintro rfl
    exact List.le_antisymm (hle.mp (Int.le_refl 0)) (hge.mp (Int.le_refl 0))
  · intro heq
    rw [heq] at hle hge
    exact Int.le_antisymm (hle.mpr (List.le_refl _)) (hge.mpr (List.le_refl _))

theorem strncmp_isSome (n : ℕ) (ha : (0 : UInt8) ∈ a) (hb : (0 : UInt8) ∈ b) :
    ∃ x, strncmp a b n = some x := by
  induction n generalizing a b with
  | zero => exact ⟨0, by rw [strncmp]⟩
  | succ n ih =>
    rcases a with _ | ⟨c, as⟩
    · simp at ha
    rcases b with _ | ⟨d, bs⟩
    · simp at hb
    rw [strncmp]
    split_ifs with h
    · exact ⟨_, rfl⟩
    · rw [not_or, not_or] at h
      exact ih (zero_mem_of_cons ha h.2.1) (zero_mem_of_cons hb h.2.2)

/-- The memory of a string starts with the byte found there, also if that is the terminator. -/
theorem exists_take_cstr_cons (c : UInt8) (m : List UInt8) (n : ℕ) :
    ∃ r, (cstr (c :: m)).take (n + 1) ++ [0] = c :: r := by
  by_cases hc : c = 0
  · exact ⟨[], by rw [hc, cstr_zero_cons, List.take_nil, List.nil_append]⟩
  · exact ⟨_, by rw [cstr_cons hc, List.take_succ_cons, List.cons_append]⟩

/-- **`strncmp` is `strcmp` on the strings cut to the count.** -/
theorem strncmp_eq_strcmp (n : ℕ) (ha : (0 : UInt8) ∈ a) (hb : (0 : UInt8) ∈ b) :
    strncmp a b n = strcmp ((cstr a).take n ++ [0]) ((cstr b).take n ++ [0]) := by
  induction n generalizing a b with
  | zero =>
    rw [strncmp, List.take_zero, List.take_zero]
    rfl
  | succ n ih =>
    rcases a with _ | ⟨c, as⟩
    · simp at ha
    rcases b with _ | ⟨d, bs⟩
    · simp at hb
    rw [strncmp]
    split_ifs with h
    · obtain ⟨r, hr⟩ := exists_take_cstr_cons c as n
      obtain ⟨r', hr'⟩ := exists_take_cstr_cons d bs n
      have hstop : ¬ (c ≠ 0 ∧ c = d) := by
        rintro ⟨hc, rfl⟩
        exact h.elim (fun hne ↦ hne rfl) (fun hz ↦ hz.elim hc hc)
      rw [hr, hr', strcmp, if_neg hstop]
    · push Not at h
      obtain ⟨rfl, hc, -⟩ := h
      rw [cstr_cons hc, cstr_cons hc, List.take_succ_cons, List.take_succ_cons, List.cons_append,
        List.cons_append, strcmp, if_pos ⟨hc, rfl⟩]
      exact ih (zero_mem_of_cons ha hc) (zero_mem_of_cons hb hc)

theorem strncmp_eq_zero_iff (n : ℕ) (ha : (0 : UInt8) ∈ a) (hb : (0 : UInt8) ∈ b) :
    strncmp a b n = some 0 ↔ (cstr a).take n = (cstr b).take n := by
  have hcut : ∀ m : List UInt8, cstr ((cstr m).take n ++ [0]) = (cstr m).take n := fun m ↦
    cstr_append_zero (fun hmem ↦ zero_notMem_cstr m (List.mem_of_mem_take hmem)) []
  rw [strncmp_eq_strcmp n ha hb, strcmp_eq_zero_iff (by simp) (by simp), hcut, hcut]

/-! ## What a comparison reads

A read behind the end of the memory has no result. So a result on memory that ends with the
terminator, or at the count, says that nothing behind was read. -/

theorem strcmp_append (h : strcmp a b = some x) (r r' : List UInt8) :
    strcmp (a ++ r) (b ++ r') = some x := by
  induction a generalizing b with
  | nil => cases h
  | cons c as ih =>
    rcases b with _ | ⟨d, bs⟩
    · cases h
    rw [List.cons_append, List.cons_append, strcmp]
    rw [strcmp] at h
    split_ifs at h ⊢ with hcd
    · exact ih h
    · exact h

theorem strncmp_append {n : ℕ} (h : strncmp a b n = some x) (r r' : List UInt8) :
    strncmp (a ++ r) (b ++ r') n = some x := by
  induction n generalizing a b with
  | zero =>
    rw [strncmp] at h ⊢
    exact h
  | succ n ih =>
    rcases a with _ | ⟨c, as⟩
    · cases h
    rcases b with _ | ⟨d, bs⟩
    · cases h
    rw [List.cons_append, List.cons_append, strncmp]
    rw [strncmp] at h
    split_ifs at h ⊢ with hcd
    · exact h
    · exact ih h

/-- `strncmp` reads nothing at or behind the count. -/
theorem strncmp_take (a b : List UInt8) (n : ℕ) :
    strncmp (a.take n) (b.take n) n = strncmp a b n := by
  induction n generalizing a b with
  | zero => rw [strncmp, strncmp]
  | succ n ih =>
    rcases a with _ | ⟨c, as⟩
    · rfl
    rcases b with _ | ⟨d, bs⟩
    · rfl
    rw [List.take_succ_cons, List.take_succ_cons, strncmp, strncmp, ih]

end Comparison

/-! ## Length and copying -/

theorem strlen_eq {m : List UInt8} (h : (0 : UInt8) ∈ m) : strlen m = some (cstr m).length := by
  induction m with
  | nil => simp at h
  | cons c m ih =>
    rw [strlen]
    split_ifs with hc
    · rw [hc, cstr_zero_cons, List.length_nil]
    · rw [ih (zero_mem_of_cons h hc), cstr_cons hc, List.length_cons,
        Option.map_some]

/-- `strcpy` stores the string and its terminator, in order. -/
theorem strcpy_eq_storeAll {k : ℕ} {dest : Vector UInt8 k} {off : ℕ} {src : List UInt8}
    (h : (0 : UInt8) ∈ src) : strcpy dest off src = storeAll dest off (cstr src ++ [0]) := by
  induction src generalizing dest off with
  | nil => simp at h
  | cons c src ih =>
    rw [strcpy]
    by_cases hc : c = 0
    · subst hc
      rw [cstr_zero_cons, List.nil_append, storeAll]
      cases store dest off 0 <;> rfl
    · rw [cstr_cons hc, List.cons_append, storeAll]
      cases store dest off c with
      | none => rfl
      | some dest' =>
        simp only [if_neg hc]
        exact ih (zero_mem_of_cons h hc)

theorem strncpyPad_eq_storeAll {k : ℕ} {dest : Vector UInt8 k} {i : ℕ} (n : ℕ) :
    strncpyPad dest i n = storeAll dest i (List.replicate n 0) := by
  induction n generalizing dest i with
  | zero => rfl
  | succ n ih =>
    rw [strncpyPad, List.replicate_succ, storeAll]
    cases store dest i 0 with
    | none => rfl
    | some dest' => exact ih

theorem strncpyFrom_eq_storeAll {k : ℕ} {dest : Vector UInt8 k} {i n : ℕ} {src : List UInt8}
    (h : (0 : UInt8) ∈ src) :
    strncpyFrom dest i n src
      = storeAll dest i ((cstr src).take n ++ List.replicate (n - (cstr src).length) 0) := by
  induction n generalizing dest i src with
  | zero => simp [strncpyFrom]
  | succ n ih =>
    cases src with
    | nil => simp at h
    | cons c src =>
      rw [strncpyFrom]
      split_ifs with hc
      · rw [hc, cstr_zero_cons, strncpyPad_eq_storeAll]
        simp
      · rw [cstr_cons hc, List.take_succ_cons, List.length_cons, Nat.add_sub_add_right,
          List.cons_append, storeAll]
        cases store dest i c with
        | none => rfl
        | some dest' => exact ih (zero_mem_of_cons h hc)

/-- `strncpy` stores the string, cut to `n` bytes and padded with NULs to `n` bytes. -/
theorem strncpy_eq_storeAll {k : ℕ} {dest : Vector UInt8 k} {src : List UInt8} (n : ℕ)
    (h : (0 : UInt8) ∈ src) :
    strncpy dest src n
      = storeAll dest 0 ((cstr src).take n ++ List.replicate (n - (cstr src).length) 0) :=
  strncpyFrom_eq_storeAll h

/-! ## The order of strings -/

/-- `strcmp` is the order of strings, with its laws; `strncmp` is `strcmp` on the strings cut to the
count. Both have their result on memory that ends with the terminators, for `strncmp` also at the
count, and keep it whatever lies behind. -/
theorem strcmp_strncmp_order (a b c : CStr) (n : ℕ) :
    (∃ x, strcmp a.mem b.mem = some x ∧
      (x < 0 ↔ a.bytes < b.bytes) ∧ (x = 0 ↔ a = b) ∧ (0 < x ↔ b.bytes < a.bytes) ∧
      strcmp b.mem a.mem = some (-x) ∧
      ∀ y z, strcmp b.mem c.mem = some y → strcmp a.mem c.mem = some z →
        (x ≤ 0 → y ≤ 0 → z ≤ 0) ∧ (x < 0 → y < 0 → z < 0)) ∧
    strncmp (a.mem.take n) (b.mem.take n) n = strcmp (a.cut n).mem (b.cut n).mem ∧
    ∀ r r', strcmp (a.mem ++ r) (b.mem ++ r') = strcmp a.mem b.mem ∧
      strncmp (a.mem ++ r) (b.mem ++ r') n = strncmp (a.mem.take n) (b.mem.take n) n := by
  obtain ⟨x, hx⟩ := strcmp_isSome a.zero_mem_mem b.zero_mem_mem
  obtain ⟨w, hw⟩ := strncmp_isSome n a.zero_mem_mem b.zero_mem_mem
  refine ⟨⟨x, hx, ?_, ?_, ?_, ?_, ?_⟩, ?_, ?_⟩
  · rw [strcmp_neg_iff hx, CStr.cstr_mem, CStr.cstr_mem]
  · have hzero := strcmp_eq_zero_iff a.zero_mem_mem b.zero_mem_mem
    rw [hx, Option.some.injEq, CStr.cstr_mem, CStr.cstr_mem] at hzero
    exact hzero.trans ⟨CStr.ext, fun h ↦ by rw [h]⟩
  · rw [strcmp_pos_iff hx, CStr.cstr_mem, CStr.cstr_mem]
  · rw [strcmp_comm, hx, Option.map_some]
  · intro y z hy hz
    rw [strcmp_nonpos_iff hx, strcmp_nonpos_iff hy, strcmp_nonpos_iff hz, strcmp_neg_iff hx,
      strcmp_neg_iff hy, strcmp_neg_iff hz]
    exact ⟨List.le_trans, List.lt_trans⟩
  · have hcut := strncmp_eq_strcmp n a.zero_mem_mem b.zero_mem_mem
    rw [CStr.cstr_mem, CStr.cstr_mem] at hcut
    rw [strncmp_take, hcut]
    rfl
  · intro r r'
    rw [strncmp_take, hx, hw]
    exact ⟨strcmp_append hx r r', strncmp_append hw r r'⟩

end ZanOS
