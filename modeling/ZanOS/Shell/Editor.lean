import Mathlib.Data.List.GetD
import Mathlib.Logic.Function.Basic
import ZanOS.Shell.Lines

/-!
# The line editor and the screen

`getline` keeps two things in step: the line in its buffer, and the line the user sees. The buffer
is the bounded stack `editLine`; the screen is a row behind the prompt, driven by what `getline`
echoes. This module follows one call of `getline` from its first byte to the line end, for a buffer
of any size.

`getlineLoop` iterates `getlineByte` over the bytes that come in. What it echoes is a function of
the line alone (`echo`), and on a terminal that starts blank the echo of a byte does to the row what
`editByte` does to the line: a byte typed appears, a byte taken back is overwritten with a blank,
and a byte that is ignored leaves the screen alone (`shows_editByte`).
-/

namespace ZanOS

open Foundation

/-! ## A call of `getline` -/

variable {k : ℕ}

/-- The loop of `getline` over the bytes that come in: how far the line is, the bytes not consumed,
and what has been printed. -/
def getlineLoop (max : ℕ) : Vector UInt8 k → ℕ → List UInt8 →
    Option (LineState k × List UInt8 × List Action)
  | buf, i, [] => some (.typing buf i, [], [])
  | buf, i, c :: bytes =>
      match getlineByte max buf i c with
      | none => none
      | some (.done buf', out) => some (.done buf', bytes, out)
      | some (.typing buf' i', out) =>
          (getlineLoop max buf' i' bytes).map fun r ↦ (r.1, r.2.1, out ++ r.2.2)

/-- `getline(buf, max)`. -/
def getline (max : ℕ) (buf : Vector UInt8 k) (bytes : List UInt8) :
    Option (LineState k × List UInt8 × List Action) :=
  getlineLoop max buf 0 bytes

/-- What is echoed for a byte that does not end the line, when `line` has been typed. -/
def echo (max : ℕ) (line : List UInt8) (c : UInt8) : List Action :=
  if c = 127 ∨ c = 8 then if 0 < line.length then [.print (ascii "\x08 \x08")] else []
  else if line.length + 1 < max then [.putc c] else []

/-- What is echoed for some bytes, one after the other. -/
def echoes (max : ℕ) : List UInt8 → List UInt8 → List Action
  | _, [] => []
  | line, c :: bytes => echo max line c ++ echoes max (editByte max line c) bytes

/-- The line is in front of the buffer, with room for the terminator, and behind the first `max`
cells the buffer is as it was. -/
structure Edited (max : ℕ) (buf₀ buf : Vector UInt8 k) (line : List UInt8) : Prop where
  lt : line.length < max
  take : buf.toList.take line.length = line
  drop : buf.toList.drop max = buf₀.toList.drop max

theorem length_editByte_lt {max : ℕ} {line : List UInt8} (h : line.length < max) (c : UInt8) :
    (editByte max line c).length < max := by
  rw [editByte]
  split_ifs with hback hroom
  · rw [List.length_dropLast]
    exact (Nat.sub_le _ _).trans_lt h
  · rwa [List.length_append]
  · exact h

theorem drop_set {max : ℕ} (buf : Vector UInt8 k) {i : ℕ} (hi : i < k) (hmax : i < max)
    (c : UInt8) : (buf.set i c hi).toList.drop max = buf.toList.drop max := by
  rw [Vector.toList_set, List.drop_set_of_lt hmax]

/-- **One byte of the line.** -/
theorem Edited.exists_getlineByte {max : ℕ} (hk : max ≤ k) {buf₀ buf : Vector UInt8 k}
    {line : List UInt8} (h : Edited max buf₀ buf line) {c : UInt8} (hc : ¬ (c = 13 ∨ c = 10)) :
    ∃ buf', getlineByte max buf line.length c
        = some (.typing buf' (editByte max line c).length, echo max line c) ∧
      Edited max buf₀ buf' (editByte max line c) := by
  have hi : line.length < k := h.lt.trans_le hk
  have hstep : ∃ buf' i', getlineByte max buf line.length c
        = some (.typing buf' i', echo max line c) ∧
      buf'.toList.drop max = buf.toList.drop max := by
    rw [getlineByte, if_neg hc, echo]
    split_ifs with hback hpos hroom
    · exact ⟨_, _, rfl, rfl⟩
    · exact ⟨_, _, rfl, rfl⟩
    · rw [store_eq_some hi]
      exact ⟨_, _, rfl, drop_set buf hi h.lt c⟩
    · exact ⟨_, _, rfl, rfl⟩
  obtain ⟨buf', i', hbyte, hdrop⟩ := hstep
  obtain ⟨-, rfl, htake⟩ := getlineByte_typing rfl h.take hbyte
  exact ⟨buf', hbyte, length_editByte_lt h.lt c, htake, hdrop.trans h.drop⟩

/-- **A line without its end.** Whatever follows is met with the line edited in front of the buffer
and its echo printed. -/
theorem Edited.exists_getlineLoop {max : ℕ} (hk : max ≤ k) {buf₀ buf : Vector UInt8 k}
    {line bytes : List UInt8} (h : Edited max buf₀ buf line) (hbytes : NoLineEnd bytes) :
    ∃ buf', Edited max buf₀ buf' (bytes.foldl (editByte max) line) ∧
      ∀ more, getlineLoop max buf line.length (bytes ++ more)
        = (getlineLoop max buf' (bytes.foldl (editByte max) line).length more).map
            fun r ↦ (r.1, r.2.1, echoes max line bytes ++ r.2.2) := by
  induction bytes generalizing buf line with
  | nil => exact ⟨buf, h, fun more ↦ by simp [echoes]⟩
  | cons c bytes ih =>
    obtain ⟨hc, hrest⟩ := hbytes.of_cons
    obtain ⟨buf₁, hbyte, h₁⟩ := h.exists_getlineByte hk hc
    obtain ⟨buf', h', hloop⟩ := ih h₁ hrest
    refine ⟨buf', h', fun more ↦ ?_⟩
    rw [List.cons_append, getlineLoop, hbyte]
    simp only
    rw [hloop more, Option.map_map]
    simp only [echoes, List.append_assoc, List.foldl_cons]
    rfl

theorem edited_zero {max : ℕ} (hmax : 1 ≤ max) (buf : Vector UInt8 k) : Edited max buf buf [] :=
  ⟨hmax, by simp, rfl⟩

/-- The line end: the terminator goes behind the line, and nothing more is consumed. -/
theorem Edited.exists_done {max : ℕ} (hk : max ≤ k) {buf₀ buf : Vector UInt8 k}
    {line : List UInt8} (h : Edited max buf₀ buf line) {c : UInt8} (hc : c = 13 ∨ c = 10)
    (rest : List UInt8) :
    ∃ buf' r, getlineLoop max buf line.length (c :: rest)
        = some (.done buf', rest, [.println []]) ∧
      buf'.toList = line ++ 0 :: r ∧ buf'.toList.drop max = buf₀.toList.drop max := by
  have hi : line.length < k := h.lt.trans_le hk
  have hbyte : getlineByte max buf line.length c
      = some (.done (buf.set line.length 0), [.println []]) := by
    rw [getlineByte, if_pos hc, store_eq_some hi, Option.map_some]
  obtain ⟨-, r, hr⟩ := getlineByte_done h.take hbyte
  refine ⟨buf.set line.length 0, r, ?_, hr, (drop_set buf hi h.lt 0).trans h.drop⟩
  rw [getlineLoop, hbyte]

/-! ## The screen -/

/-- The row of a terminal from the prompt on, and the column of the cursor. -/
structure Terminal where
  row : ℕ → UInt8
  col : ℕ

/-- A byte that a terminal shows. -/
def Printable (c : UInt8) : Prop := 32 ≤ c ∧ c ≤ 126

instance (c : UInt8) : Decidable (Printable c) := inferInstanceAs (Decidable (_ ∧ _))

theorem getD_concat_of_ne {line : List UInt8} {j : ℕ} (hj : j ≠ line.length) (c d : UInt8) :
    (line ++ [c]).getD j d = line.getD j d := by
  rcases lt_or_gt_of_ne hj with hlt | hgt
  · rw [List.getD_append _ _ _ _ hlt]
  · have hlen : (line ++ [c]).length ≤ j := by
      rw [List.length_append, List.length_singleton]
      exact hgt
    rw [List.getD_eq_default _ _ hgt.le, List.getD_eq_default _ _ hlen]

namespace Terminal

/-- Nothing behind the prompt. -/
def blank : Terminal := ⟨fun _ ↦ 32, 0⟩

/-- A byte sent to the terminal: a printable one is written and the cursor advances, backspace moves
the cursor left, though not into the prompt, and the others are left out of the model. -/
def put (t : Terminal) (c : UInt8) : Terminal :=
  if c = 8 then { t with col := t.col - 1 }
  else if Printable c then ⟨Function.update t.row t.col c, t.col + 1⟩
  else t

def puts (t : Terminal) (bytes : List UInt8) : Terminal := bytes.foldl put t

/-- The row reads `line` and blanks behind it, and the cursor is at the end of the line. -/
structure Shows (t : Terminal) (line : List UInt8) : Prop where
  row : ∀ j, t.row j = line.getD j 32
  col : t.col = line.length

variable {t : Terminal} {line : List UInt8}

theorem shows_blank : blank.Shows [] := ⟨fun _ ↦ rfl, rfl⟩

theorem Shows.put (h : t.Shows line) {c : UInt8} (hc : Printable c) :
    (t.put c).Shows (line ++ [c]) := by
  have hne : c ≠ 8 := by
    rintro rfl
    exact absurd hc (by decide)
  rw [Terminal.put, if_neg hne, if_pos hc]
  refine ⟨fun j ↦ ?_, by rw [List.length_append, h.col, List.length_singleton]⟩
  simp only
  by_cases hj : j = line.length
  · rw [hj, h.col, Function.update_self, List.getD_append_right _ _ _ _ (le_refl _),
      Nat.sub_self, List.getD_cons_zero]
  · rw [h.col, Function.update_of_ne hj, h.row, getD_concat_of_ne hj]

/-- Backspace, blank, backspace takes the last byte off the row. -/
theorem Shows.erase {c : UInt8} (h : t.Shows (line ++ [c])) :
    (t.puts (ascii "\x08 \x08")).Shows line := by
  have hcol : t.col - 1 = line.length := by
    rw [h.col, List.length_append, List.length_singleton, Nat.add_sub_cancel]
  have hputs : t.puts (ascii "\x08 \x08")
      = ⟨Function.update t.row line.length 32, line.length⟩ := by
    simp [puts, ascii, Terminal.put, Printable, hcol]
  rw [hputs]
  refine ⟨fun j ↦ ?_, rfl⟩
  simp only
  by_cases hj : j = line.length
  · rw [hj, Function.update_self, List.getD_eq_default _ _ (le_refl _)]
  · rw [Function.update_of_ne hj, h.row, getD_concat_of_ne hj]

end Terminal

/-- A stream as a user types it: printable bytes, backspace and DEL. -/
def Displayable (bytes : List UInt8) : Prop := ∀ c ∈ bytes, Printable c ∨ c = 8 ∨ c = 127

/-- **The echo of a byte edits the row as the byte edits the line.** -/
theorem shows_editByte {t : Terminal} {line : List UInt8} (h : t.Shows line) (max : ℕ) {c : UInt8}
    (hc : Printable c ∨ c = 8 ∨ c = 127) :
    (t.puts (sentBytes (echo max line c))).Shows (editByte max line c) := by
  rw [echo, editByte]
  split_ifs with hback hpos hroom
  · rcases List.eq_nil_or_concat line with rfl | ⟨front, last, rfl⟩
    · exact absurd hpos (lt_irrefl 0)
    · rw [List.concat_eq_append] at h ⊢
      rw [List.dropLast_concat]
      simpa [sentBytes] using h.erase
  · rw [List.length_pos_iff, not_not] at hpos
    rw [hpos] at h ⊢
    exact h
  · rw [or_comm] at hback
    exact h.put (hc.resolve_right hback)
  · exact h

theorem shows_foldl_editByte {t : Terminal} {line : List UInt8} (h : t.Shows line) (max : ℕ)
    {bytes : List UInt8} (hbytes : Displayable bytes) :
    (t.puts (sentBytes (echoes max line bytes))).Shows (bytes.foldl (editByte max) line) := by
  induction bytes generalizing t line with
  | nil => exact h
  | cons c bytes ih =>
    obtain ⟨hc, hbytes⟩ := List.forall_mem_cons.mp hbytes
    rw [echoes, sentBytes, List.flatMap_append, ← sentBytes, ← sentBytes, Terminal.puts,
      List.foldl_append]
    exact ih (shows_editByte h max hc) hbytes

/-! ## The editor -/

/-- The bytes in front of the first line end. -/
def firstLine (bytes : List UInt8) : List UInt8 := bytes.takeWhile fun c ↦ ¬ (c = 13 ∨ c = 10)

/-- The bytes behind the first line end. -/
def afterLine (bytes : List UInt8) : List UInt8 :=
  (bytes.dropWhile fun c ↦ ¬ (c = 13 ∨ c = 10)).tail

theorem noLineEnd_firstLine (bytes : List UInt8) : NoLineEnd (firstLine bytes) := by
  refine ⟨fun h ↦ ?_, fun h ↦ ?_⟩
  · exact absurd (List.mem_takeWhile_imp h) (by decide)
  · exact absurd (List.mem_takeWhile_imp h) (by decide)

theorem exists_eq_firstLine_append {bytes : List UInt8} (h : ¬ NoLineEnd bytes) :
    ∃ c, (c = 13 ∨ c = 10) ∧ bytes = firstLine bytes ++ c :: afterLine bytes := by
  have hsplit := (List.takeWhile_append_dropWhile
    (p := fun c ↦ decide ¬ (c = 13 ∨ c = 10)) (l := bytes)).symm
  rcases hdrop : bytes.dropWhile fun c ↦ ¬ (c = 13 ∨ c = 10) with _ | ⟨c, rest⟩
  · rw [hdrop, List.append_nil] at hsplit
    rw [hsplit] at h
    exact absurd (noLineEnd_firstLine bytes) h
  · have hc := List.head?_dropWhile_not (fun c ↦ decide ¬ (c = 13 ∨ c = 10)) bytes
    rw [hdrop] at hc hsplit
    refine ⟨c, by simpa [or_iff_not_imp_left] using hc, ?_⟩
    rw [afterLine, hdrop]
    exact hsplit

/-- What is typed so far, in the buffer and on the screen: `getline` is waiting for more, the line
edited is in front of its buffer, and what it has echoed shows that line. -/
def InView (max : ℕ) (buf : Vector UInt8 k) (typed : List UInt8) (out : List Action) : Prop :=
  ∃ buf' i, getline max buf typed = some (.typing buf' i, [], out) ∧
    buf'.toList.take i = editLine max typed ∧ i = (editLine max typed).length ∧
    (Displayable typed → (Terminal.blank.puts (sentBytes out)).Shows (buf'.toList.take i))

theorem inView_of_noLineEnd {max : ℕ} (hmax : 1 ≤ max) (hk : max ≤ k) (buf : Vector UInt8 k)
    {typed : List UInt8} (htyped : NoLineEnd typed) :
    InView max buf typed (echoes max [] typed) := by
  obtain ⟨buf', h', hloop⟩ := (edited_zero hmax buf).exists_getlineLoop hk htyped
  have hwait := hloop []
  rw [List.append_nil, getlineLoop, Option.map_some, List.append_nil] at hwait
  refine ⟨buf', _, hwait, h'.take, rfl, fun hdisp ↦ ?_⟩
  rw [h'.take]
  exact shows_foldl_editByte Terminal.shows_blank max hdisp

theorem echoes_append (max : ℕ) (line a b : List UInt8) :
    echoes max line (a ++ b)
      = echoes max line a ++ echoes max (a.foldl (editByte max) line) b := by
  induction a generalizing line with
  | nil => rfl
  | cons c a ih => rw [List.cons_append, echoes, ih, echoes, List.append_assoc, List.foldl_cons]

/-- **The line editor.** It returns at the first line end with the edited line and a NUL in the
first `max` bytes of its buffer and the rest untouched, it consumes nothing further, and at every
moment until then the screen shows the line as it stands. -/
theorem exists_getline {max : ℕ} (hmax : 1 ≤ max) (hk : max ≤ k) (buf : Vector UInt8 k)
    {bytes : List UInt8} (hbytes : ¬ NoLineEnd bytes) :
    ∃ buf' r out, getline max buf bytes = some (.done buf', afterLine bytes, out) ∧
      buf'.toList = editLine max (firstLine bytes) ++ 0 :: r ∧
      (editLine max (firstLine bytes)).length < max ∧
      buf'.toList.drop max = buf.toList.drop max ∧
      ∀ typed, typed <+: firstLine bytes →
        ∃ shown, shown <+: out ∧ InView max buf typed shown := by
  obtain ⟨c, hc, hsplit⟩ := exists_eq_firstLine_append hbytes
  have hclean := noLineEnd_firstLine bytes
  obtain ⟨buf₁, h₁, hloop⟩ := (edited_zero hmax buf).exists_getlineLoop hk hclean
  obtain ⟨buf', r, hdone, hlist, hdrop⟩ := h₁.exists_done hk hc (afterLine bytes)
  have hget := hloop (c :: afterLine bytes)
  rw [hdone, Option.map_some, ← hsplit] at hget
  refine ⟨buf', r, _, hget, hlist, h₁.lt, hdrop, fun typed htyped ↦ ?_⟩
  obtain ⟨more, hmore⟩ := htyped
  have hsub : NoLineEnd typed := hclean.subset fun b hb ↦ hmore ▸ List.mem_append_left more hb
  refine ⟨echoes max [] typed, ?_, inView_of_noLineEnd hmax hk buf hsub⟩
  rw [← hmore, echoes_append, List.append_assoc]
  exact List.prefix_append _ _

/-- A line with a byte taken back, in a buffer of four. -/
theorem exists_getline_abd : ∃ buf' r out,
    getline 4 (Vector.replicate 4 (0xEE : UInt8)) (ascii "abc\x7fd\rx")
        = some (.done buf', ascii "x", out) ∧
      buf'.toList = ascii "abd" ++ 0 :: r := by
  obtain ⟨buf', r, out, hget, hlist, -⟩ := exists_getline (by decide) (le_refl 4)
    (Vector.replicate 4 (0xEE : UInt8))
    (show ¬ NoLineEnd (ascii "abc\x7fd\rx") by decide)
  exact ⟨buf', r, out, hget, hlist⟩

end ZanOS
