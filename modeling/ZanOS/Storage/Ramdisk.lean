import Mathlib.Data.List.FinRange
import ZanOS.Kernel.Clock
import ZanOS.Kernel.Strings
import ZanOS.Foundation.Machine

/-!
# The RAM disk

`ramdisk.c` keeps sixteen files in fixed slots. A slot is claimed by the first `ramdisk_create`
that finds it free and never given back; `ramdisk_write` and `ramdisk_read` scan the slots from the
front and act on the first used one whose name equals theirs. Names are cut to 31 bytes and
contents to 255 when they are stored, and both fields are NUL-terminated then.

The operations below follow the source loop by loop. An access outside an array has no result
(`none`); that it never happens is part of what `ZanOS.Storage.Catalog` proves.
-/

namespace ZanOS

open Foundation

/-- `File`: `MAX_FILE_SIZE` is 256. -/
structure File where
  name : Vector UInt8 32
  data : Vector UInt8 256
  size : UInt32
  used : UInt8

/-- The `files` table, `MAX_FILES` of them, and the diagnostics counters `ramdisk_create` reports
to. -/
structure Ramdisk where
  files : Vector File 16
  diag : Diag

/-- `ramdisk_init`: only the `used` marks are reset, names and contents keep what they hold. -/
def ramdiskInit (d : Ramdisk) : Ramdisk :=
  { d with files := d.files.map fun f ↦ { f with used := 0 } }

/-- `ramdisk_create`, with its return value. -/
def ramdiskCreate (d : Ramdisk) (name : List UInt8) : Option (Ramdisk × Int) :=
  match (List.finRange 16).find? fun i ↦ (d.files.get i).used = 0 with
  | none => some (d, -1)
  | some i =>
      match strncpy (d.files.get i).name name 31 with
      | none => none
      | some cut =>
          match store cut 31 0 with
          | none => none
          | some cut' =>
              let f := { (d.files.get i) with used := 1, name := cut', size := 0 }
              some ({ files := d.files.set i f, diag := diagFileCreated d.diag }, 0)

/-- The scan shared by `ramdisk_write` and `ramdisk_read`: the first of the given slots that is
used and whose name compares equal. -/
def findFile (files : Vector File 16) (name : List UInt8) :
    List (Fin 16) → Option (Option (Fin 16))
  | [] => some none
  | i :: is =>
      if (files.get i).used ≠ 0 then
        match strcmp (files.get i).name.toList name with
        | none => none
        | some c => if c = 0 then some (some i) else findFile files name is
      else findFile files name is

/-- The copy loop of `ramdisk_write`: it stops at the NUL or at `MAX_FILE_SIZE - 1`. -/
def writeLoop (dst : Vector UInt8 256) (j : ℕ) : List UInt8 → Option (Vector UInt8 256 × ℕ)
  | [] => none
  | c :: cs =>
      if c ≠ 0 ∧ j < 255 then
        match store dst j c with
        | none => none
        | some dst' => writeLoop dst' (j + 1) cs
      else some (dst, j)

/-- `ramdisk_write`, with its return value. -/
def ramdiskWrite (d : Ramdisk) (name data : List UInt8) : Option (Ramdisk × Int) :=
  match findFile d.files name (List.finRange 16) with
  | none => none
  | some none => some (d, -1)
  | some (some i) =>
      match writeLoop (d.files.get i).data 0 data with
      | none => none
      | some (dst, j) =>
          match store dst j 0 with
          | none => none
          | some dst' =>
              let f := { (d.files.get i) with data := dst', size := UInt32.ofNat j }
              some ({ d with files := d.files.set i f }, 0)

/-- The copy loop of `ramdisk_read`, with `n` bytes to go. -/
def readLoop {k : ℕ} (buffer : Vector UInt8 k) (j : ℕ) : ℕ → List UInt8 → Option (Vector UInt8 k)
  | 0, _ => some buffer
  | _ + 1, [] => none
  | n + 1, c :: cs =>
      match store buffer j c with
      | none => none
      | some buffer' => readLoop buffer' (j + 1) n cs

/-- `ramdisk_read`: the caller's buffer afterwards, and the return value. -/
def ramdiskRead {k : ℕ} (d : Ramdisk) (name : List UInt8) (buffer : Vector UInt8 k) :
    Option (Vector UInt8 k × Int) :=
  match findFile d.files name (List.finRange 16) with
  | none => none
  | some none => some (buffer, -1)
  | some (some i) =>
      match readLoop buffer 0 (d.files.get i).size.toNat (d.files.get i).data.toList with
      | none => none
      | some buffer' =>
          match store buffer' (d.files.get i).size.toNat 0 with
          | none => none
          | some buffer'' => some (buffer'', 0)

/-- A call of one of the three operations, with NUL-terminated arguments. -/
inductive DiskOp
  | create (name : CStr)
  | write (name data : CStr)
  | read (name : CStr) (k : ℕ) (buffer : Vector UInt8 k)

/-- Runs of RAM-disk calls; the output is the value returned. -/
def ramdiskMachine : Machine Ramdisk DiskOp Int where
  next d
    | .create name => ramdiskCreate d name.mem
    | .write name data => ramdiskWrite d name.mem data.mem
    | .read name _ buffer => (ramdiskRead d name.mem buffer).map fun r ↦ (d, r.2)

/-! ## The loops -/

/-- The scan is a first match on the strings the names denote. -/
theorem findFile_eq_find? {files : Vector File 16} {name : List UInt8} (hname : (0 : UInt8) ∈ name)
    (hfiles : ∀ i : Fin 16, (files.get i).used ≠ 0 → (0 : UInt8) ∈ (files.get i).name.toList)
    (is : List (Fin 16)) :
    findFile files name is = some (is.find? fun i ↦
      decide ((files.get i).used ≠ 0 ∧ cstr (files.get i).name.toList = cstr name)) := by
  induction is with
  | nil => rfl
  | cons i is ih =>
    rw [findFile, List.find?_cons]
    by_cases hused : (files.get i).used ≠ 0
    · rw [if_pos hused]
      have hnul := hfiles i hused
      obtain ⟨c, hc⟩ := strcmp_isSome hnul hname
      have hzero := strcmp_eq_zero_iff hnul hname
      rw [hc, Option.some.injEq] at hzero
      rw [hc]
      simp only
      by_cases heq : cstr (files.get i).name.toList = cstr name
      · rw [if_pos (hzero.mpr heq), decide_eq_true ⟨hused, heq⟩]
      · rw [if_neg fun h ↦ heq (hzero.mp h), decide_eq_false fun h ↦ heq h.2]
        exact ih
    · rw [if_neg hused, decide_eq_false fun h ↦ hused h.1]
      exact ih

theorem writeLoop_eq_storeAll {dst : Vector UInt8 256} {j : ℕ} {data : List UInt8}
    (h : (0 : UInt8) ∈ data) :
    writeLoop dst j data = (storeAll dst j ((cstr data).take (255 - j))).map fun b ↦
      (b, j + ((cstr data).take (255 - j)).length) := by
  induction data generalizing dst j with
  | nil => simp at h
  | cons c data ih =>
    rw [writeLoop]
    by_cases hc : c = 0
    · subst hc
      rw [if_neg (by simp), cstr_zero_cons]
      simp
    · rw [cstr_cons hc]
      by_cases hj : j < 255
      · rw [if_pos ⟨hc, hj⟩, show 255 - j = (255 - (j + 1)) + 1 by omega, List.take_succ_cons,
          storeAll]
        cases store dst j c with
        | none => rfl
        | some dst' =>
          simp only
          rw [ih (zero_mem_of_cons h hc), List.length_cons]
          congr 1
          funext b
          rw [Nat.add_right_comm, Nat.add_assoc]
      · rw [if_neg fun h ↦ hj h.2, show 255 - j = 0 by omega]
        simp

theorem readLoop_eq_storeAll {k : ℕ} {buffer : Vector UInt8 k} {j n : ℕ} {src : List UInt8}
    (h : n ≤ src.length) : readLoop buffer j n src = storeAll buffer j (src.take n) := by
  induction n generalizing buffer j src with
  | zero => rfl
  | succ n ih =>
    cases src with
    | nil => simp at h
    | cons c src =>
      rw [readLoop, List.take_succ_cons, storeAll]
      cases store buffer j c with
      | none => rfl
      | some buffer' => exact ih (Nat.le_of_succ_le_succ h)

end ZanOS
