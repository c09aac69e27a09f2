import ZanOS.Storage.History
import ZanOS.Uart.Numbers

/-!
# Listing the RAM disk

`ramdisk_ls` walks over the sixteen slots and prints the name of each that is used. It reads the
names up to their NUL, so what it prints is right because every used slot has one.

On a slot table that stores a catalog this is a line for each entry, in order
(`Rep.ramdiskLs_eq`), and so after any calls a line for each file created, oldest first.
-/

namespace ZanOS

open Foundation

/-- `uart_println`. -/
def uartPrintln (s : List UInt8) : Option (List UInt8) := (uartPrint s).map (· ++ [10])

/-- One print after the other. -/
def sendAll : List (Option (List UInt8)) → Option (List UInt8)
  | [] => some []
  | none :: _ => none
  | some s :: l => (sendAll l).map (s ++ ·)

/-- The loop of `ramdisk_ls`. -/
def lsLoop (files : Vector File 16) : List (Fin 16) → Option (List UInt8)
  | [] => some []
  | i :: is =>
      if (files.get i).used ≠ 0 then
        sendAll [some (ascii "- "), uartPrintln (files.get i).name.toList, lsLoop files is]
      else lsLoop files is

/-- `ramdisk_ls`. -/
def ramdiskLs (d : Ramdisk) : Option (List UInt8) :=
  sendAll [some (ascii "Files in RAM Disk:\n"), lsLoop d.files (List.finRange 16)]

theorem uartPrintln_of_zero_mem {m : List UInt8} (h : (0 : UInt8) ∈ m) :
    uartPrintln m = some (cstr m ++ [10]) := by
  rw [uartPrintln, uartPrint_of_zero_mem h, Option.map_some]

theorem sendAll_map_some (l : List (List UInt8)) : sendAll (l.map some) = some l.flatten := by
  induction l with
  | nil => rfl
  | cons s l ih => rw [List.map_cons, sendAll, ih, Option.map_some, List.flatten_cons]

/-- The line of a file. -/
def listLine (name : List UInt8) : List UInt8 := ascii "- " ++ name ++ [10]

theorem flatMap_finRange_getElem? {α β : Type*} (l : List α) (f : α → List β) {n : ℕ}
    (h : l.length ≤ n) :
    (List.finRange n).flatMap (fun i ↦ l[i.val]?.elim [] f) = l.flatMap f := by
  induction l generalizing n with
  | nil => simp
  | cons a l ih =>
    obtain ⟨n, rfl⟩ : ∃ m, n = m + 1 := Nat.exists_eq_succ_of_ne_zero (by
      rintro rfl
      simp at h)
    rw [List.finRange_succ, List.flatMap_cons, List.flatMap_map, List.flatMap_cons]
    exact congrArg (f a ++ ·) (ih (Nat.le_of_succ_le_succ h))

namespace Rep

variable {d : Ramdisk} {l : List Entry}

theorem lsLoop_eq (h : Rep d l) (is : List (Fin 16)) :
    lsLoop d.files is = some (is.flatMap fun i ↦ l[i.val]?.elim [] fun e ↦ listLine e.1) := by
  induction is with
  | nil => rfl
  | cons i is ih =>
    rw [lsLoop, ih, List.flatMap_cons]
    by_cases hi : i.val < l.length
    · have hholds := h.holds i _ (List.getElem?_eq_getElem hi)
      rw [if_pos hholds.used, uartPrintln_of_zero_mem hholds.zero_mem, hholds.name_eq,
        List.getElem?_eq_getElem hi]
      exact (sendAll_map_some [_, _, _]).trans (by simp [listLine])
    · rw [if_neg ((h.used_iff i).not.mpr hi), List.getElem?_eq_none (not_lt.mp hi)]
      rfl

/-- **`ramdisk_ls` prints the catalog**, a line for each name. -/
theorem ramdiskLs_eq (h : Rep d l) : ramdiskLs d
    = some (ascii "Files in RAM Disk:\n" ++ (l.map Prod.fst).flatMap listLine) := by
  rw [ramdiskLs, h.lsLoop_eq, flatMap_finRange_getElem? l _ h.length_le, List.flatMap_map]
  exact (sendAll_map_some [_, _]).trans (by simp)

end Rep

/-- **After any calls the listing has a line for each successful create**, oldest first, with the
name as far as the name field keeps it. -/
theorem ramdiskLs_of_run {d₀ d : Ramdisk} {tr : List (Transition Ramdisk DiskOp Int)}
    (hrun : ramdiskMachine.Run (ramdiskInit d₀) tr d) :
    ramdiskLs d = some (ascii "Files in RAM Disk:\n"
      ++ (createdNames (tr.map Transition.visible)).flatMap listLine) := by
  obtain ⟨tr', l, hrun', hrep, hvis, -⟩ := exists_rep hrun
  rw [hrep.ramdiskLs_eq, keys_eq_createdNames hrun', hvis]

/-- Two files, one of which is written to. -/
theorem ramdiskLs_two_files :
    ∃ tr d, ramdiskMachine.Run (ramdiskInit bootDisk) tr d ∧
      ramdiskLs d = some (ascii "Files in RAM Disk:\n- f\n- g\n") := by
  obtain ⟨tr, d, hrun, hvis⟩ := Machine.exists_run_of_exec
    (show (ramdiskMachine.exec (ramdiskInit bootDisk)
        [.create ⟨[102], by decide⟩, .create ⟨[103], by decide⟩,
          .write ⟨[102], by decide⟩ ⟨[97], by decide⟩]).map
        (fun r ↦ r.1.map Transition.output) = some [0, 0, 0] by decide +kernel)
  refine ⟨tr, d, hrun, ?_⟩
  rw [ramdiskLs_of_run hrun, hvis]
  rfl

end ZanOS
