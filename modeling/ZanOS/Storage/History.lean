import Mathlib.Data.List.Nodup
import ZanOS.Storage.Catalog

/-!
# What a file reads as, and by which name

The meaning of a RAM disk is its history: a file exists from the first successful create of its
name, and reads as the data of the last write since. `contents` says so of the list of calls and
return values alone; `lookup_eq_contents` proves it of catalogs by induction over the run, and the
refinement hands it to the slot table.

Three things the slot table does not give. `ramdisk_create` cuts the name to 31 bytes while
`ramdisk_write` and `ramdisk_read` compare their whole argument, so a file created with a longer
name answers to no name its creator knows (`WritesBack`). `ramdisk_create` never looks for the name,
so a name can occupy several slots, of which only the lowest is ever reached (`UniqueNames`). And a
file can be longer than the array the shell reads it into (`CatFits`).
-/

namespace ZanOS

open Foundation

/-- The calls of a run with the values they returned. -/
abbrev DiskHistory := List (DiskOp × Int)

/-- A successful create of `n`, up to what a name field keeps. -/
def createsFile (n : CStr) : DiskOp × Int → Bool
  | (.create m, r) => r = 0 ∧ m.bytes.take 31 = n.bytes
  | _ => false

/-- The data of a write to `n`. -/
def writesFile (n : CStr) : DiskOp × Int → Option (List UInt8)
  | (.write m data, _) => if m = n then some data.bytes else none
  | _ => none

/-- What `n` stands for after a history: nothing before the first successful create, then the
first 255 bytes of the most recent write since, or the empty string. -/
def contents (n : CStr) (h : DiskHistory) : Option (List UInt8) :=
  match h.dropWhile fun v ↦ !createsFile n v with
  | [] => none
  | _ :: later => some (((later.filterMap (writesFile n)).getLast?.getD []).take 255)

theorem contents_append_singleton (n : CStr) (h : DiskHistory) (v : DiskOp × Int) :
    contents n (h ++ [v]) = match contents n h with
      | none => if createsFile n v then some [] else none
      | some c => some (((writesFile n v).map (·.take 255)).getD c) := by
  rw [contents, contents, List.dropWhile_append]
  cases hdrop : h.dropWhile fun v ↦ !createsFile n v with
  | nil => by_cases hv : createsFile n v <;> simp [hv]
  | cons u later =>
    simp only [List.isEmpty_cons, Bool.false_eq_true, if_false, List.cons_append,
      List.filterMap_append, Option.some.injEq]
    cases hw : writesFile n v with
    | none => simp [hw]
    | some data => simp [hw]

/-- **The history of a name determines its entry.** -/
theorem lookup_eq_contents {tr : List (Transition (List Entry) DiskOp Int)} {l : List Entry}
    (hrun : catalogMachine.Run [] tr l) (n : CStr) :
    l.lookup n.bytes = contents n (tr.map Transition.visible) := by
  induction hrun with
  | nil => rfl
  | snoc _ hnext ih =>
    rw [List.map_append, List.map_singleton, contents_append_singleton, ← ih, Transition.visible]
    simp only
    rcases catalogMachine_next_cases hnext with ⟨m, rfl, -, rfl, rfl⟩ | ⟨m, rfl, -, rfl, rfl⟩ |
      ⟨m, data, c, rfl, hm, rfl, rfl⟩ | ⟨m, data, rfl, hm, rfl, rfl⟩ | ⟨m, k, buffer, rfl, rfl⟩
    · -- a create that found room: it matters only if the name had no entry yet
      rw [lookup_append_singleton]
      cases List.lookup n.bytes _ with
      | none => by_cases hn : m.bytes.take 31 = n.bytes <;> simp [createsFile, hn]
      | some c => simp [writesFile]
    · cases List.lookup n.bytes _ <;> simp [createsFile, writesFile]
    · rw [lookup_assign]
      by_cases hmn : m = n
      · subst hmn
        simp [hm, writesFile]
      · rw [if_neg fun heq ↦ hmn (CStr.ext heq.symm)]
        cases List.lookup n.bytes _ <;> simp [createsFile, writesFile, hmn]
    · by_cases hmn : m = n
      · subst hmn
        simp [hm, createsFile]
      · cases List.lookup n.bytes _ <;> simp [createsFile, writesFile, hmn]
    · cases List.lookup n.bytes _ <;> simp [createsFile, writesFile]

/-- The catalog a run of the RAM disk has built, with what each of its names stands for. -/
theorem exists_rep {d₀ d : Ramdisk} {tr : List (Transition Ramdisk DiskOp Int)}
    (hrun : ramdiskMachine.Run (ramdiskInit d₀) tr d) :
    ∃ tr' l, catalogMachine.Run [] tr' l ∧ Rep d l ∧
      tr'.map Transition.visible = tr.map Transition.visible ∧
      ∀ n : CStr, l.lookup n.bytes = contents n (tr.map Transition.visible) := by
  obtain ⟨tr', l, hrun', hrep, hvis⟩ := simulation_rep.run hrun (rep_ramdiskInit d₀)
  exact ⟨tr', l, hrun', hrep, hvis, fun n ↦ by rw [← hvis]; exact lookup_eq_contents hrun' n⟩

/-! ## Reads return the last write -/

/-- A call that does not concern what `n` stands for: it neither writes `n` nor is the create that
brings it into being. -/
def Foreign (n : CStr) (h : DiskHistory) : DiskOp → Prop
  | .create m => m.bytes.take 31 ≠ n.bytes ∨ (contents n h).isSome
  | .write m _ => m ≠ n
  | .read _ _ _ => True

theorem contents_of_foreign {n : CStr} {h : DiskHistory} {op : DiskOp} (hop : Foreign n h op)
    (r : Int) : contents n (h ++ [(op, r)]) = contents n h := by
  rw [contents_append_singleton]
  cases op with
  | create m =>
    cases hc : contents n h with
    | none =>
      have hne : m.bytes.take 31 ≠ n.bytes := hop.resolve_right (by simp [hc])
      simp [createsFile, hne]
    | some c => simp [writesFile]
  | write m data =>
    have hne : m ≠ n := hop
    cases contents n h <;> simp [createsFile, writesFile, hne]
  | read m k buffer => cases contents n h <;> simp [createsFile, writesFile]

/-- How a name reads in a state: not at all, with the buffer untouched, or as a NUL-terminated
string at the front of any buffer that can take it. -/
def ReadsAs (d : Ramdisk) (n : CStr) : Option (List UInt8) → Prop
  | none => ∀ k (buffer : Vector UInt8 k), ramdiskRead d n.mem buffer = some (buffer, -1)
  | some c => ∀ k (buffer : Vector UInt8 k), c.length < k →
      ∃ buffer', ramdiskRead d n.mem buffer = some (buffer', 0) ∧
        buffer'.toList = c ++ 0 :: buffer.toList.drop (c.length + 1)

theorem Rep.readsAs {d : Ramdisk} {l : List Entry} (h : Rep d l) (n : CStr) :
    ReadsAs d n (l.lookup n.bytes) := by
  cases hlookup : l.lookup n.bytes with
  | none => exact fun k buffer ↦ h.ramdiskRead_of_none n hlookup buffer
  | some c => exact fun k buffer hk ↦ h.exists_ramdiskRead n hlookup buffer hk

theorem Rep.exists_ramdiskWrite {d : Ramdisk} {l : List Entry} (h : Rep d l) (n data : CStr) :
    ∃ d' r, ramdiskWrite d n.mem data.mem = some (d', r) ∧
      (r = 0 ↔ (l.lookup n.bytes).isSome) ∧
      ((l.lookup n.bytes).isSome → ReadsAs d' n (some (data.bytes.take 255))) := by
  obtain ⟨d', l', r, hnext, hcat, hrep⟩ := h.exists_write n data
  refine ⟨d', r, hnext, ?_, fun hsome ↦ ?_⟩
  · rcases catalogMachine_next_cases hcat with ⟨m, hop, -⟩ | ⟨m, hop, -⟩ |
      ⟨m, data', c, hop, hm, -, rfl⟩ | ⟨m, data', hop, hm, -, rfl⟩ | ⟨m, k, buffer, hop, -⟩ <;>
      cases hop
    · simp [hm]
    · simp [hm]
  · have hl' : l' = assign n.bytes (data.bytes.take 255) l := by
      have hstep : (if (l.lookup n.bytes).isSome
          then (assign n.bytes (data.bytes.take 255) l, (0 : Int)) else (l, -1)) = (l', r) :=
        Option.some.inj hcat
      rw [if_pos hsome] at hstep
      exact (Prod.mk.inj hstep).1.symm
    obtain ⟨c, hc⟩ := Option.isSome_iff_exists.mp hsome
    have hreads := hrep.readsAs n
    rwa [hl', lookup_assign, if_pos rfl, hc, Option.map_some] at hreads

theorem length_le_of_contents_eq_some {n : CStr} {h : DiskHistory} {c : List UInt8}
    (hc : contents n h = some c) : c.length ≤ 255 := by
  rw [contents] at hc
  split at hc
  · cases hc
  · rw [← Option.some.inj hc, List.length_take]
    exact min_le_left _ _

/-- **Reads return the last write.** After any run from `ramdisk_init`, every name reads as its
history says; a write succeeds exactly where a read does; and a call that does not concern the name
does not change what it reads as. -/
theorem readsAs_contents {d₀ d : Ramdisk} {tr : List (Transition Ramdisk DiskOp Int)}
    (hrun : ramdiskMachine.Run (ramdiskInit d₀) tr d) (n : CStr) :
    ReadsAs d n (contents n (tr.map Transition.visible)) ∧
      (∀ (data : CStr) (k : ℕ) (buffer : Vector UInt8 k), 256 ≤ k →
        ∃ d' r, ramdiskWrite d n.mem data.mem = some (d', r) ∧
          (r = 0 ↔ ∃ buffer', ramdiskRead d n.mem buffer = some (buffer', 0))) ∧
      ∀ op d' r, Foreign n (tr.map Transition.visible) op →
        ramdiskMachine.next d op = some (d', r) →
        ReadsAs d' n (contents n (tr.map Transition.visible)) := by
  obtain ⟨-, l, -, hrep, -, hcontents⟩ := exists_rep hrun
  have hreads : ReadsAs d n (contents n (tr.map Transition.visible)) :=
    hcontents n ▸ hrep.readsAs n
  refine ⟨hreads, fun data k buffer hk ↦ ?_, fun op d' r hop hnext ↦ ?_⟩
  · obtain ⟨d', r, hwrite, hr, -⟩ := hrep.exists_ramdiskWrite n data
    refine ⟨d', r, hwrite, ?_⟩
    rw [hr, hcontents n]
    cases hc : contents n (tr.map Transition.visible) with
    | none =>
      rw [hc] at hreads
      simp [hreads k buffer]
    | some c =>
      rw [hc] at hreads
      have hlen := length_le_of_contents_eq_some hc
      obtain ⟨buffer', hread, -⟩ := hreads k buffer (by omega)
      simp [hread]
  · obtain ⟨-, l', -, hrep', -, hcontents'⟩ := exists_rep (hrun.snoc hnext)
    have hreads' := hrep'.readsAs n
    rwa [hcontents', List.map_append, List.map_singleton, Transition.visible,
      contents_of_foreign hop] at hreads'

/-- The disk as the C runtime hands it to `main`: static storage is zero. -/
def bootDisk : Ramdisk where
  files := Vector.replicate 16 ⟨Vector.replicate 32 0, Vector.replicate 256 0, 0, 0⟩
  diag := ⟨0, 0⟩

/-- The file `"f"` written twice, with another file created and written in between. -/
theorem readsAs_contents_rewritten :
    ∃ tr d, ramdiskMachine.Run (ramdiskInit bootDisk) tr d ∧
      contents ⟨[102], by decide⟩ (tr.map Transition.visible) = some [50] ∧
      ReadsAs d ⟨[102], by decide⟩ (some [50]) := by
  obtain ⟨tr, d, hrun, hvis⟩ := Machine.exists_run_of_exec
    (show (ramdiskMachine.exec (ramdiskInit bootDisk)
        [.create ⟨[102], by decide⟩, .write ⟨[102], by decide⟩ ⟨[49], by decide⟩,
          .create ⟨[103], by decide⟩, .write ⟨[102], by decide⟩ ⟨[50], by decide⟩,
          .write ⟨[103], by decide⟩ ⟨[51], by decide⟩]).map
        (fun r ↦ r.1.map Transition.output) = some [0, 0, 0, 0, 0] by decide +kernel)
  have hcontents : contents ⟨[102], by decide⟩ (tr.map Transition.visible) = some [50] := by
    rw [hvis]
    decide
  exact ⟨tr, d, hrun, hcontents, hcontents ▸ (readsAs_contents hrun _).1⟩

/-! ## The buffer of `cat`

The shell reads files into an array of 128 bytes, while a file can hold 255. -/

/-- `cat name`: whatever the shell's buffer holds, `ramdisk_read` stores inside it. -/
def CatFits (d : Ramdisk) (name : CStr) : Prop :=
  ∀ buffer : Vector UInt8 128, (ramdiskRead d name.mem buffer).isSome

theorem Rep.catFits_iff {d : Ramdisk} {l : List Entry} (h : Rep d l) (name : CStr) :
    CatFits d name ↔ ∀ c, l.lookup name.bytes = some c → c.length < 128 := by
  constructor
  · intro hfits c hc
    by_contra hlong
    have hread := hfits (Vector.replicate 128 0)
    rw [h.ramdiskRead_eq_none name hc _ (not_lt.mp hlong)] at hread
    exact absurd hread Bool.false_ne_true
  · intro hshort buffer
    rcases hlookup : l.lookup name.bytes with _ | c
    · rw [h.ramdiskRead_of_none name hlookup]
      rfl
    · obtain ⟨buffer', hread, -⟩ := h.exists_ramdiskRead name hlookup buffer (hshort c hlookup)
      rw [hread]
      rfl

/-- **`cat` stays inside the shell's buffer exactly for files shorter than it.** After any run from
`ramdisk_init`, that is, a name that stands for no file, or one whose last write left fewer than 128
bytes. -/
theorem catFits_iff_contents {d₀ d : Ramdisk} {tr : List (Transition Ramdisk DiskOp Int)}
    (hrun : ramdiskMachine.Run (ramdiskInit d₀) tr d) (name : CStr) :
    CatFits d name ↔ ∀ c, contents name (tr.map Transition.visible) = some c → c.length < 128 := by
  obtain ⟨-, l, -, hrep, -, hcontents⟩ := exists_rep hrun
  rw [hrep.catFits_iff, hcontents]

/-- A file with one byte in it. -/
theorem catFits_short_file : ∃ tr d, ramdiskMachine.Run (ramdiskInit bootDisk) tr d ∧
    contents ⟨[102], by decide⟩ (tr.map Transition.visible) = some [49] ∧
    CatFits d ⟨[102], by decide⟩ := by
  obtain ⟨tr, d, hrun, hvis⟩ := Machine.exists_run_of_exec
    (show (ramdiskMachine.exec (ramdiskInit bootDisk)
        [.create ⟨[102], by decide⟩, .write ⟨[102], by decide⟩ ⟨[49], by decide⟩]).map
        (fun r ↦ r.1.map Transition.output) = some [0, 0] by decide +kernel)
  have hcontents : contents ⟨[102], by decide⟩ (tr.map Transition.visible) = some [49] := by
    rw [hvis]
    decide
  refine ⟨tr, d, hrun, hcontents, (catFits_iff_contents hrun _).mpr fun c hc ↦ ?_⟩
  rw [hcontents] at hc
  rw [← Option.some.inj hc]
  decide

/-- A text of 128 bytes, as long as the shell's buffer. -/
def longText : CStr := ⟨List.replicate 128 97, by decide⟩

/-- A file of 128 bytes: the terminator goes behind the buffer. -/
theorem not_catFits_long_file : ∃ tr d, ramdiskMachine.Run (ramdiskInit bootDisk) tr d ∧
    tr.map Transition.visible
      = [(.create ⟨[102], by decide⟩, 0), (.write ⟨[102], by decide⟩ longText, 0)] ∧
    ¬ CatFits d ⟨[102], by decide⟩ := by
  obtain ⟨tr, d, hrun, hvis⟩ := Machine.exists_run_of_exec
    (show (ramdiskMachine.exec (ramdiskInit bootDisk)
        [.create ⟨[102], by decide⟩, .write ⟨[102], by decide⟩ longText]).map
        (fun r ↦ r.1.map Transition.output) = some [0, 0] by decide +kernel)
  refine ⟨tr, d, hrun, hvis, fun hfits ↦ ?_⟩
  obtain ⟨-, l, -, hrep, -, hcontents⟩ := exists_rep hrun
  have hlong : contents ⟨[102], by decide⟩ (tr.map Transition.visible)
      = some (List.replicate 128 97) := by
    rw [hvis]
    decide +kernel
  have hlt := (hrep.catFits_iff _).mp hfits _ ((hcontents _).trans hlong)
  rw [List.length_replicate] at hlt
  exact absurd hlt (lt_irrefl 128)

/-! ## Files and the names they were created with -/

theorem isSome_contents_iff {n : CStr} {h : DiskHistory} :
    (contents n h).isSome ↔ ∃ v ∈ h, createsFile n v := by
  rw [contents]
  cases hdrop : h.dropWhile fun v ↦ !createsFile n v with
  | nil =>
    rw [List.dropWhile_eq_nil_iff] at hdrop
    simpa using hdrop
  | cons v later =>
    have hv : createsFile n v := by
      have hhead := List.head?_dropWhile_not (fun v ↦ !createsFile n v) h
      rw [hdrop] at hhead
      simpa using hhead
    have hmem : v ∈ h := by
      apply (List.dropWhile_suffix fun v ↦ !createsFile n v).subset
      rw [hdrop]
      exact List.mem_cons_self
    simpa using ⟨v.1, v.2, hmem, hv⟩

/-- `ramdisk_write` to the name succeeds whatever the data, and `ramdisk_read` then returns what
was written. -/
def WritesBack (d : Ramdisk) (name : CStr) : Prop :=
  ∀ data : CStr, ∃ d', ramdiskWrite d name.mem data.mem = some (d', 0) ∧
    ReadsAs d' name (some (data.bytes.take 255))

theorem Rep.writesBack_iff {d : Ramdisk} {l : List Entry} (h : Rep d l) (name : CStr) :
    WritesBack d name ↔ (l.lookup name.bytes).isSome := by
  constructor
  · intro hback
    obtain ⟨d', hwrite, -⟩ := hback name
    obtain ⟨d'', r, hwrite', hr, -⟩ := h.exists_ramdiskWrite name name
    obtain ⟨-, rfl⟩ := Prod.mk.inj (Option.some.inj (hwrite.symm.trans hwrite'))
    exact hr.mp rfl
  · intro hsome data
    obtain ⟨d', r, hwrite, hr, hreads⟩ := h.exists_ramdiskWrite name data
    obtain rfl := hr.mpr hsome
    exact ⟨d', hwrite, hreads hsome⟩

/-- **A created file answers to its name as long as the name fits.** What a create that returned 0
was given reaches the file in every later state exactly if it has at most 31 bytes. -/
theorem writesBack_iff_length_le {d₀ d d₁ : Ramdisk} {tr : List (Transition Ramdisk DiskOp Int)}
    (hrun : ramdiskMachine.Run (ramdiskInit d₀) tr d) (name : CStr)
    (hcreate : ramdiskCreate d name.mem = some (d₁, 0)) :
    (∀ tr' d₂, ramdiskMachine.Run d₁ tr' d₂ → WritesBack d₂ name) ↔ name.bytes.length ≤ 31 := by
  have hrun₁ := hrun.snoc (show ramdiskMachine.next d (.create name) = some (d₁, 0) from hcreate)
  constructor
  · intro hback
    obtain ⟨-, l, -, hrep, -, hcontents⟩ := exists_rep hrun₁
    have hsome := (hrep.writesBack_iff name).mp (hback [] d₁ .nil)
    rw [hcontents, isSome_contents_iff] at hsome
    -- whichever create made the file, its name was cut to 31 bytes
    obtain ⟨⟨op, r⟩, -, hv⟩ := hsome
    cases op with
    | create m =>
      have hm : r = 0 ∧ m.bytes.take 31 = name.bytes := by simpa [createsFile] using hv
      rw [← hm.2, List.length_take]
      exact min_le_left _ _
    | write m data => simp [createsFile] at hv
    | read m k buffer => simp [createsFile] at hv
  · intro hlen tr' d₂ hrun'
    obtain ⟨-, l, -, hrep, -, hcontents⟩ := exists_rep (hrun₁.trans hrun')
    rw [hrep.writesBack_iff, hcontents, isSome_contents_iff]
    refine ⟨(.create name, 0), ?_, by simp [createsFile, List.take_of_length_le hlen]⟩
    rw [List.map_append, List.map_append]
    exact List.mem_append_left _ List.mem_concat_self

/-- A file named `"f"` on the disk of a fresh boot. -/
theorem writesBack_bootDisk :
    ∃ d₁, ramdiskCreate (ramdiskInit bootDisk) [102, 0] = some (d₁, 0) ∧
      ∀ tr' d₂, ramdiskMachine.Run d₁ tr' d₂ → WritesBack d₂ ⟨[102], by decide⟩ := by
  have hout : (ramdiskCreate (ramdiskInit bootDisk) [102, 0]).map Prod.snd = some 0 := by
    decide +kernel
  obtain ⟨⟨d₁, r⟩, hcreate, rfl⟩ := Option.map_eq_some_iff.mp hout
  exact ⟨d₁, hcreate,
    (writesBack_iff_length_le .nil ⟨[102], by decide⟩ hcreate).mpr (by decide)⟩

/-- One byte too many: the name `"aa…a"` of 32 bytes. -/
def longName : CStr := ⟨List.replicate 32 97, by decide⟩

/-- The create returns 0, and the very next write with the same name returns -1. -/
theorem not_writesBack_longName :
    ∃ d₁, ramdiskCreate (ramdiskInit bootDisk) longName.mem = some (d₁, 0) ∧
      ramdiskMachine.Run d₁ [] d₁ ∧
      (ramdiskWrite d₁ longName.mem longName.mem).map Prod.snd = some (-1) ∧
      ¬ WritesBack d₁ longName := by
  have hout : (ramdiskCreate (ramdiskInit bootDisk) longName.mem).map (fun r ↦
      (r.2, (ramdiskWrite r.1 longName.mem longName.mem).map Prod.snd)) = some (0, some (-1)) := by
    decide +kernel
  obtain ⟨⟨d₁, r⟩, hcreate, heq⟩ := Option.map_eq_some_iff.mp hout
  obtain ⟨rfl, hwrite⟩ := Prod.mk.inj heq
  refine ⟨d₁, hcreate, .nil, hwrite, fun hback ↦ ?_⟩
  obtain ⟨d', hwrite', -⟩ := hback longName
  rw [hwrite'] at hwrite
  exact absurd (show (0 : Int) = -1 from Option.some.inj hwrite) (by decide)

/-! ## Names that occupy several slots -/

/-- The name field a successful create fills in. -/
def createdName : DiskOp × Int → Option (List UInt8)
  | (.create m, r) => if r = 0 then some (m.bytes.take 31) else none
  | _ => none

/-- The names given to the successful creates of a history, as the name fields keep them. -/
def createdNames (h : DiskHistory) : List (List UInt8) := h.filterMap createdName

theorem keys_eq_createdNames {tr : List (Transition (List Entry) DiskOp Int)} {l : List Entry}
    (hrun : catalogMachine.Run [] tr l) :
    l.map Prod.fst = createdNames (tr.map Transition.visible) := by
  induction hrun with
  | nil => rfl
  | snoc _ hnext ih =>
    rw [createdNames, List.map_append, List.filterMap_append, ← createdNames, ← ih,
      List.map_singleton, Transition.visible]
    rcases catalogMachine_next_cases hnext with ⟨m, rfl, -, rfl, rfl⟩ | ⟨m, rfl, -, rfl, rfl⟩ |
      ⟨m, data, c, rfl, -, rfl, rfl⟩ | ⟨m, data, rfl, -, rfl, rfl⟩ | ⟨m, k, buffer, rfl, rfl⟩
    · simp [createdName]
    · simp [createdName]
    · simp [createdName, keys_assign]
    · simp [createdName]
    · simp [createdName]

/-- No two used slots have names that `strcmp` finds equal. -/
def UniqueNames (d : Ramdisk) : Prop :=
  ∀ i j : Fin 16, (d.files.get i).used ≠ 0 → (d.files.get j).used ≠ 0 →
    strcmp (d.files.get i).name.toList (d.files.get j).name.toList = some 0 → i = j

/-- The scan of `ramdisk_write` and `ramdisk_read`, given the name that `ramdisk_ls` lists for slot
`i`, stops at slot `j`. -/
def ListedNameReaches (d : Ramdisk) (i j : Fin 16) : Prop :=
  findFile d.files (d.files.get i).name.toList (List.finRange 16) = some (some j)

namespace Rep

variable {d : Ramdisk} {l : List Entry}

theorem strcmp_eq_zero_iff_getElem? (h : Rep d l) {i j : Fin 16} (hi : (d.files.get i).used ≠ 0)
    (hj : (d.files.get j).used ≠ 0) :
    strcmp (d.files.get i).name.toList (d.files.get j).name.toList = some 0 ↔
      (l.map Prod.fst)[i.val]? = (l.map Prod.fst)[j.val]? := by
  obtain ⟨c, hget⟩ := (h.matches_iff i _).mp ⟨hi, rfl⟩
  obtain ⟨c', hget'⟩ := (h.matches_iff j _).mp ⟨hj, rfl⟩
  rw [strcmp_eq_zero_iff (h.zero_mem i hi) (h.zero_mem j hj), List.getElem?_map, List.getElem?_map,
    hget, hget', Option.map_some, Option.map_some, Option.some.injEq]

theorem uniqueNames_iff (h : Rep d l) : UniqueNames d ↔ (l.map Prod.fst).Nodup := by
  rw [List.nodup_iff_injective_getElem]
  constructor
  · intro hunique i j heq
    have hi : i.val < l.length := by simpa using i.isLt
    have hj : j.val < l.length := by simpa using j.isLt
    have hi' := (h.used_iff ⟨i, hi.trans_le h.length_le⟩).mpr hi
    have hj' := (h.used_iff ⟨j, hj.trans_le h.length_le⟩).mpr hj
    have hsame := hunique _ _ hi' hj' ((h.strcmp_eq_zero_iff_getElem? hi' hj').mpr (by
      simpa [hi, hj] using heq))
    exact Fin.ext (Fin.mk.inj hsame)
  · intro hinj i j hi hj hcmp
    have hlti : i.val < (l.map Prod.fst).length := by simpa using (h.used_iff i).mp hi
    have hltj : j.val < (l.map Prod.fst).length := by simpa using (h.used_iff j).mp hj
    rw [h.strcmp_eq_zero_iff_getElem? hi hj, List.getElem?_eq_getElem hlti,
      List.getElem?_eq_getElem hltj, Option.some.injEq] at hcmp
    exact Fin.ext (Fin.mk.inj (@hinj ⟨i, hlti⟩ ⟨j, hltj⟩ hcmp))

theorem exists_listedNameReaches (h : Rep d l) {i : Fin 16} (hi : (d.files.get i).used ≠ 0) :
    ∃ j ≤ i, (d.files.get j).used ≠ 0 ∧
      strcmp (d.files.get j).name.toList (d.files.get i).name.toList = some 0 ∧
      (∀ k, (d.files.get k).used ≠ 0 →
        strcmp (d.files.get k).name.toList (d.files.get i).name.toList = some 0 → j ≤ k) ∧
      ListedNameReaches d i j := by
  obtain ⟨c, hget⟩ := (h.matches_iff i _).mp ⟨hi, rfl⟩
  have hsome := (isSome_lookup_iff (cstr (d.files.get i).name.toList) l).mpr
    ⟨_, List.mem_of_getElem? hget, rfl⟩
  obtain ⟨c', hlookup⟩ := Option.isSome_iff_exists.mp hsome
  obtain ⟨j, hfind, hget', hfirst⟩ := h.exists_findFile (h.zero_mem i hi) hlookup
  obtain ⟨hj, hname⟩ := (h.matches_iff j _).mpr ⟨c', hget'⟩
  have hlowest : ∀ k, (d.files.get k).used ≠ 0 →
      strcmp (d.files.get k).name.toList (d.files.get i).name.toList = some 0 → j ≤ k := by
    intro k hk hcmp
    by_contra hlt
    obtain ⟨c'', hget''⟩ := (h.matches_iff k _).mp ⟨hk, rfl⟩
    obtain ⟨hlen, hval⟩ := List.getElem?_eq_some_iff.mp hget''
    exact hfirst _ (List.mem_take_iff_getElem.mpr ⟨k.val, lt_min (not_le.mp hlt) hlen, hval⟩)
      ((strcmp_eq_zero_iff (h.zero_mem k hk) (h.zero_mem i hi)).mp hcmp)
  exact ⟨j, hlowest i hi ((strcmp_eq_zero_iff (h.zero_mem i hi) (h.zero_mem i hi)).mpr rfl), hj,
    (strcmp_eq_zero_iff (h.zero_mem j hj) (h.zero_mem i hi)).mpr hname, hlowest, hfind⟩

end Rep

theorem uniqueNames_iff_listedNameReaches {d : Ramdisk} {l : List Entry} (h : Rep d l) :
    UniqueNames d ↔ ∀ i : Fin 16, (d.files.get i).used ≠ 0 → ListedNameReaches d i i := by
  constructor
  · intro hunique i hi
    obtain ⟨j, -, hj, hcmp, -, hreach⟩ := h.exists_listedNameReaches hi
    rwa [hunique j i hj hi hcmp] at hreach
  · intro hreach i j hi hj hcmp
    -- the two scans look for the same string, so they stop at the same slot
    have hname := (strcmp_eq_zero_iff (h.zero_mem i hi) (h.zero_mem j hj)).mp hcmp
    have hfind := hreach i hi
    have hfind' := hreach j hj
    rw [ListedNameReaches, findFile_eq_find? (h.zero_mem i hi) h.zero_mem, hname] at hfind
    rw [ListedNameReaches, findFile_eq_find? (h.zero_mem j hj) h.zero_mem] at hfind'
    exact Option.some.inj (Option.some.inj (hfind.symm.trans hfind'))

/-- **Names are unique as long as creates do not repeat them.** The used slots have different
names, and each is reached by its listed name, exactly if no two successful creates agreed on
their first 31 bytes; in every state a listed name reaches the lowest slot that has it. -/
theorem uniqueNames_iff_nodup {d₀ d : Ramdisk} {tr : List (Transition Ramdisk DiskOp Int)}
    (hrun : ramdiskMachine.Run (ramdiskInit d₀) tr d) :
    (UniqueNames d ↔ (createdNames (tr.map Transition.visible)).Nodup) ∧
      ((∀ i : Fin 16, (d.files.get i).used ≠ 0 → ListedNameReaches d i i) ↔
        (createdNames (tr.map Transition.visible)).Nodup) ∧
      ∀ i : Fin 16, (d.files.get i).used ≠ 0 → ∃ j ≤ i, (d.files.get j).used ≠ 0 ∧
        strcmp (d.files.get j).name.toList (d.files.get i).name.toList = some 0 ∧
        (∀ k, (d.files.get k).used ≠ 0 →
          strcmp (d.files.get k).name.toList (d.files.get i).name.toList = some 0 → j ≤ k) ∧
        ListedNameReaches d i j := by
  obtain ⟨tr', l, hrun', hrep, hvis, -⟩ := exists_rep hrun
  have hkeys : (l.map Prod.fst).Nodup ↔ (createdNames (tr.map Transition.visible)).Nodup := by
    rw [keys_eq_createdNames hrun', hvis]
  refine ⟨?_, ?_, fun i hi ↦ hrep.exists_listedNameReaches hi⟩
  · rw [← hkeys, hrep.uniqueNames_iff]
  · rw [← hkeys, ← uniqueNames_iff_listedNameReaches hrep, hrep.uniqueNames_iff]

/-- Two files with different names. -/
theorem uniqueNames_two_files :
    ∃ tr d, ramdiskMachine.Run (ramdiskInit bootDisk) tr d ∧
      tr.map Transition.visible
        = [(.create ⟨[102], by decide⟩, 0), (.create ⟨[103], by decide⟩, 0)] ∧
      UniqueNames d := by
  obtain ⟨tr, d, hrun, hvis⟩ := Machine.exists_run_of_exec
    (show (ramdiskMachine.exec (ramdiskInit bootDisk)
        [.create ⟨[102], by decide⟩, .create ⟨[103], by decide⟩]).map
        (fun r ↦ r.1.map Transition.output) = some [0, 0] by decide +kernel)
  refine ⟨tr, d, hrun, hvis, (uniqueNames_iff_nodup hrun).1.mpr ?_⟩
  rw [hvis]
  decide

/-- The same name created twice takes two slots, and the second is out of reach. -/
theorem not_uniqueNames_created_twice :
    ∃ tr d, ramdiskMachine.Run (ramdiskInit bootDisk) tr d ∧
      tr.map Transition.visible
        = [(.create ⟨[102], by decide⟩, 0), (.create ⟨[102], by decide⟩, 0)] ∧
      ¬ UniqueNames d ∧ ¬ ∀ i : Fin 16, (d.files.get i).used ≠ 0 → ListedNameReaches d i i := by
  obtain ⟨tr, d, hrun, hvis⟩ := Machine.exists_run_of_exec
    (show (ramdiskMachine.exec (ramdiskInit bootDisk)
        [.create ⟨[102], by decide⟩, .create ⟨[102], by decide⟩]).map
        (fun r ↦ r.1.map Transition.output) = some [0, 0] by decide +kernel)
  obtain ⟨tr', l, hrun', hrep, hvis', -⟩ := exists_rep hrun
  have hdup : ¬ UniqueNames d := by
    rw [hrep.uniqueNames_iff, keys_eq_createdNames hrun', hvis', hvis]
    decide
  refine ⟨tr, d, hrun, hvis, hdup, fun hreach ↦ hdup ?_⟩
  exact (uniqueNames_iff_listedNameReaches hrep).mpr hreach

end ZanOS
