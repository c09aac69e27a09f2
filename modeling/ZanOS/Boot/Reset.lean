import Mathlib.Computability.StateTransition
import ZanOS.Foundation.Flat

/-!
# The reset handler

`reset_handler` of `start.S` is the first code to run. It copies the initial values of `.data` from
the load image behind the program to RAM, sets `.bss` to zero and calls `main`. The model executes
the instructions one by one, over registers, the two flags that `bge` reads and the whole address
space. The program and the constants it loads are in flash and are not part of that memory.

Both loops advance a pointer by a word and stop when it has reached the end of the region, by a
*signed* comparison. `Layout` says what the linker has to provide for that: boundaries that are
aligned, in order and in the lower half of the address space, and a load image apart from what is
written. A round handles the first word of what is left, so the loops are followed by induction on
the number of words left, from any contents of the memory.
-/

namespace ZanOS.Boot

open Foundation StateTransition

/-! ## The program -/

/-- The registers that the handler uses. -/
inductive Reg
  | r0 | r1 | r2 | r3 | sp

/-- The symbols of the linker script that the handler refers to. -/
inductive Symbol
  | estack | etext | sdata | edata | sbss | ebss

/-- The labels inside the handler. -/
inductive Label
  | copyData | endCopyData | zeroBss | endZeroBss | hang
  deriving DecidableEq

/-- The instructions the handler is made of. -/
inductive Instr
  /-- `ldr rd, =symbol` -/
  | ldrSymbol (rd : Reg) (symbol : Symbol)
  /-- `ldr rt, [rn], #imm` -/
  | ldrPost (rt rn : Reg) (imm : UInt32)
  /-- `str rt, [rn], #imm` -/
  | strPost (rt rn : Reg) (imm : UInt32)
  /-- `mov rd, #imm` -/
  | mov (rd : Reg) (imm : UInt32)
  /-- `cmp rn, rm` -/
  | cmp (rn rm : Reg)
  | bge (label : Label)
  | b (label : Label)
  /-- `bl main` -/
  | blMain

/-- `reset_handler`: its lines, each with the label in front of it. -/
def resetHandler : List (Option Label × Instr) :=
  [(none, .ldrSymbol .sp .estack),
    (none, .ldrSymbol .r0 .etext),
    (none, .ldrSymbol .r1 .sdata),
    (none, .ldrSymbol .r2 .edata),
    (some .copyData, .cmp .r1 .r2),
    (none, .bge .endCopyData),
    (none, .ldrPost .r3 .r0 4),
    (none, .strPost .r3 .r1 4),
    (none, .b .copyData),
    (some .endCopyData, .ldrSymbol .r1 .sbss),
    (none, .ldrSymbol .r2 .ebss),
    (none, .mov .r3 0),
    (some .zeroBss, .cmp .r1 .r2),
    (none, .bge .endZeroBss),
    (none, .strPost .r3 .r1 4),
    (none, .b .zeroBss),
    (some .endZeroBss, .blMain),
    (some .hang, .b .hang)]

/-- The line a label stands in front of. -/
def Label.line (label : Label) : ℕ := resetHandler.findIdx fun line ↦ line.1 = some label

/-! ## The linker script -/

/-- The values of the symbols, and what the linker guarantees about them. -/
structure Layout where
  estack : UInt32
  etext : UInt32
  sdata : UInt32
  edata : UInt32
  sbss : UInt32
  ebss : UInt32
  etext_dvd : 4 ∣ etext.toNat
  sdata_dvd : 4 ∣ sdata.toNat
  edata_dvd : 4 ∣ edata.toNat
  sbss_dvd : 4 ∣ sbss.toNat
  ebss_dvd : 4 ∣ ebss.toNat
  sdata_le : sdata ≤ edata
  edata_le : edata ≤ sbss
  sbss_le : sbss ≤ ebss
  ebss_lt : ebss.toNat < 2 ^ 31
  /-- No byte of the load image is in the part of the memory that is written. -/
  image_apart : ∀ i < (edata - sdata).toNat,
    ¬ (sdata ≤ etext + UInt32.ofNat i ∧ etext + UInt32.ofNat i < ebss)

/-- The value of a symbol. -/
def Layout.value (L : Layout) : Symbol → UInt32
  | .estack => L.estack
  | .etext => L.etext
  | .sdata => L.sdata
  | .edata => L.edata
  | .sbss => L.sbss
  | .ebss => L.ebss

theorem Layout.edata_lt (L : Layout) : L.edata.toNat < 2 ^ 31 :=
  (UInt32.le_iff_toNat_le.mp (UInt32.le_trans L.edata_le L.sbss_le)).trans_lt L.ebss_lt

theorem Layout.le_toNat_image (L : Layout) {i : ℕ} (hi : i < (L.edata - L.sdata).toNat) :
    (L.edata - L.sdata).toNat ≤ (L.etext + UInt32.ofNat i - L.sdata).toNat := by
  rw [← Nat.not_lt, toNat_sub_lt_iff L.sdata_le]
  rintro ⟨hle, hlt⟩
  exact L.image_apart i hi
    ⟨hle, UInt32.lt_of_lt_of_le hlt (UInt32.le_trans L.edata_le L.sbss_le)⟩

theorem exists_toNat_sub_eq {lo hi : UInt32} (hlo : 4 ∣ lo.toNat) (hhi : 4 ∣ hi.toNat)
    (h : lo ≤ hi) : ∃ k, (hi - lo).toNat = 4 * k ∧ lo.toNat + 4 * k = hi.toNat := by
  obtain ⟨k, hk⟩ := Nat.dvd_sub hhi hlo
  rw [UInt32.le_iff_toNat_le] at h
  exact ⟨k, by rw [UInt32.toNat_sub_of_le _ _ h, hk], by omega⟩

/-- The memory that a C program expects at its start: `.data` holds the load image and `.bss` is
zero. -/
def Layout.initialised (L : Layout) (m : Flat) : Flat :=
  filled (copied m L.sdata L.etext (L.edata - L.sdata).toNat) L.sbss (L.ebss - L.sbss).toNat 0

section Initialised

variable (L : Layout) (m : Flat) {a : UInt32}

theorem Layout.initialised_of_bss (h : L.sbss ≤ a ∧ a < L.ebss) : L.initialised m a = 0 := by
  rw [initialised, filled, written, if_pos ((toNat_sub_lt_iff L.sbss_le).mpr h)]

theorem Layout.initialised_of_not_bss (h : ¬ (L.sbss ≤ a ∧ a < L.ebss)) :
    L.initialised m a = copied m L.sdata L.etext (L.edata - L.sdata).toNat a := by
  rw [initialised, filled, written, if_neg (mt (toNat_sub_lt_iff L.sbss_le).mp h)]

theorem Layout.initialised_of_data (h : L.sdata ≤ a ∧ a < L.edata) :
    L.initialised m a = m (L.etext + (a - L.sdata)) := by
  -- `.data` ends before `.bss`, so clearing `.bss` leaves it alone
  have hbss : ¬ (L.sbss ≤ a ∧ a < L.ebss) := fun h' ↦
    UInt32.lt_irrefl a (UInt32.lt_of_lt_of_le h.2 (UInt32.le_trans L.edata_le h'.1))
  rw [L.initialised_of_not_bss m hbss, copied, written,
    if_pos ((toNat_sub_lt_iff L.sdata_le).mpr h)]

theorem Layout.initialised_of_other (hdata : ¬ (L.sdata ≤ a ∧ a < L.edata))
    (hbss : ¬ (L.sbss ≤ a ∧ a < L.ebss)) : L.initialised m a = m a := by
  rw [L.initialised_of_not_bss m hbss, copied, written,
    if_neg (mt (toNat_sub_lt_iff L.sdata_le).mp hdata)]

end Initialised

/-- `ALIGN(4)`. -/
def align4 (n : ℕ) : ℕ := (n + 3) / 4 * 4

/-- What `linker.ld` places: the sizes of the input sections, and the padding in front of `.bss`
that their alignment asks for. They fit into 256 KiB of flash and 64 KiB of RAM, 8 KiB of it
heap. -/
structure Sections where
  text : ℕ
  exidx : ℕ
  data : ℕ
  bssPad : ℕ
  bss : ℕ
  exidx_dvd : 4 ∣ exidx
  bssPad_dvd : 4 ∣ bssPad
  flash_le : align4 text + exidx + align4 data ≤ 256 * 1024
  ram_le : align4 data + bssPad + align4 bss + 8 * 1024 ≤ 64 * 1024

theorem four_dvd_align4 (n : ℕ) : 4 ∣ align4 n := Nat.dvd_mul_left _ _

theorem toNat_ram {n : ℕ} (h : n ≤ 64 * 1024) :
    (UInt32.ofNat (0x20000000 + n)).toNat = 0x20000000 + n :=
  UInt32.toNat_ofNat_of_lt' (by simp only [UInt32.size]; omega)

/-- The layout that the script produces: `.data` and `.bss` at the start of RAM, the load image in
flash behind `.text` and `.ARM.exidx`. -/
def Sections.layout (S : Sections) : Layout :=
  have hflash := S.flash_le
  have hram := S.ram_le
  have htext := four_dvd_align4 S.text
  have hdata := four_dvd_align4 S.data
  have hbss := four_dvd_align4 S.bss
  have hexidx := S.exidx_dvd
  have hpad := S.bssPad_dvd
  have hetext : (UInt32.ofNat (align4 S.text + S.exidx)).toNat = align4 S.text + S.exidx :=
    UInt32.toNat_ofNat_of_lt' (by simp only [UInt32.size]; omega)
  have hsdata := toNat_ram (Nat.zero_le (64 * 1024))
  have hedata := toNat_ram (show align4 S.data ≤ 64 * 1024 by omega)
  have hsbss := toNat_ram (show align4 S.data + S.bssPad ≤ 64 * 1024 by omega)
  have hebss := toNat_ram (show align4 S.data + S.bssPad + align4 S.bss ≤ 64 * 1024 by omega)
  { estack := UInt32.ofNat (0x20000000 + 64 * 1024)
    etext := UInt32.ofNat (align4 S.text + S.exidx)
    sdata := UInt32.ofNat (0x20000000 + 0)
    edata := UInt32.ofNat (0x20000000 + align4 S.data)
    sbss := UInt32.ofNat (0x20000000 + (align4 S.data + S.bssPad))
    ebss := UInt32.ofNat (0x20000000 + (align4 S.data + S.bssPad + align4 S.bss))
    etext_dvd := by rw [hetext]; omega
    sdata_dvd := by rw [hsdata]; omega
    edata_dvd := by rw [hedata]; omega
    sbss_dvd := by rw [hsbss]; omega
    ebss_dvd := by rw [hebss]; omega
    sdata_le := by rw [UInt32.le_iff_toNat_le, hsdata, hedata]; omega
    edata_le := by rw [UInt32.le_iff_toNat_le, hedata, hsbss]; omega
    sbss_le := by rw [UInt32.le_iff_toNat_le, hsbss, hebss]; omega
    ebss_lt := by rw [hebss]; omega
    image_apart := by
      -- the image ends within flash, long before the first address of RAM
      intro i hi
      rw [UInt32.toNat_sub, hedata, hsdata] at hi
      rw [UInt32.le_iff_toNat_le, UInt32.toNat_add, hetext, hsdata, UInt32.toNat_ofNat']
      omega }

/-! ## The processor -/

/-- The state of the processor: registers, the flags N and V, the line to execute, memory. -/
structure Cpu where
  r0 : UInt32
  r1 : UInt32
  r2 : UInt32
  r3 : UInt32
  sp : UInt32
  n : Bool
  v : Bool
  pc : ℕ
  mem : Flat

namespace Cpu

def get (s : Cpu) : Reg → UInt32
  | .r0 => s.r0
  | .r1 => s.r1
  | .r2 => s.r2
  | .r3 => s.r3
  | .sp => s.sp

def set (s : Cpu) (x : UInt32) : Reg → Cpu
  | .r0 => { s with r0 := x }
  | .r1 => { s with r1 := x }
  | .r2 => { s with r2 := x }
  | .r3 => { s with r3 := x }
  | .sp => { s with sp := x }

/-- Go on to the next line. -/
def advance (s : Cpu) : Cpu := { s with pc := s.pc + 1 }

/-- The flags of `x - y`: N is the sign of the result, V says that the sign is wrong. -/
def compare (s : Cpu) (x y : UInt32) : Cpu :=
  { s with n := (x - y).toBitVec.msb, v := BitVec.ssubOverflow x.toBitVec y.toBitVec }

/-- The effect of an instruction. `bl main` leaves the handler, and the execution ends there. -/
def exec (L : Layout) (s : Cpu) : Instr → Option Cpu
  | .ldrSymbol rd symbol => some (s.set (L.value symbol) rd).advance
  | .ldrPost rt rn imm =>
      some ((s.set (loadWord s.mem (s.get rn)) rt).set (s.get rn + imm) rn).advance
  | .strPost rt rn imm =>
      let s' := { s with mem := storeWord s.mem (s.get rn) (s.get rt) }
      some (s'.set (s.get rn + imm) rn).advance
  | .mov rd imm => some (s.set imm rd).advance
  | .cmp rn rm => some (s.compare (s.get rn) (s.get rm)).advance
  | .bge label => some (if s.n = s.v then { s with pc := label.line } else s.advance)
  | .b label => some { s with pc := label.line }
  | .blMain => none

/-- The instruction to execute. -/
def fetch (s : Cpu) : Option Instr := (resetHandler[s.pc]?).map Prod.snd

/-- One step. -/
def step (L : Layout) (s : Cpu) : Option Cpu := s.fetch.bind (s.exec L)

/-- The processor comes out of reset at the first line, with nothing known about the rest. -/
def reset (s : Cpu) : Cpu := { s with pc := 0 }

/-! ## The comparison at the head of a loop -/

variable {L : Layout} {s : Cpu} {x y : UInt32}

theorem mem_step {i : Instr} {s' : Cpu} (hfetch : s.fetch = some i) (hexec : s.exec L i = some s') :
    s' ∈ step L s := by
  rw [Option.mem_def, step, hfetch, Option.bind_some, hexec]

theorem ssubOverflow_of_lt (hx : x.toNat < 2 ^ 31) (hy : y.toNat < 2 ^ 31) :
    BitVec.ssubOverflow x.toBitVec y.toBitVec = false := by
  have hx' : x.toBitVec.toInt = x.toNat := BitVec.toInt_eq_toNat_of_lt (by
    rw [UInt32.toNat_toBitVec]
    omega)
  have hy' : y.toBitVec.toInt = y.toNat := BitVec.toInt_eq_toNat_of_lt (by
    rw [UInt32.toNat_toBitVec]
    omega)
  rw [BitVec.ssubOverflow, hx', hy', Bool.or_eq_false_iff, decide_eq_false_iff_not,
    decide_eq_false_iff_not]
  omega

/-- In the lower half of the address space the signed comparison is that of the addresses. -/
theorem compare_of_lt (h : x < y) (hy : y.toNat < 2 ^ 31) :
    s.compare x y = { s with n := true, v := false } := by
  rw [UInt32.lt_iff_toNat_lt] at h
  have hmsb : (x - y).toBitVec.msb = true := by
    rw [BitVec.msb_eq_decide, decide_eq_true_iff, UInt32.toNat_toBitVec, UInt32.toNat_sub]
    omega
  rw [compare, hmsb, ssubOverflow_of_lt (h.trans hy) hy]

theorem compare_self (hx : x.toNat < 2 ^ 31) :
    s.compare x x = { s with n := false, v := false } := by
  rw [compare, UInt32.sub_self, ssubOverflow_of_lt hx hx]
  rfl

section Head

variable {label : Label} (hcmp : s.fetch = some (.cmp .r1 .r2))
  (hbge : s.advance.fetch = some (.bge label)) (hend : s.r2.toNat < 2 ^ 31)
include hcmp hbge hend

theorem reaches_body (h : s.r1 < s.r2) :
    Reaches (step L) s { s with n := true, v := false, pc := s.pc + 2 } := by
  have hflags : s.exec L (.cmp .r1 .r2) = some (s.compare s.r1 s.r2).advance := rfl
  rw [compare_of_lt h hend] at hflags
  exact .head (mem_step hcmp hflags) (.single (mem_step hbge rfl))

theorem reaches_exit (h : s.r1 = s.r2) :
    Reaches (step L) s { s with n := false, v := false, pc := label.line } := by
  have hflags : s.exec L (.cmp .r1 .r2) = some (s.compare s.r1 s.r2).advance := rfl
  rw [h, compare_self hend] at hflags
  exact .head (mem_step hcmp hflags) (.single (mem_step hbge rfl))

end Head

/-! ## The two loops -/

theorem lt_of_words_left {k : ℕ} (hlen : x.toNat + 4 * (k + 1) = y.toNat) : x < y := by
  rw [UInt32.lt_iff_toNat_lt, ← hlen]
  exact Nat.lt_add_of_pos_right (Nat.mul_pos (Nat.succ_pos 3) (Nat.succ_pos k))

theorem toNat_add_four {k : ℕ} (hlen : x.toNat + 4 * (k + 1) = y.toNat) (hend : y.toNat < 2 ^ 31) :
    (x + 4).toNat + 4 * k = y.toNat := by
  rw [UInt32.toNat_add, show (4 : UInt32).toNat = 4 from rfl, Nat.mod_eq_of_lt (by omega)]
  omega

/-- The state after a round of the copy loop: the word at `r0` has been copied to `r1`. -/
def copyRound (s : Cpu) : Cpu :=
  { s with
    r0 := s.r0 + 4, r1 := s.r1 + 4, r3 := loadWord s.mem s.r0, n := true, v := false
    mem := copied s.mem s.r1 s.r0 4 }

theorem reaches_copyRound (hpc : s.pc = Label.copyData.line) (h : s.r1 < s.r2)
    (hend : s.r2.toNat < 2 ^ 31) : Reaches (step L) s s.copyRound := by
  rcases s with ⟨r0, r1, r2, r3, sp, n, v, pc, mem⟩
  obtain rfl : pc = Label.copyData.line := hpc
  rw [copyRound, ← storeWord_loadWord]
  exact (reaches_body rfl rfl hend h).trans (.head rfl (.head rfl (.single rfl)))

/-- **The copy loop** copies the words that are left and ends, if it does not read what it has
written. -/
theorem exists_reaches_copy {k : ℕ} (hpc : s.pc = Label.copyData.line)
    (hlen : s.r1.toNat + 4 * k = s.r2.toNat) (hend : s.r2.toNat < 2 ^ 31)
    (hsrc : ∀ i < 4 * k, 4 * k ≤ (s.r0 + UInt32.ofNat i - s.r1).toNat) :
    ∃ s', Reaches (step L) s s' ∧ s'.pc = Label.endCopyData.line ∧
      s'.mem = copied s.mem s.r1 s.r0 (4 * k) := by
  induction k generalizing s with
  | zero =>
    have hcmp : s.fetch = some (.cmp .r1 .r2) := by rw [fetch, hpc]; rfl
    have hbge : s.advance.fetch = some (.bge .endCopyData) := by rw [fetch, advance, hpc]; rfl
    have hexit := reaches_exit (L := L) hcmp hbge hend (UInt32.toNat_inj.mp hlen)
    exact ⟨_, hexit, rfl, (written_zero _ _ _).symm⟩
  | succ k ih =>
    have hlt := lt_of_words_left hlen
    -- the round leaves a loop with one word less, between pointers a word further on
    have hsrc' : ∀ i < 4 * k, 4 * k ≤ (s.r0 + 4 + UInt32.ofNat i - (s.r1 + 4)).toNat := by
      intro i hi
      rw [UInt32.add_assoc, UInt32.add_comm 4, ← UInt32.add_assoc, add_sub_add]
      exact le_trans (by omega) (hsrc i (by omega))
    obtain ⟨s', hrest, hpc', hmem⟩ :=
      ih (s := s.copyRound) hpc (toNat_add_four hlen hend) hend hsrc'
    refine ⟨s', (reaches_copyRound hpc hlt hend).trans hrest, hpc', ?_⟩
    rw [hmem, Nat.mul_succ, Nat.add_comm]
    exact copied_copied (by omega) fun i _ hi ↦ le_trans (by omega) (hsrc i (by omega))

/-- The state after a round of the second loop: the word at `r1` has been cleared. -/
def zeroRound (s : Cpu) : Cpu :=
  { s with r1 := s.r1 + 4, n := true, v := false, mem := filled s.mem s.r1 4 0 }

theorem reaches_zeroRound (hpc : s.pc = Label.zeroBss.line) (h : s.r1 < s.r2)
    (hend : s.r2.toNat < 2 ^ 31) (hr3 : s.r3 = 0) : Reaches (step L) s s.zeroRound := by
  rcases s with ⟨r0, r1, r2, r3, sp, n, v, pc, mem⟩
  obtain rfl : pc = Label.zeroBss.line := hpc
  obtain rfl : r3 = 0 := hr3
  rw [zeroRound, ← storeWord_zero]
  exact (reaches_body rfl rfl hend h).trans (.head rfl (.single rfl))

/-- **The zero loop** clears the words that are left and ends. -/
theorem exists_reaches_zero {k : ℕ} (hpc : s.pc = Label.zeroBss.line)
    (hlen : s.r1.toNat + 4 * k = s.r2.toNat) (hend : s.r2.toNat < 2 ^ 31) (hr3 : s.r3 = 0) :
    ∃ s', Reaches (step L) s s' ∧ s'.pc = Label.endZeroBss.line ∧
      s'.mem = filled s.mem s.r1 (4 * k) 0 := by
  induction k generalizing s with
  | zero =>
    have hcmp : s.fetch = some (.cmp .r1 .r2) := by rw [fetch, hpc]; rfl
    have hbge : s.advance.fetch = some (.bge .endZeroBss) := by rw [fetch, advance, hpc]; rfl
    have hexit := reaches_exit (L := L) hcmp hbge hend (UInt32.toNat_inj.mp hlen)
    exact ⟨_, hexit, rfl, (written_zero _ _ _).symm⟩
  | succ k ih =>
    have hlt := lt_of_words_left hlen
    obtain ⟨s', hrest, hpc', hmem⟩ :=
      ih (s := s.zeroRound) hpc (toNat_add_four hlen hend) hend hr3
    refine ⟨s', (reaches_zeroRound hpc hlt hend hr3).trans hrest, hpc', ?_⟩
    rw [hmem, Nat.mul_succ, Nat.add_comm]
    exact filled_filled (by omega)

/-! ## From reset to `main` -/

theorem reaches_copyData : Reaches (step L) s.reset
    { s with
      sp := L.estack, r0 := L.etext, r1 := L.sdata, r2 := L.edata
      pc := Label.copyData.line } :=
  .head rfl (.head rfl (.head rfl (.single rfl)))

theorem reaches_zeroBss (hpc : s.pc = Label.endCopyData.line) : Reaches (step L) s
    { s with r1 := L.sbss, r2 := L.ebss, r3 := 0, pc := Label.zeroBss.line } := by
  rcases s with ⟨r0, r1, r2, r3, sp, n, v, pc, mem⟩
  obtain rfl : pc = Label.endCopyData.line := hpc
  exact .head rfl (.head rfl (.single rfl))

/-- **The handler** ends at the call of `main`, with the two regions set up one after the other. -/
theorem exists_eval_reset (L : Layout) (s : Cpu) :
    ∃ s' ∈ eval (step L) s.reset, s'.fetch = some .blMain ∧ s'.mem = L.initialised s.mem := by
  obtain ⟨k, hdata, hlen⟩ := exists_toNat_sub_eq L.sdata_dvd L.edata_dvd L.sdata_le
  obtain ⟨l, hbss, hlen'⟩ := exists_toNat_sub_eq L.sbss_dvd L.ebss_dvd L.sbss_le
  have himage : ∀ i < 4 * k, 4 * k ≤ (L.etext + UInt32.ofNat i - L.sdata).toNat := by
    rw [← hdata]
    exact fun i hi ↦ L.le_toNat_image hi
  obtain ⟨s₁, hcopy, hpc₁, hmem₁⟩ := exists_reaches_copy (L := L)
    (s := { s with
      sp := L.estack, r0 := L.etext, r1 := L.sdata, r2 := L.edata
      pc := Label.copyData.line }) rfl hlen L.edata_lt himage
  obtain ⟨s₂, hzero, hpc₂, hmem₂⟩ := exists_reaches_zero (L := L)
    (s := { s₁ with r1 := L.sbss, r2 := L.ebss, r3 := 0, pc := Label.zeroBss.line })
    rfl hlen' L.ebss_lt rfl
  have hreach : Reaches (step L) s.reset s₂ :=
    ((reaches_copyData.trans hcopy).trans (reaches_zeroBss hpc₁)).trans hzero
  have hfetch : s₂.fetch = some .blMain := by rw [fetch, hpc₂]; rfl
  refine ⟨s₂, mem_eval.mpr ⟨hreach, ?_⟩, hfetch, ?_⟩
  · rw [step, hfetch]
    rfl
  · rw [hmem₂, hmem₁, Layout.initialised, hdata, hbss]

/-- The C environment at the call of `main`: `.data` holds the load image, `.bss` is zero, and no
other byte has changed. -/
theorem exists_reset_main (L : Layout) (s : Cpu) :
    ∃ s' ∈ eval (step L) s.reset, s'.fetch = some .blMain ∧
      (∀ a, L.sdata ≤ a → a < L.edata → s'.mem a = s.mem (L.etext + (a - L.sdata))) ∧
      (∀ a, L.sbss ≤ a → a < L.ebss → s'.mem a = 0) ∧
      (∀ a, ¬ (L.sdata ≤ a ∧ a < L.edata) → ¬ (L.sbss ≤ a ∧ a < L.ebss) →
        s'.mem a = s.mem a) := by
  obtain ⟨s', heval, hfetch, hmem⟩ := exists_eval_reset L s
  refine ⟨s', heval, hfetch, ?_, ?_, ?_⟩ <;> rw [hmem]
  · exact fun a hle hlt ↦ L.initialised_of_data s.mem ⟨hle, hlt⟩
  · exact fun a hle hlt ↦ L.initialised_of_bss s.mem ⟨hle, hlt⟩
  · exact fun a hdata hbss ↦ L.initialised_of_other s.mem hdata hbss

/-- A kernel with 6 bytes of `.data` and 12 bytes of `.bss`. -/
def smallSections : Sections := ⟨1000, 8, 6, 0, 12, by decide, by decide, by decide, by decide⟩

/-- Each byte of the memory holds the low byte of its address. -/
def lowBytes : Cpu := ⟨0, 0, 0, 0, 0, false, false, 0, fun a ↦ a.toUInt8⟩

/-- The load image is at 1008; `.data`, filled up to 8 bytes, and `.bss` are at the start of RAM. -/
theorem exists_reset_main_small :
    ∃ s' ∈ eval (step smallSections.layout) lowBytes.reset,
      s'.fetch = some .blMain ∧ s'.mem 0x20000000 = 0xF0 ∧ s'.mem 0x20000007 = 0xF7 ∧
      s'.mem 0x20000008 = 0 ∧ s'.mem 0x20000013 = 0 ∧ s'.mem 0x20000014 = 0x14 := by
  obtain ⟨s', heval, hfetch, hdata, hbss, hother⟩ :=
    exists_reset_main smallSections.layout lowBytes
  exact ⟨s', heval, hfetch, hdata _ (by decide) (by decide), hdata _ (by decide) (by decide),
    hbss _ (by decide) (by decide), hbss _ (by decide) (by decide),
    hother _ (by decide) (by decide)⟩

/-- With the script of the kernel the handler changes nothing in flash, where it is itself. -/
theorem exists_reset_flash (S : Sections) (s : Cpu) :
    ∃ s' ∈ eval (step S.layout) s.reset, s'.fetch = some .blMain ∧
      ∀ a : UInt32, a.toNat < 256 * 1024 → s'.mem a = s.mem a := by
  obtain ⟨s', heval, hfetch, hmem⟩ := exists_eval_reset S.layout s
  refine ⟨s', heval, hfetch, fun a ha ↦ ?_⟩
  have hlow : ¬ S.layout.sdata ≤ a := by
    rw [UInt32.le_iff_toNat_le, show S.layout.sdata.toNat = 0x20000000 from rfl]
    omega
  have hbss : ¬ S.layout.sbss ≤ a := fun h ↦
    hlow (UInt32.le_trans (UInt32.le_trans S.layout.sdata_le S.layout.edata_le) h)
  rw [hmem]
  exact S.layout.initialised_of_other s.mem (fun h ↦ hlow h.1) (fun h ↦ hbss h.1)

end Cpu

end ZanOS.Boot
