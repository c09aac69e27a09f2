import ZanOS.Shell.Console
import ZanOS.Shell.Lines
import ZanOS.Storage.Bookkeeping

/-!
# What the kernel answers

Seen from the console, the kernel behind the shell is simple: there is one file, 128 bytes of the
heap are in use, and all that changes is the uptime and what lwIP knows of the network.
`consoleMachine` is the shell with these facts in place of the kernel. It has no slots, heap
pointers, timer registers or buffers, so nothing in it can be overrun.

`Booted` relates the two, and `Booted.next` is the step: an event that one of them can take the
other can take, with the same output. Hence the two have the same runs, which says both that the
kernel prints the right texts and that it never fails to.

The uptime starts over with the counter of Timer0, so `time` never gets past 00:01:25.
-/

namespace ZanOS

open Foundation Machine

/-! ## The console -/

/-- The shell, the cycles of Timer0 since `rtc_init`, and the interface. -/
structure Console where
  shell : Shell
  cycles : ℕ
  netif : Netif

/-- The seconds shown `cycles` cycles after `rtc_init`. -/
def shownSeconds (cycles : ℕ) : ℕ := cycles % 2 ^ 32 / 50000000

/-- A number below 100 in two digits. -/
def twoDigits (n : ℕ) : List UInt8 := (if n < 10 then [48] else []) ++ decimal n

/-- The text of an interface. -/
def Netif.text (netif : Netif) : List UInt8 :=
  ascii "Interface: " ++ [netif.name.1, netif.name.2, 10]
    ++ ascii "  IP:      " ++ Lwip.dotted netif.ipAddr ++ [10]
    ++ ascii "  Mask:    " ++ Lwip.dotted netif.netmask ++ [10]
    ++ ascii "  Gateway: " ++ Lwip.dotted netif.gw ++ [10]
    ++ if netif.dhcpSupplied then ascii "  Status:  IP assigned via DHCP\n"
      else ascii "  Status:  Waiting for DHCP...\n"

/-- What a command that reports on the kernel prints. -/
def Console.answer (c : Console) : Option Command → List UInt8
  | some .ls => ascii "Files in RAM Disk:\n- file1\n"
  | some .ifconfig => c.netif.text
  | some .cat =>
      if (cstr c.shell.cmd.toList).drop 4 = ascii "file1" then ascii "Hello FauzanOS!\n"
      else ascii "File not found\n"
  | some .diagnostic =>
      ascii "=== System Diagnosis ===\nUptime :" ++ decimal (shownSeconds c.cycles)
        ++ ascii "s   Files  :1   Heap used : 128 bytes\nKernel: ZanOS v0.4\n"
  | some .time =>
      ascii "Current time: 00:0" ++ decimal (shownSeconds c.cycles / 60) ++ ascii ":"
        ++ twoDigits (shownSeconds c.cycles % 60) ++ [10]
  | _ => []

/-- The shell with these answers. -/
def consoleMachine : Machine Console KernelEvent KernelOutput where
  next c
    | .shell e _ => (shellMachine.next c.shell e).map fun r ↦
        let c := { c with shell := r.1 }
        (c, ⟨r.2, c.answer r.2.command⟩)
    | .cycle => some ({ c with cycles := c.cycles + 1 }, ⟨⟨[], none, none⟩, []⟩)
    | .addresses ipAddr netmask gw dhcpSupplied =>
        some ({ c with netif := ⟨c.netif.name, ipAddr, netmask, gw, dhcpSupplied⟩ },
          ⟨⟨[], none, none⟩, []⟩)

/-! ## Printing -/

theorem shownSeconds_lt (cycles : ℕ) : shownSeconds cycles < 86 := by
  have hmod : cycles % 2 ^ 32 < 2 ^ 32 := Nat.mod_lt _ (by decide)
  rw [shownSeconds]
  omega

theorem uartPrintInt_toInt32 {u : UInt32} (h : u.toNat < 2 ^ 31) :
    uartPrintInt u.toInt32.toInt = some (decimal u.toNat) := by
  have hint : u.toInt32.toInt = (u.toNat : ℤ) := 
    BitVec.toInt_eq_toNat_of_lt (show 2 * u.toNat < 2 ^ 32 by omega)
  rw [hint, uartPrintInt_natCast (h.trans (by norm_num))]

theorem printPadded_natCast {n : ℕ} (h : n < 100) : printPadded n = some (twoDigits n) := by
  have hpad : (if ((n : ℤ) < 10) then [48] else ([] : List UInt8))
      = if n < 10 then [48] else [] := by
    simp only [Nat.cast_lt_ofNat]
  rw [printPadded, uartPrintInt_natCast (h.trans (by norm_num)), hpad, twoDigits]
  exact (sendAll_map_some [_, _]).trans (by simp)

theorem zero_notMem_dotted (addr : UInt32) : (0 : UInt8) ∉ Lwip.dotted addr := by
  have hdecimal : ∀ b : UInt8, (0 : UInt8) ∉ decimal b.toNat := fun b hb ↦
    absurd ((isDecimal_decimal b.toNat).isDigit 0 hb).1 (by decide)
  simp [Lwip.dotted, wordBytes, List.intercalate, hdecimal]

theorem exists_printlnAddr (addr : UInt32) (str : Vector UInt8 16) :
    ∃ str', printlnAddr addr str = some (str', Lwip.dotted addr ++ [10]) := by
  obtain ⟨str', hntoa, hlist⟩ :=
    Lwip.exists_ip4addrNtoaR (le_refl 16) addr str (Lwip.length_dotted_lt addr)
  rw [splice_zero, List.append_assoc, List.singleton_append] at hlist
  have hprint : uartPrintln str'.toList = some (Lwip.dotted addr ++ [10]) := by
    rw [uartPrintln_of_zero_mem (by rw [hlist]; simp), hlist,
      cstr_append_zero (zero_notMem_dotted addr)]
  refine ⟨str', ?_⟩
  rw [printlnAddr, Lwip.ip4addrNtoa, hntoa]
  simp only [hprint, Option.map_some]

/-! ## The commands on the kernel that `main` sets up -/

/-- The one file. -/
def demoFile : Entry := (ascii "file1", ascii "Hello FauzanOS!")

/-- What `main` leaves in the parts of the kernel, `n` cycles after `rtc_init`. -/
structure Stocked (k : Kernel) (n : ℕ) : Prop where
  disk : Rep k.disk [demoFile]
  diag : k.disk.diag = ⟨0, 1⟩
  heap : heapUsed k.heap = 128
  timer : ∃ t, k.timer = Timer0.tick^[n] (rtcInit t)

namespace Stocked

variable {k : Kernel} {n : ℕ}

theorem toNat_rtcGetSeconds (h : Stocked k n) :
    (rtcGetSeconds k.timer).toNat = shownSeconds n := by
  obtain ⟨t, ht⟩ := h.timer
  rw [ht]
  exact toNat_secondsAt t n

theorem diagPrint_eq (h : Stocked k n) : diagPrint k.disk.diag k.timer k.heap
    = some ((⟨k.shell, n, k.netif⟩ : Console).answer (some .diagnostic)) := by
  have huptime : diagUptime k.disk.diag (rtcGetSeconds k.timer) = rtcGetSeconds k.timer :=
    diagUptime_eq (by rw [h.diag]) _
  have hseconds : uartPrintInt (rtcGetSeconds k.timer).toInt32.toInt
      = some (decimal (shownSeconds n)) := by
    have hlt := shownSeconds_lt n
    rw [← h.toNat_rtcGetSeconds] at hlt ⊢
    exact uartPrintInt_toInt32 (hlt.trans (by norm_num))
  have hfiles : uartPrintInt k.disk.diag.fileCount = some (decimal 1) := by
    rw [h.diag]
    rfl
  have hheap : uartPrintInt (heapUsed k.heap).toInt32.toInt = some (decimal 128) := by
    rw [h.heap]
    rfl
  have hbefore : ascii "=== System Diagnosis ===\nUptime :"
      = ascii "=== System Diagnosis ===\n" ++ ascii "Uptime :" := by decide +kernel
  have hbehind : ascii "s   Files  :1   Heap used : 128 bytes\nKernel: ZanOS v0.4\n"
      = [ascii "s", ascii "   ", ascii "Files  :", decimal 1, ascii "   ", ascii "Heap used : ",
        decimal 128, ascii " bytes\n", ascii "Kernel: ZanOS v0.4\n"].flatten := by decide +kernel
  rw [diagPrint, huptime, hseconds, hfiles, hheap, Console.answer, hbefore, hbehind,
    List.append_assoc, List.append_assoc]
  exact sendAll_map_some [_, _, _, _, _, _, _, _, _, _, _, _]

/-- The hour is always zero and the minute has one digit. -/
theorem printTime_eq (h : Stocked k n) (tm : RtcTime) : printTime tm k.timer
    = some ((⟨k.shell, n, k.netif⟩ : Console).answer (some .time)) := by
  have hlt := shownSeconds_lt n
  have hseconds := h.toNat_rtcGetSeconds
  have h60 : (60 : UInt32).toNat = 60 := rfl
  have h24 : (24 : UInt32).toNat = 24 := rfl
  have hsec : (rtcGetTime tm k.timer).tmSec = ((shownSeconds n % 60 : ℕ) : ℤ) := by
    simp only [rtcGetTime, breakDown, UInt32.toNat_mod, hseconds, h60]
  have hmin : (rtcGetTime tm k.timer).tmMin = ((shownSeconds n / 60 : ℕ) : ℤ) := by
    simp only [rtcGetTime, breakDown, UInt32.toNat_mod, UInt32.toNat_div, hseconds, h60]
    rw [Nat.mod_eq_of_lt (by omega)]
  have hhour : (rtcGetTime tm k.timer).tmHour = ((0 : ℕ) : ℤ) := by
    simp only [rtcGetTime, breakDown, UInt32.toNat_mod, UInt32.toNat_div, hseconds, h60, h24]
    rw [Nat.div_eq_of_lt (by omega), Nat.zero_mod]
  have hdigit : twoDigits (shownSeconds n / 60) = [48] ++ decimal (shownSeconds n / 60) := by
    rw [twoDigits, if_pos (by omega)]
  simp only [printTime, hsec, hmin, hhour]
  rw [printPadded_natCast (by omega), printPadded_natCast (by omega),
    printPadded_natCast (by omega), hdigit]
  have htext : ascii "Current time: 00:0"
      = ascii "Current time: " ++ (twoDigits 0 ++ (ascii ":" ++ [48])) := by decide +kernel
  rw [Console.answer, htext]
  refine (sendAll_map_some [_, _, _, _, _, _, _]).trans ?_
  simp only [List.flatten_cons, List.flatten_nil, List.append_assoc, List.append_nil]

/-- `ifconfig` changes nothing but the buffer it formats addresses in. -/
theorem exists_ifconfig (k : Kernel) : ∃ str, k.ifconfig = some ({ k with str := str },
    k.netif.text) := by
  obtain ⟨str₁, h₁⟩ := exists_printlnAddr k.netif.ipAddr k.str
  obtain ⟨str₂, h₂⟩ := exists_printlnAddr k.netif.netmask str₁
  obtain ⟨str₃, h₃⟩ := exists_printlnAddr k.netif.gw str₂
  refine ⟨str₃, ?_⟩
  simp only [Kernel.ifconfig, h₁, h₂, h₃, Option.bind_eq_bind, Option.bind_some, Option.pure_def,
    Netif.text, List.append_assoc]

theorem ramdiskRead_congr {d : Ramdisk} {l : List Entry} (h : Rep d l) {m : List UInt8}
    (hm : (0 : UInt8) ∈ m) (name : CStr) (hname : cstr m = name.bytes) {k : ℕ}
    (buffer : Vector UInt8 k) : ramdiskRead d m buffer = ramdiskRead d name.mem buffer := by
  rw [ramdiskRead, ramdiskRead, findFile_eq_find? hm h.zero_mem,
    findFile_eq_find? name.zero_mem_mem h.zero_mem, hname, CStr.cstr_mem]

/-- `cat` finds the one file, which fits the buffer, and nothing else. -/
theorem exists_cat (h : Stocked k n) (hzero : (0 : UInt8) ∈ k.shell.cmd.toList)
    (hlen : 4 ≤ (cstr k.shell.cmd.toList).length) :
    ∃ buffer, k.cat = some ({ k with buffer := buffer },
      (⟨k.shell, n, k.netif⟩ : Console).answer (some .cat)) := by
  have hdrop : cstr (k.shell.cmd.toList.drop 4) = (cstr k.shell.cmd.toList).drop 4 :=
    cstr_drop hzero hlen
  have hzero' : (0 : UInt8) ∈ k.shell.cmd.toList.drop 4 := zero_mem_drop hzero hlen
  let name : CStr := ⟨cstr (k.shell.cmd.toList.drop 4), zero_notMem_cstr _⟩
  have hread := ramdiskRead_congr h.disk hzero' name rfl k.buffer
  by_cases hfile : (cstr k.shell.cmd.toList).drop 4 = ascii "file1"
  · have hlookup : [demoFile].lookup name.bytes = some demoFile.2 := by
      change List.lookup (cstr (k.shell.cmd.toList.drop 4)) _ = _
      rw [hdrop, hfile]
      rfl
    obtain ⟨buffer, hbuffer, hlist⟩ := h.disk.exists_ramdiskRead name hlookup k.buffer (by decide)
    refine ⟨buffer, ?_⟩
    have hprint : uartPrintln buffer.toList = some (demoFile.2 ++ [10]) := by
      rw [uartPrintln_of_zero_mem (by rw [hlist]; simp), hlist, cstr_append_zero (by decide)]
    rw [Kernel.cat, hread, hbuffer]
    simp only [if_true, hprint, Option.map_some, Console.answer, if_pos hfile]
    rfl
  · have hlookup : [demoFile].lookup name.bytes = none := by
      change List.lookup (cstr (k.shell.cmd.toList.drop 4)) _ = _
      rw [hdrop, lookup_cons_eq_ite, if_neg fun heq ↦ hfile heq.symm, List.lookup_nil]
    refine ⟨k.buffer, ?_⟩
    rw [Kernel.cat, hread, h.disk.ramdiskRead_of_none name hlookup]
    simp only [Console.answer, if_neg hfile]
    rfl

/-- **Every command prints its answer**, and leaves the kernel as it is but for buffers. -/
theorem exists_runCommand (h : Stocked k n) (tm : RtcTime) (c : Option Command)
    (hcat : c = some .cat → (0 : UInt8) ∈ k.shell.cmd.toList ∧
      4 ≤ (cstr k.shell.cmd.toList).length) :
    ∃ buffer str, k.runCommand tm c = some ({ k with buffer := buffer, str := str },
      (⟨k.shell, n, k.netif⟩ : Console).answer c) := by
  rcases c with _ | c
  · exact ⟨k.buffer, k.str, rfl⟩
  cases c with
  | ls =>
    refine ⟨k.buffer, k.str, ?_⟩
    rw [Kernel.runCommand, h.disk.ramdiskLs_eq, Option.map_some]
    rfl
  | ifconfig =>
    obtain ⟨str, hstr⟩ := exists_ifconfig k
    exact ⟨k.buffer, str, hstr⟩
  | cat =>
    obtain ⟨buffer, hbuffer⟩ := h.exists_cat (hcat rfl).1 (hcat rfl).2
    exact ⟨buffer, k.str, hbuffer⟩
  | diagnostic =>
    refine ⟨k.buffer, k.str, ?_⟩
    rw [Kernel.runCommand, h.diagPrint_eq, Option.map_some]
  | time =>
    refine ⟨k.buffer, k.str, ?_⟩
    rw [Kernel.runCommand, h.printTime_eq, Option.map_some]
  | help | hello | curl | info | clear | host | unknown => exact ⟨k.buffer, k.str, rfl⟩

end Stocked

/-! ## The kernel and the console -/

theorem dispatch_of_runLine {s s' : Shell} {dns : DnsAnswer} {tcp : TcpAnswers}
    {out : List Action} {o : Output} {c : Command} (h : s.runLine dns tcp out = some (s', o))
    (hc : o.command = some c) : dispatch s.cmd.toList = some c := by
  rw [Shell.runLine] at h
  split_ifs at h with hempty
  · obtain ⟨-, rfl⟩ := Prod.mk.inj (Option.some.inj h)
    cases hc
  · split at h
    · cases h
    · rename_i c' hdispatch
      obtain ⟨r, -, heq⟩ := Option.map_eq_some_iff.mp h
      obtain ⟨-, rfl⟩ := Prod.mk.inj heq
      rw [hdispatch, ← hc]

/-- A step that dispatches a command has its line, ended, in the buffer. -/
theorem dispatch_of_next {s s' : Shell} {e : ShellEvent} {o : Output} {c : Command}
    (h : s.Sound) (hnext : shellMachine.next s e = some (s', o)) (hc : o.command = some c) :
    (0 : UInt8) ∈ s'.cmd.toList ∧ dispatch s'.cmd.toList = some c := by
  cases shellTurn_of_next hnext with
  | @line i b dns tcp cmd out _ _ hpc hbyte hline =>
    have hcmd : s'.cmd = cmd := (runLine_spec hline).1
    rw [hcmd]
    refine ⟨?_, dispatch_of_runLine hline hc⟩
    rcases exists_getlineByte le_rfl (h.typed i hpc) b with
      ⟨buf, j, out', hbyte', -⟩ | ⟨buf, out', hbyte', hended⟩
    · cases hbyte.symm.trans hbyte'
    · obtain ⟨heq, -⟩ := Prod.mk.inj (Option.some.inj (hbyte.symm.trans hbyte'))
      cases heq
      exact hended.zero_mem
  | typing | http | hostFound | idle | curlWaits | curlEnds | hostWaits | hostEnds => cases hc

/-- A line run as `cat` reaches the name, which starts at its fifth byte. -/
theorem four_le_length_of_cat {cmd : List UInt8} (h : (0 : UInt8) ∈ cmd)
    (hdispatch : dispatch cmd = some .cat) : 4 ≤ (cstr cmd).length := by
  rcases exists_mem_of_select hdispatch with hunknown | ⟨guard, hmem, hholds⟩
  · cases hunknown
  · obtain rfl : guard = .agrees "cat " 4 := by simpa [dispatchChain] using hmem
    exact le_length_of_agrees h (by decide) hholds

/-- The kernel does what the console says: its shell and interface are those of the console, and
the parts behind them are as `main` left them. -/
structure Booted (k : Kernel) (c : Console) : Prop where
  shell : c.shell = k.shell
  netif : c.netif = k.netif
  sound : k.shell.Sound
  stocked : Stocked k c.cycles

/-- **One step.** The kernel and the console can take the same events, with the same output. -/
theorem Booted.next {k : Kernel} {c : Console} (h : Booted k c) (e : KernelEvent) :
    (kernelMachine.next k e = none ∧ consoleMachine.next c e = none) ∨
      ∃ k' c' o, kernelMachine.next k e = some (k', o) ∧ consoleMachine.next c e = some (c', o) ∧
        Booted k' c' := by
  obtain ⟨shell, cycles, netif⟩ := c
  obtain ⟨rfl, rfl, hsound, hstocked⟩ := h
  rcases e with ⟨e, tm⟩ | _ | ⟨ipAddr, netmask, gw, dhcpSupplied⟩
  · rcases hnext : shellMachine.next k.shell e with _ | ⟨s, o⟩
    · left
      simp only [kernelMachine, consoleMachine, hnext, Option.map_none, and_self]
    · right
      have hstocked' : Stocked { k with shell := s } cycles :=
        ⟨hstocked.disk, hstocked.diag, hstocked.heap, hstocked.timer⟩
      have hcat : o.command = some .cat → (0 : UInt8) ∈ s.cmd.toList ∧
          4 ≤ (cstr s.cmd.toList).length := by
        intro hc
        obtain ⟨hzero, hdispatch⟩ := dispatch_of_next hsound hnext hc
        exact ⟨hzero, four_le_length_of_cat hzero hdispatch⟩
      obtain ⟨buffer, str, hrun⟩ := hstocked'.exists_runCommand tm o.command hcat
      refine ⟨{ k with shell := s, buffer := buffer, str := str }, ⟨s, cycles, k.netif⟩,
        ⟨o, (⟨s, cycles, k.netif⟩ : Console).answer o.command⟩, ?_, ?_, rfl, rfl,
        (hsound.step hnext).sound, hstocked.disk, hstocked.diag, hstocked.heap, hstocked.timer⟩
      · simp only [kernelMachine, hnext, hrun, Option.map_some]
      · simp only [consoleMachine, hnext, Option.map_some]
  · right
    obtain ⟨t, ht⟩ := hstocked.timer
    refine ⟨_, _, _, rfl, rfl, rfl, rfl, hsound, hstocked.disk, hstocked.diag, hstocked.heap, t, ?_⟩
    change k.timer.tick = _
    rw [ht, Function.iterate_succ_apply']
  · right
    exact ⟨_, _, _, rfl, rfl, rfl, rfl, hsound, hstocked.disk, hstocked.diag, hstocked.heap,
      hstocked.timer⟩

/-! ## Start-up -/

/-- The console when the loop starts. -/
def Console.boot (cmd : Vector UInt8 64) (cycles : ℕ) : Console :=
  ⟨Shell.boot cmd, cycles, ⟨(101, 110), 0, 0, 0, false⟩⟩

/-- A line typed while the network is down. -/
def typed (line : List UInt8) : List KernelEvent :=
  (line ++ [13]).map fun c ↦ .shell (.uart c .failed ⟨false, .ok⟩) zeroTime

end ZanOS
