import ZanOS.Kernel.Heap
import ZanOS.Lwip.Address
import ZanOS.Shell.Curl
import ZanOS.Storage.Listing

/-!
# The kernel behind the shell

`ZanOS.Shell.Loop` follows the shell and leaves out what five of its commands print: they report on
other parts of the kernel. Here are those parts together, as `main` sets them up before its loop,
and the five commands. `kernelMachine` runs the shell with them; besides the events of the shell
there are the cycles of Timer0, and lwIP's changes to the interface. What lwIP itself prints about
those changes is not part of the output.

No command of the shell writes to the RAM disk, allocates memory or touches the timer. So the
kernel shows the same disk and the same heap for ever, and the one file there is fits the buffer
that `cat` reads it into (`Booted`).
-/

namespace ZanOS

open Foundation Machine

/-- What `ifconfig` shows of the network interface. -/
structure Netif where
  name : UInt8 × UInt8
  ipAddr : UInt32
  netmask : UInt32
  gw : UInt32
  dhcpSupplied : Bool

/-- The shell, the parts of the kernel its commands report on, `buffer` of `main`, and the static
buffer of `ip4addr_ntoa`. -/
structure Kernel where
  shell : Shell
  heap : Heap
  disk : Ramdisk
  timer : Timer0
  netif : Netif
  buffer : Vector UInt8 128
  str : Vector UInt8 16

/-! ## What the commands print -/

/-- `diag_print`. -/
def diagPrint (d : Diag) (t : Timer0) (h : Heap) : Option (List UInt8) :=
  sendAll
    [some (ascii "=== System Diagnosis ===\n"), some (ascii "Uptime :"),
      uartPrintInt (diagUptime d (rtcGetSeconds t)).toInt32.toInt, some (ascii "s"),
      some (ascii "   "), some (ascii "Files  :"), uartPrintInt d.fileCount, some (ascii "   "),
      some (ascii "Heap used : "), uartPrintInt (heapUsed h).toInt32.toInt,
      some (ascii " bytes\n"), some (ascii "Kernel: ZanOS v0.4\n")]

/-- A number of `time`, with a zero in front if it has one digit. -/
def printPadded (n : Int) : Option (List UInt8) :=
  sendAll [some (if n < 10 then [48] else []), uartPrintInt n]

/-- The command `time`. The structure on the stack holds anything. -/
def printTime (tm : RtcTime) (t : Timer0) : Option (List UInt8) :=
  let tm := rtcGetTime tm t
  sendAll
    [some (ascii "Current time: "), printPadded tm.tmHour, some (ascii ":"),
      printPadded tm.tmMin, some (ascii ":"), printPadded tm.tmSec, some [10]]

/-- `uart_println(ip4addr_ntoa(addr))`. -/
def printlnAddr (addr : UInt32) (str : Vector UInt8 16) :
    Option (Vector UInt8 16 × List UInt8) :=
  match Lwip.ip4addrNtoa addr str with
  | some (some str) => (uartPrintln str.toList).map fun text ↦ (str, text)
  | _ => none

namespace Kernel

/-- The command `ifconfig`. -/
def ifconfig (k : Kernel) : Option (Kernel × List UInt8) := do
  let (str, ip) ← printlnAddr k.netif.ipAddr k.str
  let (str, mask) ← printlnAddr k.netif.netmask str
  let (str, gw) ← printlnAddr k.netif.gw str
  return ({ k with str := str },
    ascii "Interface: " ++ [k.netif.name.1, k.netif.name.2, 10] ++ ascii "  IP:      " ++ ip
      ++ ascii "  Mask:    " ++ mask ++ ascii "  Gateway: " ++ gw
      ++ if k.netif.dhcpSupplied then ascii "  Status:  IP assigned via DHCP\n"
        else ascii "  Status:  Waiting for DHCP...\n")

/-- The command `cat`; the name is at `cmd + 4`. -/
def cat (k : Kernel) : Option (Kernel × List UInt8) :=
  match ramdiskRead k.disk (k.shell.cmd.toList.drop 4) k.buffer with
  | none => none
  | some (buffer, r) =>
      if r = 0 then (uartPrintln buffer.toList).map fun text ↦ ({ k with buffer := buffer }, text)
      else some ({ k with buffer := buffer }, ascii "File not found\n")

/-- The commands that report on the kernel. -/
def runCommand (k : Kernel) (tm : RtcTime) : Option Command → Option (Kernel × List UInt8)
  | some .ls => (ramdiskLs k.disk).map fun text ↦ (k, text)
  | some .ifconfig => k.ifconfig
  | some .cat => k.cat
  | some .diagnostic => (diagPrint k.disk.diag k.timer k.heap).map fun text ↦ (k, text)
  | some .time => (printTime tm k.timer).map fun text ↦ (k, text)
  | _ => some (k, [])

end Kernel

/-! ## The system -/

/-- An event of the shell, with what the stack holds; a cycle of Timer0; a change to the addresses
of the interface. -/
inductive KernelEvent
  | shell (e : ShellEvent) (tm : RtcTime)
  | cycle
  | addresses (ipAddr netmask gw : UInt32) (dhcpSupplied : Bool)

/-- What the shell does, and what a command that reports on the kernel prints before the prompt. -/
structure KernelOutput where
  turn : Output
  text : List UInt8

/-- The kernel. -/
def kernelMachine : Machine Kernel KernelEvent KernelOutput where
  next k
    | .shell e tm =>
        match shellMachine.next k.shell e with
        | none => none
        | some (s, o) =>
            (Kernel.runCommand { k with shell := s } tm o.command).map fun r ↦ (r.1, ⟨o, r.2⟩)
    | .cycle => some ({ k with timer := k.timer.tick }, ⟨⟨[], none, none⟩, []⟩)
    | .addresses ipAddr netmask gw dhcpSupplied =>
        some ({ k with netif := ⟨k.netif.name, ipAddr, netmask, gw, dhcpSupplied⟩ },
          ⟨⟨[], none, none⟩, []⟩)

end ZanOS
