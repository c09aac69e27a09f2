import ZanOS.Foundation.Agenda
import ZanOS.Foundation.Machine

/-!
# The timers of lwIP

`timeouts.c` keeps one list of timeouts, in the order in which they are due. `lwip_poll` calls
`sys_check_timeouts`, which calls the handlers of those that are due; each of them schedules itself
again. Time is `sys_now`, a counter of milliseconds with 32 bits that the SysTick interrupt moves on
by ten at any moment, also in the middle of a handler.

The seven timers that this configuration has are the six of `lwip_cyclic_timers` behind the first,
which `sys_timeouts_init` starts, and the timer of TCP, which runs while there are connections. A
timeout is taken from a pool of eight; with the pool empty an assertion stops the kernel, and so
does a time that is too long. Both are `none`.

The machine `timerMachine` has the steps of the code, and two numbers that are not in the kernel but
in the world around it: `clock` is the time in milliseconds since the start, which does not wrap
around, and `polled` is the time at which the last finished call of `sys_check_timeouts` was made.
-/

namespace ZanOS.Lwip

open Foundation

/-- `TIME_LESS_THAN`. -/
def timeLessThan (t compareTo : UInt32) : Bool := wrapLess t compareTo

/-- The timers of `lwip_cyclic_timers` that run all the time. -/
inductive Cyclic
  | ipReass
  | etharp
  | dhcpCoarse
  | dhcpFine
  | acd
  | dns
  deriving DecidableEq

/-- `interval_ms`. -/
def Cyclic.interval : Cyclic → ℕ
  | .ipReass => 1000
  | .etharp => 1000
  | .dhcpCoarse => 60000
  | .dhcpFine => 500
  | .acd => 100
  | .dns => 1000

/-- What a timeout calls: `tcpip_tcp_timer`, or `lwip_cyclic_timer` with its argument. -/
inductive Handler
  | tcp
  | cyclic (i : Cyclic)
  deriving DecidableEq

/-- `struct sys_timeo`. -/
structure SysTimeo where
  time : UInt32
  h : Handler

/-- The loop of `sys_timeout_abs`, at the timeout `t` in front of `rest`. -/
def insertAfter (timeout t : SysTimeo) : List SysTimeo → List SysTimeo
  | [] => [t, timeout]
  | next :: rest =>
      if timeLessThan timeout.time next.time then t :: timeout :: next :: rest
      else t :: insertAfter timeout next rest

/-- A timeout is put into the list. -/
def insertTimeout (timeout : SysTimeo) : List SysTimeo → List SysTimeo
  | [] => [timeout]
  | next :: rest =>
      if timeLessThan timeout.time next.time then timeout :: next :: rest
      else insertAfter timeout next rest

/-- The statics of `timeouts.c`. -/
structure Timeouts where
  nextTimeout : List SysTimeo
  currentTimeoutDueTime : UInt32
  tcpipTcpTimerActive : Bool

namespace Timeouts

/-- `sys_timeout_abs`. -/
def sysTimeoutAbs (s : Timeouts) (absTime : UInt32) (h : Handler) : Option Timeouts :=
  if s.nextTimeout.length < 8 then
    some { s with nextTimeout := insertTimeout ⟨absTime, h⟩ s.nextTimeout }
  else none

/-- `sys_timeout`, at the time `now`. -/
def sysTimeout (s : Timeouts) (now : UInt32) (msecs : ℕ) (h : Handler) : Option Timeouts :=
  if msecs ≤ 0xFFFFFFFF / 4 then s.sysTimeoutAbs (now + UInt32.ofNat msecs) h else none

/-- `tcpip_tcp_timer` behind its call of `tcp_tmr`; `pcbs` says whether there are connections. -/
def tcpipTcpTimer (s : Timeouts) (now : UInt32) (pcbs : Bool) : Option Timeouts :=
  if pcbs then s.sysTimeout now 250 .tcp else some { s with tcpipTcpTimerActive := false }

/-- `tcp_timer_needed`. -/
def tcpTimerNeeded (s : Timeouts) (now : UInt32) (pcbs : Bool) : Option Timeouts :=
  if s.tcpipTcpTimerActive = false ∧ pcbs = true then
    { s with tcpipTcpTimerActive := true }.sysTimeout now 250 .tcp
  else some s

/-- `lwip_cyclic_timer` behind the call of its handler: the timer that would be due again at once
("overload") starts from now, without any correction. -/
def lwipCyclicTimer (s : Timeouts) (now : UInt32) (cyclic : Cyclic) : Option Timeouts :=
  let nextTimeoutTime := s.currentTimeoutDueTime + UInt32.ofNat cyclic.interval
  if timeLessThan nextTimeoutTime now then
    s.sysTimeoutAbs (now + UInt32.ofNat cyclic.interval) (.cyclic cyclic)
  else s.sysTimeoutAbs nextTimeoutTime (.cyclic cyclic)

/-- The branch that `lwip_cyclic_timer` takes. -/
def overload (s : Timeouts) (now : UInt32) : Handler → Bool
  | .tcp => false
  | .cyclic i => timeLessThan (s.currentTimeoutDueTime + UInt32.ofNat i.interval) now

end Timeouts

/-- `lwip_cyclic_timers`, behind its first entry. -/
def lwipCyclicTimers : List Cyclic := [.ipReass, .etharp, .dhcpCoarse, .dhcpFine, .acd, .dns]

/-- `sys_timeouts_init`. -/
def sysTimeoutsInit (now : UInt32) : Option Timeouts :=
  lwipCyclicTimers.foldlM (fun s i ↦ s.sysTimeout now i.interval (.cyclic i)) ⟨[], 0, false⟩

/-! ## `sys_check_timeouts` and the interrupt -/

/-- Where the kernel is: outside of `sys_check_timeouts`, at the head of its loop, or in the handler
of a timeout. -/
inductive Phase
  | idle
  | checking (now : UInt32)
  | calling (now : UInt32) (h : Handler)
  deriving DecidableEq

structure TimerState where
  ticks : UInt32
  timeouts : Timeouts
  phase : Phase
  /-- The time since the start. -/
  clock : ℕ
  /-- The time at which `sys_check_timeouts` was last called. -/
  entered : ℕ
  /-- The time at which it was called when it last returned. -/
  polled : ℕ

inductive TimerEvent
  /-- The SysTick interrupt. -/
  | tick
  /-- `sys_check_timeouts` is called. -/
  | check
  /-- One round of its loop. -/
  | loop
  /-- A handler comes to the point where it schedules itself again. -/
  | handled (pcbs : Bool)
  /-- `tcp_timer_needed` is called. -/
  | needed (pcbs : Bool)
  deriving DecidableEq

inductive TimerOutput
  | silent
  | call (h : Handler)
  /-- A timer starts from now, because it is late by more than its interval. -/
  | overload
  /-- The time that is left until the next timeout is due. -/
  | returned (sleeptime : UInt32)
  deriving DecidableEq

/-- A round of the loop of `sys_check_timeouts`. -/
def checkRound (s : TimerState) (now : UInt32) : Option (TimerState × TimerOutput) :=
  match s.timeouts.nextTimeout with
  | [] => some ({ s with phase := .idle, polled := s.entered }, .returned 0xFFFFFFFF)
  | t :: rest =>
      if timeLessThan now t.time then
        if t.time - now ≤ 0x7fffffff then
          some ({ s with phase := .idle, polled := s.entered }, .returned (t.time - now))
        else none
      else
        some ({ s with
          timeouts := { s.timeouts with nextTimeout := rest, currentTimeoutDueTime := t.time }
          phase := .calling now t.h }, .call t.h)

/-- What a handler does after its work. -/
def reschedule (s : Timeouts) (now : UInt32) (pcbs : Bool) : Handler → Option Timeouts
  | .tcp => s.tcpipTcpTimer now pcbs
  | .cyclic i => s.lwipCyclicTimer now i

/-- `systick_handler`, `sys_check_timeouts` and `tcp_timer_needed`, step by step. -/
def timerMachine : Machine TimerState TimerEvent TimerOutput where
  next s e :=
    match e, s.phase with
    | .tick, _ => some ({ s with ticks := s.ticks + 10, clock := s.clock + 10 }, .silent)
    | .check, .idle =>
        some ({ s with phase := .checking s.ticks, entered := s.clock }, .silent)
    | .loop, .checking now => checkRound s now
    | .handled pcbs, .calling now h =>
        (reschedule s.timeouts s.ticks pcbs h).map fun timeouts ↦
          ({ s with timeouts := timeouts, phase := .checking now },
            if s.timeouts.overload s.ticks h then .overload else .silent)
    | .needed pcbs, _ =>
        (s.timeouts.tcpTimerNeeded s.ticks pcbs).map fun timeouts ↦
          ({ s with timeouts := timeouts }, .silent)
    | _, _ => none

/-- The state that `lwip_init` leaves behind. -/
def timerStart : Option TimerState :=
  (sysTimeoutsInit 0).map fun timeouts ↦ ⟨0, timeouts, .idle, 0, 0, 0⟩

end ZanOS.Lwip
