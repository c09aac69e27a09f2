import ZanOS.Http.Client
import ZanOS.Shell.Dispatch
import ZanOS.Shell.Getline

/-!
# The shell

`main` reads a line, runs the command it names, and starts over. It has no threads: everything lwIP
has to say is said inside `lwip_poll`, which is called while a line is typed and in the two loops
that wait for the network, one in `curl` and one in `host`. `shellMachine` has a state for each of
these places (`ShellPc`) and these events:

* `uart`, a byte of input, which only `getline` takes; the byte that ends a line also runs the
  command, up to the point where it waits or is done. The event carries the answers of the calls
  into lwIP that a command may make;
* `http` and `hostFound`, the callbacks, in any state;
* `polled`, the end of a call of `lwip_poll`.

A query made by `host` stays in lwIP's table until it is answered, whether or not the command that
made it still waits.

The commands `ls`, `ifconfig`, `cat`, `diagnostic` and `time` leave the shell as it is; what they
print is not followed.
-/

namespace ZanOS

open Foundation

/-- Where `main` is: in `getline` with `i` bytes typed, in the loop of `curl`, or in the loop of
`host` with its counter. -/
inductive ShellPc
  | reading (i : ℕ)
  | curlWait
  | hostWait (timeout : ℕ)
  deriving DecidableEq

/-- How `host` ends. -/
inductive HostMessage
  | address (ip : UInt32)
  | failed
  | timedOut
  | error
  deriving DecidableEq

/-- What it prints. -/
def HostMessage.actions : HostMessage → List Action
  | .address ip => [.print (ascii "IP: "), .printlnIp ip]
  | .failed => [.println (ascii "Failed to resolve.")]
  | .timedOut => [.println (ascii "DNS resolution timed out.")]
  | .error => [.println (ascii "DNS error.")]

/-- The line buffer of `main`, the globals of `host`, the HTTP client, and the names that queries
of `host` ask lwIP for. -/
structure Shell where
  pc : ShellPc
  cmd : Vector UInt8 64
  http : HttpClient
  dnsResolved : Bool
  resolvedIp : UInt32
  hostQueries : List (List UInt8)

/-- What a step does, the command it dispatches, and what `host` reports for which name. -/
structure Output where
  actions : List Action
  command : Option Command
  report : Option (List UInt8 × HostMessage)

namespace Shell

/-- The state when `main` enters its loop. The line buffer is on the stack, so it holds anything. -/
def boot (cmd : Vector UInt8 64) : Shell := ⟨.reading 0, cmd, HttpClient.boot, false, 0, []⟩

/-- The string at `cmd + 5`. -/
def argument (s : Shell) : List UInt8 := cstr (s.cmd.toList.drop 5)

/-- Back to the start of the loop. -/
def prompt (s : Shell) (actions : List Action) (report : Option (List UInt8 × HostMessage)) :
    Shell × Output :=
  ({ s with pc := .reading 0 }, ⟨actions ++ [.print (ascii "> ")], none, report⟩)

/-- A command that prints some lines. -/
def say (s : Shell) (lines : List String) : Shell × Output :=
  s.prompt (lines.map fun line ↦ .println (ascii line)) none

/-- The command `curl`, up to its loop. -/
def curl (dns : DnsAnswer) (tcp : TcpAnswers) (s : Shell) : Option (Shell × Output) :=
  (httpGet dns tcp s.http (s.cmd.toList.drop 5) (literal "/")).map fun r ↦
    if r.1.httpBusy then ({ s with http := r.1, pc := .curlWait }, ⟨r.2, none, none⟩)
    else { s with http := r.1 }.prompt r.2 none

/-- The end of `host`. -/
def report (s : Shell) (actions : List Action) (m : HostMessage) : Shell × Output :=
  s.prompt (actions ++ m.actions) (some (s.argument, m))

/-- The command `host`, up to its loop. -/
def host (dns : DnsAnswer) (s : Shell) : Shell × Output :=
  let out := [.print (ascii "Resolving "), .println s.argument]
  match dns with
  | .found ip => s.report out (.address ip)
  | .inProgress =>
      ({ s with
          pc := .hostWait 0
          dnsResolved := false
          hostQueries := s.hostQueries ++ [s.argument] }, ⟨out, none, none⟩)
  | .failed => s.report out .error

/-- The branches of `main`. -/
def runCommand (dns : DnsAnswer) (tcp : TcpAnswers) (s : Shell) :
    Command → Option (Shell × Output)
  | .help => some (s.say
      ["Available commands:",
        "  help  - show this message",
        "  hello - greet Fauzan",
        "  info  - kernel info",
        "  clear - clear screen (simulated)",
        "  ls    - list RAM disk files",
        "  cat   - read file contents",
        "  time  - show current RTC time",
        "  host  - resolve domain name",
        "  curl  - fetch HTTP (e.g., curl example.com)"])
  | .hello => some (s.say ["Hello Fauzan!"])
  | .curl => s.curl dns tcp
  | .info => some (s.say ["FauzanOS v0.4 - Minimal ARM64 kernel with RAM disk"])
  | .clear => some (s.say ["\n\n\n\n\n"])
  | .host => some (s.host dns)
  -- their output belongs to other parts of the kernel
  | .ls | .ifconfig | .cat | .diagnostic | .time => some (s.say [])
  | .unknown => some (s.say ["Unknown command"])

/-- What `main` does with a line; `out` is what `getline` has printed. -/
def runLine (dns : DnsAnswer) (tcp : TcpAnswers) (s : Shell) (out : List Action) :
    Option (Shell × Output) :=
  if s.cmd.get 0 = 0 then some (s.prompt out none)
  else
    match dispatch s.cmd.toList with
    | none => none
    | some c => (s.runCommand dns tcp c).map fun r ↦
        (r.1, ⟨out ++ r.2.actions, some c, r.2.report⟩)

/-- `dns_callback`. -/
def dnsCallback (s : Shell) (ipaddr : Option UInt32) : Shell :=
  { s with resolvedIp := ipaddr.getD 0, dnsResolved := true }

/-- What `host` goes by when its loop has ended. -/
def hostOutcome (s : Shell) : HostMessage :=
  if s.dnsResolved then if s.resolvedIp ≠ 0 then .address s.resolvedIp else .failed
  else .timedOut

end Shell

/-- Input, lwIP's callbacks, and the end of a call of `lwip_poll`. -/
inductive ShellEvent
  | uart (c : UInt8) (dns : DnsAnswer) (tcp : TcpAnswers)
  | http (e : HttpEvent)
  | hostFound (query : ℕ) (ipaddr : Option UInt32)
  | polled

/-- The shell and lwIP. -/
def shellMachine : Machine Shell ShellEvent Output where
  next s
    | .uart c dns tcp =>
        match s.pc with
        | .reading i =>
            match getlineByte 64 s.cmd i c with
            | none => none
            | some (.typing cmd i', out) =>
                some ({ s with cmd := cmd, pc := .reading i' }, ⟨out, none, none⟩)
            | some (.done cmd, out) => { s with cmd := cmd }.runLine dns tcp out
        | .curlWait | .hostWait _ => none
    | .http e =>
        if e.isCallback then
          (httpMachine.next s.http e).map fun r ↦ ({ s with http := r.1 }, ⟨r.2, none, none⟩)
        else none
    | .hostFound j ipaddr =>
        if j < s.hostQueries.length then
          some ({ s with hostQueries := s.hostQueries.eraseIdx j }.dnsCallback ipaddr,
            ⟨[], none, none⟩)
        else none
    | .polled =>
        match s.pc with
        | .reading _ => some (s, ⟨[], none, none⟩)
        | .curlWait =>
            if s.http.httpBusy then some (s, ⟨[], none, none⟩) else some (s.prompt [] none)
        | .hostWait timeout =>
            -- the counter is tested after it is stepped, together with the flag
            if s.dnsResolved = false ∧ timeout + 1 < 2000000 then
              some ({ s with pc := .hostWait (timeout + 1) }, ⟨[], none, none⟩)
            else some (s.report [] s.hostOutcome)

/-! ## The steps by kind -/

/-- The steps of `shellMachine`, one constructor for each thing that can happen. -/
inductive ShellTurn (s : Shell) : ShellEvent → Shell → Output → Prop
  | typing {i i' : ℕ} {c : UInt8} {dns : DnsAnswer} {tcp : TcpAnswers} {cmd : Vector UInt8 64}
      {out : List Action} (hpc : s.pc = .reading i)
      (hbyte : getlineByte 64 s.cmd i c = some (.typing cmd i', out)) :
      ShellTurn s (.uart c dns tcp) { s with cmd := cmd, pc := .reading i' } ⟨out, none, none⟩
  | line {i : ℕ} {c : UInt8} {dns : DnsAnswer} {tcp : TcpAnswers} {cmd : Vector UInt8 64}
      {out : List Action} {s' : Shell} {o : Output} (hpc : s.pc = .reading i)
      (hbyte : getlineByte 64 s.cmd i c = some (.done cmd, out))
      (hline : { s with cmd := cmd }.runLine dns tcp out = some (s', o)) :
      ShellTurn s (.uart c dns tcp) s' o
  | http {e : HttpEvent} {h : HttpClient} {out : List Action} (he : e.isCallback = true)
      (hnext : httpMachine.next s.http e = some (h, out)) :
      ShellTurn s (.http e) { s with http := h } ⟨out, none, none⟩
  | hostFound {j : ℕ} {ipaddr : Option UInt32} (hj : j < s.hostQueries.length) :
      ShellTurn s (.hostFound j ipaddr)
        ({ s with hostQueries := s.hostQueries.eraseIdx j }.dnsCallback ipaddr) ⟨[], none, none⟩
  | idle {i : ℕ} (hpc : s.pc = .reading i) : ShellTurn s .polled s ⟨[], none, none⟩
  | curlWaits (hpc : s.pc = .curlWait) (hbusy : s.http.httpBusy = true) :
      ShellTurn s .polled s ⟨[], none, none⟩
  | curlEnds (hpc : s.pc = .curlWait) (hbusy : s.http.httpBusy = false) :
      ShellTurn s .polled (s.prompt [] none).1 (s.prompt [] none).2
  | hostWaits {timeout : ℕ} (hpc : s.pc = .hostWait timeout) (hres : s.dnsResolved = false) :
      ShellTurn s .polled { s with pc := .hostWait (timeout + 1) } ⟨[], none, none⟩
  | hostEnds {timeout : ℕ} (hpc : s.pc = .hostWait timeout) :
      ShellTurn s .polled (s.report [] s.hostOutcome).1 (s.report [] s.hostOutcome).2

theorem shellTurn_uart {s s' : Shell} {c : UInt8} {dns : DnsAnswer} {tcp : TcpAnswers} {o : Output}
    (h : shellMachine.next s (.uart c dns tcp) = some (s', o)) :
    ShellTurn s (.uart c dns tcp) s' o := by
  simp only [shellMachine] at h
  split at h
  · rename_i i hpc
    split at h
    · cases h
    · rename_i cmd i' out hbyte
      obtain ⟨rfl, rfl⟩ := Prod.mk.inj (Option.some.inj h)
      exact .typing hpc hbyte
    · rename_i cmd out hbyte
      exact .line hpc hbyte h
  · cases h
  · cases h

theorem shellTurn_polled {s s' : Shell} {o : Output}
    (h : shellMachine.next s .polled = some (s', o)) : ShellTurn s .polled s' o := by
  simp only [shellMachine] at h
  split at h
  · rename_i i hpc
    obtain ⟨rfl, rfl⟩ := Prod.mk.inj (Option.some.inj h)
    exact .idle hpc
  · rename_i hpc
    split_ifs at h with hbusy
    · obtain ⟨rfl, rfl⟩ := Prod.mk.inj (Option.some.inj h)
      exact .curlWaits hpc hbusy
    · obtain ⟨rfl, rfl⟩ := Prod.mk.inj (Option.some.inj h)
      exact .curlEnds hpc (Bool.eq_false_iff.mpr hbusy)
  · rename_i timeout hpc
    split_ifs at h with hagain
    · obtain ⟨rfl, rfl⟩ := Prod.mk.inj (Option.some.inj h)
      exact .hostWaits hpc hagain.1
    · obtain ⟨rfl, rfl⟩ := Prod.mk.inj (Option.some.inj h)
      exact .hostEnds hpc

theorem shellTurn_of_next {s s' : Shell} {e : ShellEvent} {o : Output}
    (h : shellMachine.next s e = some (s', o)) : ShellTurn s e s' o := by
  rcases e with ⟨c, dns, tcp⟩ | e | ⟨j, ipaddr⟩ | _
  · exact shellTurn_uart h
  · simp only [shellMachine] at h
    split_ifs at h with he
    obtain ⟨⟨client, out⟩, hnext, heq⟩ := Option.map_eq_some_iff.mp h
    obtain ⟨rfl, rfl⟩ := Prod.mk.inj heq
    exact .http he hnext
  · simp only [shellMachine] at h
    split_ifs at h with hj
    obtain ⟨rfl, rfl⟩ := Prod.mk.inj (Option.some.inj h)
    exact .hostFound hj
  · exact shellTurn_polled h

end ZanOS
