import ZanOS.Foundation.Machine
import ZanOS.Http.Request

/-!
# The HTTP client

`http_client.c` fetches one page at a time: a name query, a TCP connection, a request, and whatever
the server sends until it closes. Each stage is a callback that lwIP calls later or never, and each
may fail. The client keeps track in two globals, the busy flag `http_busy` and the control block
`http_pcb`, which seven functions update.

The functions below follow the source with lwIP's answers as arguments. `httpMachine` puts them
together with the part of lwIP's raw API they rely on: which control blocks the client has created,
what became of each, which callbacks are registered on it, and which queries are still to be
answered. A callback happens only when that state allows it:

* a query is answered once;
* `http_connected_cb` is called for a control block that waits for its connection;
* `http_recv_cb` is called for an open connection on which it is registered;
* a control block that lwIP gives up is freed, and the error callback, if registered, is told.

The control block of a closed connection outlives `tcp_close` in lwIP, so nothing but the
deregistration in `http_close_conn` keeps callbacks for it away.
-/

namespace ZanOS

open Foundation

/-! ## lwIP's side -/

/-- `err_t`. -/
inductive Err
  | ok | mem | buf | timeout | rte | inprogress | val | wouldblock | use | already | isconn | conn
  | netif | abrt | rst | clsd | arg
  deriving DecidableEq

/-- The values of `err_t`. -/
def Err.toInt : Err → Int
  | .ok => 0
  | .mem => -1
  | .buf => -2
  | .timeout => -3
  | .rte => -4
  | .inprogress => -5
  | .val => -6
  | .wouldblock => -7
  | .use => -8
  | .already => -9
  | .isconn => -10
  | .conn => -11
  | .netif => -12
  | .abrt => -13
  | .rst => -14
  | .clsd => -15
  | .arg => -16

/-- How far the connection of a control block has come. -/
inductive PcbPhase
  | closed
  | synSent
  | established
  deriving DecidableEq

/-- What became of a control block: in use, closed by the client, freed by lwIP while in use, or
touched by the client after that. -/
inductive PcbLife
  | live
  | closed
  | freed
  | misused
  deriving DecidableEq

/-- A control block, with the callbacks registered on it. -/
structure Pcb where
  phase : PcbPhase
  life : PcbLife
  errCb : Bool
  recvCb : Bool

/-- A control block the client has to deal with: neither closed by it nor freed by lwIP, and with
`http_err_cb` registered. -/
def Pcb.Live (p : Pcb) : Prop := p.life = .live ∧ p.errCb = true

instance (p : Pcb) : Decidable p.Live := inferInstanceAs (Decidable (_ ∧ _))

/-- The callbacks taken off, then `tcp_close`. -/
def Pcb.close (p : Pcb) : Pcb :=
  { p with
    errCb := false
    recvCb := false
    life := if p.life = .live then .closed else .misused }

/-- The answer of `dns_gethostbyname`: `ERR_OK` with the address, `ERR_INPROGRESS`, or an error. -/
inductive DnsAnswer
  | found (ip : UInt32)
  | inProgress
  | failed

/-- The answers of `tcp_new` and `tcp_connect`. -/
structure TcpAnswers where
  new : Bool
  connect : Err

/-- What the program does to the console and to lwIP, in order. A write is recorded with what the
pointer points to and the length passed. -/
inductive Action
  | print (text : List UInt8)
  | println (text : List UInt8)
  | printInt (n : Int)
  | printlnIp (ip : UInt32)
  | putc (c : UInt8)
  | tcpConnect (pcb : ℕ) (ip : UInt32) (port : ℕ)
  | tcpWrite (pcb : ℕ) (data : List UInt8) (len : ℕ)
  | tcpOutput (pcb : ℕ)
  | tcpRecved (pcb : ℕ) (len : ℕ)
  | tcpClose (pcb : ℕ)
  | pbufFree (p : List (List UInt8))
  | returns (err : Err)
  deriving DecidableEq

/-- The text among the actions, as the bytes that go to the console. -/
def sentBytes (out : List Action) : List UInt8 :=
  out.flatMap fun
    | .print text => text
    | .println text => text ++ [10]
    | .putc c => [c]
    | _ => []

/-! ## The client -/

/-- The globals of the client; and, on lwIP's side, the names its queries ask for and every control
block it has created, oldest first. `http_pcb` is the position of its control block among them. -/
structure HttpClient where
  httpPcb : Option ℕ
  httpBusy : Bool
  requestBuf : Vector UInt8 256
  queries : List (List UInt8)
  pcbs : List Pcb

namespace HttpClient

/-- The state at boot: static storage is zero. -/
def boot : HttpClient := ⟨none, false, Vector.replicate 256 0, [], []⟩

/-- Replace a control block. -/
def setPcb (s : HttpClient) (i : ℕ) (f : Pcb → Pcb) : HttpClient :=
  { s with pcbs := s.pcbs.modify i f }

end HttpClient

/-- `http_close_conn`. -/
def httpCloseConn (s : HttpClient) (tpcb : ℕ) : HttpClient × List Action :=
  ({ s.setPcb tpcb Pcb.close with httpPcb := none, httpBusy := false },
    [.tcpClose tpcb, .println (ascii "\n[HTTP] Connection closed.")])

/-- `http_recv_cb`; a chain is the list of its payloads, `none` is `NULL`. -/
def httpRecvCb (s : HttpClient) (tpcb : ℕ) (p : Option (List (List UInt8))) (err : Err) :
    HttpClient × List Action :=
  match p with
  | none =>
      let r := httpCloseConn s tpcb
      (r.1, r.2 ++ [.returns .ok])
  | some chain =>
      if err ≠ .ok then (s, [.pbufFree chain, .returns err])
      else (s, chain.flatten.map .putc
        ++ [.tcpRecved tpcb chain.flatten.length, .pbufFree chain, .returns .ok])

/-- `http_err_cb`. -/
def httpErrCb (s : HttpClient) (err : Err) : HttpClient × List Action :=
  ({ s with httpPcb := none, httpBusy := false },
    [.print (ascii "\n[HTTP] Error: "), .printInt err.toInt, .println []])

/-- `http_connected_cb`; `write` is the answer of `tcp_write`. -/
def httpConnectedCb (write : Err) (s : HttpClient) (tpcb : ℕ) (err : Err) :
    Option (HttpClient × List Action) :=
  if err ≠ .ok then
    let r := httpCloseConn s tpcb
    some (r.1, .println (ascii "\n[HTTP] Connection failed.") :: r.2 ++ [.returns err])
  else
    let s := s.setPcb tpcb fun p ↦ { p with recvCb := true, errCb := true }
    match strlen s.requestBuf.toList with
    | none => none
    | some len =>
        let out := [.println (ascii "[HTTP] Connected. Sending request..."),
          .tcpWrite tpcb s.requestBuf.toList len]
        if write = .ok then some (s, out ++ [.tcpOutput tpcb, .returns .ok])
        else
          let r := httpCloseConn s tpcb
          some (r.1, out ++ .println (ascii "[HTTP] Failed to write request.") :: r.2
            ++ [.returns .ok])

/-- `http_dns_cb`. -/
def httpDnsCb (tcp : TcpAnswers) (s : HttpClient) (ipaddr : Option UInt32) :
    HttpClient × List Action :=
  match ipaddr with
  | none => ({ s with httpBusy := false }, [.println (ascii "[HTTP] DNS resolution failed.")])
  | some ip =>
      let out := [.print (ascii "[HTTP] Resolved IP: "), .printlnIp ip]
      if tcp.new = false then
        ({ s with httpPcb := none, httpBusy := false },
          out ++ [.println (ascii "[HTTP] Failed to create TCP PCB.")])
      else
        let i := s.pcbs.length
        let s := { s with httpPcb := some i, pcbs := s.pcbs ++ [⟨.closed, .live, true, false⟩] }
        let out := out ++ [.println (ascii "[HTTP] Connecting to server..."), .tcpConnect i ip 80]
        if tcp.connect = .ok then (s.setPcb i fun p ↦ { p with phase := .synSent }, out)
        else
          let r := httpCloseConn s i
          (r.1, out ++ .println (ascii "[HTTP] tcp_connect error.") :: r.2)

/-- `http_get`. -/
def httpGet (dns : DnsAnswer) (tcp : TcpAnswers) (s : HttpClient) (hostname path : List UInt8) :
    Option (HttpClient × List Action) :=
  if s.httpBusy then some (s, [.println (ascii "[HTTP] Client is already busy.")])
  else
    match buildRequest s.requestBuf hostname path with
    | none => none
    | some requestBuf =>
        let s := { s with httpBusy := true, requestBuf := requestBuf }
        let out := [.print (ascii "[HTTP] Resolving "), .println (cstr hostname)]
        match dns with
        | .found ip =>
            let r := httpDnsCb tcp s (some ip)
            some (r.1, out ++ r.2)
        | .inProgress => some ({ s with queries := s.queries ++ [cstr hostname] }, out)
        | .failed =>
            some ({ s with httpBusy := false }, out ++ [.println (ascii "[HTTP] DNS error.")])

/-! ## Runs -/

/-- A call of `http_get`, or an event of lwIP's, with lwIP's answers. -/
inductive HttpEvent
  | get (hostname path : List UInt8) (dns : DnsAnswer) (tcp : TcpAnswers)
  | dnsFound (query : ℕ) (ipaddr : Option UInt32) (tcp : TcpAnswers)
  | connected (pcb : ℕ) (err write : Err)
  | recv (pcb : ℕ) (p : Option (List (List UInt8))) (err : Err)
  | error (pcb : ℕ) (err : Err)

/-- A callback of lwIP's, as opposed to a call of `http_get`. -/
def HttpEvent.isCallback : HttpEvent → Bool
  | .get .. => false
  | .dnsFound .. | .connected .. | .recv .. | .error .. => true

/-- The client and lwIP's raw API. -/
def httpMachine : Machine HttpClient HttpEvent (List Action) where
  next s
    | .get hostname path dns tcp => httpGet dns tcp s hostname path
    | .dnsFound j ipaddr tcp =>
        if j < s.queries.length then
          some (httpDnsCb tcp { s with queries := s.queries.eraseIdx j } ipaddr)
        else none
    | .connected i err write =>
        match s.pcbs[i]? with
        | none => none
        | some p =>
            if p.life = .live ∧ p.phase = .synSent then
              httpConnectedCb write (s.setPcb i fun p ↦ { p with phase := .established }) i err
            else none
    | .recv i chain err =>
        match s.pcbs[i]? with
        | none => none
        | some p =>
            if p.recvCb = true ∧ p.phase = .established ∧ p.life ≠ .freed then
              some (httpRecvCb s i chain err)
            else none
    | .error i err =>
        match s.pcbs[i]? with
        | none => none
        | some p =>
            if p.life = .freed then none
            else
              let s := if p.life = .live then s.setPcb i fun p ↦ { p with life := .freed } else s
              if p.errCb then some (httpErrCb s err) else some (s, [])

end ZanOS
