import ZanOS.Http.Client

/-!
# What the HTTP client has outstanding

Between any two events the client is in one of three situations: idle; waiting for a name, with the
busy flag up and one query out; or with a connection, its control block the newest one and the only
one not dealt with. Everything to be said of the globals can be read off these, so
the work is to show that each function leads from one of them to another.

Control blocks that were dealt with stay in the picture, since lwIP may still hold them: they are
either freed, or closed with no callback left on them.
-/

namespace ZanOS

open Foundation

/-- A control block that the client is done with. -/
def Pcb.Dead (p : Pcb) : Prop :=
  p.life = .freed ∨ p.life = .closed ∧ p.errCb = false ∧ p.recvCb = false

theorem Pcb.Dead.life_ne_live {p : Pcb} (h : p.Dead) : p.life ≠ .live := by
  rcases h with h | ⟨h, -⟩ <;> rw [h] <;> decide

theorem Pcb.dead_close {p : Pcb} (h : p.life = .live) : p.close.Dead :=
  Or.inr ⟨if_pos h, rfl, rfl⟩

namespace HttpClient

/-- The queries whose answer is still to come and the control blocks still to be dealt with. -/
def outstanding (s : HttpClient) : ℕ := s.queries.length + s.pcbs.countP fun p ↦ p.Live

/-! ## The three situations -/

/-- Nothing under way. -/
structure Idle (s : HttpClient) : Prop where
  busy : s.httpBusy = false
  queries : s.queries = []
  pcb : s.httpPcb = none
  dead : ∀ p ∈ s.pcbs, p.Dead

/-- Waiting for a name. -/
structure Resolving (s : HttpClient) : Prop where
  busy : s.httpBusy = true
  queries : s.queries.length = 1
  pcb : s.httpPcb = none
  dead : ∀ p ∈ s.pcbs, p.Dead

/-- With a connection, or on the way to one. -/
structure Active (s : HttpClient) (old : List Pcb) (p : Pcb) : Prop where
  busy : s.httpBusy = true
  queries : s.queries = []
  pcbs : s.pcbs = old ++ [p]
  pcb : s.httpPcb = some old.length
  dead : ∀ q ∈ old, q.Dead
  live : p.Live

/-- The client is in one of the three. -/
def Inv (s : HttpClient) : Prop := Idle s ∨ Resolving s ∨ ∃ old p, Active s old p

/-- How often the control block at a position counts as closed. -/
def closedAt (l : List Pcb) (i : ℕ) : ℕ :=
  match l[i]? with
  | none => 0
  | some p => if p.life = .closed then 1 else 0

/-- The actions contain exactly the calls of `tcp_close` that lead from `s` to `s'`. -/
def Accounts (s : HttpClient) (out : List Action) (s' : HttpClient) : Prop :=
  ∀ i, out.count (.tcpClose i) + closedAt s.pcbs i = closedAt s'.pcbs i

/-- No connection is closed by these actions. -/
def NoClose (out : List Action) : Prop := ∀ i, Action.tcpClose i ∉ out

theorem idle_boot : Idle boot := ⟨rfl, rfl, rfl, by simp [boot]⟩

theorem countP_live_eq_zero {l : List Pcb} (h : ∀ p ∈ l, p.Dead) :
    (l.countP fun p ↦ p.Live) = 0 := by
  rw [List.countP_eq_zero]
  intro p hp hlive
  exact (h p hp).life_ne_live (of_decide_eq_true hlive).1

theorem Idle.outstanding_eq {s : HttpClient} (h : Idle s) : s.outstanding = 0 := by
  rw [outstanding, h.queries, countP_live_eq_zero h.dead]
  rfl

theorem Resolving.outstanding_eq {s : HttpClient} (h : Resolving s) : s.outstanding = 1 := by
  rw [outstanding, h.queries, countP_live_eq_zero h.dead]

theorem Active.outstanding_eq {s : HttpClient} {old : List Pcb} {p : Pcb} (h : Active s old p) :
    s.outstanding = 1 := by
  rw [outstanding, h.queries, h.pcbs, List.countP_append, countP_live_eq_zero h.dead,
    List.countP_singleton, if_pos (decide_eq_true h.live)]
  rfl

/-! ## The functions -/

theorem modify_append_singleton {α : Type*} (old : List α) (a : α) (f : α → α) :
    (old ++ [a]).modify old.length f = old ++ [f a] := by
  induction old with
  | nil => rfl
  | cons b old ih => simp [ih]

theorem closedAt_append_singleton (old : List Pcb) (p : Pcb) (i : ℕ) :
    closedAt (old ++ [p]) i
      = closedAt old i + if i = old.length ∧ p.life = .closed then 1 else 0 := by
  rw [closedAt, closedAt]
  rcases lt_trichotomy i old.length with hlt | rfl | hgt
  · rw [List.getElem?_append_left hlt, if_neg fun h ↦ hlt.ne h.1, Nat.add_zero]
  · simp
  · rw [List.getElem?_eq_none (by simp; omega), List.getElem?_eq_none (by omega),
      if_neg fun h ↦ hgt.ne' h.1]

theorem Accounts.of_noClose {s s' : HttpClient} {out : List Action} (hout : NoClose out)
    (h : ∀ i, closedAt s.pcbs i = closedAt s'.pcbs i) : Accounts s out s' := by
  intro i
  rw [List.count_eq_zero.mpr (hout i), Nat.zero_add, h]

theorem Accounts.append {s s' : HttpClient} {out : List Action} (h : Accounts s out s')
    (out₁ out₂ : List Action) (h₁ : NoClose out₁) (h₂ : NoClose out₂) :
    Accounts s (out₁ ++ out ++ out₂) s' := by
  intro i
  rw [List.count_append, List.count_append, List.count_eq_zero.mpr (h₁ i),
    List.count_eq_zero.mpr (h₂ i), Nat.zero_add, Nat.add_zero]
  exact h i

theorem Accounts.congr_left {s s₁ s' : HttpClient} {out : List Action}
    (hs : ∀ i, closedAt s.pcbs i = closedAt s₁.pcbs i) (h : Accounts s₁ out s') :
    Accounts s out s' := by
  intro i
  rw [hs]
  exact h i

section Functions

variable {s : HttpClient} {old : List Pcb} {p : Pcb}

theorem idle_httpCloseConn (hq : s.queries = []) (hpcbs : s.pcbs = old ++ [p])
    (hdead : ∀ q ∈ old, q.Dead) (hlife : p.life = .live) :
    Idle (httpCloseConn s old.length).1 := by
  refine ⟨rfl, hq, rfl, ?_⟩
  change ∀ q ∈ s.pcbs.modify old.length Pcb.close, q.Dead
  rw [hpcbs, modify_append_singleton]
  intro q hmem
  rcases List.mem_append.mp hmem with hmem | hmem
  · exact hdead q hmem
  · rw [List.mem_singleton.mp hmem]
    exact Pcb.dead_close hlife

theorem accounts_httpCloseConn (hpcbs : s.pcbs = old ++ [p]) (hlife : p.life = .live) :
    Accounts s (httpCloseConn s old.length).2 (httpCloseConn s old.length).1 := by
  intro i
  have hclosed : p.close.life = .closed := if_pos hlife
  change List.count (Action.tcpClose i) [.tcpClose old.length, .println _] + closedAt s.pcbs i
    = closedAt (s.pcbs.modify old.length Pcb.close) i
  rw [hpcbs, modify_append_singleton, closedAt_append_singleton, closedAt_append_singleton, hlife,
    hclosed]
  by_cases hi : i = old.length
  · subst hi
    simp [Nat.add_comm]
  · simp [hi, Ne.symm hi]

/-- The failures that `http_dns_cb` handles. -/
def dnsFails (tcp : TcpAnswers) : Option UInt32 → Bool
  | none => true
  | some _ => !tcp.new || tcp.connect ≠ .ok

/-- The client with a new control block in the given phase. -/
def withPcb (s : HttpClient) (phase : PcbPhase) : HttpClient :=
  { s with
    httpPcb := some s.pcbs.length
    pcbs := s.pcbs ++ [⟨phase, .live, true, false⟩] }

theorem closedAt_withPcb (s : HttpClient) (phase : PcbPhase) (i : ℕ) :
    closedAt s.pcbs i = closedAt (s.withPcb phase).pcbs i := by
  rw [withPcb, closedAt_append_singleton, if_neg (by simp), Nat.add_zero]

theorem active_withPcb (phase : PcbPhase) (hbusy : s.httpBusy = true) (hq : s.queries = [])
    (hdead : ∀ p ∈ s.pcbs, p.Dead) :
    Active (s.withPcb phase) s.pcbs ⟨phase, .live, true, false⟩ :=
  ⟨hbusy, hq, rfl, rfl, hdead, rfl, rfl⟩

theorem httpDnsCb_of_connect {tcp : TcpAnswers} (ip : UInt32) (hnew : tcp.new = true)
    (hconnect : tcp.connect = .ok) :
    httpDnsCb tcp s (some ip) = (s.withPcb .synSent,
      [.print (ascii "[HTTP] Resolved IP: "), .printlnIp ip,
        .println (ascii "[HTTP] Connecting to server..."), .tcpConnect s.pcbs.length ip 80]) := by
  simp only [httpDnsCb, hnew, hconnect, setPcb, modify_append_singleton, withPcb, if_true,
    Bool.true_eq_false, if_false]
  rfl

theorem httpDnsCb_of_refused {tcp : TcpAnswers} (ip : UInt32) (hnew : tcp.new = true)
    (hconnect : tcp.connect ≠ .ok) :
    httpDnsCb tcp s (some ip) = ((httpCloseConn (s.withPcb .closed) s.pcbs.length).1,
      [.print (ascii "[HTTP] Resolved IP: "), .printlnIp ip,
        .println (ascii "[HTTP] Connecting to server..."), .tcpConnect s.pcbs.length ip 80,
        .println (ascii "[HTTP] tcp_connect error.")]
        ++ (httpCloseConn (s.withPcb .closed) s.pcbs.length).2 ++ []) := by
  simp only [httpDnsCb, hnew, hconnect, Bool.true_eq_false, if_false]
  rfl

/-- `http_dns_cb` opens a connection or gives up. -/
theorem httpDnsCb_spec (s : HttpClient) (tcp : TcpAnswers) (ipaddr : Option UInt32)
    (hbusy : s.httpBusy = true) (hq : s.queries = []) (hpcb : s.httpPcb = none)
    (hdead : ∀ p ∈ s.pcbs, p.Dead) :
    Accounts s (httpDnsCb tcp s ipaddr).2 (httpDnsCb tcp s ipaddr).1 ∧
      (Idle (httpDnsCb tcp s ipaddr).1 ∨
        dnsFails tcp ipaddr = false ∧ ∃ old p, Active (httpDnsCb tcp s ipaddr).1 old p) := by
  rcases ipaddr with _ | ip
  · exact ⟨.of_noClose (by simp [NoClose, httpDnsCb]) fun _ ↦ rfl, Or.inl ⟨rfl, hq, hpcb, hdead⟩⟩
  · cases hnew : tcp.new with
    | false =>
      simp only [httpDnsCb, hnew, if_true]
      exact ⟨.of_noClose (by simp [NoClose]) fun _ ↦ rfl, Or.inl ⟨rfl, hq, rfl, hdead⟩⟩
    | true =>
      by_cases hconnect : tcp.connect = .ok
      · rw [httpDnsCb_of_connect ip hnew hconnect]
        exact ⟨.of_noClose (by simp [NoClose]) (closedAt_withPcb s .synSent),
          Or.inr ⟨by simp [dnsFails, hnew, hconnect], _, _, active_withPcb _ hbusy hq hdead⟩⟩
      · rw [httpDnsCb_of_refused ip hnew hconnect]
        refine ⟨.congr_left (closedAt_withPcb s .closed) ?_,
          Or.inl (idle_httpCloseConn hq rfl hdead rfl)⟩
        exact (accounts_httpCloseConn rfl rfl).append _ _ (by simp [NoClose]) (by simp [NoClose])

theorem Active.setPcb (h : Active s old p) (f : Pcb → Pcb) (hf : (f p).Live) :
    Active (s.setPcb old.length f) old (f p) := by
  refine ⟨h.busy, h.queries, ?_, h.pcb, h.dead, hf⟩
  rw [HttpClient.setPcb, h.pcbs, modify_append_singleton]

theorem Active.closedAt_setPcb (h : Active s old p) (f : Pcb → Pcb) (hf : (f p).life ≠ .closed)
    (i : ℕ) : closedAt s.pcbs i = closedAt (s.setPcb old.length f).pcbs i := by
  have hlife : p.life ≠ .closed := by
    rw [h.live.1]
    decide
  rw [HttpClient.setPcb, h.pcbs, modify_append_singleton, closedAt_append_singleton,
    closedAt_append_singleton, if_neg fun heq ↦ hlife heq.2, if_neg fun heq ↦ hf heq.2]

theorem Active.idle_httpCloseConn (h : Active s old p) : Idle (httpCloseConn s old.length).1 :=
  HttpClient.idle_httpCloseConn h.queries h.pcbs h.dead h.live.1

theorem Active.accounts_httpCloseConn (h : Active s old p) :
    Accounts s (httpCloseConn s old.length).2 (httpCloseConn s old.length).1 :=
  HttpClient.accounts_httpCloseConn h.pcbs h.live.1

theorem Active.httpConnectedCb_spec (h : Active s old p) {write err : Err}
    {r : HttpClient × List Action}
    (hr : httpConnectedCb write s old.length err = some r) :
    Accounts s r.2 r.1 ∧
      (Idle r.1 ∨ (err = .ok ∧ write = .ok) ∧ ∃ p', Active r.1 old p') := by
  rw [httpConnectedCb] at hr
  by_cases herr : err = .ok
  · rw [if_neg (not_not.mpr herr)] at hr
    have h₁ := h.setPcb (fun p ↦ { p with recvCb := true, errCb := true }) ⟨h.live.1, rfl⟩
    have hclosed := h.closedAt_setPcb (fun p ↦ { p with recvCb := true, errCb := true })
      (by simp [h.live.1])
    simp only at hr
    split at hr
    · cases hr
    · by_cases hwrite : write = .ok
      · rw [if_pos hwrite] at hr
        cases hr
        exact ⟨.of_noClose (by simp [NoClose]) hclosed, Or.inr ⟨⟨herr, hwrite⟩, _, h₁⟩⟩
      · rw [if_neg hwrite] at hr
        cases hr
        refine ⟨.congr_left hclosed ?_, Or.inl h₁.idle_httpCloseConn⟩
        exact h₁.accounts_httpCloseConn.append [_, _, _] _ (by simp [NoClose]) (by simp [NoClose])
  · rw [if_pos herr] at hr
    cases hr
    refine ⟨?_, Or.inl h.idle_httpCloseConn⟩
    exact h.accounts_httpCloseConn.append [_] _ (by simp [NoClose]) (by simp [NoClose])

/-- `http_recv_cb` closes at the end of the data and otherwise leaves the client as it is. -/
theorem Active.httpRecvCb_spec (h : Active s old p) (chain : Option (List (List UInt8)))
    (err : Err) :
    Accounts s (httpRecvCb s old.length chain err).2 (httpRecvCb s old.length chain err).1 ∧
      (Idle (httpRecvCb s old.length chain err).1 ∨
        chain.isNone = false ∧ (httpRecvCb s old.length chain err).1 = s) := by
  rcases chain with _ | chain
  · refine ⟨?_, Or.inl h.idle_httpCloseConn⟩
    exact h.accounts_httpCloseConn.append [] _ (by simp [NoClose]) (by simp [NoClose])
  · rw [httpRecvCb]
    split_ifs with herr
    · exact ⟨.of_noClose (by simp [NoClose]) fun _ ↦ rfl, Or.inr ⟨rfl, rfl⟩⟩
    · exact ⟨.of_noClose (by simp [NoClose]) fun _ ↦ rfl, Or.inr ⟨rfl, rfl⟩⟩

theorem Active.httpErrCb_spec (h : Active s old p) (err : Err) :
    Accounts s (httpErrCb (s.setPcb old.length fun p ↦ { p with life := .freed }) err).2
        (httpErrCb (s.setPcb old.length fun p ↦ { p with life := .freed }) err).1 ∧
      Idle (httpErrCb (s.setPcb old.length fun p ↦ { p with life := .freed }) err).1 := by
  refine ⟨.of_noClose (by simp [NoClose, httpErrCb]) (h.closedAt_setPcb _ (by simp)),
    rfl, h.queries, rfl, ?_⟩
  change ∀ q ∈ s.pcbs.modify old.length _, q.Dead
  rw [h.pcbs, modify_append_singleton]
  intro q hmem
  rcases List.mem_append.mp hmem with hmem | hmem
  · exact h.dead q hmem
  · rw [List.mem_singleton.mp hmem]
    exact Or.inl rfl

theorem Idle.httpGet_spec (h : Idle s) {hostname path : List UInt8} {dns : DnsAnswer}
    {tcp : TcpAnswers} {r : HttpClient × List Action}
    (hr : httpGet dns tcp s hostname path = some r) :
    Accounts s r.2 r.1 ∧ (Idle r.1 ∨ Resolving r.1 ∧ dns = .inProgress ∨
      (∃ ip, dns = .found ip ∧ dnsFails tcp (some ip) = false) ∧ ∃ old p, Active r.1 old p) := by
  rw [httpGet, if_neg (by rw [h.busy]; decide)] at hr
  split at hr
  · cases hr
  · rename_i requestBuf _
    simp only at hr
    cases dns with
    | found ip =>
      cases hr
      obtain ⟨haccounts, hspec⟩ :=
        httpDnsCb_spec { s with httpBusy := true, requestBuf := requestBuf } tcp (some ip) rfl
          h.queries h.pcb h.dead
      refine ⟨?_, ?_⟩
      · rw [← List.append_nil (_ ++ _)]
        exact haccounts.append _ _ (by simp [NoClose]) (by simp [NoClose])
      · rcases hspec with hidle | ⟨hok, hactive⟩
        · exact Or.inl hidle
        · exact Or.inr (Or.inr ⟨⟨ip, rfl, hok⟩, hactive⟩)
    | inProgress =>
      cases hr
      refine ⟨.of_noClose (by simp [NoClose]) fun _ ↦ rfl, Or.inr (Or.inl ⟨?_, rfl⟩)⟩
      exact ⟨rfl, by simp [h.queries], h.pcb, h.dead⟩
    | failed =>
      cases hr
      exact ⟨.of_noClose (by simp [NoClose]) fun _ ↦ rfl, Or.inl ⟨rfl, h.queries, h.pcb, h.dead⟩⟩

end Functions

/-! ## Runs -/

/-- The failure paths: a query that cannot be made or has no answer, no control block, a connection
or a write that fails, the end of the connection, and an error lwIP reports for a live one. -/
def fails (s : HttpClient) : HttpEvent → Bool
  | .get _ _ dns tcp =>
      !s.httpBusy && match dns with
        | .found ip => dnsFails tcp (some ip)
        | .inProgress => false
        | .failed => true
  | .dnsFound _ ipaddr tcp => dnsFails tcp ipaddr
  | .connected _ err write => err ≠ .ok || write ≠ .ok
  | .recv _ p _ => p.isNone
  | .error i _ => (s.pcbs[i]?.map Pcb.life) = some .live

theorem Inv.dead_or_active {s : HttpClient} (h : Inv s) {i : ℕ} {q : Pcb}
    (hget : s.pcbs[i]? = some q) : q.Dead ∨ ∃ old, i = old.length ∧ Active s old q := by
  have hmem := List.mem_of_getElem? hget
  rcases h with h | h | ⟨old, p, h⟩
  · exact Or.inl (h.dead q hmem)
  · exact Or.inl (h.dead q hmem)
  · rw [h.pcbs] at hget
    rcases lt_trichotomy i old.length with hlt | rfl | hgt
    · rw [List.getElem?_append_left hlt] at hget
      exact Or.inl (h.dead q (List.mem_of_getElem? hget))
    · rw [List.getElem?_append_right le_rfl, Nat.sub_self, List.getElem?_cons_zero] at hget
      obtain rfl := Option.some.inj hget
      exact Or.inr ⟨old, rfl, h⟩
    · rw [List.getElem?_eq_none (by simp; omega)] at hget
      cases hget

theorem Inv.idle_of_busy_eq_false {s : HttpClient} (h : Inv s) (hbusy : s.httpBusy = false) :
    Idle s := by
  rcases h with h | h | ⟨old, p, h⟩
  · exact h
  · exact absurd (hbusy.symm.trans h.busy) (by decide)
  · exact absurd (hbusy.symm.trans h.busy) (by decide)

/-- What is shown of each event: the client goes from one of the three situations to another, back
to idle if the event is a failure, and closes what it counts as closed. -/
def StepOk (s : HttpClient) (e : HttpEvent) (r : HttpClient × List Action) : Prop :=
  Accounts s r.2 r.1 ∧ (Idle r.1 ∨ s.fails e = false ∧ Inv r.1)

section Step

variable {s : HttpClient} {r : HttpClient × List Action}

theorem Inv.step_get (h : Inv s) {hostname path : List UInt8} {dns : DnsAnswer} {tcp : TcpAnswers}
    (hnext : httpMachine.next s (.get hostname path dns tcp) = some r) :
    StepOk s (.get hostname path dns tcp) r := by
  change httpGet dns tcp s hostname path = some r at hnext
  cases hbusy : s.httpBusy with
  | true =>
    rw [httpGet, if_pos hbusy] at hnext
    cases hnext
    exact ⟨.of_noClose (by simp [NoClose]) fun _ ↦ rfl, Or.inr ⟨by simp [fails, hbusy], h⟩⟩
  | false =>
    obtain ⟨haccounts, hspec⟩ := (h.idle_of_busy_eq_false hbusy).httpGet_spec hnext
    refine ⟨haccounts, ?_⟩
    rcases hspec with hidle | ⟨hres, rfl⟩ | ⟨⟨ip, rfl, hok⟩, hactive⟩
    · exact Or.inl hidle
    · exact Or.inr ⟨by simp [fails], Or.inr (Or.inl hres)⟩
    · exact Or.inr ⟨by simp [fails, hok], Or.inr (Or.inr hactive)⟩

theorem Inv.step_dnsFound (h : Inv s) {j : ℕ} {ipaddr : Option UInt32} {tcp : TcpAnswers}
    (hnext : httpMachine.next s (.dnsFound j ipaddr tcp) = some r) :
    StepOk s (.dnsFound j ipaddr tcp) r := by
  change (if j < s.queries.length then _ else _) = _ at hnext
  split_ifs at hnext with hj
  -- a query is out, so the client is waiting for it and for nothing else
  have hres : Resolving s := by
    rcases h with h | h | ⟨old, p, h⟩
    · simp [h.queries] at hj
    · exact h
    · simp [h.queries] at hj
  have hnone : s.queries.eraseIdx j = [] := by
    rw [← List.length_eq_zero_iff, List.length_eraseIdx, if_pos hj, hres.queries]
  obtain ⟨haccounts, hspec⟩ := httpDnsCb_spec { s with queries := s.queries.eraseIdx j } tcp
    ipaddr hres.busy hnone hres.pcb hres.dead
  rw [Option.some.inj hnext] at haccounts hspec
  refine ⟨haccounts, ?_⟩
  rcases hspec with hidle | ⟨hok, hactive⟩
  · exact Or.inl hidle
  · exact Or.inr ⟨hok, Or.inr (Or.inr hactive)⟩

theorem Inv.step_connected (h : Inv s) {i : ℕ} {err write : Err}
    (hnext : httpMachine.next s (.connected i err write) = some r) :
    StepOk s (.connected i err write) r := by
  simp only [httpMachine] at hnext
  split at hnext
  · cases hnext
  · rename_i q hget
    split_ifs at hnext with hq
    rcases h.dead_or_active hget with hdead | ⟨old, rfl, hactive⟩
    · exact absurd hq.1 hdead.life_ne_live
    · have h₁ := hactive.setPcb (fun p ↦ { p with phase := .established }) hactive.live
      have hclosed := hactive.closedAt_setPcb (fun p ↦ { p with phase := .established })
        (by simp [hactive.live.1])
      obtain ⟨haccounts, hspec⟩ := h₁.httpConnectedCb_spec hnext
      refine ⟨.congr_left hclosed haccounts, ?_⟩
      rcases hspec with hidle | ⟨⟨rfl, rfl⟩, p', hactive'⟩
      · exact Or.inl hidle
      · exact Or.inr ⟨rfl, Or.inr (Or.inr ⟨_, _, hactive'⟩)⟩

theorem Inv.step_recv (h : Inv s) {i : ℕ} {chain : Option (List (List UInt8))} {err : Err}
    (hnext : httpMachine.next s (.recv i chain err) = some r) :
    StepOk s (.recv i chain err) r := by
  simp only [httpMachine] at hnext
  split at hnext
  · cases hnext
  · rename_i q hget
    split_ifs at hnext with hq
    rcases h.dead_or_active hget with hdead | ⟨old, rfl, hactive⟩
    · -- a closed control block has no callback left, and a freed one is gone
      rcases hdead with hfreed | ⟨-, -, hrecv⟩
      · exact absurd hfreed hq.2.2
      · exact absurd (hrecv.symm.trans hq.1) (by decide)
    · obtain ⟨haccounts, hspec⟩ := hactive.httpRecvCb_spec chain err
      rw [Option.some.inj hnext] at haccounts hspec
      refine ⟨haccounts, ?_⟩
      rcases hspec with hidle | ⟨hsome, hsame⟩
      · exact Or.inl hidle
      · exact Or.inr ⟨hsome, hsame ▸ h⟩

theorem Inv.step_error (h : Inv s) {i : ℕ} {err : Err}
    (hnext : httpMachine.next s (.error i err) = some r) : StepOk s (.error i err) r := by
  simp only [httpMachine] at hnext
  split at hnext
  · cases hnext
  · rename_i q hget
    rcases h.dead_or_active hget with hdead | ⟨old, rfl, hactive⟩
    · rcases hdead with hfreed | ⟨hclosed, herr, -⟩
      · rw [if_pos hfreed] at hnext
        cases hnext
      · -- lwIP drops a connection the client has closed, and there is nobody to tell
        simp only [hclosed, herr, reduceCtorEq, if_false, Bool.false_eq_true] at hnext
        cases hnext
        exact ⟨.of_noClose (by simp [NoClose]) fun _ ↦ rfl,
          Or.inr ⟨by simp [fails, hget, hclosed], h⟩⟩
    · obtain ⟨haccounts, hidle⟩ := hactive.httpErrCb_spec err
      simp only [hactive.live.1, hactive.live.2, reduceCtorEq, if_false, if_true] at hnext
      rw [Option.some.inj hnext] at haccounts hidle
      exact ⟨haccounts, Or.inl hidle⟩

/-- **One event.** -/
theorem Inv.step (h : Inv s) {e : HttpEvent} (hnext : httpMachine.next s e = some r) :
    StepOk s e r := by
  cases e with
  | get hostname path dns tcp => exact h.step_get hnext
  | dnsFound j ipaddr tcp => exact h.step_dnsFound hnext
  | connected i err write => exact h.step_connected hnext
  | recv i chain err => exact h.step_recv hnext
  | error i err => exact h.step_error hnext

end Step

theorem StepOk.inv {s : HttpClient} {e : HttpEvent} {r : HttpClient × List Action}
    (h : StepOk s e r) : Inv r.1 :=
  h.2.elim Or.inl And.right

theorem inv_of_run {s : HttpClient} {tr : List (Transition HttpClient HttpEvent (List Action))}
    (hrun : httpMachine.Run boot tr s) : Inv s :=
  hrun.invariant' (Or.inl idle_boot) fun h hnext ↦ (h.step hnext).inv

/-- Every call of `tcp_close` in a run, per control block. -/
theorem accounts_of_run {s : HttpClient}
    {tr : List (Transition HttpClient HttpEvent (List Action))}
    (hrun : httpMachine.Run boot tr s) :
    Accounts boot (tr.flatMap Transition.output) s := by
  induction hrun with
  | nil => exact fun i ↦ rfl
  | snoc hrun hnext ih =>
    intro i
    have hstep := ((inv_of_run hrun).step hnext).1 i
    rw [List.flatMap_append, List.flatMap_singleton, List.count_append, Nat.add_right_comm, ih i,
      Nat.add_comm]
    exact hstep

/-- What holds of the client between events: it is busy exactly if one query or one control block
is outstanding, and never more; `http_pcb` is that control block; every other control block it has
created was closed, by one call of `tcp_close`, or freed by lwIP, with none; and after a failure it
is neither busy nor has it anything outstanding. -/
structure Accounted (tr : List (Transition HttpClient HttpEvent (List Action)))
    (s : HttpClient) : Prop where
  busy_iff : s.httpBusy = true ↔ s.outstanding = 1
  at_most_one : s.outstanding ≤ 1
  pcb_iff : ∀ i, s.httpPcb = some i ↔ ∃ p, s.pcbs[i]? = some p ∧ p.Live
  dealt_with : ∀ p ∈ s.pcbs, p.Live ∨ p.life = .closed ∨ p.life = .freed
  closed_once : ∀ i p, s.pcbs[i]? = some p →
    (tr.flatMap Transition.output).count (.tcpClose i) = if p.life = .closed then 1 else 0
  released : ∀ t ∈ tr, t.pre.fails t.event = true →
    t.post.httpBusy = false ∧ t.post.httpPcb = none ∧ t.post.outstanding = 0

theorem Inv.busy_iff {s : HttpClient} (h : Inv s) : s.httpBusy = true ↔ s.outstanding = 1 := by
  rcases h with h | h | ⟨old, p, h⟩
  · simp [h.busy, h.outstanding_eq]
  · simp [h.busy, h.outstanding_eq]
  · simp [h.busy, h.outstanding_eq]

theorem Inv.outstanding_le_one {s : HttpClient} (h : Inv s) : s.outstanding ≤ 1 := by
  rcases h with h | h | ⟨old, p, h⟩
  · rw [h.outstanding_eq]; exact Nat.zero_le 1
  · exact h.outstanding_eq.le
  · exact h.outstanding_eq.le

theorem Inv.pcb_iff {s : HttpClient} (h : Inv s) (i : ℕ) :
    s.httpPcb = some i ↔ ∃ p, s.pcbs[i]? = some p ∧ p.Live := by
  constructor
  · intro hi
    rcases h with h | h | ⟨old, p, h⟩
    · rw [h.pcb] at hi; cases hi
    · rw [h.pcb] at hi; cases hi
    · rw [h.pcb] at hi
      obtain rfl := Option.some.inj hi
      exact ⟨p, by simp [h.pcbs], h.live⟩
  · rintro ⟨p, hget, hlive⟩
    rcases h.dead_or_active hget with hdead | ⟨old, rfl, hactive⟩
    · exact absurd hlive.1 hdead.life_ne_live
    · exact hactive.pcb

theorem Inv.dealt_with {s : HttpClient} (h : Inv s) :
    ∀ p ∈ s.pcbs, p.Live ∨ p.life = .closed ∨ p.life = .freed := by
  intro p hmem
  obtain ⟨i, hget⟩ := List.getElem?_of_mem hmem
  rcases h.dead_or_active hget with (hfreed | ⟨hclosed, -⟩) | ⟨old, -, hactive⟩
  · exact Or.inr (Or.inr hfreed)
  · exact Or.inr (Or.inl hclosed)
  · exact Or.inl hactive.live

/-- **The client keeps its books**, in every state reached by any order of calls and callbacks and
any answers of lwIP's. -/
theorem accounted_of_run {s : HttpClient}
    {tr : List (Transition HttpClient HttpEvent (List Action))}
    (hrun : httpMachine.Run boot tr s) : Accounted tr s := by
  have hinv := inv_of_run hrun
  refine ⟨hinv.busy_iff, hinv.outstanding_le_one, hinv.pcb_iff, hinv.dealt_with, ?_, ?_⟩
  · intro i p hget
    have hcount := accounts_of_run hrun i
    rw [closedAt, closedAt, hget] at hcount
    exact hcount
  · intro t ht hfails
    obtain ⟨tr₁, tr₂, rfl⟩ := List.append_of_mem ht
    obtain ⟨hpre, hnext, -⟩ := hrun.exists_split_cons
    rcases ((inv_of_run hpre).step hnext).2 with hidle | ⟨hok, -⟩
    · exact ⟨hidle.busy, hidle.pcb, hidle.outstanding_eq⟩
    · exact absurd (hfails.symm.trans hok) (by decide)

/-- A page fetched from start to end: the connection is closed once, when the server has closed
it. -/
theorem accounted_fetch :
    ∃ tr s, httpMachine.Run boot tr s ∧
      (tr.map fun t ↦ (t.post.httpBusy, t.output.count (.tcpClose 0)))
        = [(true, 0), (true, 0), (true, 0), (true, 0), (false, 1)] ∧
      Accounted tr s := by
  have hout : (httpMachine.exec boot
      [.get (literal "a.org") (literal "/") .inProgress ⟨true, .ok⟩,
        .dnsFound 0 (some 0x0100007F) ⟨true, .ok⟩, .connected 0 .ok .ok,
        .recv 0 (some [ascii "HTTP", ascii "/1.1"]) .ok, .recv 0 none .ok]).map
      (fun r ↦ r.1.map fun t ↦ (t.post.httpBusy, t.output.count (.tcpClose 0)))
      = some [(true, 0), (true, 0), (true, 0), (true, 0), (false, 1)] := by
    decide +kernel
  obtain ⟨⟨tr, s⟩, hexec, hcount⟩ := Option.map_eq_some_iff.mp hout
  exact ⟨tr, s, Machine.exec_run hexec, hcount, accounted_of_run (Machine.exec_run hexec)⟩

end HttpClient

end ZanOS
