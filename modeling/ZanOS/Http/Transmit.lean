import ZanOS.Http.Accounting

/-!
# What the HTTP client sends

`http_get` leaves the request in a global buffer and returns; `http_connected_cb` sends what it
finds there, some callbacks later. `Follows` collects what all callbacks leave alone in between: the
buffer, above all. The other fields say that no callback starts a request, and that the control
block a callback leaves in `http_pcb` was there before or is a new one.
-/

namespace ZanOS

open Foundation

namespace HttpClient

/-- What no callback changes. -/
structure Follows (s s' : HttpClient) : Prop where
  requestBuf : s'.requestBuf = s.requestBuf
  busy : s'.httpBusy = true → s.httpBusy = true
  length : s.pcbs.length ≤ s'.pcbs.length
  pcb : ∀ i, s'.httpPcb = some i → s.httpPcb = some i ∨ s.pcbs.length ≤ i

/-- These actions write nothing to a connection. -/
def NoWrite (out : List Action) : Prop := ∀ i data len, Action.tcpWrite i data len ∉ out

theorem NoWrite.append {out out' : List Action} (h : NoWrite out) (h' : NoWrite out') :
    NoWrite (out ++ out') :=
  fun i data len hmem ↦ (List.mem_append.mp hmem).elim (h i data len) (h' i data len)

theorem Follows.refl (s : HttpClient) : Follows s s := ⟨rfl, id, le_rfl, fun _ ↦ Or.inl⟩

theorem Follows.trans {s s' s'' : HttpClient} (h : Follows s s') (h' : Follows s' s'') :
    Follows s s'' := by
  refine ⟨h'.requestBuf.trans h.requestBuf, h.busy ∘ h'.busy, h.length.trans h'.length, ?_⟩
  intro i hi
  rcases h'.pcb i hi with hold | hnew
  · exact h.pcb i hold
  · exact Or.inr (h.length.trans hnew)

/-! ## The functions -/

section Functions

variable (s : HttpClient)

theorem follows_setPcb (i : ℕ) (f : Pcb → Pcb) : Follows s (s.setPcb i f) :=
  ⟨rfl, id, by simp [setPcb], fun _ ↦ Or.inl⟩

theorem follows_queries (queries : List (List UInt8)) : Follows s { s with queries := queries } :=
  ⟨rfl, id, le_rfl, fun _ ↦ Or.inl⟩

theorem follows_idle : Follows s { s with httpPcb := none, httpBusy := false } :=
  ⟨rfl, by rintro ⟨⟩, le_rfl, by rintro i ⟨⟩⟩

theorem follows_release : Follows s { s with httpBusy := false } :=
  ⟨rfl, by rintro ⟨⟩, le_rfl, fun _ ↦ Or.inl⟩

theorem follows_withPcb (phase : PcbPhase) : Follows s (s.withPcb phase) := by
  refine ⟨rfl, id, by simp [withPcb], fun i hi ↦ Or.inr ?_⟩
  exact (Option.some.inj hi).le

theorem follows_httpCloseConn (i : ℕ) : Follows s (httpCloseConn s i).1 :=
  (s.follows_setPcb i Pcb.close).trans (follows_idle _)

theorem follows_httpDnsCb (tcp : TcpAnswers) (ipaddr : Option UInt32) :
    Follows s (httpDnsCb tcp s ipaddr).1 ∧ NoWrite (httpDnsCb tcp s ipaddr).2 := by
  rcases ipaddr with _ | ip
  · exact ⟨s.follows_release, by simp [NoWrite, httpDnsCb]⟩
  · by_cases hnew : tcp.new = false
    · rw [httpDnsCb]
      simp only [hnew, if_true]
      exact ⟨s.follows_idle, by simp [NoWrite]⟩
    · rw [Bool.not_eq_false] at hnew
      by_cases hconnect : tcp.connect = .ok
      · rw [httpDnsCb_of_connect ip hnew hconnect]
        exact ⟨s.follows_withPcb _, by simp [NoWrite]⟩
      · rw [httpDnsCb_of_refused ip hnew hconnect]
        exact ⟨(s.follows_withPcb _).trans (follows_httpCloseConn _ _),
          by simp [NoWrite, httpCloseConn]⟩

theorem follows_httpRecvCb (i : ℕ) (chain : Option (List (List UInt8))) (err : Err) :
    Follows s (httpRecvCb s i chain err).1 ∧ NoWrite (httpRecvCb s i chain err).2 := by
  rcases chain with _ | chain
  · exact ⟨s.follows_httpCloseConn i, by simp [NoWrite, httpRecvCb, httpCloseConn]⟩
  · rw [httpRecvCb]
    split_ifs
    · exact ⟨.refl s, by simp [NoWrite]⟩
    · exact ⟨.refl s, by simp [NoWrite]⟩

/-- `http_connected_cb` writes the request buffer up to its NUL, and nothing else. -/
theorem follows_httpConnectedCb {write err : Err} {i : ℕ} {r : HttpClient × List Action}
    (hr : httpConnectedCb write s i err = some r) :
    Follows s r.1 ∧ ∀ j data len, Action.tcpWrite j data len ∈ r.2 →
      j = i ∧ data = s.requestBuf.toList ∧ strlen data = some len := by
  rw [httpConnectedCb] at hr
  by_cases herr : err ≠ .ok
  · rw [if_pos herr] at hr
    obtain rfl := Option.some.inj hr
    exact ⟨s.follows_httpCloseConn i, by simp [httpCloseConn]⟩
  · rw [if_neg herr] at hr
    dsimp only at hr
    split at hr
    · cases hr
    · rename_i len hlen
      split_ifs at hr with hwrite
      · obtain rfl := Option.some.inj hr
        refine ⟨s.follows_setPcb i _, fun j data len' hmem ↦ ?_⟩
        obtain ⟨rfl, rfl, rfl⟩ : j = i ∧ data = s.requestBuf.toList ∧ len' = len := by
          simpa [setPcb] using hmem
        exact ⟨rfl, rfl, hlen⟩
      · obtain rfl := Option.some.inj hr
        refine ⟨(s.follows_setPcb i _).trans (follows_httpCloseConn _ i),
          fun j data len' hmem ↦ ?_⟩
        obtain ⟨rfl, rfl, rfl⟩ : j = i ∧ data = s.requestBuf.toList ∧ len' = len := by
          simpa [setPcb, httpCloseConn] using hmem
        exact ⟨rfl, rfl, hlen⟩

theorem exists_httpGet {hostname path : List UInt8} {requestBuf : Vector UInt8 256}
    (hbusy : s.httpBusy = false)
    (hbuild : buildRequest s.requestBuf hostname path = some requestBuf) (dns : DnsAnswer)
    (tcp : TcpAnswers) :
    ∃ r, httpGet dns tcp s hostname path = some r ∧ NoWrite r.2 ∧
      Follows { s with httpBusy := true, requestBuf := requestBuf } r.1 := by
  rw [httpGet, if_neg (by simp [hbusy]), hbuild]
  cases dns with
  | found ip =>
    obtain ⟨hfollows, hwrite⟩ := follows_httpDnsCb
      { s with httpBusy := true, requestBuf := requestBuf } tcp (some ip)
    refine ⟨_, rfl, fun i data len hmem ↦ ?_, hfollows⟩
    exact hwrite i data len (by simpa using hmem)
  | inProgress => exact ⟨_, rfl, by simp [NoWrite], follows_queries _ _⟩
  | failed => exact ⟨_, rfl, by simp [NoWrite], follows_release _⟩

end Functions

/-! ## The callbacks -/

/-- The step writes nothing but the request buffer, up to its NUL, to the connection the client
has. -/
def WritesRequest (s : HttpClient) (out : List Action) : Prop :=
  ∀ i data len, Action.tcpWrite i data len ∈ out → s.httpBusy = true ∧ s.httpPcb = some i ∧
    data = s.requestBuf.toList ∧ strlen data = some len

theorem NoWrite.writesRequest {s : HttpClient} {out : List Action} (h : NoWrite out) :
    WritesRequest s out :=
  fun i data len hmem ↦ absurd hmem (h i data len)

section Callbacks

variable {s : HttpClient} {r : HttpClient × List Action}

theorem follows_dnsFound {j : ℕ} {ipaddr : Option UInt32} {tcp : TcpAnswers}
    (hnext : httpMachine.next s (.dnsFound j ipaddr tcp) = some r) :
    Follows s r.1 ∧ WritesRequest s r.2 := by
  simp only [httpMachine] at hnext
  split_ifs at hnext with hj
  obtain rfl := Option.some.inj hnext
  obtain ⟨hfollows, hwrite⟩ := follows_httpDnsCb { s with queries := s.queries.eraseIdx j } tcp
    ipaddr
  exact ⟨(s.follows_queries _).trans hfollows, hwrite.writesRequest⟩

theorem Inv.follows_connected (h : Inv s) {i : ℕ} {err write : Err}
    (hnext : httpMachine.next s (.connected i err write) = some r) :
    Follows s r.1 ∧ WritesRequest s r.2 := by
  simp only [httpMachine] at hnext
  split at hnext
  · cases hnext
  rename_i q hget
  split_ifs at hnext with hq
  obtain ⟨hfollows, hwrite⟩ := follows_httpConnectedCb _ hnext
  refine ⟨(s.follows_setPcb i _).trans hfollows, fun j data len hmem ↦ ?_⟩
  obtain ⟨rfl, hdata, hlen⟩ := hwrite j data len hmem
  -- a control block that waits for its connection is the client's own
  rcases h.dead_or_active hget with hdead | ⟨old, rfl, hactive⟩
  · exact absurd hq.1 hdead.life_ne_live
  · exact ⟨hactive.busy, hactive.pcb, hdata, hlen⟩

theorem follows_recv {i : ℕ} {chain : Option (List (List UInt8))} {err : Err}
    (hnext : httpMachine.next s (.recv i chain err) = some r) :
    Follows s r.1 ∧ WritesRequest s r.2 := by
  simp only [httpMachine] at hnext
  split at hnext
  · cases hnext
  split_ifs at hnext
  obtain rfl := Option.some.inj hnext
  obtain ⟨hfollows, hwrite⟩ := s.follows_httpRecvCb i chain err
  exact ⟨hfollows, hwrite.writesRequest⟩

theorem follows_error {i : ℕ} {err : Err}
    (hnext : httpMachine.next s (.error i err) = some r) :
    Follows s r.1 ∧ WritesRequest s r.2 := by
  simp only [httpMachine] at hnext
  split at hnext
  · cases hnext
  rename_i q hget
  by_cases hfreed : q.life = .freed
  · rw [if_pos hfreed] at hnext
    cases hnext
  rw [if_neg hfreed] at hnext
  generalize hs₁ : (if q.life = .live then _ else s) = s₁ at hnext
  have hfollows : Follows s s₁ := by
    rw [← hs₁]
    split_ifs
    · exact s.follows_setPcb i _
    · exact .refl s
  split_ifs at hnext with hcb
  · obtain rfl := Option.some.inj hnext
    exact ⟨hfollows.trans (follows_idle s₁),
      NoWrite.writesRequest (by simp [NoWrite, httpErrCb])⟩
  · obtain rfl := Option.some.inj hnext
    exact ⟨hfollows, NoWrite.writesRequest (by simp [NoWrite])⟩

/-- **One callback.** -/
theorem Inv.follows_callback (h : Inv s) {e : HttpEvent} (he : e.isCallback = true)
    (hnext : httpMachine.next s e = some r) : Follows s r.1 ∧ WritesRequest s r.2 := by
  cases e with
  | get hostname path dns tcp => cases he
  | dnsFound j ipaddr tcp => exact follows_dnsFound hnext
  | connected i err write => exact h.follows_connected hnext
  | recv i chain err => exact follows_recv hnext
  | error i err => exact follows_error hnext

theorem exists_write_of_connected {i : ℕ} {q : Pcb} (hget : s.pcbs[i]? = some q)
    (hlive : q.life = .live) (hphase : q.phase = .synSent)
    (hzero : (0 : UInt8) ∈ s.requestBuf.toList) (write : Err) :
    ∃ r, httpMachine.next s (.connected i .ok write) = some r ∧
      Action.tcpWrite i s.requestBuf.toList (cstr s.requestBuf.toList).length ∈ r.2 := by
  simp only [httpMachine, hget, hlive, hphase, and_self, if_true, httpConnectedCb, ne_eq,
    not_true_eq_false, if_false, setPcb, strlen_eq hzero]
  split_ifs
  · exact ⟨_, rfl, by simp⟩
  · exact ⟨_, rfl, by simp⟩

end Callbacks

end HttpClient

end ZanOS
