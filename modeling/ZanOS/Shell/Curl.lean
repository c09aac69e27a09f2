import ZanOS.Http.Transmit
import ZanOS.Shell.Host

/-!
# What `curl` sends

`curl X` builds its request out of what was typed, in a global buffer of 256 bytes, without a look
at the length and without a look at the bytes. That it is sent as intended, some callbacks later,
rests on three things: the line editor leaves at most 58 bytes for `X`, it never stores a line end,
and the shell does not read another command while the HTTP client is busy.

`Sound` is the invariant that carries them, `TurnOk` says what one step can do, and `Underway` what
a run has to show for a request under way: the command that made it, whose request is still in the
buffer.
-/

namespace ZanOS

open Foundation Machine HttpClient

namespace Shell

/-- The client keeps its books and is idle outside the loop of `curl`; the line is in order while
it is typed; the request buffer holds a string. -/
structure Sound (s : Shell) : Prop where
  client : s.http.Inv
  quiet : s.pc ≠ .curlWait → s.http.httpBusy = false
  typed : ∀ i, s.pc = .reading i → Typed 64 s.cmd i
  zero_mem : (0 : UInt8) ∈ s.http.requestBuf.toList

theorem sound_boot (cmd : Vector UInt8 64) : Sound (boot cmd) := by
  refine ⟨Or.inl idle_boot, fun _ ↦ rfl, fun i hi ↦ ?_, ?_⟩
  · cases hi
    exact typed_zero (by decide) cmd
  · change (0 : UInt8) ∈ (Vector.replicate 256 (0 : UInt8)).toList
    rw [Vector.toList_replicate]
    exact List.mem_replicate.mpr ⟨by decide, rfl⟩

/-! ## A command -/

/-- The request for the name in the line is in the buffer of `s'`, and a control block that the
client of `s'` has is none of those in `h`. -/
structure Requested (h : HttpClient) (s' : Shell) : Prop where
  clean : NoLineEnd s'.argument
  zero_mem : (0 : UInt8) ∈ s'.http.requestBuf.toList
  text : cstr s'.http.requestBuf.toList = requestText s'.argument (ascii "/")
  length : h.pcbs.length ≤ s'.http.pcbs.length
  fresh : ∀ i, s'.http.httpPcb = some i → h.pcbs.length ≤ i

/-- What a step from a sound state with client `h` leads to. -/
structure TurnOk (h : HttpClient) (r : Shell × Output) : Prop where
  sound : Sound r.1
  writes : WritesRequest h r.2.actions
  curl : r.2.command = some .curl → Requested h r.1
  other : r.2.command ≠ some .curl → Follows h r.1.http

section Command

variable {s : Shell}

/-- The name is what follows the word and the blank, and short enough. -/
theorem argument_spec (hline : Line s.cmd) (hlen : 5 ≤ (cstr s.cmd.toList).length) :
    (0 : UInt8) ∈ s.cmd.toList.drop 5 ∧ NoLineEnd s.argument ∧ s.argument.length < 59 := by
  have harg : s.argument = (cstr s.cmd.toList).drop 5 := cstr_drop hline.zero_mem hlen
  refine ⟨zero_mem_drop hline.zero_mem hlen, ?_, ?_⟩
  · rw [harg]
    exact hline.clean.subset fun b hb ↦ List.mem_of_mem_drop hb
  · have hlt := length_cstr_lt hline.zero_mem
    rw [Vector.length_toList] at hlt
    rw [harg, List.length_drop]
    omega

theorem sound_prompt (hinv : s.http.Inv) (hbusy : s.http.httpBusy = false)
    (hzero : (0 : UInt8) ∈ s.http.requestBuf.toList) (actions : List Action)
    (report : Option (List UInt8 × HostMessage)) : Sound (s.prompt actions report).1 := by
  refine ⟨hinv, fun _ ↦ hbusy, fun i hi ↦ ?_, hzero⟩
  cases hi
  exact typed_zero (by decide) s.cmd

/-- **`curl` up to its loop.** Nothing is stored outside the request buffer. -/
theorem exists_curl (hinv : s.http.Inv) (hbusy : s.http.httpBusy = false) (hline : Line s.cmd)
    (hlen : 5 ≤ (cstr s.cmd.toList).length) (dns : DnsAnswer) (tcp : TcpAnswers) :
    ∃ r, s.curl dns tcp = some r ∧ Sound r.1 ∧ NoWrite r.2.actions ∧ Requested s.http r.1 := by
  obtain ⟨hzero, hclean, hshort⟩ := argument_spec hline hlen
  have hslash : cstr (literal "/") = ascii "/" := by decide
  have hfits : (requestText (cstr (s.cmd.toList.drop 5)) (cstr (literal "/"))).length < 256 := by
    rw [length_requestText, hslash]
    change s.argument.length + 1 + 44 < 256
    omega
  obtain ⟨requestBuf, hbuild, hzero', htext⟩ := exists_buildRequest s.http.requestBuf hzero
    (zero_mem_literal "/") hfits
  obtain ⟨⟨h, out⟩, hget, hwrite, hfollows⟩ := exists_httpGet s.http hbusy hbuild dns tcp
  have hinv' : h.Inv := (hinv.step_get hget).inv
  have hbuf : h.requestBuf = requestBuf := hfollows.requestBuf
  have hidle := hinv.idle_of_busy_eq_false hbusy
  -- the loop and the prompt differ in nothing that matters here
  have hrequested : ∀ s' : Shell, s'.http = h → s'.cmd = s.cmd → Requested s.http s' := by
    intro s' hhttp hcmd
    have harg : s'.argument = s.argument := by rw [argument, argument, hcmd]
    refine ⟨harg ▸ hclean, by rw [hhttp, hbuf]; exact hzero', ?_, hhttp ▸ hfollows.length, ?_⟩
    · rw [hhttp, hbuf, htext, hslash, harg, argument]
    · intro i hi
      rw [hhttp] at hi
      exact (hfollows.pcb i hi).resolve_left fun hold ↦ by cases hidle.pcb.symm.trans hold
  rw [curl, hget]
  refine ⟨_, rfl, ?_⟩
  dsimp only
  split_ifs with hbusy'
  · exact ⟨⟨hinv', fun hne ↦ absurd rfl hne, by rintro i ⟨⟩, by rw [hbuf]; exact hzero'⟩, hwrite,
      hrequested _ rfl rfl⟩
  · refine ⟨sound_prompt hinv' (by simpa using hbusy') (by rw [hbuf]; exact hzero') _ _, ?_,
      hrequested _ rfl rfl⟩
    exact hwrite.append (by simp [NoWrite])

theorem sound_say (hinv : s.http.Inv) (hbusy : s.http.httpBusy = false)
    (hzero : (0 : UInt8) ∈ s.http.requestBuf.toList) (lines : List String) :
    Sound (s.say lines).1 ∧ NoWrite (s.say lines).2.actions ∧ (s.say lines).1.http = s.http :=
  ⟨sound_prompt hinv hbusy hzero _ _, by simp [NoWrite, say, prompt], rfl⟩

theorem noWrite_report (out : List Action) (hout : NoWrite out) (m : HostMessage) :
    NoWrite (s.report out m).2.actions := by
  have hm : NoWrite m.actions := by cases m <;> simp [NoWrite, HostMessage.actions]
  exact (hout.append hm).append (by simp [NoWrite])

theorem sound_host (hinv : s.http.Inv) (hbusy : s.http.httpBusy = false)
    (hzero : (0 : UInt8) ∈ s.http.requestBuf.toList) (dns : DnsAnswer) :
    Sound (s.host dns).1 ∧ NoWrite (s.host dns).2.actions ∧ (s.host dns).1.http = s.http := by
  have hout : NoWrite [.print (ascii "Resolving "), .println s.argument] := by simp [NoWrite]
  cases dns with
  | found ip => exact ⟨sound_prompt hinv hbusy hzero _ _, noWrite_report _ hout _, rfl⟩
  | inProgress => exact ⟨⟨hinv, fun _ ↦ hbusy, by rintro i ⟨⟩, hzero⟩, hout, rfl⟩
  | failed => exact ⟨sound_prompt hinv hbusy hzero _ _, noWrite_report _ hout _, rfl⟩

/-- **Every line is run to the end of its command or to a loop.** -/
theorem exists_runLine (hinv : s.http.Inv) (hbusy : s.http.httpBusy = false)
    (hzero : (0 : UInt8) ∈ s.http.requestBuf.toList) (hline : Line s.cmd)
    {out : List Action} (hout : NoWrite out) (dns : DnsAnswer) (tcp : TcpAnswers) :
    ∃ r, s.runLine dns tcp out = some r ∧ TurnOk s.http r := by
  rw [runLine]
  by_cases hempty : s.cmd.get 0 = 0
  · rw [if_pos hempty]
    refine ⟨_, rfl, sound_prompt hinv hbusy hzero _ _, ?_, by rintro ⟨⟩, fun _ ↦ .refl _⟩
    exact (hout.append (by simp [NoWrite])).writesRequest
  obtain ⟨c, hc⟩ := exists_select hline.zero_mem dispatchChain
  have hdispatch : dispatch s.cmd.toList = some c := hc
  rw [if_neg hempty, hdispatch]
  -- any command but `curl` leaves the client alone
  have hrest : ∀ r, c ≠ .curl → s.runCommand dns tcp c = some r →
      Sound r.1 ∧ NoWrite r.2.actions ∧ r.1.http = s.http →
      ∃ r', (s.runCommand dns tcp c).map
          (fun r ↦ (r.1, (⟨out ++ r.2.actions, some c, r.2.report⟩ : Output))) = some r' ∧
        TurnOk s.http r' := by
    rintro r hne hr ⟨hsound, hwrite, hhttp⟩
    rw [hr]
    exact ⟨_, rfl, hsound, (hout.append hwrite).writesRequest,
      fun hcurl ↦ absurd (Option.some.inj hcurl) hne, fun _ ↦ hhttp ▸ .refl _⟩
  cases c with
  | curl =>
    have hlen := five_le_length_of_dispatch hline.zero_mem (Or.inl rfl) hdispatch
    obtain ⟨r, hr, hsound, hwrite, hrequested⟩ := exists_curl hinv hbusy hline hlen dns tcp
    dsimp only [runCommand]
    rw [hr]
    exact ⟨_, rfl, hsound, (hout.append hwrite).writesRequest, fun _ ↦ hrequested,
      fun hne ↦ absurd rfl hne⟩
  | host => exact hrest _ (by decide) rfl (sound_host hinv hbusy hzero dns)
  | help | hello | info | clear | ls | ifconfig | cat | diagnostic | time | unknown =>
    exact hrest _ (by decide) rfl (sound_say hinv hbusy hzero _)

end Command

/-! ## A step -/

section Step

variable {s s' : Shell} {o : Output}

theorem noWrite_getlineByte {k max i : ℕ} {buf : Vector UInt8 k} {c : UInt8}
    {r : LineState k × List Action} (h : getlineByte max buf i c = some r) : NoWrite r.2 := by
  rw [getlineByte] at h
  split_ifs at h
  · obtain ⟨buf', -, rfl⟩ := Option.map_eq_some_iff.mp h
    simp [NoWrite]
  · cases h
    simp [NoWrite]
  · cases h
    simp [NoWrite]
  · obtain ⟨buf', -, rfl⟩ := Option.map_eq_some_iff.mp h
    simp [NoWrite]
  · cases h
    simp [NoWrite]

/-- **A byte of input is always dealt with.** -/
theorem Sound.exists_uart (h : Sound s) {i : ℕ} (hpc : s.pc = .reading i) (c : UInt8)
    (dns : DnsAnswer) (tcp : TcpAnswers) :
    ∃ r, shellMachine.next s (.uart c dns tcp) = some r ∧ TurnOk s.http r := by
  have hbusy := h.quiet (by simp [hpc])
  simp only [shellMachine, hpc]
  rcases exists_getlineByte le_rfl (h.typed i hpc) c with
    ⟨cmd, i', out, hbyte, htyped⟩ | ⟨cmd, out, hbyte, hline⟩
  · rw [hbyte]
    refine ⟨_, rfl, ⟨h.client, fun _ ↦ hbusy, fun j hj ↦ ?_, h.zero_mem⟩,
      (noWrite_getlineByte hbyte).writesRequest, by rintro ⟨⟩, fun _ ↦ .refl _⟩
    cases hj
    exact htyped
  · rw [hbyte]
    exact exists_runLine (s := { s with cmd := cmd }) h.client hbusy h.zero_mem hline
      (noWrite_getlineByte hbyte) dns tcp

theorem Sound.http (h : Sound s) {e : HttpEvent} {client : HttpClient} {out : List Action}
    (he : e.isCallback = true) (hnext : httpMachine.next s.http e = some (client, out)) :
    TurnOk s.http ({ s with http := client }, ⟨out, none, none⟩) := by
  obtain ⟨hfollows, hwrite⟩ := h.client.follows_callback he hnext
  refine ⟨⟨(h.client.step hnext).inv, fun hne ↦ ?_, h.typed, ?_⟩, hwrite, by rintro ⟨⟩,
    fun _ ↦ hfollows⟩
  · exact Bool.eq_false_iff.mpr fun hbusy ↦
      absurd (hfollows.busy hbusy) (by simp [h.quiet hne])
  · exact hfollows.requestBuf ▸ h.zero_mem

theorem Sound.turnOk (hsound : Sound s') (hhttp : s'.http = s.http) (hcommand : o.command = none)
    (hwrite : NoWrite o.actions) : TurnOk s.http (s', o) := by
  refine ⟨hsound, hwrite.writesRequest, fun hcurl ↦ ?_, fun _ ↦ hhttp ▸ .refl _⟩
  cases hcommand.symm.trans hcurl

/-- **One step.** -/
theorem Sound.step (h : Sound s) {e : ShellEvent}
    (hnext : shellMachine.next s e = some (s', o)) : TurnOk s.http (s', o) := by
  cases shellTurn_of_next hnext with
  | @typing i _ c dns tcp _ _ hpc _ | @line i c dns tcp _ _ _ _ hpc _ _ =>
    obtain ⟨r, hr, hturn⟩ := h.exists_uart hpc c dns tcp
    obtain rfl := Option.some.inj (hr.symm.trans hnext)
    exact hturn
  | http he hr => exact h.http he hr
  | hostFound hj =>
    exact Sound.turnOk ⟨h.client, h.quiet, h.typed, h.zero_mem⟩ rfl rfl (by simp [NoWrite])
  | idle | curlWaits => exact Sound.turnOk h rfl rfl (by simp [NoWrite])
  | curlEnds hpc hbusy =>
    exact Sound.turnOk (sound_prompt h.client hbusy h.zero_mem _ _) rfl rfl
      (by simp [NoWrite, prompt])
  | hostWaits hpc hres =>
    have hbusy := h.quiet (by simp [hpc])
    exact Sound.turnOk ⟨h.client, fun _ ↦ hbusy, by rintro i ⟨⟩, h.zero_mem⟩ rfl rfl
      (by simp [NoWrite])
  | hostEnds hpc =>
    have hbusy := h.quiet (by simp [hpc])
    exact Sound.turnOk (sound_prompt h.client hbusy h.zero_mem _ _) rfl rfl
      (noWrite_report [] (by simp [NoWrite]) _)

end Step

theorem sound_of_run {cmd : Vector UInt8 64} {tr : List ShellStep} {s : Shell}
    (hrun : shellMachine.Run (boot cmd) tr s) : Sound s :=
  hrun.invariant' (sound_boot cmd) fun h hnext ↦ (h.step hnext).sound

/-! ## Runs -/

/-- The request under way is that of the last `curl` command, and is in the buffer since. -/
def Underway (tr : List ShellStep) (s : Shell) : Prop :=
  s.http.httpBusy = true →
    Since (fun t ↦ t.output.command = some .curl) (fun asked since ↦
      Requested asked.pre.http asked.post ∧ Follows asked.post.http s.http ∧
        ∀ u ∈ since, u.post.http.requestBuf = asked.post.http.requestBuf) tr

/-- A step that is no `curl` command keeps the request under way. -/
theorem Underway.snoc {tr : List ShellStep} {s : Shell} (h : Underway tr s) {t : ShellStep}
    (hcommand : t.output.command ≠ some .curl) (hfollows : Follows s.http t.post.http) :
    Underway (tr ++ [t]) t.post := by
  intro hbusy
  refine (h (hfollows.busy hbusy)).snoc hcommand ?_
  rintro asked since ⟨hrequested, hsofar, hkept⟩
  refine ⟨hrequested, hsofar.trans hfollows, fun u hu ↦ ?_⟩
  rcases List.mem_append.mp hu with hu | hu
  · exact hkept u hu
  · rw [List.mem_singleton.mp hu]
    exact (hsofar.trans hfollows).requestBuf

theorem underway_of_run {cmd : Vector UInt8 64} {tr : List ShellStep} {s : Shell}
    (hrun : shellMachine.Run (boot cmd) tr s) : Underway tr s := by
  induction hrun with
  | nil => rintro ⟨⟩
  | @snoc tr s s' e o hrun hnext ih =>
    have hturn := (sound_of_run hrun).step hnext
    by_cases hcurl : o.command = some .curl
    · exact fun _ ↦ .start hcurl ⟨hturn.curl hcurl, .refl _, by simp⟩
    · exact ih.snoc hcurl (hturn.other hcurl)

/-- These bytes are the request for `X`: the text, one request line and two headers, and no line
end in `X` that could make it more. -/
structure IsRequestFor (X data : List UInt8) (len : ℕ) : Prop where
  text : data.take len = requestText X (ascii "/")
  length : len = (requestText X (ascii "/")).length
  clean : NoLineEnd X
  lines : splitCrlf (data.take len) = [ascii "GET / HTTP/1.1", ascii "Host: " ++ X,
    ascii "Connection: close", [], []]

/-- What is written to control block `i` is the request of the last `curl X` of the run. The control
block was made for it, and the request buffer has not changed since. -/
def WrittenFor (i : ℕ) (data : List UInt8) (len : ℕ) : List ShellStep → Prop :=
  Since (fun t ↦ t.output.command = some .curl) fun asked since ↦
    asked.pre.http.pcbs.length ≤ i ∧
      (∀ u ∈ since, u.post.http.requestBuf = asked.post.http.requestBuf) ∧
      IsRequestFor asked.post.argument data len

theorem Requested.isRequestFor {h : HttpClient} {s : Shell} (hr : Requested h s) {len : ℕ}
    (hlen : strlen s.http.requestBuf.toList = some len) :
    IsRequestFor s.argument s.http.requestBuf.toList len := by
  rw [strlen_eq hr.zero_mem, Option.some.injEq] at hlen
  obtain ⟨r, hbuf⟩ := exists_cstr_append hr.zero_mem
  have htake : s.http.requestBuf.toList.take len = requestText s.argument (ascii "/") := by
    rw [hbuf, ← hlen, List.take_left, hr.text]
  refine ⟨htake, by rw [← hlen, hr.text], hr.clean, ?_⟩
  rw [htake, splitCrlf_requestText hr.clean.1 (by decide)]
  rfl

/-- What holds of `curl` after a run: each command has put the request for its name, which has no
line end in it, into the buffer; everything written is the request of the last command; input is
dealt with, whatever it is, so that no store is outside a buffer; and a connection that comes about
is written to. -/
structure SendsRequests (tr : List ShellStep) (s : Shell) : Prop where
  requested : ∀ t ∈ tr, t.output.command = some .curl → Requested t.pre.http t.post
  written : ∀ tr₁ t tr₂ i data len, tr = tr₁ ++ t :: tr₂ →
    Action.tcpWrite i data len ∈ t.output.actions → WrittenFor i data len tr₁
  input : ∀ i c dns tcp, s.pc = .reading i → (shellMachine.next s (.uart c dns tcp)).isSome
  connected : ∀ i p write, s.http.pcbs[i]? = some p → p.life = .live → p.phase = .synSent →
    ∃ s' o data len, shellMachine.next s (.http (.connected i .ok write)) = some (s', o) ∧
      Action.tcpWrite i data len ∈ o.actions

/-- **`curl` sends what was typed**, for every input and every order of callbacks. -/
theorem sendsRequests_of_run {cmd : Vector UInt8 64} {tr : List ShellStep} {s : Shell}
    (hrun : shellMachine.Run (boot cmd) tr s) : SendsRequests tr s := by
  have hsound := sound_of_run hrun
  refine ⟨?_, ?_, ?_, ?_⟩
  · intro t ht hcurl
    obtain ⟨tr₁, tr₂, rfl⟩ := List.append_of_mem ht
    obtain ⟨hpre, hnext, -⟩ := hrun.exists_split_cons
    exact ((sound_of_run hpre).step hnext).curl hcurl
  · rintro tr₁ t tr₂ i data len rfl hmem
    obtain ⟨hpre, hnext, -⟩ := hrun.exists_split_cons
    obtain ⟨hbusy, hpcb, rfl, hlen⟩ := ((sound_of_run hpre).step hnext).writes i data len hmem
    refine (underway_of_run hpre hbusy).imp ?_
    rintro asked since - ⟨hrequested, hfollows, hkept⟩
    refine ⟨?_, hkept, ?_⟩
    · rcases hfollows.pcb i hpcb with hold | hnew
      · exact hrequested.fresh i hold
      · exact hrequested.length.trans hnew
    · rw [hfollows.requestBuf] at hlen ⊢
      exact hrequested.isRequestFor hlen
  · intro i c dns tcp hpc
    obtain ⟨r, hr, -⟩ := hsound.exists_uart hpc c dns tcp
    exact Option.isSome_iff_exists.mpr ⟨r, hr⟩
  · intro i p write hget hlive hphase
    obtain ⟨⟨h, out⟩, hr, hmem⟩ := exists_write_of_connected hget hlive hphase hsound.zero_mem write
    refine ⟨{ s with http := h }, ⟨out, none, none⟩, _, _, ?_, hmem⟩
    change (httpMachine.next s.http _).map _ = _
    rw [hr]
    rfl

/-- The bytes a write puts on the wire. -/
def sent : Action → Option (List UInt8)
  | .tcpWrite _ data len => some (data.take len)
  | _ => none

/-- A command typed with a slip and a correction, and the request it sends. -/
theorem sendsRequests_typed :
    ∃ tr s, shellMachine.Run (boot (Vector.replicate 64 0xFF)) tr s ∧
      (tr.flatMap fun t ↦ t.output.actions.filterMap sent)
        = [ascii "GET / HTTP/1.1\r\nHost: a.b\r\nConnection: close\r\n\r\n"] ∧
      SendsRequests tr s := by
  have hout : (shellMachine.exec (boot (Vector.replicate 64 0xFF))
      ((ascii "curl a,\x08.b\r").map (fun c ↦ .uart c .inProgress ⟨true, .ok⟩)
        ++ [.http (.dnsFound 0 (some 1) ⟨true, .ok⟩), .polled,
          .http (.connected 0 .ok .ok)])).map
      (fun r ↦ r.1.flatMap fun t ↦ t.output.actions.filterMap sent)
      = some [ascii "GET / HTTP/1.1\r\nHost: a.b\r\nConnection: close\r\n\r\n"] := by
    decide +kernel
  obtain ⟨⟨tr, s⟩, hexec, hsent⟩ := Option.map_eq_some_iff.mp hout
  exact ⟨tr, s, exec_run hexec, hsent, sendsRequests_of_run (exec_run hexec)⟩

end Shell

end ZanOS
