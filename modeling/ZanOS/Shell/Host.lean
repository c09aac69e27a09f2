import ZanOS.Shell.Loop

/-!
# Whose address `host` prints

`host` hands its result over in two globals, which every query ever made by it writes to when it is
answered. A query that has timed out is still to be answered, and if that happens while a later
`host` waits, the later one takes the address for its own.

`Truthful` says that this does not show: each report is about the name last asked for, and gives
what lwIP answered for that name. It holds of every run in which no answer that comes while `host`
waits misleads it (`Shell.misleads`): none is to a query for another name, and none is the address
0.0.0.0, which `host` takes for a failure. The step lemmas say what a step can do to the state of
`host`; the induction over a run carries the answers heard since the command was given.
-/

namespace ZanOS

open Foundation Machine

/-- The steps of the shell. -/
abbrev ShellStep := Transition Shell ShellEvent Output

/-! ## Reports -/

/-- The address lwIP had at hand when it was asked in this step. -/
def atOnce (t : ShellStep) : Option UInt32 :=
  match t.event with
  | .uart _ (.found ip) _ => some ip
  | _ => none

/-- The answer to a query of `host` that comes in this step: the name, and its address if it has
one. -/
def completion (t : ShellStep) : Option (List UInt8 × Option UInt32) :=
  match t.event with
  | .hostFound j ipaddr => (t.pre.hostQueries[j]?).map fun name ↦ (name, ipaddr)
  | _ => none

/-- The step starts `host d`. -/
def StartsHost (t : ShellStep) (d : List UInt8) : Prop :=
  t.output.command = some .host ∧ t.post.argument = d

/-- What a report on `d` says is what lwIP answered for `d`, in the step that asked or in one
since. -/
def Backed (asked : ShellStep) (since : List ShellStep) (d : List UInt8) : HostMessage → Prop
  | .address ip => atOnce asked = some ip ∨ ∃ u ∈ since, completion u = some (d, some ip)
  | .failed => ∃ u ∈ since, completion u = some (d, none)
  | .timedOut | .error => True

/-- The command last given in the run is `host d`, and a report on `d` is backed by lwIP's answers
since. -/
def BackedBy (d : List UInt8) (m : HostMessage) : List ShellStep → Prop :=
  Since (fun t ↦ t.output.command ≠ none) fun asked since ↦
    StartsHost asked d ∧ Backed asked since d m

/-- Each report in the run is about the name last asked for, and is backed. -/
def Truthful (tr : List ShellStep) : Prop :=
  ∀ tr₁ t tr₂ d m, tr = tr₁ ++ t :: tr₂ → t.output.report = some (d, m) →
    BackedBy d m (tr₁ ++ [t])

theorem Backed.append {asked : ShellStep} {since : List ShellStep} {d : List UInt8}
    {m : HostMessage} (h : Backed asked since d m) (t : ShellStep) :
    Backed asked (since ++ [t]) d m := by
  cases m with
  | address ip =>
    refine h.imp_right ?_
    rintro ⟨u, hu, hcompletion⟩
    exact ⟨u, List.mem_append_left _ hu, hcompletion⟩
  | failed =>
    obtain ⟨u, hu, hcompletion⟩ := h
    exact ⟨u, List.mem_append_left _ hu, hcompletion⟩
  | timedOut | error => trivial

theorem BackedBy.snoc {tr : List ShellStep} {d : List UInt8} {m m' : HostMessage}
    (h : BackedBy d m tr) {t : ShellStep} (hcommand : t.output.command = none)
    (hm : ∀ asked since, Backed asked since d m → Backed asked (since ++ [t]) d m') :
    BackedBy d m' (tr ++ [t]) :=
  Since.snoc h (not_not.mpr hcommand) fun asked since hq ↦ ⟨hq.1, hm asked since hq.2⟩

theorem BackedBy.start {tr : List ShellStep} {d : List UInt8} {m : HostMessage} {t : ShellStep}
    (ht : StartsHost t d) (hm : Backed t [] d m) : BackedBy d m (tr ++ [t]) :=
  Since.start (by simp [ht.1]) ⟨ht, hm⟩

namespace Shell

/-- An answer that comes while `host` waits and is not one for its name, or cannot be told from a
failure. -/
def misleads (s : Shell) : ShellEvent → Bool
  | .hostFound j ipaddr =>
      match s.pc with
      | .hostWait _ => s.hostQueries[j]? ≠ some s.argument || ipaddr = some 0
      | .reading _ | .curlWait => false
  | .uart .. | .http _ | .polled => false

/-! ## What a step does to `host` -/

section Step

variable {s s' : Shell} {e : ShellEvent} {o : Output}

/-- A line that is not a `host` command reports nothing and does not end up in its loop. -/
theorem runLine_cases {dns : DnsAnswer} {tcp : TcpAnswers} {out : List Action}
    (h : s.runLine dns tcp out = some (s', o)) :
    (o.report = none ∧ ∀ n, s'.pc ≠ .hostWait n) ∨
      o.command = some .host ∧ s' = (s.host dns).1 ∧ o.report = (s.host dns).2.report := by
  have hsay : ∀ (c : Command) (lines : List String),
      some (s.say lines) = s.runCommand dns tcp c →
      ∀ r, s.runCommand dns tcp c = some r → r.2.report = none ∧ ∀ n, r.1.pc ≠ .hostWait n := by
    rintro c lines hc r hr
    obtain rfl := Option.some.inj (hc.trans hr)
    exact ⟨rfl, by simp [say, prompt]⟩
  rw [runLine] at h
  split_ifs at h with hempty
  · cases h
    exact Or.inl ⟨rfl, by simp⟩
  split at h
  · cases h
  rename_i c hc
  obtain ⟨r, hr, heq⟩ := Option.map_eq_some_iff.mp h
  obtain ⟨rfl, rfl⟩ := Prod.mk.inj heq
  cases c with
  | host =>
    obtain rfl := Option.some.inj hr
    exact Or.inr ⟨rfl, rfl, rfl⟩
  | curl =>
    obtain ⟨r', -, rfl⟩ := Option.map_eq_some_iff.mp hr
    refine Or.inl ?_
    dsimp only
    split_ifs
    · exact ⟨rfl, by simp⟩
    · exact ⟨rfl, by simp [prompt]⟩
  | help | hello | info | clear | ls | ifconfig | cat | diagnostic | time | unknown =>
    exact Or.inl (hsay _ _ rfl r hr)

theorem argument_host (s : Shell) (dns : DnsAnswer) : (s.host dns).1.argument = s.argument := by
  cases dns <;> rfl

theorem backed_host (t : ShellStep) {c : UInt8} {dns : DnsAnswer} {tcp : TcpAnswers}
    (ht : t.event = .uart c dns tcp) {d : List UInt8} {m : HostMessage}
    (h : (s.host dns).2.report = some (d, m)) : d = s.argument ∧ Backed t [] d m := by
  cases dns with
  | found ip =>
    obtain ⟨rfl, rfl⟩ := Prod.mk.inj (Option.some.inj h)
    exact ⟨rfl, Or.inl (by rw [atOnce, ht])⟩
  | inProgress => cases h
  | failed =>
    obtain ⟨rfl, rfl⟩ := Prod.mk.inj (Option.some.inj h)
    exact ⟨rfl, trivial⟩

theorem hostOutcome_of_unresolved (h : s.dnsResolved = false) : s.hostOutcome = .timedOut := by
  rw [hostOutcome, h]
  rfl

theorem hostOutcome_host {dns : DnsAnswer} {n : ℕ} (h : (s.host dns).1.pc = .hostWait n) :
    (s.host dns).1.hostOutcome = .timedOut := by
  cases dns with
  | inProgress => exact hostOutcome_of_unresolved rfl
  | found ip => cases h
  | failed => cases h

end Step

/-! ## Runs -/

/-- While `host` waits, what it would report is backed by what it has heard. -/
def Heard (tr : List ShellStep) (s : Shell) : Prop :=
  ∀ n, s.pc = .hostWait n → BackedBy s.argument s.hostOutcome tr

/-- An answer that does not mislead is one for the name `host` waits for. -/
theorem Heard.hostFound {tr : List ShellStep} {s : Shell} (h : Heard tr s) {j : ℕ}
    {ipaddr : Option UInt32} (hok : s.misleads (.hostFound j ipaddr) = false) (o : Output)
    (ho : o.command = none) :
    Heard (tr ++ [⟨s, .hostFound j ipaddr, o,
      { s with hostQueries := s.hostQueries.eraseIdx j }.dnsCallback ipaddr⟩])
      ({ s with hostQueries := s.hostQueries.eraseIdx j }.dnsCallback ipaddr) := by
  intro n hpc
  have hpc' : s.pc = .hostWait n := hpc
  simp only [misleads, hpc', ne_eq, Bool.or_eq_false_iff, decide_eq_false_iff_not,
    not_not] at hok
  obtain ⟨hname, hzero⟩ := hok
  refine (h n hpc').snoc ho fun asked since _ ↦ ?_
  have hcompletion : completion ⟨s, .hostFound j ipaddr, o,
      { s with hostQueries := s.hostQueries.eraseIdx j }.dnsCallback ipaddr⟩
      = some (s.argument, ipaddr) := by
    simp only [completion, hname, Option.map_some]
  rcases ipaddr with _ | ip
  · exact ⟨_, List.mem_concat_self, hcompletion⟩
  · have hne : ip ≠ 0 := fun heq ↦ hzero (congrArg some heq)
    have houtcome : ({ s with hostQueries := s.hostQueries.eraseIdx j }.dnsCallback
        (some ip)).hostOutcome = .address ip := by
      simp [hostOutcome, dnsCallback, hne]
    rw [houtcome]
    exact Or.inr ⟨_, List.mem_concat_self, hcompletion⟩

/-- **One step.** -/
theorem Heard.step {tr : List ShellStep} {s s' : Shell} {e : ShellEvent} {o : Output}
    (h : Heard tr s) (hok : s.misleads e = false) (hturn : ShellTurn s e s' o) :
    Heard (tr ++ [⟨s, e, o, s'⟩]) s' := by
  cases hturn with
  | typing hs hbyte => rintro n ⟨⟩
  | line hs hbyte hline =>
    intro n hpc
    rcases runLine_cases hline with ⟨-, hno⟩ | ⟨hcommand, rfl, -⟩
    · exact absurd hpc (hno n)
    · refine .start ⟨hcommand, rfl⟩ ?_
      rw [hostOutcome_host hpc]
      trivial
  | http he hnext => exact fun n hpc ↦ (h n hpc).snoc rfl fun _ _ hb ↦ hb.append _
  | hostFound hj => exact h.hostFound hok _ rfl
  | idle hs | curlWaits hs => exact fun n hpc ↦ by simp [hs] at hpc
  | curlEnds hs hbusy => rintro n ⟨⟩
  | hostWaits hs hres => exact fun n _ ↦ (h _ hs).snoc rfl fun _ _ hb ↦ hb.append _
  | hostEnds hs => rintro n ⟨⟩

theorem heard_of_run {cmd : Vector UInt8 64} {tr : List ShellStep} {s : Shell}
    (hrun : shellMachine.Run (boot cmd) tr s)
    (hok : ∀ t ∈ tr, t.pre.misleads t.event = false) : Heard tr s := by
  induction hrun with
  | nil => exact fun n hpc ↦ by cases hpc
  | snoc _ hnext ih =>
    have hheard := ih fun t ht ↦ hok t (List.mem_append_left _ ht)
    exact hheard.step (hok _ List.mem_concat_self) (shellTurn_of_next hnext)

/-- **`host` tells the truth when nothing misleads it**, whatever commands are given and however
late the answers come. -/
theorem truthful_of_not_misled {cmd : Vector UInt8 64} {tr : List ShellStep} {s : Shell}
    (hrun : shellMachine.Run (boot cmd) tr s)
    (hok : ∀ t ∈ tr, t.pre.misleads t.event = false) : Truthful tr := by
  rintro tr₁ ⟨s₁, e, o, s₂⟩ tr₂ d m rfl hreport
  obtain ⟨hpre, hnext, -⟩ := hrun.exists_split_cons
  have hheard := heard_of_run hpre fun t ht ↦ hok t (List.mem_append_left _ ht)
  have hturn : ShellTurn s₁ e s₂ o := shellTurn_of_next hnext
  cases hturn with
  | @line i c dns tcp _ _ _ _ hs hbyte hline =>
    -- the address was at hand, or lwIP refused
    rcases runLine_cases hline with ⟨hnone, -⟩ | ⟨hcommand, rfl, heq⟩
    · cases hnone.symm.trans hreport
    · obtain ⟨rfl, hbacked⟩ := backed_host ⟨s₁, .uart c dns tcp, o, _⟩ rfl
        (heq.symm.trans hreport)
      exact .start ⟨hcommand, argument_host _ dns⟩ hbacked
  | @hostEnds timeout hs =>
    obtain ⟨rfl, rfl⟩ := Prod.mk.inj (Option.some.inj hreport)
    exact (hheard timeout hs).snoc rfl fun _ _ hb ↦ hb.append _
  | typing | http | hostFound | idle | curlWaits | curlEnds | hostWaits => cases hreport

/-- A name asked for, answered while `host` waits, and printed. -/
theorem truthful_answered :
    ∃ tr s, shellMachine.Run (boot (Vector.replicate 64 0)) tr s ∧
      (∀ t ∈ tr, t.pre.misleads t.event = false) ∧
      (tr.map fun t ↦ t.output.report)
        = [none, none, none, none, none, none, none, none, some (ascii "a", .address 1)] ∧
      Truthful tr := by
  have hout : (shellMachine.exec (boot (Vector.replicate 64 0))
      ((ascii "host a\r").map (fun c ↦ .uart c .inProgress ⟨true, .ok⟩)
        ++ [.hostFound 0 (some 1), .polled])).map
      (fun r ↦ (r.1.map fun t ↦ t.pre.misleads t.event, r.1.map fun t ↦ t.output.report))
      = some (List.replicate 9 false,
          [none, none, none, none, none, none, none, none, some (ascii "a", .address 1)]) := by
    decide +kernel
  obtain ⟨⟨tr, s⟩, hexec, hobs⟩ := Option.map_eq_some_iff.mp hout
  obtain ⟨hmisled, hreports⟩ := Prod.mk.inj hobs
  have hok : ∀ t ∈ tr, t.pre.misleads t.event = false := fun t ht ↦
    List.eq_of_mem_replicate (hmisled ▸ List.mem_map_of_mem ht)
  exact ⟨tr, s, exec_run hexec, hok, hreports, truthful_of_not_misled (exec_run hexec) hok⟩

/-! ## A late answer -/

theorem exists_run_polled {s : Shell} {timeout : ℕ} (hpc : s.pc = .hostWait timeout)
    (hres : s.dnsResolved = false) {n : ℕ} (hn : timeout + n < 2000000) :
    ∃ tr, shellMachine.Run s tr { s with pc := .hostWait (timeout + n) } ∧
      ∀ t ∈ tr, t.event = .polled := by
  induction n with
  | zero => exact ⟨[], by rw [Nat.add_zero, ← hpc]; exact .nil, by simp⟩
  | succ n ih =>
    obtain ⟨tr, hrun, htr⟩ := ih (Nat.lt_of_succ_lt hn)
    have hnext : shellMachine.next { s with pc := .hostWait (timeout + n) } .polled
        = some ({ s with pc := .hostWait (timeout + (n + 1)) }, ⟨[], none, none⟩) := by
      simp only [shellMachine, hres, true_and]
      exact if_pos hn
    refine ⟨_, .snoc hrun hnext, List.forall_mem_append.mpr ⟨htr, ?_⟩⟩
    exact List.forall_mem_singleton.mpr rfl

theorem exists_run_timeout {s : Shell} (hpc : s.pc = .hostWait 0) (hres : s.dnsResolved = false) :
    ∃ tr, shellMachine.Run s tr { s with pc := .reading 0 } ∧ ∀ t ∈ tr, t.event = .polled := by
  obtain ⟨tr, hrun, htr⟩ := exists_run_polled hpc hres (show 0 + 1999999 < 2000000 by decide)
  have hnext : shellMachine.next { s with pc := .hostWait (0 + 1999999) } .polled
      = some ({ s with pc := .hostWait (0 + 1999999) }.report [] .timedOut) := by
    simp only [shellMachine, hres, true_and, hostOutcome]
    rfl
  refine ⟨_, .snoc hrun hnext, List.forall_mem_append.mpr ⟨htr, ?_⟩⟩
  exact List.forall_mem_singleton.mpr rfl

/-- `host a` times out, `host b` waits, and then lwIP answers for `a`: the address of `a` is
printed for `b`. -/
theorem not_truthful_late_answer :
    ∃ tr s, shellMachine.Run (boot (Vector.replicate 64 0)) tr s ∧ ¬ Truthful tr := by
  let line (text : String) : List ShellEvent :=
    (ascii text).map fun c ↦ .uart c .inProgress ⟨true, .ok⟩
  -- lwIP has no address at hand in any of these steps, and never answers for `b`
  let silent (t : ShellStep) : Bool :=
    atOnce t = none ∧ completion t ≠ some (ascii "b", some 1)
  have hout : ((shellMachine.exec (boot (Vector.replicate 64 0)) (line "host a\r")).bind fun r ↦
        (shellMachine.exec { r.2 with pc := .reading 0 }
          (line "host b\r" ++ [.hostFound 0 (some 1), .polled])).map fun r' ↦
          decide (r.2.pc = .hostWait 0 ∧ r.2.dnsResolved = false ∧
            (r.1 ++ r'.1).all silent = true ∧
            r'.1.getLast?.map (fun t ↦ t.output.report) = some (some (ascii "b", .address 1))))
      = some true := by
    decide +kernel
  obtain ⟨⟨tr₁, s₁⟩, hexec₁, hout⟩ := Option.bind_eq_some_iff.mp hout
  obtain ⟨⟨tr₃, s₃⟩, hexec₃, hobs⟩ := Option.map_eq_some_iff.mp hout
  obtain ⟨hpc, hres, hsilent, hlast⟩ := of_decide_eq_true hobs
  rw [List.all_eq_true] at hsilent
  obtain ⟨tr₂, hrun₂, hpolled⟩ := exists_run_timeout hpc hres
  obtain ⟨last, hlast, hreport⟩ := Option.map_eq_some_iff.mp hlast
  obtain ⟨tr₃, rfl⟩ := List.getLast?_eq_some_iff.mp hlast
  refine ⟨_, s₃, ((exec_run hexec₁).trans hrun₂).trans (exec_run hexec₃), fun htruth ↦ ?_⟩
  have hall : ∀ t ∈ tr₁ ++ tr₂ ++ tr₃ ++ [last],
      atOnce t = none ∧ completion t ≠ some (ascii "b", some 1) := by
    intro t ht
    by_cases hmem : t ∈ tr₂
    · rw [atOnce, completion, hpolled t hmem]
      exact ⟨rfl, by simp⟩
    · refine of_decide_eq_true (hsilent t ?_)
      simpa [hmem] using ht
  obtain ⟨tr, asked, since, heq, -, -, -, hbacked⟩ := htruth (tr₁ ++ tr₂ ++ tr₃) last [] _ _
    (by simp) hreport
  rw [heq] at hall
  rcases hbacked with hnow | ⟨u, hu, hlater⟩
  · have hnone := (hall asked (by simp)).1
    cases hnone.symm.trans hnow
  · exact (hall u (by simp [hu])).2 hlater

end Shell

end ZanOS
