import ZanOS.Foundation.Machine
import ZanOS.Foundation.Word

/-!
# From the interrupt to the poll

A frame that arrives raises the receive bit of `MACRIS`. `ethernet_handler` turns the bit into the
flag `eth_rx_flag` and acknowledges what it has read; `lwip_poll` finds the flag, clears it and
takes one frame from the FIFO. Here this is one machine whose steps are the single statements of
the two functions, with arrivals anywhere between them. The handler preempts the poll, so the poll
does not move while the handler runs.

The FIFO holds any number of frames, the bit and the flag count to one. `wake` counts the fetches
that are still to come from what is pending, and along every run the FIFO holds `wake` frames plus
one for each wake-up that was merged into another (`Backlog`): by an arrival while the bit was
still up, or by a handler that found the flag still set. So a run without such steps strands no
frame, and after one with such a step the frame stays behind as soon as nothing more arrives.
-/

namespace ZanOS

open Foundation

/-! ## The machine -/

/-- Where `ethernet_handler` is: not running, past the read of the status, past the flag. -/
inductive HandlerPc
  | idle
  | read (status : UInt32)
  | flagged (status : UInt32)

/-- Where `lwip_poll` is: outside its body, past a test that found the flag set, past the clear. -/
inductive PollPc
  | idle
  | tested
  | cleared
  deriving DecidableEq

/-- The controller's FIFO and status register, the flag, and the two program counters. -/
structure EthDriver (α : Type*) where
  fifo : List α
  macris : UInt32
  ethRxFlag : Bool
  handler : HandlerPc
  poll : PollPc

/-- What can happen next: on the controller's side the arrival of a frame or another status bit,
on the driver's side one statement. `ackTx` is the end of `eth_send`. -/
inductive EthEvent (α : Type*)
  | arrive (frame : α)
  | raise (bits : UInt32)
  | ackTx
  | handlerRead
  | handlerFlag
  | handlerAck
  | pollTest
  | pollClear
  | pollInput

variable {α : Type*}

namespace EthDriver

/-- `MAC_INT_RX` is pending. -/
def rxPending (s : EthDriver α) : Bool := s.macris &&& 0x1 ≠ 0

/-- The state `main` starts polling in. -/
def start : EthDriver α := ⟨[], 0, false, .idle, .idle⟩

end EthDriver

/-- The driver with its controller; the output is the frame handed to the stack. -/
def ethMachine : Machine (EthDriver α) (EthEvent α) (Option α) where
  next s
    | .arrive f => some ({ s with fifo := s.fifo ++ [f], macris := s.macris ||| 0x1 }, none)
    | .raise bits =>
        if bits &&& 0x1 = 0 then some ({ s with macris := s.macris ||| bits }, none) else none
    | .ackTx => some ({ s with macris := s.macris &&& ~~~0x40 }, none)
    | .handlerRead =>
        match s.handler with
        | .idle => some ({ s with handler := .read s.macris }, none)
        | _ => none
    | .handlerFlag =>
        match s.handler with
        | .read status => some ({ s with
            ethRxFlag := if status &&& 0x1 ≠ 0 then true else s.ethRxFlag
            handler := .flagged status }, none)
        | _ => none
    | .handlerAck =>
        match s.handler with
        | .flagged status =>
            some ({ s with macris := s.macris &&& ~~~status, handler := .idle }, none)
        | _ => none
    | .pollTest =>
        match s.handler, s.poll with
        | .idle, .idle => some (if s.ethRxFlag then { s with poll := .tested } else s, none)
        | _, _ => none
    | .pollClear =>
        match s.handler, s.poll with
        | .idle, .tested => some ({ s with ethRxFlag := false, poll := .cleared }, none)
        | _, _ => none
    | .pollInput =>
        match s.handler, s.poll with
        | .idle, .cleared => some ({ s with fifo := s.fifo.tail, poll := .idle }, s.fifo.head?)
        | _, _ => none

/-- Everything a step can do, with the program counters it needs. -/
inductive EthStep (s : EthDriver α) : EthEvent α → EthDriver α → Option α → Prop
  | arrive (f : α) :
      EthStep s (.arrive f) { s with fifo := s.fifo ++ [f], macris := s.macris ||| 0x1 } none
  | raise {bits : UInt32} (hbits : bits &&& 0x1 = 0) :
      EthStep s (.raise bits) { s with macris := s.macris ||| bits } none
  | ackTx : EthStep s .ackTx { s with macris := s.macris &&& ~~~0x40 } none
  | handlerRead (hh : s.handler = .idle) :
      EthStep s .handlerRead { s with handler := .read s.macris } none
  | handlerFlag {status : UInt32} (hh : s.handler = .read status) :
      EthStep s .handlerFlag { s with
        ethRxFlag := if status &&& 0x1 ≠ 0 then true else s.ethRxFlag
        handler := .flagged status } none
  | handlerAck {status : UInt32} (hh : s.handler = .flagged status) :
      EthStep s .handlerAck { s with macris := s.macris &&& ~~~status, handler := .idle } none
  | pollTest (hh : s.handler = .idle) (hp : s.poll = .idle) :
      EthStep s .pollTest (if s.ethRxFlag then { s with poll := .tested } else s) none
  | pollClear (hh : s.handler = .idle) (hp : s.poll = .tested) :
      EthStep s .pollClear { s with ethRxFlag := false, poll := .cleared } none
  | pollInput (hh : s.handler = .idle) (hp : s.poll = .cleared) :
      EthStep s .pollInput { s with fifo := s.fifo.tail, poll := .idle } s.fifo.head?

theorem ethMachine_next_iff {s s' : EthDriver α} {e : EthEvent α} {o : Option α} :
    ethMachine.next s e = some (s', o) ↔ EthStep s e s' o := by
  constructor
  · intro hnext
    cases e with
    | arrive f => cases hnext; exact .arrive f
    | ackTx => cases hnext; exact .ackTx
    | raise bits =>
      change (if bits &&& 0x1 = 0 then _ else _) = _ at hnext
      split_ifs at hnext with hbits
      cases hnext
      exact .raise hbits
    | handlerRead =>
      simp only [ethMachine] at hnext
      split at hnext <;> cases hnext
      exact .handlerRead ‹_›
    | handlerFlag =>
      simp only [ethMachine] at hnext
      split at hnext <;> cases hnext
      exact .handlerFlag ‹_›
    | handlerAck =>
      simp only [ethMachine] at hnext
      split at hnext <;> cases hnext
      exact .handlerAck ‹_›
    | pollTest =>
      simp only [ethMachine] at hnext
      split at hnext <;> cases hnext
      exact .pollTest ‹_› ‹_›
    | pollClear =>
      simp only [ethMachine] at hnext
      split at hnext <;> cases hnext
      exact .pollClear ‹_› ‹_›
    | pollInput =>
      simp only [ethMachine] at hnext
      split at hnext <;> cases hnext
      exact .pollInput ‹_› ‹_›
  · rintro (f | hbits | _ | hh | hh | hh | ⟨hh, hp⟩ | ⟨hh, hp⟩ | ⟨hh, hp⟩)
    · rfl
    · exact if_pos hbits
    · rfl
    all_goals simp [ethMachine, *]

/-! ## Counting wake-ups -/

/-- The handler is about to acknowledge a receive bit that it has already turned into the flag. -/
def HandlerPc.spent : HandlerPc → Bool
  | .flagged status => status &&& 0x1 ≠ 0
  | _ => false

namespace EthDriver

/-- A frame in the FIFO will be fetched: unless a receive interrupt is pending or a poll is under
way, the flag is up. -/
def NoStranded (s : EthDriver α) : Prop :=
  s.rxPending = false → s.poll = .idle → s.fifo ≠ [] → s.ethRxFlag = true

/-- The fetches that will follow from the receive bit, from the flag, and from a poll that has
cleared the flag. -/
def wake (s : EthDriver α) : ℕ :=
  (s.rxPending && !s.handler.spent).toNat + s.ethRxFlag.toNat + (decide (s.poll = .cleared)).toNat

/-- The step merges a wake-up into another one: a frame arrives while the receive bit is up, or the
handler raises a flag that is up. -/
def merges (s : EthDriver α) : EthEvent α → Bool
  | .arrive _ => s.rxPending
  | .handlerFlag =>
      match s.handler with
      | .read status => status &&& 0x1 ≠ 0 ∧ s.ethRxFlag = true
      | _ => false
  | _ => false

/-- The FIFO holds `n` frames more than there are fetches to come. The status the handler holds
has the receive bit only while the register has it, and a poll that is past its test has the flag
up, whatever the handler did in between. -/
structure Backlog (s : EthDriver α) (n : ℕ) : Prop where
  count : s.fifo.length = s.wake + n
  status_rx : ∀ status, s.handler = .read status ∨ s.handler = .flagged status →
    status &&& 0x1 ≠ 0 → s.rxPending = true
  tested : s.poll = .tested → s.ethRxFlag = true

theorem backlog_start : Backlog (start : EthDriver α) 0 where
  count := by simp [wake, start, rxPending]
  status_rx _ h := by rcases h with h | h <;> cases h
  tested h := by cases h

namespace Backlog

variable {s : EthDriver α} {n : ℕ}

theorem rxPending_of_spent (h : Backlog s n) (hspent : s.handler.spent = true) :
    s.rxPending = true := by
  rcases hh : s.handler with _ | status | status
  · rw [hh] at hspent; cases hspent
  · rw [hh] at hspent; cases hspent
  · rw [hh, HandlerPc.spent, decide_eq_true_iff] at hspent
    exact h.status_rx status (Or.inr hh) hspent

theorem arrive (h : Backlog s n) (f : α) :
    Backlog { s with fifo := s.fifo ++ [f], macris := s.macris ||| 0x1 }
      (n + (s.merges (.arrive f)).toNat) := by
  have hrx : EthDriver.rxPending { s with fifo := s.fifo ++ [f], macris := s.macris ||| 0x1 }
      = true := by
    rw [rxPending, or_and_self]
    rfl
  have hmerges : s.merges (.arrive f) = s.rxPending := rfl
  refine ⟨?_, fun _ _ _ ↦ hrx, h.tested⟩
  have hcount := h.count
  rw [wake] at hcount ⊢
  rw [hrx, hmerges, List.length_append, List.length_singleton, hcount]
  cases hpending : s.rxPending with
  | true => simp only [Bool.true_and, Bool.toNat_true]; omega
  | false =>
    -- the bit was down, so no handler is about to acknowledge it
    have hspent : s.handler.spent = false := by
      by_contra hspent
      rw [Bool.not_eq_false] at hspent
      exact Bool.false_ne_true (hpending ▸ h.rxPending_of_spent hspent)
    simp only [hspent, Bool.false_and, Bool.not_false, Bool.and_self, Bool.toNat_false,
      Bool.toNat_true]
    omega

theorem set_macris (h : Backlog s n) {x : UInt32} (hx : x &&& 0x1 = s.macris &&& 0x1) :
    Backlog { s with macris := x } n := by
  have hrx : EthDriver.rxPending { s with macris := x } = s.rxPending := by
    rw [rxPending, rxPending, hx]
  refine ⟨?_, fun status hstatus hne ↦ hrx.trans (h.status_rx status hstatus hne), h.tested⟩
  have hcount := h.count
  rw [wake] at hcount ⊢
  rw [hrx]
  exact hcount

theorem handlerRead (h : Backlog s n) (hh : s.handler = .idle) :
    Backlog { s with handler := .read s.macris } n := by
  refine ⟨?_, ?_, h.tested⟩
  · have hcount := h.count
    rw [wake, hh] at hcount
    exact hcount
  · rintro status (hstatus | hstatus) hne
    · rw [← HandlerPc.read.inj hstatus] at hne
      exact decide_eq_true hne
    · cases hstatus

theorem handlerFlag (h : Backlog s n) {status : UInt32} (hh : s.handler = .read status) :
    Backlog { s with
        ethRxFlag := if status &&& 0x1 ≠ 0 then true else s.ethRxFlag
        handler := .flagged status }
      (n + (s.merges .handlerFlag).toNat) := by
  have hmerges : s.merges .handlerFlag = decide (status &&& 0x1 ≠ 0 ∧ s.ethRxFlag = true) := by
    rw [merges, hh]
  refine ⟨?_, ?_, fun ht ↦ ?_⟩
  · have hcount := h.count
    rw [wake, hh] at hcount
    rw [wake, hmerges]
    by_cases hne : status &&& 0x1 ≠ 0
    · -- the receive bit is now spent and the flag stands for it
      have hrx : s.rxPending = true := h.status_rx status (Or.inl hh) hne
      rw [hrx] at hcount
      cases hflag : s.ethRxFlag <;> simp [hne, hflag, HandlerPc.spent] at hcount ⊢ <;> omega
    · have hne' : status &&& 0x1 = 0 := not_not.mp hne
      simpa [hne', HandlerPc.spent, rxPending] using hcount
  · rintro status' (hstatus | hstatus) hne
    · cases hstatus
    · rw [← HandlerPc.flagged.inj hstatus] at hne
      exact h.status_rx status (Or.inl hh) hne
  · have hflag := h.tested ht
    simp [hflag]

theorem handlerAck (h : Backlog s n) {status : UInt32} (hh : s.handler = .flagged status) :
    Backlog { s with macris := s.macris &&& ~~~status, handler := .idle } n := by
  refine ⟨?_, ?_, h.tested⟩
  · have hcount := h.count
    rw [wake, hh] at hcount
    rw [wake]
    by_cases hne : status &&& 0x1 ≠ 0
    · have hclear : (s.macris &&& ~~~status) &&& 0x1 = 0 :=
        and_not_and_of_and_eq _ (and_one_eq_one_of_ne_zero hne)
      simpa [hne, hclear, HandlerPc.spent, rxPending] using hcount
    · have hkeep : (s.macris &&& ~~~status) &&& 0x1 = s.macris &&& 0x1 :=
        and_not_and_of_disjoint _ (not_not.mp hne)
      simpa [not_not.mp hne, hkeep, HandlerPc.spent, rxPending] using hcount
  · rintro status' (hstatus | hstatus) <;> cases hstatus

theorem pollTest (h : Backlog s n) (hp : s.poll = .idle) :
    Backlog (if s.ethRxFlag then { s with poll := .tested } else s) n := by
  split_ifs with hflag
  · refine ⟨?_, h.status_rx, fun _ ↦ hflag⟩
    have hcount := h.count
    rw [wake, hp] at hcount
    exact hcount
  · exact h

theorem pollClear (h : Backlog s n) (hp : s.poll = .tested) :
    Backlog { s with ethRxFlag := false, poll := .cleared } n := by
  refine ⟨?_, h.status_rx, fun ht ↦ by cases ht⟩
  have hcount := h.count
  rw [wake, hp, h.tested hp] at hcount
  exact hcount

theorem pollInput (h : Backlog s n) (hp : s.poll = .cleared) :
    Backlog { s with fifo := s.fifo.tail, poll := .idle } n := by
  refine ⟨?_, h.status_rx, fun ht ↦ by cases ht⟩
  have hcount : s.fifo.length = (s.rxPending && !s.handler.spent).toNat + s.ethRxFlag.toNat
      + 1 + n := by
    have hcount := h.count
    rw [wake, hp] at hcount
    exact hcount
  change s.fifo.tail.length = (s.rxPending && !s.handler.spent).toNat + s.ethRxFlag.toNat + 0 + n
  rw [List.length_tail]
  omega

/-- **The backlog grows by one with each merged wake-up, and by nothing else.** -/
theorem step (h : Backlog s n) {s' : EthDriver α} {e : EthEvent α} {o : Option α}
    (hnext : ethMachine.next s e = some (s', o)) : Backlog s' (n + (s.merges e).toNat) := by
  cases ethMachine_next_iff.mp hnext with
  | arrive f => exact h.arrive f
  | raise hbits => exact h.set_macris (or_and_of_disjoint _ hbits)
  | ackTx => exact h.set_macris (and_not_and_of_disjoint _ (by decide))
  | handlerRead hh => exact h.handlerRead hh
  | handlerFlag hh => exact h.handlerFlag hh
  | handlerAck hh => exact h.handlerAck hh
  | pollTest hh hp => exact h.pollTest hp
  | pollClear hh hp => exact h.pollClear hp
  | pollInput hh hp => exact h.pollInput hp

theorem run (h : Backlog s n) {s' : EthDriver α}
    {tr : List (Transition (EthDriver α) (EthEvent α) (Option α))}
    (hrun : ethMachine.Run s tr s') :
    Backlog s' (n + tr.countP fun t ↦ t.pre.merges t.event) := by
  induction hrun with
  | nil => exact h
  | snoc _ hnext ih =>
    rw [List.countP_append, List.countP_singleton, ← Nat.add_assoc]
    have hstep := ih.step hnext
    change Backlog _ (_ + bif _ then 1 else 0) at hstep
    rwa [Bool.cond_eq_ite] at hstep

/-- With no merged wake-up, every frame in the FIFO has its fetch to come. -/
theorem noStranded (h : Backlog s 0) : s.NoStranded := by
  intro hrx hpoll hfifo
  have hcount := h.count
  rw [wake, hrx, hpoll] at hcount
  by_contra hflag
  rw [Bool.not_eq_true] at hflag
  rw [hflag] at hcount
  exact hfifo (List.length_eq_zero_iff.mp hcount)

theorem not_noStranded (h : Backlog s n) (hn : 0 < n) (hrx : s.rxPending = false)
    (hpoll : s.poll = .idle) (hflag : s.ethRxFlag = false) : ¬ s.NoStranded := by
  intro hok
  refine Bool.false_ne_true (hflag ▸ hok hrx hpoll fun hfifo ↦ ?_)
  have hcount := h.count
  rw [hfifo, List.length_nil] at hcount
  omega

end Backlog

/-! ## Letting the driver catch up -/

/-- A run without arrivals. -/
def Quiet (tr : List (Transition (EthDriver α) (EthEvent α) (Option α))) : Prop :=
  ∀ t ∈ tr, ∀ f, t.event ≠ .arrive f

/-- Left alone, the driver gets from `s` to `s'`. -/
def Settles (s s' : EthDriver α) : Prop := ∃ tr, ethMachine.Run s tr s' ∧ Quiet tr

theorem Settles.refl (s : EthDriver α) : Settles s s := ⟨[], .nil, by simp [Quiet]⟩

theorem Settles.step {s s' s'' : EthDriver α} {e : EthEvent α} {o : Option α}
    (hstep : EthStep s e s' o) (he : ∀ f, e ≠ .arrive f) (h : Settles s' s'') :
    Settles s s'' := by
  obtain ⟨tr, hrun, hquiet⟩ := h
  refine ⟨_, Machine.Run.cons (ethMachine_next_iff.mpr hstep) hrun, fun t ht ↦ ?_⟩
  rcases List.mem_cons.mp ht with rfl | ht
  · exact he
  · exact hquiet t ht

theorem Settles.trans {s s' s'' : EthDriver α} (h : Settles s s') (h' : Settles s' s'') :
    Settles s s'' := by
  obtain ⟨tr, hrun, hquiet⟩ := h
  obtain ⟨tr', hrun', hquiet'⟩ := h'
  refine ⟨tr ++ tr', hrun.trans hrun', fun t ht ↦ ?_⟩
  exact (List.mem_append.mp ht).elim (hquiet t) (hquiet' t)

theorem exists_settles_handler_idle (s : EthDriver α) :
    ∃ s', Settles s s' ∧ s'.handler = .idle := by
  have hack : ∀ (s : EthDriver α) status, s.handler = .flagged status →
      ∃ s', Settles s s' ∧ s'.handler = .idle := by
    intro s status hh
    exact ⟨_, .step (.handlerAck hh) (by simp) (.refl _), rfl⟩
  rcases hh : s.handler with _ | status | status
  · exact ⟨s, .refl s, hh⟩
  · obtain ⟨s', hsettles, hidle⟩ := hack { s with
      ethRxFlag := if status &&& 0x1 ≠ 0 then true else s.ethRxFlag
      handler := .flagged status } status rfl
    exact ⟨s', .step (.handlerFlag hh) (by simp) hsettles, hidle⟩
  · exact hack s status hh

theorem exists_settles_rx_down {s : EthDriver α} (hh : s.handler = .idle) :
    ∃ s', Settles s s' ∧ s'.handler = .idle ∧ s'.rxPending = false := by
  refine ⟨_, .step (.handlerRead hh) (by simp) (.step (.handlerFlag rfl) (by simp)
    (.step (.handlerAck rfl) (by simp) (.refl _))), rfl, ?_⟩
  -- the handler acknowledges all it has read, and nothing has arrived since
  simp [rxPending]

theorem exists_settles_poll_idle {s : EthDriver α} (hh : s.handler = .idle)
    (hrx : s.rxPending = false) :
    ∃ s', Settles s s' ∧ s'.handler = .idle ∧ s'.rxPending = false ∧ s'.poll = .idle := by
  have hinput : ∀ s : EthDriver α, s.handler = .idle → s.rxPending = false → s.poll = .cleared →
      ∃ s', Settles s s' ∧ s'.handler = .idle ∧ s'.rxPending = false ∧ s'.poll = .idle := by
    intro s hh hrx hp
    exact ⟨_, .step (.pollInput hh hp) (by simp) (.refl _), hh, hrx, rfl⟩
  rcases hp : s.poll with _ | _ | _
  · exact ⟨s, .refl s, hh, hrx, hp⟩
  · obtain ⟨s', hsettles, hs'⟩ := hinput { s with ethRxFlag := false, poll := .cleared } hh hrx rfl
    exact ⟨s', .step (.pollClear hh hp) (by simp) hsettles, hs'⟩
  · exact hinput s hh hrx hp

theorem exists_settles_flag_down {s : EthDriver α} (hh : s.handler = .idle)
    (hrx : s.rxPending = false) (hp : s.poll = .idle) :
    ∃ s', Settles s s' ∧ s'.rxPending = false ∧ s'.poll = .idle ∧ s'.ethRxFlag = false := by
  cases hflag : s.ethRxFlag with
  | false => exact ⟨s, .refl s, hrx, hp, hflag⟩
  | true =>
    have htest : EthStep s .pollTest { s with poll := .tested } none := by
      have hstep := EthStep.pollTest hh hp
      rwa [if_pos hflag] at hstep
    exact ⟨_, .step htest (by simp) (.step (.pollClear hh rfl) (by simp)
      (.step (.pollInput hh rfl) (by simp) (.refl _))), hrx, rfl, rfl⟩

/-- When nothing arrives any more, the driver comes to rest with bit and flag down. -/
theorem exists_settles_at_rest (s : EthDriver α) :
    ∃ s', Settles s s' ∧ s'.rxPending = false ∧ s'.poll = .idle ∧ s'.ethRxFlag = false := by
  obtain ⟨s₁, h₁, hh₁⟩ := exists_settles_handler_idle s
  obtain ⟨s₂, h₂, hh₂, hrx₂⟩ := exists_settles_rx_down hh₁
  obtain ⟨s₃, h₃, hh₃, hrx₃, hp₃⟩ := exists_settles_poll_idle hh₂ hrx₂
  obtain ⟨s₄, h₄, hs₄⟩ := exists_settles_flag_down hh₃ hrx₃ hp₃
  exact ⟨s₄, ((h₁.trans h₂).trans h₃).trans h₄, hs₄⟩

/-! ## Stranded frames -/

/-- **Frames are stranded by merged wake-ups, and only by them.** A run in which each arrival finds
the receive bit down and each raised flag was down strands no frame in any state it reaches; a run
with any other step can be continued, with nothing more arriving, to a state in which a frame is
stranded. -/
theorem noStranded_unless_merges {s : EthDriver α}
    {tr : List (Transition (EthDriver α) (EthEvent α) (Option α))}
    (hrun : ethMachine.Run start tr s) :
    ((∀ t ∈ tr, t.pre.merges t.event = false) → s.NoStranded) ∧
      ((∃ t ∈ tr, t.pre.merges t.event = true) → ∃ s', Settles s s' ∧ ¬ s'.NoStranded) := by
  have hbacklog := backlog_start.run hrun
  rw [Nat.zero_add] at hbacklog
  constructor
  · intro hpaced
    have hzero : (tr.countP fun t ↦ t.pre.merges t.event) = 0 := by
      rw [List.countP_eq_zero]
      intro t ht
      rw [hpaced t ht]
      exact Bool.false_ne_true
    rw [hzero] at hbacklog
    exact hbacklog.noStranded
  · intro hmerged
    obtain ⟨s', ⟨tr', hrun', hquiet⟩, hrx, hpoll, hflag⟩ := exists_settles_at_rest s
    have hpos : 0 < tr.countP fun t ↦ t.pre.merges t.event := List.countP_pos_iff.mpr hmerged
    exact ⟨s', ⟨tr', hrun', hquiet⟩,
      (hbacklog.run hrun').not_noStranded (Nat.add_pos_left hpos _) hrx hpoll hflag⟩

/-- Two frames, the second of which arrives when the first has been fetched; it is announced and
waits for the next poll. -/
theorem noStranded_two_frames :
    ∃ tr s, ethMachine.Run (start : EthDriver ℕ) tr s ∧ s.fifo = [2] ∧ s.rxPending = false ∧
      s.poll = .idle ∧ s.ethRxFlag = true ∧ s.NoStranded := by
  have hrun := Machine.exec_run (show ethMachine.exec (start : EthDriver ℕ)
    [.arrive 1, .handlerRead, .handlerFlag, .handlerAck, .pollTest, .pollClear, .pollInput,
      .arrive 2, .handlerRead, .handlerFlag, .handlerAck] = some _ from rfl)
  exact ⟨_, _, hrun, rfl, rfl, rfl, rfl, (noStranded_unless_merges hrun).1 (by decide)⟩

/-- Two frames before the handler runs: one interrupt, one flag, one fetch, and the second frame
stays behind. -/
theorem not_noStranded_burst :
    ∃ tr s, ethMachine.Run (start : EthDriver ℕ) tr s ∧
      tr.map Transition.event = [.arrive 1, .arrive 2, .handlerRead, .handlerFlag, .handlerAck,
        .pollTest, .pollClear, .pollInput] ∧
      s.fifo = [2] ∧ ¬ s.NoStranded := by
  have hrun := Machine.exec_run (show ethMachine.exec (start : EthDriver ℕ)
    [.arrive 1, .arrive 2, .handlerRead, .handlerFlag, .handlerAck, .pollTest, .pollClear,
      .pollInput] = some _ from rfl)
  refine ⟨_, _, hrun, rfl, rfl, fun hok ↦ ?_⟩
  exact absurd (hok rfl rfl (List.cons_ne_nil _ _)) (by decide)

/-! ## Nothing is lost or repeated -/

/-- The frame that an event brings in. -/
def arrival : EthEvent α → Option α
  | .arrive f => some f
  | _ => none

theorem fifo_append_arrival {s s' : EthDriver α} {e : EthEvent α} {o : Option α}
    (hstep : EthStep s e s' o) : s.fifo ++ (arrival e).toList = o.toList ++ s'.fifo := by
  cases hstep with
  | arrive f => rfl
  | pollTest hh hp => split_ifs <;> simp [arrival]
  | pollInput hh hp => cases s.fifo <;> simp [arrival]
  | _ => simp [arrival]

/-- The frames that arrived are those handed to the stack, in the same order, and those in the
FIFO. -/
theorem arrivals_eq_fetched_append_fifo {s : EthDriver α}
    {tr : List (Transition (EthDriver α) (EthEvent α) (Option α))}
    (hrun : ethMachine.Run start tr s) :
    tr.flatMap (fun t ↦ (arrival t.event).toList)
      = tr.flatMap (fun t ↦ t.output.toList) ++ s.fifo := by
  induction hrun with
  | nil => rfl
  | snoc _ hnext ih =>
    rw [List.flatMap_append, List.flatMap_append, List.flatMap_singleton, List.flatMap_singleton,
      ih, List.append_assoc, List.append_assoc, fifo_append_arrival (ethMachine_next_iff.mp hnext)]

end EthDriver

end ZanOS
