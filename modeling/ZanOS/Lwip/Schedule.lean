import ZanOS.Lwip.Timeouts

/-!
# The timers as a scheduler with an ideal clock

`idealMachine` is what `timeouts.c` is for: an agenda of the timers, with times that do not wrap
around and a clock that does not either. The code does the same, step by step
(`Matches.next`), and no assertion of it fails, as long as `sys_check_timeouts` is called often
enough: a clock of 32 bits tells earlier from later only within 2³¹ milliseconds, and with the
longest interval of the timers in mind, 2³⁰ since the last call are allowed (`OnTime`), which is
twelve days.

What has to be known of the agenda for this is `Ideal.Ok`. Above all there is one entry for each
timer, so that the pool of eight cannot run out.
-/

namespace ZanOS.Lwip

open Foundation

/-! ## The ideal scheduler -/

/-- Where the scheduler is. -/
inductive Stage
  | idle
  | checking
  | calling (e : Entry Handler)

structure Ideal where
  agenda : List (Entry Handler)
  stage : Stage
  tcp : Bool
  clock : ℕ
  entered : ℕ
  polled : ℕ

/-- The entry whose handler is being called. -/
def Stage.running : Stage → List (Entry Handler)
  | .calling e => [e]
  | .idle | .checking => []

/-- All timers, with the one that is being called. -/
def Ideal.entries (a : Ideal) : List (Entry Handler) := a.stage.running ++ a.agenda

/-- The agenda when a handler has done its work. -/
def Ideal.reschedule (a : Ideal) (e : Entry Handler) (pcbs : Bool) : Ideal × TimerOutput :=
  match e.task with
  | .tcp =>
      if pcbs then ({ a with agenda := schedule ⟨a.clock + 250, .tcp⟩ a.agenda }, .silent)
      else ({ a with tcp := false }, .silent)
  | .cyclic i =>
      if e.due + i.interval < a.clock then
        ({ a with agenda := schedule ⟨a.clock + i.interval, .cyclic i⟩ a.agenda }, .overload)
      else ({ a with agenda := schedule ⟨e.due + i.interval, .cyclic i⟩ a.agenda }, .silent)

/-- The ideal scheduler. -/
def idealMachine : Machine Ideal TimerEvent TimerOutput where
  next a ev :=
    match ev, a.stage with
    | .tick, _ => some ({ a with clock := a.clock + 10 }, .silent)
    | .check, .idle => some ({ a with stage := .checking, entered := a.clock }, .silent)
    | .loop, .checking =>
        match a.agenda with
        | [] => some ({ a with stage := .idle, polled := a.entered }, .returned 0xFFFFFFFF)
        | e :: l =>
            if a.entered < e.due then
              some ({ a with stage := .idle, polled := a.entered },
                .returned (UInt32.ofNat (e.due - a.entered)))
            else some ({ a with agenda := l, stage := .calling e }, .call e.task)
    | .handled pcbs, .calling e =>
        some ({ (a.reschedule e pcbs).1 with stage := .checking }, (a.reschedule e pcbs).2)
    | .needed pcbs, _ =>
        if a.tcp = false ∧ pcbs = true then
          some ({ a with agenda := schedule ⟨a.clock + 250, .tcp⟩ a.agenda, tcp := true }, .silent)
        else some (a, .silent)
    | _, _ => none

/-- The entries are those of a scheduler that was polled at `polled`, at the time `clock`: one for
each timer that runs, none of them due at the last poll, and none too far in the future. -/
structure Timers (tcp : Bool) (polled clock : ℕ) (es : List (Entry Handler)) : Prop where
  window : ∀ e ∈ es, polled < e.due ∧ e.due ≤ clock + 60000
  nodup : (es.map Entry.task).Nodup
  cyclic : ∀ i, Handler.cyclic i ∈ es.map Entry.task
  tcp : tcp = true ↔ Handler.tcp ∈ es.map Entry.task

/-- The invariant of the scheduler. -/
structure Ideal.Ok (a : Ideal) : Prop where
  ordered : Ordered a.agenda
  polled_le : a.polled ≤ a.entered
  entered_le : a.entered ≤ a.clock
  running : ∀ e ∈ a.stage.running, e.due ≤ a.entered
  idle : a.stage = .idle → a.entered = a.polled
  timers : Timers a.tcp a.polled a.clock a.entries

variable {a a' : Ideal} {e : Entry Handler} {es es' : List (Entry Handler)} {tcp : Bool}
  {polled clock : ℕ} {ev : TimerEvent} {o : TimerOutput}

theorem Timers.perm (ht : Timers tcp polled clock es) (hperm : es.Perm es') :
    Timers tcp polled clock es' :=
  ⟨fun e he ↦ ht.window e (hperm.mem_iff.mpr he), (hperm.map _).nodup_iff.mp ht.nodup,
    fun i ↦ (hperm.map _).mem_iff.mp (ht.cyclic i), ht.tcp.trans (hperm.map _).mem_iff⟩

theorem Timers.again {due : ℕ} (ht : Timers tcp polled clock (e :: es)) (hpolled : polled < due)
    (hclock : due ≤ clock + 60000) : Timers tcp polled clock (schedule ⟨due, e.task⟩ es) := by
  have hcons : Timers tcp polled clock (⟨due, e.task⟩ :: es) := by
    refine ⟨fun f hf ↦ ?_, ht.nodup, ht.cyclic, ht.tcp⟩
    rcases List.mem_cons.mp hf with rfl | hf
    · exact ⟨hpolled, hclock⟩
    · exact ht.window f (List.mem_cons_of_mem _ hf)
  exact hcons.perm (perm_schedule _ _).symm

theorem Timers.stop (ht : Timers tcp polled clock (e :: es)) (he : e.task = .tcp) :
    Timers false polled clock es := by
  have hnodup := List.nodup_cons.mp ht.nodup
  refine ⟨fun f hf ↦ ht.window f (List.mem_cons_of_mem _ hf), hnodup.2, fun i ↦ ?_, ?_⟩
  · have hmem := ht.cyclic i
    rw [List.map_cons, he] at hmem
    exact (List.mem_cons.mp hmem).resolve_left (by simp)
  · exact iff_of_false (by simp) (he ▸ hnodup.1)

theorem Timers.start {due : ℕ} (ht : Timers false polled clock es) (hpolled : polled < due)
    (hclock : due ≤ clock + 60000) : Timers true polled clock (⟨due, .tcp⟩ :: es) := by
  refine ⟨fun f hf ↦ ?_, List.nodup_cons.mpr ⟨fun hmem ↦ ?_, ht.nodup⟩,
    fun i ↦ List.mem_cons_of_mem _ (ht.cyclic i), ?_⟩
  · rcases List.mem_cons.mp hf with rfl | hf
    · exact ⟨hpolled, hclock⟩
    · exact ht.window f hf
  · cases ht.tcp.mpr hmem
  · exact iff_of_true rfl List.mem_cons_self

theorem Timers.mono {polled' clock' : ℕ} (ht : Timers tcp polled clock es)
    (hpolled : ∀ e ∈ es, polled' < e.due) (hclock : clock ≤ clock') :
    Timers tcp polled' clock' es :=
  ⟨fun e he ↦ ⟨hpolled e he, (ht.window e he).2.trans (Nat.add_le_add_right hclock _)⟩, ht.nodup,
    ht.cyclic, ht.tcp⟩

theorem Timers.length_le (ht : Timers tcp polled clock es) : es.length ≤ 7 := by
  have hsub : es.map Entry.task ⊆ .tcp :: lwipCyclicTimers.map .cyclic := by
    intro h _
    rcases h with _ | i
    · exact List.mem_cons_self
    · exact List.mem_cons_of_mem _ (List.mem_map_of_mem (by cases i <;> decide))
  simpa [lwipCyclicTimers] using (List.subperm_of_subset ht.nodup hsub).length_le

theorem interval_le (i : Cyclic) : i.interval ≤ 60000 := by
  cases i <;> decide

theorem interval_pos (i : Cyclic) : 0 < i.interval := by
  cases i <;> decide

/-- What a step of the ideal scheduler does. -/
inductive Ideal.Step (a : Ideal) : TimerEvent → TimerOutput → Ideal → Prop
  | tick : Step a .tick .silent { a with clock := a.clock + 10 }
  | check : a.stage = .idle →
      Step a .check .silent { a with stage := .checking, entered := a.clock }
  | returned {sleeptime : UInt32} : a.stage = .checking →
      (∀ e ∈ a.agenda.head?, a.entered < e.due) →
      Step a .loop (.returned sleeptime) { a with stage := .idle, polled := a.entered }
  | call {e : Entry Handler} {l : List (Entry Handler)} : a.stage = .checking →
      a.agenda = e :: l → e.due ≤ a.entered →
      Step a .loop (.call e.task) { a with agenda := l, stage := .calling e }
  | stop {e : Entry Handler} {pcbs : Bool} : a.stage = .calling e → e.task = .tcp →
      Step a (.handled pcbs) .silent { a with stage := .checking, tcp := false }
  | restart {e : Entry Handler} {pcbs : Bool} : a.stage = .calling e → e.task = .tcp →
      Step a (.handled pcbs) .silent
        { a with stage := .checking, agenda := schedule ⟨a.clock + 250, .tcp⟩ a.agenda }
  | overload {e : Entry Handler} {i : Cyclic} {pcbs : Bool} : a.stage = .calling e →
      e.task = .cyclic i → e.due + i.interval < a.clock →
      Step a (.handled pcbs) .overload
        { a with
          stage := .checking
          agenda := schedule ⟨a.clock + i.interval, .cyclic i⟩ a.agenda }
  | again {e : Entry Handler} {i : Cyclic} {pcbs : Bool} : a.stage = .calling e →
      e.task = .cyclic i → a.clock ≤ e.due + i.interval →
      Step a (.handled pcbs) .silent
        { a with
          stage := .checking
          agenda := schedule ⟨e.due + i.interval, .cyclic i⟩ a.agenda }
  | start {pcbs : Bool} : a.tcp = false →
      Step a (.needed pcbs) .silent
        { a with agenda := schedule ⟨a.clock + 250, .tcp⟩ a.agenda, tcp := true }
  | same {pcbs : Bool} : Step a (.needed pcbs) .silent a

theorem Ideal.step_of_handled {pcbs : Bool} (hstage : a.stage = .calling e) :
    Step a (.handled pcbs) (a.reschedule e pcbs).2
      { (a.reschedule e pcbs).1 with stage := .checking } := by
  rw [reschedule]
  rcases htask : e.task with _ | i <;> dsimp only
  · split_ifs
    · exact .restart hstage htask
    · exact .stop hstage htask
  · split_ifs with hlt
    · exact .overload hstage htask hlt
    · exact .again hstage htask (not_lt.mp hlt)

/-- **Inversion.** -/
theorem Ideal.step_of_next (hnext : idealMachine.next a ev = some (a', o)) : a.Step ev o a' := by
  rcases ev with _ | _ | _ | pcbs | pcbs
  · obtain ⟨rfl, rfl⟩ := Prod.mk.inj (Option.some.inj hnext)
    exact .tick
  · rcases hstage : a.stage with _ | _ | e <;> simp only [idealMachine, hstage] at hnext
    · obtain ⟨rfl, rfl⟩ := Prod.mk.inj (Option.some.inj hnext)
      exact .check hstage
    · cases hnext
    · cases hnext
  · rcases hstage : a.stage with _ | _ | e <;> simp only [idealMachine, hstage] at hnext
    · cases hnext
    · rcases hagenda : a.agenda with _ | ⟨e, l⟩ <;> simp only [hagenda] at hnext
      · obtain ⟨rfl, rfl⟩ := Prod.mk.inj (Option.some.inj hnext)
        rw [← hagenda]
        exact .returned hstage (by simp [hagenda])
      · split_ifs at hnext with hdue
        · obtain ⟨rfl, rfl⟩ := Prod.mk.inj (Option.some.inj hnext)
          rw [← hagenda]
          exact .returned hstage (by simpa [hagenda] using hdue)
        · obtain ⟨rfl, rfl⟩ := Prod.mk.inj (Option.some.inj hnext)
          exact .call hstage hagenda (not_lt.mp hdue)
    · cases hnext
  · rcases hstage : a.stage with _ | _ | e <;> simp only [idealMachine, hstage] at hnext
    · cases hnext
    · cases hnext
    · obtain ⟨rfl, rfl⟩ := Prod.mk.inj (Option.some.inj hnext)
      exact step_of_handled hstage
  · simp only [idealMachine] at hnext
    split_ifs at hnext with hneeded
    · obtain ⟨rfl, rfl⟩ := Prod.mk.inj (Option.some.inj hnext)
      exact .start hneeded.1
    · obtain ⟨rfl, rfl⟩ := Prod.mk.inj (Option.some.inj hnext)
      exact .same

theorem Ideal.Ok.lt_due (hok : a.Ok) (hstage : a.stage = .checking)
    (hhead : ∀ e ∈ a.agenda.head?, a.entered < e.due) : ∀ e ∈ a.entries, a.entered < e.due := by
  rw [entries, hstage]
  intro f (hf : f ∈ a.agenda)
  obtain ⟨e, l, hagenda⟩ := List.exists_cons_of_ne_nil (List.ne_nil_of_mem hf)
  have hordered := hok.ordered
  rw [hagenda] at hordered hf hhead
  exact (hhead e rfl).trans_le (hordered.head_le f hf)

theorem Ideal.Ok.calling (hok : a.Ok) (hstage : a.stage = .calling e) :
    e.due ≤ a.entered ∧ a.polled < e.due ∧
      Timers a.tcp a.polled a.clock (e :: a.agenda) := by
  have hrunning := hok.running
  have htimers := hok.timers
  rw [hstage] at hrunning
  rw [entries, hstage] at htimers
  exact ⟨hrunning e List.mem_cons_self, (htimers.window e List.mem_cons_self).1, htimers⟩

/-- **The invariant is kept** by every step. -/
theorem Ideal.Ok.next (hok : a.Ok) (hstep : a.Step ev o a') : a'.Ok := by
  have hpolled := hok.polled_le
  have hentered := hok.entered_le
  have hchecking : ∀ {n : ℕ}, ∀ e ∈ Stage.checking.running, e.due ≤ n := fun e he ↦ by cases he
  have hbusy : ∀ {n m : ℕ}, Stage.checking = .idle → n = m := fun hidle ↦ by cases hidle
  cases hstep with
  | tick =>
    exact ⟨hok.ordered, hpolled, hentered.trans (Nat.le_add_right _ _), hok.running, hok.idle,
      hok.timers.mono (fun e he ↦ (hok.timers.window e he).1) (Nat.le_add_right _ _)⟩
  | check hstage =>
    have htimers := hok.timers
    rw [entries, hstage] at htimers
    exact ⟨hok.ordered, hpolled.trans hentered, le_rfl, hchecking, hbusy, htimers⟩
  | returned hstage hhead =>
    have htimers := hok.timers.mono (hok.lt_due hstage hhead) le_rfl
    rw [entries, hstage] at htimers
    exact ⟨hok.ordered, le_rfl, hentered, fun e he ↦ (by cases he), fun _ ↦ rfl, htimers⟩
  | call hstage hagenda hdue =>
    have hordered := hok.ordered
    have htimers := hok.timers
    rw [hagenda] at hordered
    rw [entries, hstage, hagenda] at htimers
    refine ⟨(List.pairwise_cons.mp hordered).2, hpolled, hentered, fun f hf ↦ ?_,
      fun hidle ↦ (by cases hidle), htimers⟩
    rw [List.mem_singleton.mp hf]
    exact hdue
  | stop hstage htask =>
    exact ⟨hok.ordered, hpolled, hentered, hchecking, hbusy, (hok.calling hstage).2.2.stop htask⟩
  | restart hstage htask =>
    obtain ⟨-, -, htimers⟩ := hok.calling hstage
    exact ⟨hok.ordered.schedule _, hpolled, hentered, hchecking, hbusy,
      htask ▸ htimers.again (show a.polled < a.clock + 250 by omega) (by omega)⟩
  | @overload e i _ hstage htask hlt =>
    obtain ⟨-, hlate, htimers⟩ := hok.calling hstage
    have hle := interval_le i
    exact ⟨hok.ordered.schedule _, hpolled, hentered, hchecking, hbusy,
      htask ▸ htimers.again (show a.polled < a.clock + i.interval by omega) (by omega)⟩
  | @again e i _ hstage htask hle =>
    obtain ⟨hdue, hlate, htimers⟩ := hok.calling hstage
    have hle := interval_le i
    exact ⟨hok.ordered.schedule _, hpolled, hentered, hchecking, hbusy,
      htask ▸ htimers.again (show a.polled < e.due + i.interval by omega) (by omega)⟩
  | start htcp =>
    have htimers := hok.timers
    rw [htcp] at htimers
    have hstart := htimers.start (show a.polled < a.clock + 250 by omega) (by omega)
    exact ⟨hok.ordered.schedule _, hpolled, hentered, hok.running, hok.idle,
      hstart.perm (List.perm_middle.symm.trans ((perm_schedule _ _).symm.append_left _))⟩
  | same => exact hok

/-! ## The code does the same -/

/-- An entry, as the code has it. -/
def wrapEntry (e : Entry Handler) : SysTimeo := ⟨UInt32.ofNat e.due, e.task⟩

/-- The phase of the code. -/
def phaseOf (entered : ℕ) : Stage → Phase
  | .idle => .idle
  | .checking => .checking (UInt32.ofNat entered)
  | .calling e => .calling (UInt32.ofNat entered) e.task

/-- The state of the code is that of the ideal scheduler, with times of 32 bits. -/
structure Matches (s : TimerState) (a : Ideal) : Prop where
  ticks : s.ticks = UInt32.ofNat a.clock
  list : s.timeouts.nextTimeout = a.agenda.map wrapEntry
  tcp : s.timeouts.tcpipTcpTimerActive = a.tcp
  phase : s.phase = phaseOf a.entered a.stage
  due : ∀ e ∈ a.stage.running, s.timeouts.currentTimeoutDueTime = UInt32.ofNat e.due
  clock : s.clock = a.clock
  entered : s.entered = a.entered
  polled : s.polled = a.polled

/-- `sys_check_timeouts` has been called in the last 2³⁰ milliseconds, and has returned. -/
def OnTime (s : TimerState) : Prop := s.clock ≤ s.polled + 2 ^ 30

instance (s : TimerState) : Decidable (OnTime s) := inferInstanceAs (Decidable (_ ≤ _))

theorem insertAfter_eq (timeout t : SysTimeo) (rest : List SysTimeo) :
    insertAfter timeout t rest
      = t :: rest.orderedInsert (fun x y ↦ wrapLess x.time y.time) timeout := by
  induction rest generalizing t with
  | nil => rfl
  | cons next rest ih =>
    rw [insertAfter, List.orderedInsert_cons, ih, timeLessThan]
    by_cases hless : wrapLess timeout.time next.time
    · rw [if_pos hless, if_pos (decide_eq_true hless)]
    · rw [if_neg hless, if_neg (by simpa using hless)]

theorem insertTimeout_eq (timeout : SysTimeo) (l : List SysTimeo) :
    insertTimeout timeout l = l.orderedInsert (fun x y ↦ wrapLess x.time y.time) timeout := by
  cases l with
  | nil => rfl
  | cons next rest =>
    rw [insertTimeout, List.orderedInsert_cons, insertAfter_eq, timeLessThan]
    by_cases hless : wrapLess timeout.time next.time
    · rw [if_pos hless, if_pos (decide_eq_true hless)]
    · rw [if_neg hless, if_neg (by simpa using hless)]

theorem insertTimeout_map {due : ℕ} {l : List (Entry Handler)} (h : Handler)
    (hl : ∀ e ∈ l, polled < e.due ∧ e.due ≤ clock + 60000) (hpolled : polled < due)
    (hclock : due ≤ clock + 60000) (hlate : clock ≤ polled + 2 ^ 30) :
    insertTimeout ⟨UInt32.ofNat due, h⟩ (l.map wrapEntry)
      = (schedule ⟨due, h⟩ l).map wrapEntry := by
  rw [insertTimeout_eq]
  refine (map_schedule wrapEntry ⟨due, h⟩ l fun x hx ↦ ?_).symm
  obtain ⟨hx₁, hx₂⟩ := hl x hx
  have hx : due < x.due + 2 ^ 31 := by omega
  have hdue : x.due < due + 2 ^ 31 := by omega
  exact ⟨wrapLess_ofNat_iff hx hdue, wrapLess_ofNat_iff hdue hx⟩

variable {s : TimerState}

/-- A timer is due in the window in which the code can compare times. -/
theorem Matches.sysTimeoutAbs_eq {due : ℕ} {t : Timeouts} (h : Handler) (hok : a.Ok)
    (hlist : t.nextTimeout = a.agenda.map wrapEntry) (hlate : a.clock ≤ a.polled + 2 ^ 30)
    (hpolled : a.polled < due) (hclock : due ≤ a.clock + 60000) :
    t.sysTimeoutAbs (UInt32.ofNat due) h
      = some { t with nextTimeout := (schedule ⟨due, h⟩ a.agenda).map wrapEntry } := by
  have hlength : t.nextTimeout.length < 8 := by
    have hle := hok.timers.length_le
    rw [Ideal.entries, List.length_append] at hle
    rw [hlist, List.length_map]
    omega
  rw [Timeouts.sysTimeoutAbs, if_pos hlength, hlist, insertTimeout_map h (fun e he ↦ ?_) hpolled
    hclock hlate]
  exact hok.timers.window e (List.mem_append_right _ he)

theorem Matches.sysTimeout_tcp {t : Timeouts} (hok : a.Ok)
    (hlist : t.nextTimeout = a.agenda.map wrapEntry) (hlate : a.clock ≤ a.polled + 2 ^ 30) :
    t.sysTimeout (UInt32.ofNat a.clock) 250 .tcp
      = some { t with nextTimeout := (schedule ⟨a.clock + 250, .tcp⟩ a.agenda).map wrapEntry } := by
  have hpolled := hok.polled_le.trans hok.entered_le
  rw [Timeouts.sysTimeout, if_pos (by decide), ← UInt32.ofNat_add]
  exact sysTimeoutAbs_eq .tcp hok hlist hlate (by omega) (by omega)

/-- The result of a step of the code, by that of the ideal scheduler. -/
def Answers (r : Option (TimerState × TimerOutput)) (r' : Option (Ideal × TimerOutput)) : Prop :=
  match r' with
  | none => r = none
  | some (a', o) => ∃ s', r = some (s', o) ∧ Matches s' a'

theorem Matches.loop (hm : Matches s a) (hok : a.Ok) (hlate : OnTime s)
    (hstage : a.stage = .checking) :
    Answers (timerMachine.next s .loop) (idealMachine.next a .loop) := by
  obtain ⟨agenda, stage, tcp, clock, entered, polled⟩ := a
  obtain rfl : stage = .checking := hstage
  have hwindow := hok.timers.window
  obtain ⟨hticks, hlist, htcp, hphase, hdue, hclock, hentered, hpolled⟩ := hm
  have hle := hok.polled_le
  have hle' := hok.entered_le
  dsimp only at hlist hclock hentered hpolled hle hle'
  rw [OnTime, hclock, hpolled] at hlate
  have hcode : timerMachine.next s .loop = checkRound s (UInt32.ofNat entered) := by
    simp only [timerMachine, hphase]
    rfl
  rw [hcode, checkRound, hlist]
  rcases agenda with _ | ⟨e, l⟩
  · exact ⟨_, rfl, hticks, hlist, htcp, rfl, fun f hf ↦ (by cases hf), hclock, hentered, hentered⟩
  · obtain ⟨he₁, he₂⟩ := hwindow e List.mem_cons_self
    dsimp only at he₁ he₂
    have hless : timeLessThan (UInt32.ofNat entered) (wrapEntry e).time
        = decide (entered < e.due) :=
      decide_eq_decide.mpr (wrapLess_ofNat_iff (by omega) (by omega))
    simp only [List.map_cons, idealMachine, hless, decide_eq_true_eq]
    split_ifs with hlt hsleep
    · refine ⟨{ s with phase := .idle, polled := s.entered }, ?_, hticks, hlist, htcp, rfl,
        fun f hf ↦ (by cases hf), hclock, hentered, hentered⟩
      rw [wrapEntry, ofNat_sub_ofNat hlt.le]
    · -- the time that is left is at most the longest interval
      refine absurd ?_ hsleep
      have hmax : (0x7fffffff : UInt32).toNat = 0x7fffffff := rfl
      rw [wrapEntry, ofNat_sub_ofNat hlt.le, UInt32.le_iff_toNat_le, hmax,
        UInt32.toNat_ofNat_of_lt' (show e.due - entered < 2 ^ 32 by omega)]
      omega
    · refine ⟨_, rfl, hticks, rfl, htcp, ?_, fun f hf ↦ ?_, hclock, hentered, hpolled⟩
      · rfl
      · rw [List.mem_singleton.mp hf]
        rfl

/-- Only the agenda and the mark of the timer of TCP change when a handler is done. -/
theorem Ideal.reschedule_frame (a : Ideal) (e : Entry Handler) (pcbs : Bool) :
    (a.reschedule e pcbs).1.clock = a.clock ∧ (a.reschedule e pcbs).1.entered = a.entered ∧
      (a.reschedule e pcbs).1.polled = a.polled := by
  rw [reschedule]
  rcases e.task with _ | i <;> dsimp only <;> split_ifs <;> exact ⟨rfl, rfl, rfl⟩

theorem Matches.exists_reschedule (hm : Matches s a) (hok : a.Ok) (hlate : OnTime s)
    (hstage : a.stage = .calling e) (pcbs : Bool) :
    ∃ t, reschedule s.timeouts s.ticks pcbs e.task = some t ∧
      t.nextTimeout = (a.reschedule e pcbs).1.agenda.map wrapEntry ∧
      t.tcpipTcpTimerActive = (a.reschedule e pcbs).1.tcp ∧
      (if s.timeouts.overload s.ticks e.task then TimerOutput.overload else .silent)
        = (a.reschedule e pcbs).2 := by
  have hrunning : e ∈ a.stage.running := by
    rw [hstage]
    exact List.mem_cons_self
  have hdue := hok.running e hrunning
  have hpolled := (hok.timers.window e (List.mem_append_left _ hrunning)).1
  have hentered := hok.entered_le
  have hcode := hm.due e hrunning
  rw [OnTime, hm.clock, hm.polled] at hlate
  rw [hm.ticks, Ideal.reschedule]
  rcases htask : e.task with _ | i
  · rw [reschedule, Timeouts.tcpipTcpTimer]
    cases pcbs with
    | true => exact ⟨_, sysTimeout_tcp hok hm.list hlate, rfl, hm.tcp, rfl⟩
    | false => exact ⟨_, rfl, hm.list, rfl, rfl⟩
  · have hle := interval_le i
    have hless : timeLessThan (UInt32.ofNat (e.due + i.interval)) (UInt32.ofNat a.clock)
        = decide (e.due + i.interval < a.clock) :=
      decide_eq_decide.mpr (wrapLess_ofNat_iff (by omega) (by omega))
    rw [reschedule, Timeouts.lwipCyclicTimer, Timeouts.overload, hcode]
    dsimp only
    rw [← UInt32.ofNat_add, ← UInt32.ofNat_add, hless]
    simp only [decide_eq_true_eq]
    split_ifs
    · exact ⟨_, sysTimeoutAbs_eq _ hok hm.list hlate (by omega) (by omega), rfl, hm.tcp, rfl⟩
    · exact ⟨_, sysTimeoutAbs_eq _ hok hm.list hlate (by omega) (by omega), rfl, hm.tcp, rfl⟩

theorem Matches.handled (hm : Matches s a) (hok : a.Ok) (hlate : OnTime s)
    (hstage : a.stage = .calling e) (pcbs : Bool) :
    Answers (timerMachine.next s (.handled pcbs)) (idealMachine.next a (.handled pcbs)) := by
  obtain ⟨t, ht, hlist, htcp, hout⟩ := hm.exists_reschedule hok hlate hstage pcbs
  obtain ⟨hclock, hentered, hpolled⟩ := a.reschedule_frame e pcbs
  have hphase : s.phase = .calling (UInt32.ofNat a.entered) e.task := by
    rw [hm.phase, hstage]
    rfl
  simp only [timerMachine, idealMachine, hphase, hstage, ht, hout]
  refine ⟨_, rfl, ?_, hlist, htcp, ?_, fun f hf ↦ (by cases hf), ?_, ?_, ?_⟩
  · exact hm.ticks.trans (by rw [hclock])
  · rw [hentered]
    rfl
  · exact hm.clock.trans hclock.symm
  · exact hm.entered.trans hentered.symm
  · exact hm.polled.trans hpolled.symm

/-- **One step**: the code does what the ideal scheduler does, and no assertion of it fails. -/
theorem Matches.next (hm : Matches s a) (hok : a.Ok) (hlate : OnTime s) (ev : TimerEvent) :
    Answers (timerMachine.next s ev) (idealMachine.next a ev) := by
  rcases ev with _ | _ | _ | pcbs | pcbs
  · refine ⟨_, rfl, ?_, hm.list, hm.tcp, hm.phase, hm.due, ?_, hm.entered, hm.polled⟩
    · rw [hm.ticks]
      exact (UInt32.ofNat_add _ _).symm
    · rw [hm.clock]
  · have hphase := hm.phase
    rcases hstage : a.stage with _ | _ | e <;> rw [hstage] at hphase <;>
      simp only [timerMachine, idealMachine, hphase, hstage, phaseOf]
    · refine ⟨_, rfl, hm.ticks, hm.list, hm.tcp, ?_, fun f hf ↦ (by cases hf), hm.clock, hm.clock,
        hm.polled⟩
      rw [hm.ticks]
      rfl
    · rfl
    · rfl
  · have hphase := hm.phase
    rcases hstage : a.stage with _ | _ | e
    · rw [hstage] at hphase
      simp only [timerMachine, idealMachine, hphase, hstage, phaseOf]
      rfl
    · exact hm.loop hok hlate hstage
    · rw [hstage] at hphase
      simp only [timerMachine, idealMachine, hphase, hstage, phaseOf]
      rfl
  · have hphase := hm.phase
    rcases hstage : a.stage with _ | _ | e
    · rw [hstage] at hphase
      simp only [timerMachine, idealMachine, hphase, hstage, phaseOf]
      rfl
    · rw [hstage] at hphase
      simp only [timerMachine, idealMachine, hphase, hstage, phaseOf]
      rfl
    · exact hm.handled hok hlate hstage pcbs
  · rw [OnTime, hm.clock, hm.polled] at hlate
    by_cases hneeded : a.tcp = false ∧ pcbs = true
    · obtain ⟨t, ht, hlist, htcp, hdue⟩ : ∃ t, s.timeouts.tcpTimerNeeded s.ticks pcbs = some t ∧
          t.nextTimeout = (schedule ⟨a.clock + 250, .tcp⟩ a.agenda).map wrapEntry ∧
          t.tcpipTcpTimerActive = true ∧
          t.currentTimeoutDueTime = s.timeouts.currentTimeoutDueTime := by
        rw [Timeouts.tcpTimerNeeded, hm.tcp, if_pos hneeded, hm.ticks]
        exact ⟨_, sysTimeout_tcp hok hm.list hlate, rfl, rfl, rfl⟩
      simp only [timerMachine, idealMachine, ht, if_pos hneeded]
      exact ⟨_, rfl, hm.ticks, hlist, htcp, hm.phase, fun f hf ↦ hdue.trans (hm.due f hf), hm.clock,
        hm.entered, hm.polled⟩
    · have ht : s.timeouts.tcpTimerNeeded s.ticks pcbs = some s.timeouts := by
        rw [Timeouts.tcpTimerNeeded, hm.tcp, if_neg hneeded]
      simp only [timerMachine, idealMachine, ht, if_neg hneeded]
      exact ⟨_, rfl, hm⟩

end ZanOS.Lwip
