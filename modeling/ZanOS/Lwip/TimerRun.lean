import Mathlib.Algebra.BigOperators.Group.List.Basic
import Mathlib.Algebra.Order.BigOperators.Group.List
import ZanOS.Lwip.Schedule

/-!
# The timers in the long run

Results on whole runs of `timerMachine`, with SysTick interrupts at any point and `tcp_timer_needed`
called at any time. The one condition is that `sys_check_timeouts` is called often enough
(`OnTime`); the clock of 32 bits may wrap around any number of times.

The cyclic timers keep to their schedule: a timer is never called more often than once in its
interval, and as long as none of them is late by more than its interval, none of them drifts: after
each call of `sys_check_timeouts`, the number of calls of each is the time divided by its interval.
A call of `sys_check_timeouts` itself comes to an end, however many interrupts there are, because
each timer is called at most twice in it.
-/

namespace ZanOS.Lwip

open Foundation

variable {a a' : Ideal} {ev : TimerEvent} {o : TimerOutput} {s₀ s : TimerState}
  {tr : List (Transition TimerState TimerEvent TimerOutput)}
  {tra : List (Transition Ideal TimerEvent TimerOutput)}

/-- How often the handler was called. -/
def calls {σ : Type*} (h : Handler) (tr : List (Transition σ TimerEvent TimerOutput)) : ℕ :=
  (tr.map Transition.output).count (.call h)

/-- The state that `sys_timeouts_init` leaves behind. -/
def idealStart : Ideal where
  agenda := [⟨100, .cyclic .acd⟩, ⟨500, .cyclic .dhcpFine⟩, ⟨1000, .cyclic .ipReass⟩,
    ⟨1000, .cyclic .etharp⟩, ⟨1000, .cyclic .dns⟩, ⟨60000, .cyclic .dhcpCoarse⟩]
  stage := .idle
  tcp := false
  clock := 0
  entered := 0
  polled := 0

theorem exists_timerStart : ∃ s₀, timerStart = some s₀ ∧ Matches s₀ idealStart :=
  ⟨_, rfl, rfl, rfl, rfl, rfl, fun e he ↦ (by cases he), rfl, rfl, rfl⟩

theorem idealStart_ok : idealStart.Ok where
  ordered := by unfold Ordered; decide
  polled_le := le_rfl
  entered_le := le_rfl
  running := fun e he ↦ (by cases he)
  idle := fun _ ↦ rfl
  timers :=
    { window := by decide
      nodup := by decide
      cyclic := fun i ↦ by cases i <;> decide
      tcp := by decide }

/-! ## The code follows the ideal scheduler -/

/-- **A run of the code is a run of the ideal scheduler**, with the same handlers called at the same
steps and the same times returned. -/
theorem Matches.exists_run (h₀ : Matches s₀ a) (hok : a.Ok) (hrun : timerMachine.Run s₀ tr s)
    (hlate : ∀ t ∈ tr, OnTime t.pre) :
    ∃ tra a', idealMachine.Run a tra a' ∧ (Matches s a' ∧ a'.Ok) ∧
      tra.map Transition.visible = tr.map Transition.visible := by
  refine hrun.exists_simulation (R := fun s a ↦ Matches s a ∧ a.Ok) (C := fun s _ ↦ OnTime s)
    ⟨h₀, hok⟩ ?_ hlate
  rintro s s' a ev o ⟨hm, hok⟩ hlate hnext
  have hanswers := hm.next hok hlate ev
  rw [hnext] at hanswers
  rcases hideal : idealMachine.next a ev with _ | ⟨a', o'⟩
  · rw [hideal] at hanswers
    cases hanswers
  · rw [hideal] at hanswers
    obtain ⟨s'', heq, hm'⟩ := hanswers
    obtain ⟨rfl, rfl⟩ := Prod.mk.inj (Option.some.inj heq)
    exact ⟨a', rfl, hm', hok.next (Ideal.step_of_next hideal)⟩

theorem calls_eq_of_visible {h : Handler}
    (hvisible : tra.map Transition.visible = tr.map Transition.visible) :
    calls h tra = calls h tr := by
  have hout := congrArg (List.map Prod.snd) hvisible
  rw [List.map_map, List.map_map] at hout
  exact congrArg (List.count _) hout

/-! ## The schedule of the cyclic timers -/

/-- With `n i` calls of the timer `i` so far, its next call is due at `n i + 1` intervals from the
start, or when `rel` says. -/
structure Spaced (rel : ℕ → ℕ → Prop) (n : Cyclic → ℕ) (a : Ideal) : Prop where
  called : ∀ i, n i * i.interval ≤ a.entered
  agenda : ∀ i, ∀ e ∈ a.agenda, e.task = .cyclic i → rel ((n i + 1) * i.interval) e.due
  running : ∀ i, ∀ e ∈ a.stage.running, e.task = .cyclic i → rel (n i * i.interval) e.due

/-- The counts after a step. -/
def countCall (n : Cyclic → ℕ) (o : TimerOutput) (i : Cyclic) : ℕ :=
  n i + if o = .call (.cyclic i) then 1 else 0

theorem Spaced.next {rel : ℕ → ℕ → Prop} {n : Cyclic → ℕ} (hs : Spaced rel n a) (hok : a.Ok)
    (hadd : ∀ {x y : ℕ} (k : ℕ), rel x y → rel (x + k) (y + k)) (hle : ∀ {x y : ℕ}, rel x y → x ≤ y)
    (hover : o = .overload → ∀ {x y z : ℕ}, rel x y → y ≤ z → rel x z) (hstep : a.Step ev o a') :
    Spaced rel (countCall n o) a' := by
  have hsilent : ∀ o : TimerOutput, (∀ h, o ≠ .call h) → countCall n o = n := fun o ho ↦ by
    funext i
    rw [countCall, if_neg (ho _), Nat.add_zero]
  cases hstep with
  | tick =>
    rw [hsilent _ (by simp)]
    exact ⟨hs.called, hs.agenda, hs.running⟩
  | check hstage =>
    rw [hsilent _ (by simp)]
    exact ⟨fun i ↦ (hs.called i).trans hok.entered_le, hs.agenda, fun i e he ↦ (by cases he)⟩
  | returned hstage hhead =>
    rw [hsilent _ (by simp)]
    exact ⟨hs.called, hs.agenda, fun i e he ↦ (by cases he)⟩
  | @call e l hstage hagenda hdue =>
    have hhead : e ∈ a.agenda := by
      rw [hagenda]
      exact List.mem_cons_self
    have hcall : ∀ i, e.task = .cyclic i → countCall n (.call e.task) i = n i + 1 := fun i htask ↦
      by rw [countCall, if_pos (by rw [htask])]
    have hother : ∀ i, e.task ≠ .cyclic i → countCall n (.call e.task) i = n i := fun i htask ↦
      by rw [countCall, if_neg (by simpa using htask), Nat.add_zero]
    refine ⟨fun i ↦ ?_, fun i f hf hftask ↦ ?_, fun i f hf hftask ↦ ?_⟩
    · by_cases htask : e.task = .cyclic i
      · rw [hcall i htask]
        exact (hle (hs.agenda i e hhead htask)).trans hdue
      · rw [hother i htask]
        exact hs.called i
    · -- there is no other entry for the timer that is called
      have hne : e.task ≠ .cyclic i := by
        intro htask
        have hnodup := hok.timers.nodup
        rw [Ideal.entries, hstage, hagenda] at hnodup
        exact (List.nodup_cons.mp hnodup).1
          (List.mem_map.mpr ⟨f, hf, hftask.trans htask.symm⟩)
      rw [hother i hne]
      exact hs.agenda i f (by rw [hagenda]; exact List.mem_cons_of_mem _ hf) hftask
    · obtain rfl := List.mem_singleton.mp hf
      rw [hcall i hftask]
      exact hs.agenda i f hhead hftask
  | stop hstage htask =>
    rw [hsilent _ (by simp)]
    exact ⟨hs.called, hs.agenda, fun i e he ↦ (by cases he)⟩
  | restart hstage htask =>
    rw [hsilent _ (by simp)]
    refine ⟨hs.called, fun i e he htask ↦ ?_, fun i e he ↦ (by cases he)⟩
    rcases mem_schedule.mp he with rfl | he
    · cases htask
    · exact hs.agenda i e he htask
  | @overload e j _ hstage htask hlt =>
    rw [hsilent _ (by simp)]
    refine ⟨hs.called, fun i f hf hftask ↦ ?_, fun i e he ↦ (by cases he)⟩
    rcases mem_schedule.mp hf with rfl | hf
    · obtain rfl : j = i := by simpa using hftask
      have hrel := hadd j.interval (hs.running j e (by rw [hstage]; exact List.mem_cons_self) htask)
      rw [Nat.add_one_mul]
      exact hover rfl hrel (by dsimp only; omega)
    · exact hs.agenda i f hf hftask
  | @again e j _ hstage htask hle =>
    rw [hsilent _ (by simp)]
    refine ⟨hs.called, fun i f hf hftask ↦ ?_, fun i e he ↦ (by cases he)⟩
    rcases mem_schedule.mp hf with rfl | hf
    · obtain rfl : j = i := by simpa using hftask
      rw [Nat.add_one_mul]
      exact hadd j.interval (hs.running j e (by rw [hstage]; exact List.mem_cons_self) htask)
    · exact hs.agenda i f hf hftask
  | start htcp =>
    rw [hsilent _ (by simp)]
    refine ⟨hs.called, fun i e he htask ↦ ?_, hs.running⟩
    rcases mem_schedule.mp he with rfl | he
    · cases htask
    · exact hs.agenda i e he htask
  | same =>
    rw [hsilent _ (by simp)]
    exact hs

theorem countCall_calls (tra : List (Transition Ideal TimerEvent TimerOutput))
    (t : Transition Ideal TimerEvent TimerOutput) :
    countCall (fun i ↦ calls (.cyclic i) tra) t.output
      = fun i ↦ calls (.cyclic i) (tra ++ [t]) := by
  funext i
  rw [countCall, calls, calls, List.map_append, List.count_append, List.map_singleton,
    List.count_singleton]
  simp only [beq_iff_eq]

theorem spaced_of_run {rel : ℕ → ℕ → Prop} (hrefl : ∀ x, rel x x)
    (hadd : ∀ {x y : ℕ} (k : ℕ), rel x y → rel (x + k) (y + k)) (hle : ∀ {x y : ℕ}, rel x y → x ≤ y)
    (hrun : idealMachine.Run idealStart tra a)
    (hover : ∀ t ∈ tra, t.output = .overload → ∀ {x y z : ℕ}, rel x y → y ≤ z → rel x z) :
    Spaced rel (fun i ↦ calls (.cyclic i) tra) a := by
  induction hrun with
  | nil =>
    refine ⟨fun i ↦ (Nat.zero_mul _).le, fun i e he htask ↦ ?_, fun i e he ↦ (by cases he)⟩
    have hdue : e.due = i.interval := by
      simp only [idealStart, List.mem_cons, List.not_mem_nil, or_false] at he
      rcases he with rfl | rfl | rfl | rfl | rfl | rfl <;> cases htask <;> rfl
    rw [hdue, calls, List.map_nil, List.count_nil, Nat.zero_add, Nat.one_mul]
    exact hrefl _
  | @snoc tra b b' ev o hrun hnext ih =>
    have hok : b.Ok := hrun.invariant' idealStart_ok fun hok hnext ↦
      hok.next (Ideal.step_of_next hnext)
    have hspaced := (ih fun t ht ↦ hover t (List.mem_append_left _ ht)).next hok hadd hle
      (hover _ List.mem_concat_self) (Ideal.step_of_next hnext)
    exact countCall_calls tra ⟨b, ev, o, b'⟩ ▸ hspaced

/-! ## A call of `sys_check_timeouts` ends -/

/-- How often a timer can still be called in this call of `sys_check_timeouts`: when it is called
again it is due now at the earliest, and then in the future. -/
def weight (entered due : ℕ) : ℕ := if entered < due then 0 else if entered = due then 1 else 2

/-- The calls that are left. -/
def Ideal.left (a : Ideal) : ℕ :=
  (a.agenda.map fun e ↦ weight a.entered e.due).sum +
    (a.stage.running.map fun e ↦ weight a.entered e.due - 1).sum

/-- The phases in which an event is possible. -/
def Enabled (s : TimerState) : TimerEvent → Prop
  | .tick | .needed _ => True
  | .check => s.phase = .idle
  | .loop => ∃ now, s.phase = .checking now
  | .handled _ => ∃ now h, s.phase = .calling now h

theorem Matches.isSome_of_enabled (hm : Matches s a) (hev : Enabled s ev) :
    (idealMachine.next a ev).isSome = true := by
  have hphase := hm.phase
  rcases ev with _ | _ | _ | pcbs | pcbs
  · rfl
  · rcases hstage : a.stage with _ | _ | e
    · simp only [idealMachine, hstage]
      rfl
    all_goals
      rw [hstage] at hphase
      cases hev.symm.trans hphase
  · obtain ⟨now, hev⟩ := hev
    rcases hstage : a.stage with _ | _ | e
    · rw [hstage] at hphase
      cases hev.symm.trans hphase
    · simp only [idealMachine, hstage]
      rcases a.agenda with _ | ⟨e, l⟩ <;> dsimp only
      · rfl
      · split_ifs <;> rfl
    · rw [hstage] at hphase
      cases hev.symm.trans hphase
  · obtain ⟨now, h, hev⟩ := hev
    rcases hstage : a.stage with _ | _ | e
    · rw [hstage] at hphase
      cases hev.symm.trans hphase
    · rw [hstage] at hphase
      cases hev.symm.trans hphase
    · simp only [idealMachine, hstage]
      rfl
  · simp only [idealMachine]
    split_ifs <;> rfl

/-- A tenth of a second goes by, and the timers are checked. -/
def firstCheck : List TimerEvent :=
  List.replicate 10 .tick ++ [.check, .loop, .handled false, .loop]

/-- The handler itself takes more than a tenth of a second, and its next call is put off. -/
def slowHandler : List TimerEvent :=
  List.replicate 10 .tick ++ [.check, .loop] ++ List.replicate 11 .tick ++ [.handled false, .loop]
    ++ firstCheck

/-- Half a second with a check every tenth of it; the timer of DHCP is called in the last one. -/
def halfSecond : List TimerEvent :=
  (List.replicate 4 firstCheck).flatten ++ List.replicate 10 .tick
    ++ [.check, .loop, .handled false, .loop, .handled false, .loop]

/-! ## Results -/

theorem exists_ideal (h₀ : timerStart = some s₀) (hrun : timerMachine.Run s₀ tr s)
    (hlate : ∀ t ∈ tr, OnTime t.pre) :
    ∃ tra a, idealMachine.Run idealStart tra a ∧ (Matches s a ∧ a.Ok) ∧
      tra.map Transition.visible = tr.map Transition.visible := by
  obtain ⟨s₁, h₁, hm⟩ := exists_timerStart
  obtain rfl := Option.some.inj (h₀.symm.trans h₁)
  exact hm.exists_run idealStart_ok hrun hlate

/-- **The code is the ideal scheduler**, clock of 32 bits or not: in a run it calls the same
handlers at the same steps and returns the same times, and so it does in the next step. -/
theorem follows_ideal (h₀ : timerStart = some s₀) (hrun : timerMachine.Run s₀ tr s)
    (hlate : ∀ t ∈ tr, OnTime t.pre) (hnow : OnTime s) :
    ∃ tra a, idealMachine.Run idealStart tra a ∧ Matches s a ∧
      tra.map Transition.visible = tr.map Transition.visible ∧
      ∀ ev, Answers (timerMachine.next s ev) (idealMachine.next a ev) := by
  obtain ⟨tra, a, hideal, ⟨hm, hok⟩, hvisible⟩ := exists_ideal h₀ hrun hlate
  exact ⟨tra, a, hideal, hm, hvisible, hm.next hok hnow⟩

/-- The code and the ideal scheduler in the first check. -/
theorem follows_ideal_firstCheck :
    ∃ (s : TimerState) (tr : List (Transition TimerState TimerEvent TimerOutput)),
      (tr.map Transition.output).drop 11
        = [.call (.cyclic .acd), .silent, .returned 100] ∧
      ∃ tra a, idealMachine.Run idealStart tra a ∧ Matches s a ∧
        tra.map Transition.visible = tr.map Transition.visible ∧
        ∀ ev, Answers (timerMachine.next s ev) (idealMachine.next a ev) := by
  obtain ⟨s₀, tr, s, h₀, hrun, hlate, hnow, hout⟩ :
      ∃ s₀ tr s, timerStart = some s₀ ∧ timerMachine.Run s₀ tr s ∧ (∀ t ∈ tr, OnTime t.pre) ∧
        OnTime s ∧ (tr.map Transition.output).drop 11
          = [.call (.cyclic .acd), .silent, .returned 100] :=
    Machine.exists_run_of_start firstCheck (by decide)
  exact ⟨s, tr, hout, follows_ideal h₀ hrun hlate hnow⟩

/-- **No assertion fails.** One of the eight timeouts of the pool is always left, and what can
happen in a phase does. -/
theorem next_isSome_of_enabled (h₀ : timerStart = some s₀) (hrun : timerMachine.Run s₀ tr s)
    (hlate : ∀ t ∈ tr, OnTime t.pre) (hnow : OnTime s) :
    s.timeouts.nextTimeout.length ≤ 7 ∧
      ∀ ev, Enabled s ev → (timerMachine.next s ev).isSome = true := by
  obtain ⟨tra, a, -, ⟨hm, hok⟩, -⟩ := exists_ideal h₀ hrun hlate
  constructor
  · have hlength := hok.timers.length_le
    rw [Ideal.entries, List.length_append] at hlength
    rw [hm.list, List.length_map]
    omega
  · intro ev hev
    have hanswers := hm.next hok hnow ev
    obtain ⟨⟨a', o⟩, hideal⟩ := Option.isSome_iff_exists.mp (hm.isSome_of_enabled hev)
    rw [hideal] at hanswers
    obtain ⟨s', hnext, -⟩ := hanswers
    rw [hnext]
    rfl

/-- With the timer of TCP, seven timeouts are in use after the first check. -/
theorem next_isSome_with_tcp :
    ∃ s : TimerState, s.timeouts.nextTimeout.length = 7 ∧
      s.timeouts.nextTimeout.length ≤ 7 ∧
      ∀ ev, Enabled s ev → (timerMachine.next s ev).isSome = true := by
  obtain ⟨s₀, tr, s, h₀, hrun, hlate, hnow, hlength⟩ :
      ∃ s₀ tr s, timerStart = some s₀ ∧ timerMachine.Run s₀ tr s ∧ (∀ t ∈ tr, OnTime t.pre) ∧
        OnTime s ∧ s.timeouts.nextTimeout.length = 7 :=
    Machine.exists_run_of_start (.needed true :: firstCheck) (by decide)
  exact ⟨s, hlength, next_isSome_of_enabled h₀ hrun hlate hnow⟩

/-- **A cyclic timer is never called more often** than once in its interval. -/
theorem calls_le_div (h₀ : timerStart = some s₀) (hrun : timerMachine.Run s₀ tr s)
    (hlate : ∀ t ∈ tr, OnTime t.pre) (i : Cyclic) :
    calls (.cyclic i) tr ≤ s.entered / i.interval := by
  obtain ⟨tra, a, hideal, ⟨hm, -⟩, hvisible⟩ := exists_ideal h₀ hrun hlate
  have hspaced := spaced_of_run le_refl (fun k h ↦ Nat.add_le_add_right h k) id
    hideal fun _ _ _ {x y z} hxy hyz ↦ hxy.trans hyz
  rw [Nat.le_div_iff_mul_le (interval_pos i), hm.entered, ← calls_eq_of_visible hvisible]
  exact hspaced.called i

/-- Two calls of the timer of ACD in 310 ms, because the first handler was slow. -/
theorem calls_le_div_slowHandler :
    ∃ (s : TimerState) (tr : List (Transition TimerState TimerEvent TimerOutput)),
      TimerOutput.overload ∈ tr.map Transition.output ∧ calls (.cyclic .acd) tr = 2 ∧
        s.entered = 310 ∧ calls (.cyclic .acd) tr ≤ s.entered / Cyclic.acd.interval := by
  obtain ⟨s₀, tr, s, h₀, hrun, hlate, hover, hcalls, hentered⟩ :
      ∃ s₀ tr s, timerStart = some s₀ ∧ timerMachine.Run s₀ tr s ∧ (∀ t ∈ tr, OnTime t.pre) ∧
        TimerOutput.overload ∈ tr.map Transition.output ∧ calls (.cyclic .acd) tr = 2 ∧
        s.entered = 310 := Machine.exists_run_of_start slowHandler (by decide +kernel)
  exact ⟨s, tr, hover, hcalls, hentered, calls_le_div h₀ hrun hlate .acd⟩

/-- **No drift.** If no timer is ever late by more than its interval, then after each call of
`sys_check_timeouts` every cyclic timer has been called as often as its interval fits into the
time at which that call was made. -/
theorem calls_eq_div (h₀ : timerStart = some s₀) (hrun : timerMachine.Run s₀ tr s)
    (hlate : ∀ t ∈ tr, OnTime t.pre)
    (hover : ∀ t ∈ tr, t.output ≠ .overload) (hidle : s.phase = .idle) (i : Cyclic) :
    calls (.cyclic i) tr = s.polled / i.interval := by
  obtain ⟨tra, a, hideal, ⟨hm, hok⟩, hvisible⟩ := exists_ideal h₀ hrun hlate
  have hout : ∀ t ∈ tra, t.output ≠ .overload := by
    intro t ht heq
    have hmem : t.visible ∈ tr.map Transition.visible := hvisible ▸ List.mem_map_of_mem ht
    obtain ⟨t', ht', hvis⟩ := List.mem_map.mp hmem
    exact hover t' ht' ((congrArg Prod.snd hvis).trans heq)
  have hspaced := spaced_of_run Eq.refl (fun k h ↦ by rw [h]) Eq.le hideal
    fun t ht heq ↦ absurd heq (hout t ht)
  have hstage : a.stage = .idle := by
    have hphase := hm.phase.symm.trans hidle
    rcases hstage : a.stage with _ | _ | e
    · rfl
    · rw [hstage] at hphase
      cases hphase
    · rw [hstage] at hphase
      cases hphase
  obtain ⟨e, he, htask⟩ := List.mem_map.mp (hok.timers.cyclic i)
  rw [Ideal.entries, hstage] at he
  have hpolled := (hok.timers.window e (List.mem_append_right _ he)).1
  have hdue := hspaced.agenda i e he htask
  have hcalled := hspaced.called i
  rw [hok.idle hstage] at hcalled
  rw [calls_eq_of_visible hvisible] at hdue hcalled
  rw [hm.polled]
  exact (Nat.div_eq_of_lt_le hcalled (hdue ▸ hpolled)).symm

theorem calls_eq_div_halfSecond :
    ∃ (s : TimerState) (tr : List (Transition TimerState TimerEvent TimerOutput)),
      s.polled = 500 ∧ calls (.cyclic .acd) tr = s.polled / Cyclic.acd.interval ∧
        calls (.cyclic .dhcpFine) tr = s.polled / Cyclic.dhcpFine.interval := by
  obtain ⟨s₀, tr, s, h₀, hrun, hlate, hover, hidle, hpolled⟩ :
      ∃ s₀ tr s, timerStart = some s₀ ∧ timerMachine.Run s₀ tr s ∧ (∀ t ∈ tr, OnTime t.pre) ∧
        (∀ t ∈ tr, t.output ≠ .overload) ∧ s.phase = .idle ∧ s.polled = 500 :=
    Machine.exists_run_of_start halfSecond (by decide +kernel)
  have hcalls := calls_eq_div h₀ hrun hlate hover hidle
  exact ⟨s, tr, hpolled, hcalls .acd, hcalls .dhcpFine⟩

end ZanOS.Lwip
