import Mathlib.Algebra.Order.Ring.Int
import Mathlib.Algebra.Order.Ring.Nat
import Mathlib.Data.Prod.Lex
import Mathlib.Logic.Function.Iterate
import ZanOS.Foundation.Word

/-!
# Uptime

`rtc.c` counts seconds with Timer0, a 32-bit down-counter clocked at 50 MHz, and `kernel_log.c`
shows them. The timer is modelled as a device: its registers, what a write to `TIMER0_CTL` does,
and what one clock cycle does. `tav_iterate_tick` then says where the counter stands any number of
cycles after `rtc_init`, and everything else follows from that value.

The comment in `rtc_init` takes the reload value `0xFFFFFFFF` for a number of seconds. It is a
number of cycles, so the counter is back at the top after `2 ^ 32 / 50000000 ≈ 85.9` seconds, and
the uptime starts again from zero. `UptimeFaithful` has the horizon as a parameter, which makes it
exact.

`rtc_get_time` breaks a second count into a date and a time of day. Its months have 30 days and its
years 365, so the twelve months are over before the year is, and a count of 360 days would be shown
as the first day of the same year again (`dateTime_lt_iff`). The counts it gets are those of
`rtc_get_seconds`, which end at 85 s: on them the date and time are strictly increasing.
-/

namespace ZanOS

open Foundation

/-- Timer0 and its clock gate. -/
structure Timer0 where
  rcgc1 : UInt32
  cfg : UInt32
  tamr : UInt32
  ctl : UInt32
  tailr : UInt32
  tav : UInt32

namespace Timer0

/-- A write to `TIMER0_CTL`. Enabling a stopped timer loads the reload value. -/
def writeCtl (t : Timer0) (v : UInt32) : Timer0 :=
  { t with
    ctl := v
    tav := if t.ctl &&& 0x1 = 0 ∧ v &&& 0x1 = 0x1 then t.tailr else t.tav }

/-- Clocked, enabled, and in the 32-bit periodic down-counting mode. -/
def Running (t : Timer0) : Prop :=
  t.rcgc1 &&& 0x00010000 = 0x00010000 ∧ t.ctl &&& 0x1 = 0x1 ∧ t.cfg = 0x0 ∧ t.tamr = 0x2

instance (t : Timer0) : Decidable t.Running := inferInstanceAs (Decidable (_ ∧ _))

/-- One clock cycle. -/
def tick (t : Timer0) : Timer0 :=
  if t.Running then { t with tav := if t.tav = 0 then t.tailr else t.tav - 1 } else t

end Timer0

/-- `rtc_init`, register write by register write. -/
def rtcInit (t : Timer0) : Timer0 :=
  let t := { t with rcgc1 := t.rcgc1 ||| 0x00010000 }
  let t := t.writeCtl (t.ctl &&& ~~~0x1)
  let t := { t with cfg := 0x0 }
  let t := { t with tamr := 0x2 }
  let t := { t with tailr := 0xFFFFFFFF }
  t.writeCtl (t.ctl ||| 0x1)

/-- `rtc_get_seconds`. -/
def rtcGetSeconds (t : Timer0) : UInt32 :=
  let currentVal := t.tav
  let elapsedCycles := 0xFFFFFFFF - currentVal
  elapsedCycles / 50000000

/-- `struct rtc_time`. -/
structure RtcTime where
  tmSec : Int
  tmMin : Int
  tmHour : Int
  tmMday : Int
  tmMon : Int
  tmYear : Int
  tmWday : Int
  tmYday : Int
  tmIsdst : Int

/-- The assignments of `rtc_get_time`, for the second count `t`. The last three fields keep what the
caller's structure held. -/
def breakDown (tm : RtcTime) (t : UInt32) : RtcTime :=
  let tm := { tm with tmSec := (t % 60).toNat }
  let t := t / 60
  let tm := { tm with tmMin := (t % 60).toNat }
  let t := t / 60
  let tm := { tm with tmHour := (t % 24).toNat }
  let t := t / 24
  { tm with
    tmMday := (t % 30 + 1).toNat
    tmMon := (t / 30 % 12).toNat
    tmYear := (t / 365 + 126).toNat }

/-- `rtc_get_time`. -/
def rtcGetTime (tm : RtcTime) (timer : Timer0) : RtcTime :=
  let t := rtcGetSeconds timer
  breakDown tm t

/-- The statics of `kernel_log.c`. -/
structure Diag where
  uptimeSec : UInt32
  fileCount : ℕ
  deriving DecidableEq

/-- `diag_init`. -/
def diagInit : Diag := ⟨0, 0⟩

/-- `diag_file_created`. -/
def diagFileCreated (d : Diag) : Diag := { d with fileCount := d.fileCount + 1 }

/-- The uptime `diag_print` shows: the second source takes over while the first reads zero. -/
def diagUptime (d : Diag) (seconds : UInt32) : UInt32 :=
  let currentUptime := seconds
  if currentUptime = 0 then d.uptimeSec else currentUptime

/-! ## Where the counter stands -/

namespace Timer0

theorem running_rtcInit (t : Timer0) : (rtcInit t).Running :=
  ⟨or_and_self _ _, or_and_self _ _, rfl, rfl⟩

@[simp] theorem tav_rtcInit (t : Timer0) : (rtcInit t).tav = 0xFFFFFFFF :=
  if_pos ⟨and_not_and_self _ _, or_and_self _ _⟩

theorem Running.tick {t : Timer0} (h : t.Running) :
    t.tick = { t with tav := if t.tav = 0 then t.tailr else t.tav - 1 } :=
  if_pos h

theorem iterate_tick_frame (t : Timer0) (N : ℕ) :
    (Timer0.tick^[N] (rtcInit t)).Running ∧
      (Timer0.tick^[N] (rtcInit t)).tailr = 0xFFFFFFFF := by
  induction N with
  | zero => exact ⟨running_rtcInit t, rfl⟩
  | succ N ih =>
    rw [Function.iterate_succ_apply', ih.1.tick]
    exact ih

/-- **The counter after `N` cycles.** -/
theorem tav_iterate_tick (t : Timer0) (N : ℕ) :
    (Timer0.tick^[N] (rtcInit t)).tav.toNat = 2 ^ 32 - 1 - N % 2 ^ 32 := by
  induction N with
  | zero => rw [Function.iterate_zero, id, tav_rtcInit]; rfl
  | succ N ih =>
    obtain ⟨hrun, htailr⟩ := iterate_tick_frame t N
    rw [Function.iterate_succ_apply', hrun.tick]
    simp only [htailr]
    split_ifs with hzero
    · -- the counter was at zero: this cycle reloads it
      rw [hzero] at ih
      have hmod : N % 2 ^ 32 = 2 ^ 32 - 1 := by
        have : (0 : UInt32).toNat = 0 := rfl
        omega
      have hnext : (N + 1) % 2 ^ 32 = 0 := by omega
      rw [hnext]
      rfl
    · have hpos : (Timer0.tick^[N] (rtcInit t)).tav.toNat ≠ 0 := fun h ↦
        hzero (UInt32.toNat_inj.mp h)
      have hone : (1 : UInt32).toNat = 1 := rfl
      rw [UInt32.toNat_sub_of_le _ _ (UInt32.le_iff_toNat_le.mpr (by omega)), ih]
      omega

end Timer0

/-- What `rtc_get_seconds` returns `N` cycles after `rtc_init`. -/
def secondsAt (t : Timer0) (N : ℕ) : UInt32 := rtcGetSeconds (Timer0.tick^[N] (rtcInit t))

theorem toNat_secondsAt (t : Timer0) (N : ℕ) :
    (secondsAt t N).toNat = N % 2 ^ 32 / 50000000 := by
  have htav := Timer0.tav_iterate_tick t N
  have hmax : (0xFFFFFFFF : UInt32).toNat = 2 ^ 32 - 1 := rfl
  have hfreq : (50000000 : UInt32).toNat = 50000000 := rfl
  rw [secondsAt, rtcGetSeconds, UInt32.toNat_div, UInt32.toNat_sub_of_le _ _
    (UInt32.le_iff_toNat_le.mpr (by omega)), htav, hmax, hfreq]
  congr 1
  omega

theorem secondsAt_eq_of {t : Timer0} {N : ℕ} {n : UInt32}
    (h : N % 2 ^ 32 / 50000000 = n.toNat) : secondsAt t N = n :=
  UInt32.toNat_inj.mp ((toNat_secondsAt t N).trans h)

/-! ## Time of day -/

/-- Hour, minute and second, in the order in which a clock is read. -/
def timeOfDay (tm : RtcTime) : Int ×ₗ Int ×ₗ Int := toLex (tm.tmHour, toLex (tm.tmMin, tm.tmSec))

theorem timeOfDay_mono (tm : RtcTime) {t₁ t₂ : UInt32} (h : t₁ ≤ t₂)
    (hday : t₁.toNat / 86400 = t₂.toNat / 86400) :
    timeOfDay (breakDown tm t₁) ≤ timeOfDay (breakDown tm t₂) := by
  rw [UInt32.le_iff_toNat_le] at h
  have h60 : (60 : UInt32).toNat = 60 := rfl
  have h24 : (24 : UInt32).toNat = 24 := rfl
  simp only [timeOfDay, breakDown, Prod.Lex.toLex_le_toLex, UInt32.toNat_mod, UInt32.toNat_div,
    h60, h24]
  omega

/-! ## The horizon -/

/-- What is expected of a system that has been up for `T` cycles: at any two moments `N₁ ≤ N₂` of
its run the seconds have not gone backwards, neither has the uptime `diag_print` shows nor, within
a day, the time of day; and the seconds are those that have passed. -/
structure UptimeFaithful (t : Timer0) (T : ℕ) : Prop where
  seconds_mono : ∀ N₁ N₂, N₁ ≤ N₂ → N₂ ≤ T → secondsAt t N₁ ≤ secondsAt t N₂
  seconds_eq : ∀ N ≤ T, N / 50000000 < 2 ^ 32 → (secondsAt t N).toNat = N / 50000000
  diag_mono : ∀ N₁ N₂, N₁ ≤ N₂ → N₂ ≤ T →
    diagUptime diagInit (secondsAt t N₁) ≤ diagUptime diagInit (secondsAt t N₂)
  timeOfDay_mono : ∀ tm N₁ N₂, N₁ ≤ N₂ → N₂ ≤ T →
    N₁ / 50000000 / 86400 = N₂ / 50000000 / 86400 →
    timeOfDay (rtcGetTime tm (Timer0.tick^[N₁] (rtcInit t)))
      ≤ timeOfDay (rtcGetTime tm (Timer0.tick^[N₂] (rtcInit t)))

/-- `diag_tick` has no caller, so the second source still holds what `diag_init` put there and
agrees with the first whenever it is asked. -/
theorem diagUptime_eq {d : Diag} (hd : d.uptimeSec = 0) (seconds : UInt32) :
    diagUptime d seconds = seconds := by
  rw [diagUptime]
  split_ifs with h
  · rw [h, hd]
  · rfl

theorem secondsAt_mono_of_lt (t : Timer0) {N₁ N₂ : ℕ} (h : N₁ ≤ N₂) (hlt : N₂ < 2 ^ 32) :
    secondsAt t N₁ ≤ secondsAt t N₂ := by
  rw [UInt32.le_iff_toNat_le, toNat_secondsAt, toNat_secondsAt,
    Nat.mod_eq_of_lt (h.trans_lt hlt), Nat.mod_eq_of_lt hlt]
  exact Nat.div_le_div_right h

theorem secondsAt_start_over (t : Timer0) : secondsAt t (2 ^ 32) < secondsAt t (2 ^ 32 - 1) := by
  rw [UInt32.lt_iff_toNat_lt, toNat_secondsAt, toNat_secondsAt]
  decide

/-- **The uptime is right exactly until the counter first starts over.** -/
theorem uptimeFaithful_iff (t : Timer0) (T : ℕ) : UptimeFaithful t T ↔ T < 2 ^ 32 := by
  constructor
  · intro h
    by_contra hT
    have hback := h.seconds_mono (2 ^ 32 - 1) (2 ^ 32) (by omega) (not_lt.mp hT)
    exact UInt32.not_lt.mpr hback (secondsAt_start_over t)
  · intro hT
    refine ⟨?_, ?_, ?_, ?_⟩
    · intro N₁ N₂ h hN₂
      exact secondsAt_mono_of_lt t h (hN₂.trans_lt hT)
    · intro N hN _
      rw [toNat_secondsAt, Nat.mod_eq_of_lt (hN.trans_lt hT)]
    · intro N₁ N₂ h hN₂
      rw [diagUptime_eq rfl, diagUptime_eq rfl]
      exact secondsAt_mono_of_lt t h (hN₂.trans_lt hT)
    · intro tm N₁ N₂ h hN₂ hday
      refine timeOfDay_mono tm (secondsAt_mono_of_lt t h (hN₂.trans_lt hT)) ?_
      rw [← secondsAt, ← secondsAt, toNat_secondsAt, toNat_secondsAt,
        Nat.mod_eq_of_lt ((h.trans hN₂).trans_lt hT), Nat.mod_eq_of_lt (hN₂.trans_lt hT), hday]

/-- One cycle before the counter starts over the uptime is 85 s, one cycle later it is 0 s. -/
theorem not_uptimeFaithful_start_over :
    secondsAt ⟨0, 0, 0, 0, 0, 0⟩ 4294967295 = 85 ∧ secondsAt ⟨0, 0, 0, 0, 0, 0⟩ 4294967296 = 0 ∧
      ¬UptimeFaithful ⟨0, 0, 0, 0, 0, 0⟩ 4294967296 := by
  have hbefore : secondsAt ⟨0, 0, 0, 0, 0, 0⟩ 4294967295 = 85 := secondsAt_eq_of rfl
  have hafter : secondsAt ⟨0, 0, 0, 0, 0, 0⟩ 4294967296 = 0 := secondsAt_eq_of rfl
  refine ⟨hbefore, hafter, fun h ↦ ?_⟩
  have hback := h.seconds_mono 4294967295 4294967296 (by omega) le_rfl
  rw [hbefore, hafter] at hback
  exact absurd hback (by decide)

/-! ## The calendar

Days, months and years are all taken from one count of days: a month has 30 of them, the months
start over after 12, that is, after 360 days, and the years after 365. -/

/-- The fields of a date and time, from the year down to the second. -/
def dateTime (tm : RtcTime) : Int ×ₗ Int ×ₗ Int ×ₗ Int ×ₗ Int ×ₗ Int :=
  toLex (tm.tmYear, toLex (tm.tmMon, toLex (tm.tmMday, timeOfDay tm)))

theorem dateTime_breakDown (tm : RtcTime) (t : UInt32) :
    dateTime (breakDown tm t) = toLex (((t.toNat / 31536000 + 126 : ℕ) : Int),
      toLex (((t.toNat / 2592000 % 12 : ℕ) : Int),
        toLex (((t.toNat / 86400 % 30 + 1 : ℕ) : Int), toLex (((t.toNat / 3600 % 24 : ℕ) : Int),
          toLex (((t.toNat / 60 % 60 : ℕ) : Int), ((t.toNat % 60 : ℕ) : Int)))))) := by
  have ht := t.toNat_lt
  have hmday : (t / 60 / 60 / 24 % 30 + 1).toNat = t.toNat / 86400 % 30 + 1 := by
    simp only [UInt32.toNat_add, UInt32.toNat_mod, UInt32.toNat_div, UInt32.reduceToNat]
    omega
  have hyear : (t / 60 / 60 / 24 / 365 + 126).toNat = t.toNat / 31536000 + 126 := by
    simp only [UInt32.toNat_add, UInt32.toNat_div, UInt32.reduceToNat]
    omega
  simp only [dateTime, timeOfDay, breakDown, hmday, hyear, UInt32.toNat_mod, UInt32.toNat_div,
    UInt32.reduceToNat, Nat.div_div_eq_div_mul]

theorem add_mul_lt_of_lt {m r q r' q' : ℕ} (hr : r < m) (hq : q < q') :
    r + m * q < r' + m * q' := by
  calc r + m * q < m + m * q := Nat.add_lt_add_right hr _
    _ = m * (q + 1) := by rw [Nat.mul_succ, Nat.add_comm]
    _ ≤ m * q' := Nat.mul_le_mul_left m hq
    _ ≤ r' + m * q' := Nat.le_add_left _ _

/-- One field in front of the fields that make up a count modulo `m`: together they are compared as
the count is modulo `m * k`. -/
theorem lex_mod_mul_iff {m : ℕ} (hm : 0 < m) (k a b : ℕ) :
    (a / m % k < b / m % k ∨ a / m % k = b / m % k ∧ a % m < b % m)
      ↔ a % (m * k) < b % (m * k) := by
  rw [Nat.mod_mul, Nat.mod_mul (x := b)]
  rcases lt_trichotomy (a / m % k) (b / m % k) with hlt | heq | hgt
  · exact iff_of_true (.inl hlt) (add_mul_lt_of_lt (Nat.mod_lt a hm) hlt)
  · rw [heq, Nat.add_lt_add_iff_right]
    exact ⟨fun h ↦ (h.resolve_left (lt_irrefl _)).2, fun h ↦ .inr ⟨rfl, h⟩⟩
  · refine iff_of_false ?_ (add_mul_lt_of_lt (Nat.mod_lt b hm) hgt).asymm
    rintro (hlt | ⟨heq, -⟩)
    · exact hlt.asymm hgt
    · exact hgt.ne' heq

/-- Below the year, the fields count the seconds of 360 days. -/
theorem lex_below_year_iff (a b : ℕ) :
    (toLex (((a / 2592000 % 12 : ℕ) : Int),
        toLex (((a / 86400 % 30 + 1 : ℕ) : Int), toLex (((a / 3600 % 24 : ℕ) : Int),
          toLex (((a / 60 % 60 : ℕ) : Int), ((a % 60 : ℕ) : Int))))) : Int ×ₗ _)
      < toLex (((b / 2592000 % 12 : ℕ) : Int),
        toLex (((b / 86400 % 30 + 1 : ℕ) : Int), toLex (((b / 3600 % 24 : ℕ) : Int),
          toLex (((b / 60 % 60 : ℕ) : Int), ((b % 60 : ℕ) : Int)))))
      ↔ a % 31104000 < b % 31104000 := by
  simp only [Prod.Lex.toLex_lt_toLex, Nat.cast_lt, Nat.cast_inj, Nat.add_lt_add_iff_right,
    Nat.add_right_cancel_iff]
  rw [lex_mod_mul_iff (by decide) 60, lex_mod_mul_iff (by decide) 24,
    lex_mod_mul_iff (by decide) 30, lex_mod_mul_iff (by decide) 12]

/-- A later second has a later date exactly if it is in a later year, or later in the round of the
months. The months start over every 360 days, and that is inside a year. -/
theorem dateTime_lt_iff (tm₁ tm₂ : RtcTime) {t₁ t₂ : UInt32} (h : t₁ < t₂) :
    dateTime (breakDown tm₁ t₁) < dateTime (breakDown tm₂ t₂) ↔
      t₁.toNat / 31536000 < t₂.toNat / 31536000 ∨
        t₁.toNat % 31104000 < t₂.toNat % 31104000 := by
  have hyear : t₁.toNat / 31536000 ≤ t₂.toNat / 31536000 :=
    Nat.div_le_div_right (UInt32.lt_iff_toNat_lt.mp h).le
  rw [dateTime_breakDown, dateTime_breakDown, Prod.Lex.toLex_lt_toLex]
  simp only [lex_below_year_iff, Nat.cast_lt, Nat.cast_inj, Nat.add_lt_add_iff_right,
    Nat.add_right_cancel_iff]
  rcases lt_or_eq_of_le hyear with hlt | heq
  · exact iff_of_true (.inl hlt) (.inl hlt)
  · rw [heq]
    exact or_congr_right (and_iff_right rfl)

/-- Whatever the counter holds, 32 bits of cycles are at most 85 s. -/
theorem toNat_rtcGetSeconds_le (timer : Timer0) : (rtcGetSeconds timer).toNat ≤ 85 := by
  have hcycles := (0xFFFFFFFF - timer.tav).toNat_lt
  have hfreq : (50000000 : UInt32).toNat = 50000000 := rfl
  rw [rtcGetSeconds, UInt32.toNat_div, hfreq]
  omega

/-- **The clock shows a later date and time whenever `rtc_get_seconds` has gone on.** The two
readings may be of any two states of the timer. -/
theorem dateTime_lt_of_rtcGetSeconds_lt (tm₁ tm₂ : RtcTime) {timer₁ timer₂ : Timer0}
    (h : rtcGetSeconds timer₁ < rtcGetSeconds timer₂) :
    dateTime (rtcGetTime tm₁ timer₁) < dateTime (rtcGetTime tm₂ timer₂) := by
  refine (dateTime_lt_iff tm₁ tm₂ h).mpr (.inr ?_)
  -- 85 s are far from the end of the twelfth month
  have hround {timer : Timer0} : (rtcGetSeconds timer).toNat % 31104000
      = (rtcGetSeconds timer).toNat :=
    Nat.mod_eq_of_lt ((toNat_rtcGetSeconds_le timer).trans_lt (by decide))
  rw [hround, hround]
  exact UInt32.lt_iff_toNat_lt.mp h

/-- A structure nothing has been stored in. -/
def zeroTime : RtcTime := ⟨0, 0, 0, 0, 0, 0, 0, 0, 0⟩

/-- The cycle with which the first minute is over. -/
theorem dateTime_lt_first_minute :
    secondsAt ⟨0, 0, 0, 0, 0, 0⟩ 2999999999 = 59 ∧ secondsAt ⟨0, 0, 0, 0, 0, 0⟩ 3000000000 = 60 ∧
      dateTime (rtcGetTime zeroTime (Timer0.tick^[2999999999] (rtcInit ⟨0, 0, 0, 0, 0, 0⟩))) <
        dateTime (rtcGetTime zeroTime (Timer0.tick^[3000000000] (rtcInit ⟨0, 0, 0, 0, 0, 0⟩))) := by
  have hbefore : secondsAt ⟨0, 0, 0, 0, 0, 0⟩ 2999999999 = 59 := secondsAt_eq_of rfl
  have hafter : secondsAt ⟨0, 0, 0, 0, 0, 0⟩ 3000000000 = 60 := secondsAt_eq_of rfl
  refine ⟨hbefore, hafter, dateTime_lt_of_rtcGetSeconds_lt zeroTime zeroTime ?_⟩
  rw [← secondsAt, ← secondsAt, hbefore, hafter]
  decide

end ZanOS
