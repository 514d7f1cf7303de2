import RiscvKernel.Alarm

namespace RiscvKernel.SleepTime

open Thread Scheduler Alarm

def timerFreq : Nat := 10000000

/-- The product of two unsigned long values. -/
def mulUlong (a b : Nat) : Nat := a * b % 2 ^ 64

def alarmSleepSec (sec : Nat) : AlarmCall := .alarmSleep (mulUlong sec timerFreq)

def alarmSleepMs (ms : Nat) : AlarmCall := .alarmSleep (mulUlong ms (timerFreq / 1000))

def alarmSleepUs (us : Nat) : AlarmCall := .alarmSleep (mulUlong us (timerFreq / 1000 / 1000))

/-- sysusleep up to where the thread goes to sleep, on an alarm of its own; mtime has come
to t when it calls alarm_sleep_us. -/
def sysusleep (us t : Nat) (ctx : Ctx) (s : Timer) : Timer :=
  (alarmExec (alarmSleepUs us) ctx (timer.env t (alarmExec .alarmInit ctx s).dev)).dev

/-- The ticks of n units of time from twake on, or the largest value of twake. -/
def wakeTime (unit twake n : Nat) : Nat := min uint64Max (twake + n * unit)

/-- A sleep of n units of time wakes when it should, and no shorter one wakes later. -/
structure SleepsFor (sleep : Nat → Nat) (unit twake n : Nat) : Prop where
  exact : sleep n = wakeTime unit twake n
  mono : ∀ m, m ≤ n → sleep m ≤ sleep n

/-- The ticks fit into an unsigned long, or what is left of them goes past its end as well. -/
def Fits (unit twake n : Nat) : Prop := n * unit < 2 ^ 64 ∨ uint64Max ≤ twake + mulUlong n unit

section Units

variable {unit twake n : Nat}

theorem addTicks_eq_min (hw : twake < 2 ^ 64) (tcnt : Nat) : addTicks twake tcnt = min uint64Max (twake + tcnt) := by
  unfold addTicks uint64Max
  split
  · exact (Nat.min_eq_left (by omega)).symm
  · exact (Nat.min_eq_right (by omega)).symm

theorem mulUlong_le (n unit : Nat) : mulUlong n unit ≤ n * unit := Nat.mod_le _ _

theorem addTicks_exact_iff (hw : twake < 2 ^ 64) (n unit : Nat) :
    addTicks twake (mulUlong n unit) = wakeTime unit twake n ↔ Fits unit twake n := by
  rw [addTicks_eq_min hw, wakeTime, Fits]
  constructor
  · intro h
    by_contra hn
    rw [not_or, Nat.not_lt, Nat.not_le] at hn
    rw [Nat.min_eq_right (Nat.le_of_lt hn.2), Nat.min_eq_left (by unfold uint64Max; omega)] at h
    exact Nat.ne_of_lt hn.2 h
  · rintro (h | h)
    · rw [mulUlong, Nat.mod_eq_of_lt h]
    · rw [Nat.min_eq_left h, Nat.min_eq_left (Nat.le_trans h (Nat.add_le_add_left (mulUlong_le n unit) _))]

/-- A shorter sleep is never later than one whose ticks fit. -/
theorem addTicks_mono (hw : twake < 2 ^ 64) (hn : Fits unit twake n) {m : Nat} (hm : m ≤ n) :
    addTicks twake (mulUlong m unit) ≤ addTicks twake (mulUlong n unit) := by
  rw [(addTicks_exact_iff hw n unit).mpr hn, addTicks_eq_min hw, wakeTime]
  apply min_le_min_left
  apply Nat.add_le_add_left
  exact Nat.le_trans (mulUlong_le m unit) (Nat.mul_le_mul_right unit hm)

theorem sleepsFor_iff {sleep : Nat → Nat} (hw : twake < 2 ^ 64) (hs : ∀ m, sleep m = addTicks twake (mulUlong m unit)) :
    SleepsFor sleep unit twake n ↔ Fits unit twake n := by
  rw [← addTicks_exact_iff hw]
  constructor
  · intro h
    rw [← hs]
    exact h.exact
  · intro h
    refine ⟨(hs n).trans h, fun m hm => ?_⟩
    rw [hs, hs]
    exact addTicks_mono hw ((addTicks_exact_iff hw n unit).mp h) hm

/-- No argument of alarm_sleep_sec overflows. -/
theorem fits_sec (twake : Nat) {sec : Nat} (h : sec < 2 ^ 32) : Fits timerFreq twake sec :=
  .inl (by unfold timerFreq; omega)

end Units

section Calls

variable (ctx : Ctx) (s : Timer)

theorem alarmExec_alarmSleep_twake (tcnt : Nat) :
    (alarmExec (.alarmSleep tcnt) ctx s).dev.twake ctx.tp = addTicks (s.twake ctx.tp) tcnt :=
  Function.update_self ..

theorem sysusleep_twake (us t : Nat) :
    (sysusleep us t ctx s).twake ctx.tp = addTicks s.mtime (mulUlong us (timerFreq / 1000 / 1000)) := by
  rw [sysusleep, alarmSleepUs, alarmExec_alarmSleep_twake]
  apply congrArg (addTicks · _)
  exact Function.update_self ..

/-- Seconds always sleep as long as they should; milliseconds and microseconds do if and
only if their ticks fit. -/
theorem alarmSleep_sleepsFor_iff (hw : s.twake ctx.tp < 2 ^ 64) (hm : s.mtime < 2 ^ 64) :
    (∀ sec, sec < 2 ^ 32 →
      SleepsFor (fun n => (alarmExec (alarmSleepSec n) ctx s).dev.twake ctx.tp) 10000000 (s.twake ctx.tp) sec) ∧
    (∀ ms, ms < 2 ^ 64 →
      (SleepsFor (fun n => (alarmExec (alarmSleepMs n) ctx s).dev.twake ctx.tp) 10000 (s.twake ctx.tp) ms ↔
        Fits 10000 (s.twake ctx.tp) ms)) ∧
    (∀ us, us < 2 ^ 64 →
      (SleepsFor (fun n => (alarmExec (alarmSleepUs n) ctx s).dev.twake ctx.tp) 10 (s.twake ctx.tp) us ↔
        Fits 10 (s.twake ctx.tp) us)) ∧
    ∀ us t, us < 2 ^ 64 →
      (SleepsFor (fun n => (sysusleep n t ctx s).twake ctx.tp) 10 s.mtime us ↔ Fits 10 s.mtime us) := by
  refine ⟨fun sec hsec => ?_, fun ms _ => ?_, fun us _ => ?_, fun us t _ => ?_⟩
  · exact (sleepsFor_iff hw fun n => alarmExec_alarmSleep_twake ctx s _).mpr (fits_sec _ hsec)
  · exact sleepsFor_iff hw fun n => alarmExec_alarmSleep_twake ctx s _
  · exact sleepsFor_iff hw fun n => alarmExec_alarmSleep_twake ctx s _
  · exact sleepsFor_iff hm fun n => sysusleep_twake ctx s n t

end Calls

/-- The main thread at boot. -/
def bootCtx : Ctx where
  tp := mainThread
  tid := 0
  satp := 0
  sie := true
  proc := none

theorem alarmSleep_sleepsFor_boot : Fits 10 0 (2 ^ 60) ∧
    SleepsFor (fun n => (sysusleep n 5 bootCtx (timerInit fun _ => 0)).twake mainThread) 10 0 (2 ^ 60) := by
  have hf : Fits 10 0 (2 ^ 60) := .inl (by decide)
  refine ⟨hf, ?_⟩
  exact ((alarmSleep_sleepsFor_iff bootCtx (timerInit fun _ => 0) (by decide) (by decide)).2.2.2 (2 ^ 60) 5 (by decide)).mpr hf

/-- The ticks of the shortest sleep of more than 2 ^ 64 ticks wrap around to 4. -/
theorem sysusleep_wraps :
    ¬ ∀ us, us < 2 ^ 64 → SleepsFor (fun n => (sysusleep n 5 bootCtx (timerInit fun _ => 0)).twake mainThread) 10 0 us := by
  intro h
  have he := (h (2 ^ 64 / 10 + 1) (by decide)).mono 1000000 (by decide)
  revert he
  decide +kernel

end RiscvKernel.SleepTime
