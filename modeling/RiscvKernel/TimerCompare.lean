import RiscvKernel.Alarm

namespace RiscvKernel.TimerCompare

open Thread Scheduler SchedulerInv StepFrame DriverView Lib.LinkedList Alarm

variable {nthr : Nat}

/-- The timer interrupt comes no later than the first alarm on sleep_list. -/
def InTime (s : Timer) : Prop := ∃ l, IsLinked s.next s.sleepList l ∧ ∀ a ∈ l, s.mtcmp ≤ s.twake a

/-- As long as next_tick is behind mtcmp, which it is until timer_intr_handler has run, only
alarms of a whole tick and more are put on sleep_list. -/
def waitsTick : AlarmCall → Ctx → Timer → Bool
  | .sleepInsert _, ctx, s => decide (s.nextTick < s.mtcmp → tickPeriod ≤ s.twake ctx.tp)
  | _, _, _ => true

/-- What the writes to mtcmp keep: it is TICK_PERIOD until the handler has run and at most
next_tick from then on, and no alarm on sleep_list is earlier. -/
structure Compare (v : View Timer AlarmCall) : Prop where
  phase : v.dev.mtcmp ≤ v.dev.nextTick ∨ v.dev.mtcmp = tickPeriod ∧ v.dev.nextTick = 0
  early : ∀ a, v.waited (alarmCond a) a → v.dev.mtcmp ≤ v.dev.twake a

section Writes

variable {s : Timer} {al : Ptr} {l : List Ptr}

theorem insertAlarm_nextTick (al : Ptr) (s : Timer) : (insertAlarm al s).nextTick = s.nextTick := by
  unfold insertAlarm
  split
  · rfl
  · split <;> rfl

/-- alarm_sleep sets mtcmp to the alarm it puts at the head, if that is before next_tick. -/
theorem insertAlarm_mtcmp (al : Ptr) (s : Timer) :
    (insertAlarm al s).mtcmp = s.mtcmp ∧
        (s.nextTick ≤ s.twake al ∨ ∃ head, s.sleepList = some head ∧ s.twake head < s.twake al) ∨
      (insertAlarm al s).mtcmp = s.twake al ∧ s.twake al < s.nextTick ∧
        ∀ head, s.sleepList = some head → s.twake al ≤ s.twake head := by
  unfold insertAlarm
  cases hhead : s.sleepList with
  | none =>
      by_cases hlt : s.twake al < s.nextTick
      · exact .inr ⟨if_pos hlt, hlt, fun head he => by cases he⟩
      · exact .inl ⟨if_neg hlt, .inl (Nat.le_of_not_lt hlt)⟩
  | some head =>
      simp only
      by_cases hle : s.twake al ≤ s.twake head
      · rw [if_pos hle]
        by_cases hlt : s.twake al < s.nextTick
        · refine .inr ⟨if_pos hlt, hlt, fun head' he => ?_⟩
          obtain rfl := Option.some.inj he
          exact hle
        · exact .inl ⟨if_neg hlt, .inl (Nat.le_of_not_lt hlt)⟩
      · rw [if_neg hle]
        exact .inl ⟨rfl, .inr ⟨head, rfl, Nat.lt_of_not_le hle⟩⟩

theorem head_mem {head : Ptr} (hl : IsLinked s.next s.sleepList l) (hh : s.sleepList = some head) : head ∈ l := by
  rw [hh] at hl
  cases l with
  | nil => cases hl
  | cons a l =>
      obtain rfl := Option.some.inj hl.1
      exact List.mem_cons_self

theorem le_of_head (hl : IsLinked s.next s.sleepList l) (hs : l.Pairwise (Before s.twake)) {n : Nat}
    (hn : ∀ head, s.sleepList = some head → n ≤ s.twake head) : ∀ a ∈ l, n ≤ s.twake a := by
  cases l with
  | nil => exact fun a ha => absurd ha List.not_mem_nil
  | cons b l =>
      intro a ha
      rcases List.mem_cons.mp ha with rfl | ha
      · exact hn a hl.1
      · exact Nat.le_trans (hn b hl.1) ((List.pairwise_cons.mp hs).1 a ha)

/-- timer_intr_handler sets mtcmp to next_tick or an earlier head of the list. -/
theorem timerIntrHandler_mtcmp (s : Timer) :
    (timerIntrHandler s).1.mtcmp ≤ (timerIntrHandler s).1.nextTick ∧
      ∀ head, (timerIntrHandler s).1.sleepList = some head → (timerIntrHandler s).1.mtcmp ≤ s.twake head := by
  unfold timerIntrHandler
  generalize wakeLoop s.twake s.mtime s.size s.sleepList s.next = r
  obtain ⟨head, next, woken⟩ := r
  generalize (if s.nextTick < s.mtime then (s.nextTick + tickPeriod) % 2 ^ 64 else s.nextTick) = tick
  cases head with
  | none => exact ⟨Nat.le_refl _, fun _ he => by cases he⟩
  | some al =>
      simp only
      constructor
      · split
        · rename_i hlt
          exact Nat.le_of_lt hlt
        · exact Nat.le_refl _
      · rintro head he
        obtain rfl := Option.some.inj he
        split
        · exact Nat.le_refl _
        · rename_i hlt
          exact Nat.le_of_not_lt hlt

end Writes

section Moves

variable {v v' : View Timer AlarmCall} {l : List Ptr} {i : AlarmCall} {ctx : Ctx}

/-- A step that leaves the alarms of the sleepers and the registers alone. -/
theorem Compare.keep (h : Compare v) {s : Timer} {p : Ptr} {job : Ptr → Option AlarmCall} {w : Nat → Ptr → Prop}
    (hmtcmp : s.mtcmp = v.dev.mtcmp) (htick : s.nextTick = v.dev.nextTick)
    (htwake : ∀ a, v.waited (alarmCond a) a → s.twake a = v.dev.twake a) (hw : ∀ n q, w n q → v.waited n q) :
    Compare ⟨s, p, job, w⟩ := by
  refine ⟨?_, fun a ha => ?_⟩
  · simp only [hmtcmp, htick]
    exact h.phase
  · simp only [hmtcmp, htwake a (hw _ _ ha)]
    exact h.early a (hw _ _ ha)

theorem Compare.exec (h : Compare v) (hi : AlarmInv v l) (htp : ctx.tp = v.tp) (hawake : ∀ n, ¬ v.waited n v.tp)
    (hmeets : waitsTick i ctx v.dev = true) : Compare (v.exec timer timerDiscipline i ctx) := by
  have hother : ∀ (n : Nat) (a : Ptr), v.waited (alarmCond a) a →
      Function.update v.dev.twake ctx.tp n a = v.dev.twake a := fun n a ha => by
    refine Function.update_of_ne (fun he => ?_) _ _
    rw [he, htp] at ha
    exact hawake _ ha
  have hw : (∀ n, (timer.exec i ctx v.dev).push.head? ≠ some (.conditionWait n)) →
      ∀ n p, (v.exec timer timerDiscipline i ctx).waited n p → v.waited n p := fun hp n p =>
    (or_iff_left fun hq => hp n hq.2.2).mp
  cases i with
  | alarmInit => exact h.keep rfl rfl (hother _) (hw (by simp [timer, alarmExec]))
  | alarmReset => exact h.keep rfl rfl (hother _) (hw (by simp [timer, alarmExec]))
  | alarmSleep tcnt =>
      refine h.keep rfl rfl (hother _) (hw fun n => ?_)
      simp only [timer, alarmExec]
      split <;> simp
  | sleepDisable => exact h.keep rfl rfl (fun _ _ => rfl) (hw (by simp [timer, alarmExec]))
  | sleepRestore saved => exact h.keep rfl rfl (fun _ _ => rfl) (hw (by simp [timer, alarmExec]))
  | sleepInsert saved =>
      have hmeets' : v.dev.nextTick < v.dev.mtcmp → tickPeriod ≤ v.dev.twake v.tp := by
        rw [← htp]
        exact of_decide_eq_true hmeets
      have hdev : (v.exec timer timerDiscipline (.sleepInsert saved) ctx).dev = insertAlarm v.tp v.dev := by
        rw [← htp]
        rfl
      have htwake : (insertAlarm v.tp v.dev).twake = v.dev.twake := (insertAlarm_same v.tp v.dev).1
      have hwaited : ∀ a, (v.exec timer timerDiscipline (.sleepInsert saved) ctx).waited (alarmCond a) a →
          a ∈ l ∨ a = v.tp := fun a ha => ha.imp (hi.mem a).mpr fun hq => hq.2.1
      have hold : ∀ a ∈ l, v.dev.mtcmp ≤ v.dev.twake a := fun a ha => h.early a ((hi.mem a).mp ha)
      rcases insertAlarm_mtcmp v.tp v.dev with ⟨hm, hlate⟩ | ⟨hm, hlt, hfirst⟩
      · have htp' : v.dev.mtcmp ≤ v.dev.twake v.tp := by
          rcases hlate with hlate | ⟨head, hhead, hlt⟩
          · rcases h.phase with hle | ⟨hp, hz⟩
            · exact Nat.le_trans hle hlate
            · rw [hp]
              exact hmeets' (by rw [hp, hz]; decide)
          · exact Nat.le_trans (hold head (head_mem hi.linked hhead)) (Nat.le_of_lt hlt)
        refine ⟨?_, fun a ha => ?_⟩
        · rw [hdev, hm, insertAlarm_nextTick]
          exact h.phase
        · rw [hdev, hm, htwake]
          rcases hwaited a ha with ha | rfl
          · exact hold a ha
          · exact htp'
      · refine ⟨.inl ?_, fun a ha => ?_⟩
        · rw [hdev, hm, insertAlarm_nextTick]
          exact Nat.le_of_lt hlt
        · rw [hdev, hm, htwake]
          rcases hwaited a ha with ha | rfl
          · exact le_of_head hi.linked hi.sorted hfirst a ha
          · exact Nat.le_refl _

theorem Compare.isr (hi : AlarmInv v l) :
    Compare { v with dev := (timerIntrHandler v.dev).1, waited := fun n p => v.waited n p ∧ n ∉ (timerIntrHandler v.dev).2 } := by
  obtain ⟨htick, hhead⟩ := timerIntrHandler_mtcmp v.dev
  have hi' := hi.isr
  exact ⟨.inl htick, fun a ha => le_of_head hi'.linked hi'.sorted hhead a ((hi'.mem a).mpr ha)⟩

theorem Compare.move (h : Compare v) (hi : AlarmInv v l)
    (hm : MoveIf (fun i ctx s => waitsTick i ctx s = true) timer timerDiscipline rests v v') : Compare v' := by
  cases hm with
  | exec i ctx job tp need awake meets => exact h.exec hi tp awake meets
  | switch next old new => exact ⟨h.phase, h.early⟩
  | entry i ctx job tp entry => exact ⟨h.phase, h.early⟩
  | isr e => exact Compare.isr hi
  | env t => exact ⟨h.phase, h.early⟩

end Moves

/-- The states of a run whose alarms have waited for the first tick. -/
def Ticking (nthr : Nat) (k : Kernel Timer AlarmCall) : Prop :=
  Driven nthr timerDiscipline rests k ∧ (∃ l, AlarmInv (view timerDiscipline k) l) ∧ Compare (view timerDiscipline k)

section Runs

variable {k k' : Kernel Timer AlarmCall} {l : Label AlarmCall Nat}

theorem move_of_moveIf {cond : AlarmCall → Ctx → Timer → Prop} {v v' : View Timer AlarmCall}
    (hm : MoveIf cond timer timerDiscipline rests v v') : Move timer timerDiscipline rests v v' := by
  cases hm with
  | exec i ctx job tp need awake meets => exact .exec i ctx job tp need awake trivial
  | switch next old new => exact .switch next old new
  | entry i ctx job tp entry => exact .entry i ctx job tp entry
  | isr e => exact .isr e
  | env t => exact .env t

theorem Ticking.step (h : Ticking nthr k) (hgood : meets waitsTick k l = true) (hs : Scheduler.step timer nthr k l = .ok k') :
    Ticking nthr k' := by
  obtain ⟨hd, ⟨al, hi⟩, hc⟩ := h
  have hcond : l = .run → ∀ i rest, k.code k.tp = .call (.dev i) :: rest → waitsTick i k.ctx k.dev = true := by
    rintro rfl i rest hcode
    simpa [meets, hcode] using hgood
  obtain ⟨hd', he | hm⟩ := hd.step (fun i ctx s => waitsTick i ctx s = true) timer_rules hs hcond
  · rw [Ticking, he]
    exact ⟨hd', ⟨al, hi⟩, hc⟩
  · exact ⟨hd', hi.move (move_of_moveIf hm), hc.move hi hm⟩

theorem Ticking.inTime (h : Ticking nthr k) : InTime k.dev := by
  obtain ⟨-, ⟨al, hi⟩, hc⟩ := h
  exact ⟨al, hi.linked, fun a ha => hc.early a ((hi.mem a).mp ha)⟩

/-- The step that puts an alarm of less than a tick on sleep_list. -/
theorem not_meets (h : meets waitsTick k l = false) : l = .run ∧ ∃ saved rest,
    k.code k.tp = .call (.dev (.sleepInsert saved)) :: rest ∧ k.dev.nextTick < k.dev.mtcmp ∧ k.dev.twake k.tp < tickPeriod := by
  cases l with
  | run =>
      unfold meets at h
      split at h
      · rename_i i rest hl hcode
        cases i with
        | sleepInsert saved =>
            obtain ⟨hlt, hshort⟩ := Classical.not_imp.mp (of_decide_eq_false h)
            exact ⟨rfl, saved, rest, hcode, hlt, Nat.lt_of_not_le hshort⟩
        | _ => cases h
      · cases h
  | _ => cases h

/-- An alarm of less than a tick before the first run of the handler is before mtcmp. -/
theorem Ticking.overshoots (h : Ticking nthr k) (hbad : meets waitsTick k l = false)
    (hs : Scheduler.step timer nthr k l = .ok k') : ¬ InTime k'.dev := by
  obtain ⟨hd, ⟨al, hi⟩, hc⟩ := h
  obtain ⟨rfl, saved, rest, hcode, hlt, hshort⟩ := not_meets hbad
  obtain ⟨hp, hz⟩ : k.dev.mtcmp = tickPeriod ∧ k.dev.nextTick = 0 := hc.phase.resolve_left (Nat.not_le_of_lt hlt)
  have hdev : k'.dev = insertAlarm k.tp k.dev := by
    rw [Scheduler.step, hcode] at hs
    obtain rfl := Except.ok.inj hs
    rfl
  have hjob : (view timerDiscipline k).job k.tp = some (.sleepInsert saved) := by simp [view, hcode]
  have hm : k.tp ∉ al := hi.not_mem hjob (by simp)
  rintro ⟨l, hl, hle⟩
  rw [hdev] at hl hle
  have hal : l = al.orderedInsert (Before k.dev.twake) k.tp := hl.unique (insertAlarm_linked hi.linked hi.nodup hm hi.size)
  have htp : k.tp ∈ l := by
    rw [hal]
    exact (List.mem_orderedInsert (Before k.dev.twake)).mpr (.inl rfl)
  have hbound := hle k.tp htp
  rw [(insertAlarm_same k.tp k.dev).1] at hbound
  rcases insertAlarm_mtcmp k.tp k.dev with ⟨hmt, -⟩ | ⟨-, hsoon, -⟩
  · rw [hmt, hp] at hbound
    exact Nat.not_le_of_lt hshort hbound
  · rw [hz] at hsoon
    exact Nat.not_lt_zero _ hsoon

/-- From timer_init on, mtcmp never overshoots the earliest alarm in the runs that put no alarm
of less than a tick on sleep_list before the handler has run, and in no other ones. -/
theorem run_inTime_iff (hn : 2 ≤ nthr) (twake : Ptr → Nat) (satp : Nat) (sie : Bool) (ls : List (Label AlarmCall Nat))
    (k : Kernel Timer AlarmCall) (hr : run timer nthr (threadInit nthr (timerInit twake) satp sie) ls = .ok k) :
    along timer nthr (meets waitsTick) (threadInit nthr (timerInit twake) satp sie) ls = true ↔
      ∀ pre suf k', ls = pre ++ suf → run timer nthr (threadInit nthr (timerInit twake) satp sie) pre = .ok k' →
        InTime k'.dev := by
  have h₀ : Ticking nthr (threadInit nthr (timerInit twake) satp sie) := by
    refine ⟨driven_threadInit hn timerDiscipline rests (timerInit twake) satp sie, ⟨[], ?_⟩, ?_⟩
    · rw [view_threadInit]
      exact alarmInv_timerInit twake
    · rw [view_threadInit]
      exact ⟨.inr ⟨rfl, rfl⟩, fun _ => False.elim⟩
  exact along_iff (P := Ticking nthr) (Q := fun k => InTime k.dev) (fun k l k' h hg hs => h.step hg hs) (fun k h => h.inTime)
    (fun k l k' h hb hs => h.overshoots hb hs) h₀ hr

/-- The main thread sets an alarm of a whole tick; after a run of the handler another thread
sets one of 5 ticks. -/
def tickFirst : List (Label AlarmCall Nat) :=
  (.call (.threadSpawn 0x80400000) :: List.replicate 4 .run : List (Label AlarmCall Nat)) ++
    (.call (.dev .alarmInit) :: List.replicate 1 .run : List (Label AlarmCall Nat)) ++
    (.call (.dev (.alarmSleep tickPeriod)) :: List.replicate 30 .run : List (Label AlarmCall Nat)) ++
    [.env 5, .isr 0] ++ (.call (.dev .alarmInit) :: List.replicate 1 .run : List (Label AlarmCall Nat)) ++
    (.call (.dev (.alarmSleep 5)) :: List.replicate 15 .run : List (Label AlarmCall Nat))

theorem run_inTime_tickFirst : ∃ k, run timer 16 (threadInit 16 (timerInit fun _ => 0) 0 true) tickFirst = .ok k ∧
    k.dev.mtcmp = 10 ∧ ∀ pre suf k', tickFirst = pre ++ suf →
      run timer 16 (threadInit 16 (timerInit fun _ => 0) 0 true) pre = .ok k' → InTime k'.dev := by
  have hgood : along timer 16 (meets waitsTick) (threadInit 16 (timerInit fun _ => 0) 0 true) tickFirst = true := by
    decide +kernel
  have hview : ((run timer 16 (threadInit 16 (timerInit fun _ => 0) 0 true) tickFirst).toOption.map fun k => k.dev.mtcmp) =
      some 10 := by decide +kernel
  cases hr : run timer 16 (threadInit 16 (timerInit fun _ => 0) 0 true) tickFirst with
  | error s =>
      rw [hr] at hview
      cases hview
  | ok k =>
      rw [hr] at hview
      exact ⟨k, rfl, Option.some.inj hview, (run_inTime_iff (by decide) (fun _ => 0) 0 true tickFirst k hr).mp hgood⟩

theorem InTime.head {s : Timer} {al : Ptr} (h : InTime s) (hh : s.sleepList = some al) : s.mtcmp ≤ s.twake al := by
  obtain ⟨l, hl, hle⟩ := h
  exact hle al (head_mem hl hh)

/-- An alarm of 9 ticks right after boot. -/
def sleepAtBoot : List (Label AlarmCall Nat) :=
  [.call (.dev .alarmInit), .run, .call (.dev (.alarmSleep 9)), .run, .run, .run]

theorem run_not_inTime : ¬ ∀ ls k, run timer 16 (threadInit 16 (timerInit fun _ => 0) 0 true) ls = .ok k → InTime k.dev := by
  intro h
  have hview : ((run timer 16 (threadInit 16 (timerInit fun _ => 0) 0 true) sleepAtBoot).toOption.map fun k =>
      (k.dev.sleepList, k.dev.mtcmp, k.dev.twake 0)) = some (some 0, 200000, 9) := by decide +kernel
  cases hr : run timer 16 (threadInit 16 (timerInit fun _ => 0) 0 true) sleepAtBoot with
  | error s =>
      rw [hr] at hview
      cases hview
  | ok k =>
      rw [hr] at hview
      obtain ⟨hhead, hregs⟩ := Prod.mk.inj (Option.some.inj hview)
      obtain ⟨hmtcmp, htwake⟩ := Prod.mk.inj hregs
      have hle := (h sleepAtBoot k hr).head hhead
      rw [hmtcmp, htwake] at hle
      exact absurd hle (by decide)

end Runs

end RiscvKernel.TimerCompare
